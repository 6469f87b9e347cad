import IpfsMobile.Go.Path
import IpfsMobile.Go.Reader

/-!
# The shell's requests and responses

`RequestBuilder` collects a command with its arguments, options, headers and
body; the entry points send it and deliver the response in three styles: as
bytes, through a callback, or as an open `Response`. What `rb.Send` answers is a
parameter with the three outcomes it can have. Log lines are left out.
-/

namespace IpfsMobile.Core

open Go

/-- A reader supplied by the host language, known by its reference number
(`KReader`). -/
structure KReader where
  refnum : ℕ
  deriving DecidableEq, Repr

/-- What `files.NewReaderFile` is given to read from. -/
inductive Source where
  | bytes (data : List Byte)
  | string (data : Str)
  | reader (r : KReader)
  deriving DecidableEq, Repr

/-- A file node of a multipart body (`files.Node`). -/
inductive FileNode where
  | readerFile (source : Source)
  | serialFile (path : Str) (includeHidden : Bool)
  deriving DecidableEq, Repr

/-- A request body. A multipart body holds named entries and the `form` flag of
`files.NewMultiFileReader`. -/
inductive Body where
  | string (body : Str)
  | bytes (body : List Byte)
  | reader (r : KReader)
  | multiFile (entries : List (Str × FileNode)) (form : Bool)
  deriving DecidableEq, Repr

/-- The value of a request option. -/
inductive OptionValue where
  | bool (value : Bool)
  | bytes (value : List Byte)
  | string (value : Str)
  deriving DecidableEq, Repr

/-- A request as built so far; options and headers in the order they were set. -/
structure RequestBuilder where
  command : Str
  arguments : List Str := []
  options : List (Str × OptionValue) := []
  headers : List (Str × Str) := []
  body : Option Body := none
  deriving DecidableEq, Repr

/-- `Shell`: the address the requests go to. -/
structure Shell where
  url : Str
  deriving DecidableEq, Repr

/-- `NewShell`. -/
def newShell (url : Str) : Shell := ⟨url⟩

/-- `NewUDSShell`: a shell over the Unix domain socket at a path. -/
def newUDSShell (sockpath : Str) : Shell := newShell (str "/unix/" ++ sockpath)

/-- `Shell.NewRequest`: leading slashes of the command are dropped. -/
def Shell.newRequest (_s : Shell) (command : Str) : RequestBuilder where
  command := command.dropWhile (· = Path.slash)

namespace RequestBuilder

/-- `Argument`. -/
def argument (req : RequestBuilder) (arg : Str) : RequestBuilder :=
  { req with arguments := req.arguments ++ [arg] }

/-- The multipart body that `post`, `Post2` and `post3` build around one named node. -/
def withFile (req : RequestBuilder) (name : Str) (file : FileNode) : RequestBuilder :=
  { req with body := some (.multiFile [(name, file)] true) }

/-- The body of `Post4`: the reader itself. -/
def withReader (req : RequestBuilder) (body : KReader) : RequestBuilder :=
  { req with body := some (.reader body) }

end RequestBuilder

/-- `ipfsapi.Response`: the body of the reply, absent after a failure status, and
the error the server reported. -/
structure ApiResponse (σ : Type) where
  output : Option σ
  error : Option Err
  deriving DecidableEq, Repr

/-- The outcomes of `rb.Send`: a transport error, a failure status with the
server's error, or a body. -/
inductive SendOutcome where
  | transport (e : Err)
  | failure (e : Err)
  | success (body : Stream)
  deriving DecidableEq, Repr

/-- The Go results of `rb.Send`. After a failure status there is a response, its
`Error` is set and its `Output` is nil, and the Go error is nil. -/
def SendOutcome.result : SendOutcome → Except Err (ApiResponse Stream)
  | transport e => .error e
  | failure e => .ok ⟨none, some e⟩
  | success body => .ok ⟨some body, none⟩

/-- What an entry point does that its caller or the server can observe. -/
inductive Event where
  /-- The body of the reply was closed. -/
  | closed
  /-- `callback.OnResponse(data)`. -/
  | onResponse (data : List Byte)
  /-- `callback.OnError(err)`. -/
  | onError (err : Str)
  /-- `listener.OnMessage(s)`. -/
  | onMessage (s : Str)
  deriving DecidableEq, Repr

namespace ApiResponse

/-- `ioutil.ReadAll(res.Output)`: reading from an absent output panics. -/
def readAll (res : ApiResponse Stream) : Call Event (List Byte × Option Err) :=
  match res.output with
  | none => Call.panicWith .nilDereference
  | some body => pure body.readAll

/-- `res.Close()`: the body is closed if there is one. The error of closing is
only logged by the callers. -/
def close {σ : Type} (res : ApiResponse σ) : Call Event Unit :=
  match res.output with
  | none => pure ()
  | some _ => Call.emit .closed

end ApiResponse

/-- `Response`, the open reply handed to the host language. -/
structure Response (σ : Type) where
  res : ApiResponse σ
  deriving DecidableEq, Repr

/-- The change `Response.Read` makes to a result: end-of-file becomes the count -1
without an error. -/
def markEnd (r : ReadResult) : ReadResult :=
  if r.err = some .eof then { r with n := -1, err := none } else r

/-- `Response.Read`. -/
def Response.read {σ : Type} [Reader σ] (res : Response σ) (cap : ℕ) :
    Call Event (ReadResult × Response σ) :=
  match res.res.output with
  | none => Call.panicWith .nilDereference
  | some out =>
    let r := Reader.read out cap
    pure (markEnd r.1, ⟨{ res.res with output := some r.2 }⟩)

/-- `Response.Close`. -/
def Response.close {σ : Type} (res : Response σ) : Call Event Unit := res.res.close

namespace RequestBuilder

variable (rbSend : RequestBuilder → SendOutcome) (req : RequestBuilder)

/-- `Send`: the body as bytes, closed on every way out. -/
def send : Call Event (List Byte × Option Err) :=
  match (rbSend req).result with
  | .error e => pure ([], some e)
  | .ok res =>
    Call.deferring res.close
      (match res.error with
      | some e => pure ([], some e)
      | none => res.readAll)

/-- `Send2`: the open reply itself. -/
def send2 : Call Event (Except Err (ApiResponse Stream)) :=
  match (rbSend req).result with
  | .error e => pure (.error e)
  | .ok res =>
    match res.error with
    | some e => pure (.error e)
    | none => pure (.ok res)

/-- `post`: the answer goes to a callback. The error of `ReadAll` is dropped. -/
def post (name : Str) (file : FileNode) : Call Event Unit :=
  match (rbSend (req.withFile name file)).result with
  | .error e => Call.emit (.onError e.error)
  | .ok res => do
    let (respData, _) ← res.readAll
    Call.emit (.onResponse respData)

/-- `Post2`: the body as bytes, without a look at the server's error. -/
def post2 (name : Str) (file : FileNode) : Call Event (List Byte × Option Err) :=
  match (rbSend (req.withFile name file)).result with
  | .error e => pure ([], some e)
  | .ok res => do
    let (respData, err) ← res.readAll
    match err with
    | some e => pure ([], some e)
    | none => pure (respData, none)

/-- What `post3` and `Post4` return for a sent request: an open `Response`,
without a look at the server's error. -/
def respond (o : SendOutcome) : Call Event (Except Err (Response Stream)) :=
  match o.result with
  | .error e => pure (.error e)
  | .ok res => pure (.ok ⟨res⟩)

/-- `post3`. -/
def post3 (name : Str) (file : FileNode) : Call Event (Except Err (Response Stream)) :=
  respond (rbSend (req.withFile name file))

/-- `Post4`. -/
def post4 (body : KReader) : Call Event (Except Err (Response Stream)) :=
  respond (rbSend (req.withReader body))

/-- `PostData2`. -/
def postData2 (data : List Byte) : Call Event (List Byte × Option Err) :=
  post2 rbSend req [] (.readerFile (.bytes data))

/-- `PostString2`. -/
def postString2 (data : Str) : Call Event (List Byte × Option Err) :=
  post2 rbSend req [] (.readerFile (.string data))

/-- `PostData3`. -/
def postData3 (data : List Byte) : Call Event (Except Err (Response Stream)) :=
  post3 rbSend req [] (.readerFile (.bytes data))

/-- `PostString3`. -/
def postString3 (data : Str) : Call Event (Except Err (Response Stream)) :=
  post3 rbSend req [] (.readerFile (.string data))

/-- `PostData`. -/
def postData (data : List Byte) : Call Event Unit :=
  post rbSend req [] (.readerFile (.bytes data))

/-- `PostString`. -/
def postString (data : Str) : Call Event Unit :=
  post rbSend req [] (.readerFile (.string data))

/-- `PostReader`. -/
def postReader (name : Str) (data : KReader) : Call Event Unit :=
  post rbSend req name (.readerFile (.reader data))

/-- `PostDirectory`, with the answers of `os.Lstat` and `files.NewSerialFile`. The
entry is named after the last component of the directory. -/
def postDirectory {FileInfo : Type} (lstat : Str → Except Err FileInfo)
    (newSerialFile : Str → Bool → FileInfo → Except Err FileNode) (dir : Str) :
    Call Event Unit :=
  match lstat dir with
  | .error e => Call.emit (.onError e.error)
  | .ok stat =>
    match newSerialFile dir false stat with
    | .error e => Call.emit (.onError e.error)
    | .ok sf => post rbSend req (Path.base dir) sf

end RequestBuilder

/-- Reading the output of a reply with a body returns all of it. -/
theorem ApiResponse.readAll_some (body : Stream) (e : Option Err) :
    ApiResponse.readAll ⟨some body, e⟩ =
      pure (body.bytes, Stream.readAllErr body.ending) := by
  simp only [ApiResponse.readAll, Stream.readAll_eq]

/-- Reading the output of a failed reply panics. -/
theorem ApiResponse.readAll_none (e : Option Err) :
    ApiResponse.readAll ⟨none, e⟩ = Call.panicWith .nilDereference := rfl

/-- Reading an open response reads its output and marks the end. -/
theorem Response.read_some {σ : Type} [Reader σ] (out : σ) (e : Option Err) (cap : ℕ) :
    Response.read ⟨⟨some out, e⟩⟩ cap =
      pure (markEnd (Reader.read out cap).1, ⟨⟨some (Reader.read out cap).2, e⟩⟩) := rfl

end IpfsMobile.Core
