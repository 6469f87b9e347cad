import IpfsMobile.Core.Shell

/-!
# The callback protocol

`PostData`, `PostString`, `PostReader` and `PostDirectory` answer through a
`Callback`. The protocol asks for exactly one invocation: `OnResponse` with the
whole body when there is one, and `OnError` otherwise. All four end in `post`,
so the protocol is settled for `post` and carried over.
-/

namespace IpfsMobile.Core

open Go

/-- The entry points that answer through a callback. -/
inductive CallbackCall where
  | postData (data : List Byte)
  | postString (data : Str)
  | postReader (name : Str) (data : KReader)
  | postDirectory (dir : Str)

section Calls

variable {FileInfo : Type} (lstat : Str → Except Err FileInfo)
  (newSerialFile : Str → Bool → FileInfo → Except Err FileNode)
  (rbSend : RequestBuilder → SendOutcome) (req : RequestBuilder)

/-- Make a call that answers through a callback. -/
def CallbackCall.run : CallbackCall → Call Event Unit
  | postData data => req.postData rbSend data
  | postString data => req.postString rbSend data
  | postReader name data => req.postReader rbSend name data
  | postDirectory dir => req.postDirectory rbSend lstat newSerialFile dir

/-- The named file a call posts, or the error of opening the directory. -/
def CallbackCall.entry : CallbackCall → Except Err (Str × FileNode)
  | postData data => .ok ([], .readerFile (.bytes data))
  | postString data => .ok ([], .readerFile (.string data))
  | postReader name data => .ok (name, .readerFile (.reader data))
  | postDirectory dir =>
    match lstat dir with
    | .error e => .error e
    | .ok stat =>
      match newSerialFile dir false stat with
      | .error e => .error e
      | .ok sf => .ok (Path.base dir, sf)

/-- What becomes of a call: an error before the request is sent, or the outcome of
`rb.Send` on the built request. -/
def CallbackCall.outcome (c : CallbackCall) : SendOutcome :=
  match c.entry lstat newSerialFile with
  | .error e => .transport e
  | .ok (name, file) => rbSend (req.withFile name file)

/-- Whether an event is an invocation of the callback. -/
def Event.isCallback : Event → Bool
  | .onResponse _ => true
  | .onError _ => true
  | _ => false

/-- The server reported no error and the whole body `d` arrives without a read error. -/
def SendOutcome.Complete (o : SendOutcome) (d : List Byte) : Prop :=
  ∃ body, o = .success body ∧ body.ending = .eof ∧ d = body.bytes

/-- The callback protocol for the events of a call with the outcome `o`. -/
structure AnswersOnce (o : SendOutcome) (events : List Event) : Prop where
  /-- The callback is invoked exactly once. -/
  once : ∃ e, events.filter Event.isCallback = [e]
  /-- A response is the whole body of a successful reply. -/
  response : ∀ d, .onResponse d ∈ events → o.Complete d
  /-- In every other case the error callback is invoked. -/
  otherwise : (∀ d, ¬o.Complete d) → ∃ err, .onError err ∈ events

/-- What `post` does for an outcome of `rb.Send`. -/
def postEvents : SendOutcome → List Event
  | .transport e => [.onError e.error]
  | .failure _ => []
  | .success body => [.onResponse body.bytes]

/-- The events of `post` depend on the outcome of sending its request only. -/
theorem post_events (name : Str) (file : FileNode) :
    (req.post rbSend name file).events = postEvents (rbSend (req.withFile name file)) := by
  unfold RequestBuilder.post
  cases rbSend (req.withFile name file) with
  | transport e => rfl
  | failure e => rfl
  | success body =>
    simp only [SendOutcome.result, ApiResponse.readAll_some, Call.pure_bind]
    rfl

/-- Every callback call does what `post` does for its outcome: an error before
sending is reported as a transport error is. -/
theorem CallbackCall.run_events (c : CallbackCall) :
    (c.run lstat newSerialFile rbSend req).events =
      postEvents (c.outcome lstat newSerialFile rbSend req) := by
  cases c with
  | postData data => exact post_events rbSend req [] _
  | postString data => exact post_events rbSend req [] _
  | postReader name data => exact post_events rbSend req name _
  | postDirectory dir =>
    simp only [CallbackCall.run, RequestBuilder.postDirectory, CallbackCall.outcome,
      CallbackCall.entry]
    cases lstat dir with
    | error e => rfl
    | ok stat =>
      cases hsf : newSerialFile dir false stat with
      | error e => simp [hsf, postEvents]
      | ok sf => simpa [hsf] using post_events rbSend req (Path.base dir) sf

end Calls

/-- A complete reply determines the body. -/
theorem SendOutcome.complete_success_iff (body : Stream) (d : List Byte) :
    (SendOutcome.success body).Complete d ↔ body.ending = .eof ∧ d = body.bytes := by
  constructor
  · rintro ⟨body', hbody, h⟩
    obtain rfl := SendOutcome.success.inj hbody
    exact h
  · intro h
    exact ⟨body, rfl, h⟩

/-- The outcomes for which the protocol holds: everything but an error reported by
the server and a body that is cut off by a read error. -/
def SendOutcome.Answerable : SendOutcome → Prop
  | transport _ => True
  | failure _ => False
  | success body => body.ending = .eof

/-- What `post` does keeps the protocol exactly for the answerable outcomes. -/
theorem answersOnce_postEvents_iff (o : SendOutcome) :
    AnswersOnce o (postEvents o) ↔ o.Answerable := by
  cases o with
  | transport e =>
    refine iff_of_true ⟨⟨_, rfl⟩, ?_, fun _ => ⟨_, List.mem_singleton_self _⟩⟩ trivial
    intro d hd
    simp [postEvents] at hd
  | failure e =>
    -- The absent output makes `post` panic before it reaches the callback.
    refine iff_of_false ?_ id
    rintro ⟨⟨e', hnone⟩, _, _⟩
    simp [postEvents] at hnone
  | success body =>
    constructor
    · intro h
      have hcomplete := h.response body.bytes (List.mem_singleton_self _)
      exact ((SendOutcome.complete_success_iff _ _).mp hcomplete).1
    · intro hend
      refine ⟨⟨_, rfl⟩, ?_, ?_⟩
      · intro d hd
        obtain rfl : d = body.bytes := by simpa [postEvents] using hd
        exact (SendOutcome.complete_success_iff _ _).mpr ⟨hend, rfl⟩
      · intro hno
        exact absurd ((SendOutcome.complete_success_iff _ _).mpr ⟨hend, rfl⟩) (hno body.bytes)

/-- A callback call keeps the protocol exactly when its outcome is answerable: the
directory cannot be opened, the request cannot be sent, or the server reports no
error and the body is read to its end. -/
theorem callback_answersOnce_iff {FileInfo : Type} (lstat : Str → Except Err FileInfo)
    (newSerialFile : Str → Bool → FileInfo → Except Err FileNode)
    (rbSend : RequestBuilder → SendOutcome) (req : RequestBuilder) (c : CallbackCall) :
    AnswersOnce (c.outcome lstat newSerialFile rbSend req)
        (c.run lstat newSerialFile rbSend req).events ↔
      (c.outcome lstat newSerialFile rbSend req).Answerable := by
  rw [CallbackCall.run_events]
  exact answersOnce_postEvents_iff _

/-- A body that a stream error cuts off after `HelloWo`. -/
def truncatedBody : Stream := .more (str "Hello") (.fail (str "Wo") (str "unexpected EOF"))

/-- A file system on which every path can be opened. -/
def openAnyFile (path : Str) (hidden : Bool) (_stat : Unit) : Except Err FileNode :=
  .ok (.serialFile path hidden)

/-- A body cut off by a stream error reaches `OnResponse` as if it were whole, and
`OnError` is never invoked. -/
theorem not_answersOnce_truncated :
    ¬AnswersOnce
      ((CallbackCall.postData (str "Hello World")).outcome (fun _ => .ok ()) openAnyFile
        (fun _ => .success truncatedBody) { command := str "add" })
      ((CallbackCall.postData (str "Hello World")).run (fun _ => .ok ()) openAnyFile
        (fun _ => .success truncatedBody) { command := str "add" }).events := by
  intro h
  obtain ⟨err, herr⟩ := h.otherwise (by
    rintro d ⟨body, hbody, hend, _⟩
    obtain rfl := SendOutcome.success.inj hbody
    exact absurd hend (by decide))
  rw [CallbackCall.run_events] at herr
  simp [postEvents, CallbackCall.outcome, CallbackCall.entry] at herr

end IpfsMobile.Core
