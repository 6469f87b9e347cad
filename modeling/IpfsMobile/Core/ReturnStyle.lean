import IpfsMobile.Core.Shell

/-!
# Server failures at the return-style entry points

`Send`, `Post2` and the calls built on it return bytes; `post3`, `Post4` and the
calls built on them return an open response. Only `Send` looks at the server's
error. This file determines for which outcomes of `rb.Send` all of them report
failures alike.
-/

namespace IpfsMobile.Core

open Go

/-- The entry points that return the body as bytes. -/
inductive BytesCall where
  | send
  | post2 (name : Str) (file : FileNode)
  | postData2 (data : List Byte)
  | postString2 (data : Str)

/-- The entry points that return an open response. -/
inductive ResponseCall where
  | post3 (name : Str) (file : FileNode)
  | postData3 (data : List Byte)
  | postString3 (data : Str)
  | post4 (body : KReader)

/-- Make a call that returns bytes. -/
def BytesCall.run (rbSend : RequestBuilder → SendOutcome) (req : RequestBuilder) :
    BytesCall → Call Event (List Byte × Option Err)
  | send => req.send rbSend
  | post2 name file => req.post2 rbSend name file
  | postData2 data => req.postData2 rbSend data
  | postString2 data => req.postString2 rbSend data

/-- Make a call that returns an open response. -/
def ResponseCall.run (rbSend : RequestBuilder → SendOutcome) (req : RequestBuilder) :
    ResponseCall → Call Event (Except Err (Response Stream))
  | post3 name file => req.post3 rbSend name file
  | postData3 data => req.postData3 rbSend data
  | postString3 data => req.postString3 rbSend data
  | post4 body => req.post4 rbSend body

/-- Successive `Response.Read` calls with the given buffer lengths. -/
def Response.readMany {σ : Type} [Reader σ] (res : Response σ) :
    List ℕ → Call Event (List ReadResult × Response σ)
  | [] => pure ([], res)
  | cap :: caps => do
    let (r, res') ← res.read cap
    let (rs, res'') ← res'.readMany caps
    pure (r :: rs, res'')

/-- The reply was a failure: a transport error or an error from the server. -/
def SendOutcome.Failed : SendOutcome → Prop
  | transport _ => True
  | failure _ => True
  | success _ => False

/-- What a call that returns bytes answers for a body: all of it, or the error that
cut it off. -/
def AnswersBody (body : Stream) (value : Except Panic (List Byte × Option Err)) : Prop :=
  match Stream.readAllErr body.ending with
  | none => value = .ok (body.bytes, none)
  | some e => ∃ data, value = .ok (data, some e)

/-- All return-style entry points surface the outcome `o` of `rb.Send` the same way:
they return an error for every failure, those that return bytes agree on a body,
and neither they nor later reads of a returned response touch an absent output. -/
structure SurfacesAlike (req : RequestBuilder) (o : SendOutcome) : Prop where
  /-- A failure is returned as an error by the calls that return bytes. -/
  bytes_error : o.Failed → ∀ c : BytesCall, ∃ data e,
    (c.run (fun _ => o) req).value = .ok (data, some e)
  /-- A failure is returned as an error by the calls that return a response. -/
  response_error : o.Failed → ∀ c : ResponseCall, ∃ e,
    (c.run (fun _ => o) req).value = .ok (.error e)
  /-- Without a failure, the calls that return bytes give the same answer. -/
  bytes_agree : ∀ body, o = .success body → ∀ c : BytesCall,
    AnswersBody body (c.run (fun _ => o) req).value
  /-- No call that returns bytes reads from an absent output. -/
  bytes_present : ∀ c : BytesCall, (c.run (fun _ => o) req).value ≠ .error .nilDereference
  /-- No call that returns a response reads from an absent output. -/
  response_present : ∀ c : ResponseCall,
    (c.run (fun _ => o) req).value ≠ .error .nilDereference
  /-- Neither does any later read of a response returned without error. -/
  reads_present : ∀ (c : ResponseCall) (res : Response Stream),
    (c.run (fun _ => o) req).value = .ok (.ok res) →
      ∀ caps, (res.readMany caps).value ≠ .error .nilDereference

/-- An open response with an output can be read any number of times. -/
theorem Response.readMany_of_output {σ : Type} [Reader σ] (out : σ) (e : Option Err)
    (caps : List ℕ) : ∃ rs out',
      Response.readMany ⟨⟨some out, e⟩⟩ caps = (pure (rs, ⟨⟨some out', e⟩⟩) : Call Event _) := by
  induction caps generalizing out with
  | nil => exact ⟨[], out, rfl⟩
  | cons cap caps ih =>
    obtain ⟨rs, out', h⟩ := ih (Reader.read out cap).2
    refine ⟨markEnd (Reader.read out cap).1 :: rs, out', ?_⟩
    simp only [Response.readMany, Response.read_some, Call.pure_bind, h]

/-- The calls that return bytes return a transport error. -/
theorem BytesCall.run_transport (req : RequestBuilder) (e : Err) (c : BytesCall) :
    c.run (fun _ => .transport e) req = pure ([], some e) := by
  cases c <;> rfl

/-- The calls that return a response return a transport error. -/
theorem ResponseCall.run_transport (req : RequestBuilder) (e : Err) (c : ResponseCall) :
    c.run (fun _ => .transport e) req = pure (.error e) := by
  cases c <;> rfl

/-- For a body, the calls that return a response hand it over open. -/
theorem ResponseCall.run_success (req : RequestBuilder) (body : Stream) (c : ResponseCall) :
    c.run (fun _ => .success body) req = pure (.ok ⟨⟨some body, none⟩⟩) := by
  cases c <;> rfl

/-- `Post2` returns all of a body, or nothing and the error that cut it off. -/
theorem RequestBuilder.post2_success (req : RequestBuilder) (body : Stream) (name : Str)
    (file : FileNode) :
    req.post2 (fun _ => .success body) name file =
      (match Stream.readAllErr body.ending with
      | some e => pure ([], some e)
      | none => pure (body.bytes, none)) := by
  cases h : Stream.readAllErr body.ending <;>
    simp only [RequestBuilder.post2, SendOutcome.result, ApiResponse.readAll_some, Call.pure_bind,
      h]

/-- `Send` returns all of a body with the error that cut it off, and closes it. -/
theorem RequestBuilder.send_success (req : RequestBuilder) (body : Stream) :
    req.send (fun _ => .success body) =
      ⟨[.closed], .ok (body.bytes, Stream.readAllErr body.ending)⟩ := by
  simp only [RequestBuilder.send, SendOutcome.result, ApiResponse.readAll_some]
  rfl

/-- On a body, each call that returns bytes answers with it. -/
theorem BytesCall.answersBody (req : RequestBuilder) (body : Stream) (c : BytesCall) :
    AnswersBody body (c.run (fun _ => .success body) req).value := by
  have hpost2 (name : Str) (file : FileNode) :
      AnswersBody body (req.post2 (fun _ => .success body) name file).value := by
    rw [RequestBuilder.post2_success]
    cases h : Stream.readAllErr body.ending <;> simp [AnswersBody, h]
  cases c with
  | send =>
    rw [BytesCall.run, RequestBuilder.send_success]
    cases h : Stream.readAllErr body.ending <;> simp [AnswersBody, h]
  | post2 name file => exact hpost2 name file
  | postData2 data => exact hpost2 [] (.readerFile (.bytes data))
  | postString2 data => exact hpost2 [] (.readerFile (.string data))

/-- An answer for a body is not a panic. -/
theorem AnswersBody.ne_panic {body : Stream} {value : Except Panic (List Byte × Option Err)}
    (h : AnswersBody body value) (p : Panic) : value ≠ .error p := by
  rintro rfl
  unfold AnswersBody at h
  split at h
  · cases h
  · obtain ⟨data, h⟩ := h
    cases h

/-- After a failure status, `Post2` panics on the absent output. -/
theorem RequestBuilder.post2_failure (req : RequestBuilder) (e : Err) (name : Str)
    (file : FileNode) :
    req.post2 (fun _ => .failure e) name file = Call.panicWith .nilDereference := by
  simp only [RequestBuilder.post2, SendOutcome.result, ApiResponse.readAll_none,
    Call.panicWith_bind]

/-- The return-style entry points surface an outcome alike exactly when it is not
an error reported by the server. -/
theorem surfacesAlike_iff (req : RequestBuilder) (o : SendOutcome) :
    SurfacesAlike req o ↔ ∀ e, o ≠ .failure e := by
  constructor
  · rintro h e rfl
    -- `Post2` reads the output that a failure status leaves absent.
    have hpanic := RequestBuilder.post2_failure req e [] (.readerFile (.bytes []))
    apply h.bytes_present (.post2 [] (.readerFile (.bytes [])))
    rw [BytesCall.run, hpanic, Call.value_panicWith]
  · intro hne
    cases o with
    | transport e =>
      exact {
        bytes_error := fun _ c => ⟨[], e, by rw [c.run_transport]; rfl⟩
        response_error := fun _ c => ⟨e, by rw [c.run_transport]; rfl⟩
        bytes_agree := fun body hbody => SendOutcome.noConfusion hbody
        bytes_present := fun c => by simp [c.run_transport]
        response_present := fun c => by simp [c.run_transport]
        reads_present := fun c res hres => by
          simp [c.run_transport] at hres }
    | failure e => exact absurd rfl (hne e)
    | success body =>
      exact {
        bytes_error := fun hfailed => hfailed.elim
        response_error := fun hfailed => hfailed.elim
        bytes_agree := fun body' hbody c => by
          obtain rfl := SendOutcome.success.inj hbody
          exact c.answersBody req body
        bytes_present := fun c => (c.answersBody req body).ne_panic _
        response_present := fun c => by simp [c.run_success]
        reads_present := fun c res hres caps => by
          obtain rfl : ⟨⟨some body, none⟩⟩ = res := by simpa [c.run_success] using hres
          obtain ⟨rs, out', h⟩ := Response.readMany_of_output body none caps
          simp [h] }

/-- A server that refuses the command makes `Post2` panic, where `Send` returns the
server's error. -/
theorem not_surfacesAlike_add_refused :
    ¬ SurfacesAlike ((newShell (str "/ip4/127.0.0.1/tcp/5001")).newRequest (str "add"))
      (.failure (.other (str "add: command not found"))) := by
  intro h
  obtain ⟨data, e, hvalue⟩ := h.bytes_error trivial (.postData2 (str "Hello World"))
  cases hvalue

end IpfsMobile.Core
