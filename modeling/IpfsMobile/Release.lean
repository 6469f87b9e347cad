import IpfsMobile.Core.Callback
import IpfsMobile.Core.ResponseRead
import IpfsMobile.Core.ReturnStyle
import IpfsMobile.Pubsub.Subscribe

/-!
# Releasing the response

An entry point that reads the reply itself has to close it; one that returns the open
reply leaves that to its caller. The file determines which entry points do so. `Send`
and `Subscribe` close the reply on every way out; `Post2` and `post`, and with them all
calls built on them, never do.
-/

namespace IpfsMobile

open Go IpfsMobile.Core IpfsMobile.Pubsub

/-- The entry points that consume the reply. -/
inductive ConsumingCall where
  | bytes (c : BytesCall)
  | callback (c : CallbackCall)
  | subscribe (shell : Shell) (topic : Str)

/-- The entry points that hand the open reply to their caller. -/
inductive HandingCall where
  | send2
  | response (c : ResponseCall)

/-- The request a call that returns bytes sends. -/
def Core.BytesCall.request (req : RequestBuilder) : BytesCall → RequestBuilder
  | .send => req
  | .post2 name file => req.withFile name file
  | .postData2 data => req.withFile [] (.readerFile (.bytes data))
  | .postString2 data => req.withFile [] (.readerFile (.string data))

/-- The request a call that returns a response sends. -/
def Core.ResponseCall.request (req : RequestBuilder) : ResponseCall → RequestBuilder
  | .post3 name file => req.withFile name file
  | .postData3 data => req.withFile [] (.readerFile (.bytes data))
  | .postString3 data => req.withFile [] (.readerFile (.string data))
  | .post4 body => req.withReader body

/-- The body of a reply, if it has one: `res.Output`. -/
def Core.SendOutcome.body : SendOutcome → Option Stream
  | .success body => some body
  | _ => none

section Calls

variable {FileInfo : Type} (lstat : Str → Except Err FileInfo)
  (newSerialFile : Str → Bool → FileInfo → Except Err FileNode)
  (rbSend : RequestBuilder → SendOutcome) (req : RequestBuilder)

/-- The events of a call that consumes the reply. -/
def ConsumingCall.events : ConsumingCall → List Event
  | bytes c => (c.run rbSend req).events
  | callback c => (c.run lstat newSerialFile rbSend req).events
  | subscribe shell topic => (Pubsub.subscribe rbSend shell topic).events

/-- The body that `rb.Send` returns to a call that consumes the reply, if it is reached. -/
def ConsumingCall.body : ConsumingCall → Option Stream
  | bytes c => (rbSend (c.request req)).body
  | callback c => (c.outcome lstat newSerialFile rbSend req).body
  | subscribe shell topic =>
    (rbSend ((shell.newRequest (str "pubsub/sub")).argument topic)).body

/-- A consumed reply with a body was closed exactly once. -/
def ConsumingCall.Releases (c : ConsumingCall) : Prop :=
  ∀ body, c.body lstat newSerialFile rbSend req = some body →
    (c.events lstat newSerialFile rbSend req).count .closed = 1

/-- The reply of a call that hands it over, with what the call did. -/
def HandingCall.run : HandingCall → Call Event (Except Err (ApiResponse Stream))
  | send2 => req.send2 rbSend
  | response c => do
    let res ← c.run rbSend req
    pure (res.map Response.res)

/-- The outcome of `rb.Send` for a call that hands the reply over. -/
def HandingCall.outcome : HandingCall → SendOutcome
  | send2 => rbSend req
  | response c => rbSend (c.request req)

/-- The caller gets the reply of `rb.Send` unclosed, or an error when no body is left open. -/
def HandingCall.Releases (c : HandingCall) : Prop :=
  (c.run rbSend req).events.count .closed = 0 ∧
    ((∃ res, (c.run rbSend req).value = .ok (.ok res) ∧ (c.outcome rbSend req).result = .ok res) ∨
      ∃ e, (c.run rbSend req).value = .ok (.error e) ∧
        (c.outcome rbSend req).body = none)

/-- Every entry point that deals with a reply. -/
inductive EntryPoint where
  | consuming (c : ConsumingCall)
  | handing (c : HandingCall)

/-- The entry point releases the reply, or hands it over. -/
def EntryPoint.Releases : EntryPoint → Prop
  | consuming c => c.Releases lstat newSerialFile rbSend req
  | handing c => c.Releases rbSend req

/-- The entry points that close the reply, or leave that to the caller. -/
def EntryPoint.Careful : EntryPoint → Prop
  | consuming (.bytes .send) => True
  | consuming (.bytes _) => False
  | consuming (.callback _) => False
  | consuming (.subscribe _ _) => True
  | handing _ => True

/-- The body that reaches an entry point. -/
def EntryPoint.body : EntryPoint → Option Stream
  | consuming c => c.body lstat newSerialFile rbSend req
  | handing c => (c.outcome rbSend req).body

/-- An outcome with a body is a success. -/
theorem Core.SendOutcome.body_eq_some_iff (o : SendOutcome) (body : Stream) :
    o.body = some body ↔ o = .success body := by
  cases o <;> simp [SendOutcome.body]

/-- Without a body there is nothing to close. -/
theorem ConsumingCall.releases_of_body_none {c : ConsumingCall}
    (h : c.body lstat newSerialFile rbSend req = none) :
    c.Releases lstat newSerialFile rbSend req := by
  intro body hbody
  rw [h] at hbody
  cases hbody

/-- A call that does not close the reply releases it only if there is no body. -/
theorem ConsumingCall.releases_iff_of_never {c : ConsumingCall}
    (h : (c.events lstat newSerialFile rbSend req).count .closed = 0) :
    c.Releases lstat newSerialFile rbSend req ↔ c.body lstat newSerialFile rbSend req = none := by
  constructor
  · intro hreleases
    cases hbody : c.body lstat newSerialFile rbSend req with
    | none => rfl
    | some body =>
      have hone := hreleases body hbody
      omega
  · exact ConsumingCall.releases_of_body_none lstat newSerialFile rbSend req

/-- `Send` closes a body. -/
theorem send_releases :
    (ConsumingCall.bytes .send).Releases lstat newSerialFile rbSend req := by
  intro body hbody
  have hsuccess : rbSend req = .success body :=
    (SendOutcome.body_eq_some_iff _ _).mp hbody
  have hsend : req.send rbSend = req.send fun _ => .success body := by
    rw [RequestBuilder.send, RequestBuilder.send, hsuccess]
  have hevents : (ConsumingCall.bytes .send).events lstat newSerialFile rbSend req = [.closed] := by
    rw [ConsumingCall.events, BytesCall.run, hsend, RequestBuilder.send_success]
  rw [hevents]
  decide

/-- `Subscribe` closes a body after its last message. -/
theorem subscribe_releases (shell : Shell) (topic : Str) :
    (ConsumingCall.subscribe shell topic).Releases lstat newSerialFile rbSend req := by
  intro body hbody
  have hsuccess : rbSend ((shell.newRequest (str "pubsub/sub")).argument topic) =
      .success body := (SendOutcome.body_eq_some_iff _ _).mp hbody
  have hsubscribe : Pubsub.subscribe rbSend shell topic =
      Pubsub.subscribe (fun _ => .success body) shell topic := by
    rw [Pubsub.subscribe, Pubsub.subscribe, RequestBuilder.send2, RequestBuilder.send2, hsuccess]
  have hevents : (ConsumingCall.subscribe shell topic).events lstat newSerialFile rbSend req =
      (Scanner.new body).tokens.map .onMessage ++ [.closed] := by
    rw [ConsumingCall.events, hsubscribe, subscribe_success]
  have hmessages : ((Scanner.new body).tokens.map Event.onMessage).count .closed = 0 := by
    rw [List.count_eq_zero]
    simp
  rw [hevents, List.count_append, hmessages]
  rfl

/-- `Post2` never closes the reply. -/
theorem post2_events (name : Str) (file : FileNode) : (req.post2 rbSend name file).events = [] := by
  unfold RequestBuilder.post2
  cases rbSend (req.withFile name file) with
  | transport e => rfl
  | failure e => rfl
  | success body =>
    simp only [SendOutcome.result, ApiResponse.readAll_some, Call.pure_bind]
    cases Stream.readAllErr body.ending <;> rfl

/-- The calls on `post` never close the reply. -/
theorem count_closed_postEvents (o : SendOutcome) : (postEvents o).count .closed = 0 := by
  cases o <;> simp [postEvents]

/-- What `post3` and `Post4` return for a sent request is handed over unclosed. -/
theorem respond_eq (o : SendOutcome) :
    (do let res ← RequestBuilder.respond o; pure (res.map Response.res)) =
      (pure o.result : Call Event (Except Err (ApiResponse Stream))) := by
  cases o <;> rfl

/-- A call that hands over the result of `rb.Send` leaves nothing open behind an error. -/
theorem HandingCall.releases_of_result {c : HandingCall}
    (h : c.run rbSend req = pure (c.outcome rbSend req).result) : c.Releases rbSend req := by
  refine ⟨by rw [h]; rfl, ?_⟩
  rw [h]
  cases c.outcome rbSend req with
  | transport e => exact Or.inr ⟨e, rfl, rfl⟩
  | failure e => exact Or.inl ⟨_, rfl, rfl⟩
  | success body => exact Or.inl ⟨_, rfl, rfl⟩

/-- `Send2` returns the server's error, which comes without a body. -/
theorem send2_releases : HandingCall.send2.Releases rbSend req := by
  cases hsend : rbSend req with
  | transport e =>
    refine HandingCall.releases_of_result rbSend req ?_
    simp only [HandingCall.run, HandingCall.outcome, RequestBuilder.send2, hsend,
      SendOutcome.result]
  | failure e =>
    have hrun : HandingCall.send2.run rbSend req = pure (.error e) := by
      simp only [HandingCall.run, RequestBuilder.send2, hsend, SendOutcome.result]
    refine ⟨by rw [hrun]; rfl, Or.inr ⟨e, by rw [hrun]; rfl, ?_⟩⟩
    simp only [HandingCall.outcome, hsend, SendOutcome.body]
  | success body =>
    refine HandingCall.releases_of_result rbSend req ?_
    simp only [HandingCall.run, HandingCall.outcome, RequestBuilder.send2, hsend,
      SendOutcome.result]

/-- The calls that hand the reply over leave nothing open behind an error. -/
theorem handing_releases (c : HandingCall) : c.Releases rbSend req := by
  cases c with
  | send2 => exact send2_releases rbSend req
  | response c =>
    have hrespond : c.run rbSend req = RequestBuilder.respond (rbSend (c.request req)) := by
      cases c <;> rfl
    refine HandingCall.releases_of_result rbSend req ?_
    rw [HandingCall.run, hrespond]
    exact respond_eq _

/-- The calls built on `Post2` never close the reply. -/
theorem count_closed_bytes {c : BytesCall} (hc : c ≠ .send) :
    ((ConsumingCall.bytes c).events lstat newSerialFile rbSend req).count .closed = 0 := by
  have hpost2 (name : Str) (file : FileNode) :
      (req.post2 rbSend name file).events.count .closed = 0 := by
    rw [post2_events]
    rfl
  cases c with
  | send => exact absurd rfl hc
  | post2 name file => exact hpost2 name file
  | postData2 data => exact hpost2 [] (.readerFile (.bytes data))
  | postString2 data => exact hpost2 [] (.readerFile (.string data))

/-- The calls that answer a callback never close the reply. -/
theorem count_closed_callback (c : CallbackCall) :
    ((ConsumingCall.callback c).events lstat newSerialFile rbSend req).count .closed = 0 := by
  rw [ConsumingCall.events, CallbackCall.run_events]
  exact count_closed_postEvents _

/-- An entry point releases the reply exactly if it is one that closes it or hands it
over, or if no body reaches it. -/
theorem releases_iff (entryPoint : EntryPoint) :
    entryPoint.Releases lstat newSerialFile rbSend req ↔
      entryPoint.Careful ∨ entryPoint.body lstat newSerialFile rbSend req = none := by
  cases entryPoint with
  | handing c => exact iff_of_true (handing_releases rbSend req c) (Or.inl trivial)
  | consuming c =>
    cases c with
    | subscribe shell topic =>
      exact iff_of_true (subscribe_releases lstat newSerialFile rbSend req shell topic)
        (Or.inl trivial)
    | callback c =>
      have hnever := count_closed_callback lstat newSerialFile rbSend req c
      have hiff := ConsumingCall.releases_iff_of_never lstat newSerialFile rbSend req hnever
      simpa [EntryPoint.Releases, EntryPoint.Careful, EntryPoint.body] using hiff
    | bytes c =>
      by_cases hc : c = .send
      · subst hc
        exact iff_of_true (send_releases lstat newSerialFile rbSend req) (Or.inl trivial)
      · have hnever := count_closed_bytes lstat newSerialFile rbSend req hc
        have hiff := ConsumingCall.releases_iff_of_never lstat newSerialFile rbSend req hnever
        have hcareless : ¬(EntryPoint.consuming (.bytes c)).Careful := by
          cases c with
          | send => exact absurd rfl hc
          | post2 name file => exact id
          | postData2 data => exact id
          | postString2 data => exact id
        simpa [EntryPoint.Releases, hcareless, EntryPoint.body] using hiff

end Calls

/-- A body that arrives whole is left open by `PostData2`. -/
theorem not_releases_helloAtOnce :
    ¬(EntryPoint.consuming (.bytes (.postData2 (str "Hello World")))).Releases
      (fun _ => .ok ()) openAnyFile (fun _ => .success helloAtOnce) { command := str "add" } := by
  intro h
  have hcount := h helloAtOnce rfl
  revert hcount
  decide

end IpfsMobile
