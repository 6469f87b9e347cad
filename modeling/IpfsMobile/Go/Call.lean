import Mathlib.Data.List.Basic

/-!
# Byte strings, errors and calls that may panic

A Go string is a sequence of bytes and an error is its text, with `io.EOF`
kept apart. A call performs visible events on the way and either returns or
panics; deferred clean-up runs in both cases.
-/

namespace Go

/-- A byte, with its unsigned and its signed reading (`toNat`, `toInt`). -/
abbrev Byte := BitVec 8

/-- A string of the Go language: any sequence of bytes. -/
abbrev Str := List Byte

/-- The bytes of an ASCII literal. -/
def str (s : String) : Str := s.toList.map fun c => BitVec.ofNat 8 c.toNat

/-- A non-nil value of type `error`. Only `io.EOF` is compared by identity;
every other error is known by the text that `Error()` returns. -/
inductive Err where
  | eof
  | other (text : Str)
  deriving DecidableEq, Repr

/-- The text of an error, as its `Error()` method returns it. -/
def Err.error : Err → Str
  | .eof => str "EOF"
  | .other text => text

/-- What a panicking call unwinds with. -/
inductive Panic where
  /-- A method call or field access through a nil interface or pointer. -/
  | nilDereference
  /-- `panic(v)` in the program, with the text of `v`. -/
  | value (text : Str)
  /-- A panic raised inside a library. -/
  | library
  deriving DecidableEq, Repr

/-- A call: its visible events in order, and its value unless it panicked. -/
structure Call (Ev α : Type) where
  events : List Ev
  value : Except Panic α

namespace Call

variable {Ev α β γ : Type}

/-- Return a value without a visible event. -/
def ret (a : α) : Call Ev α := ⟨[], .ok a⟩

/-- Run a call and continue with its value; a panic skips the continuation. -/
def andThen (x : Call Ev α) (f : α → Call Ev β) : Call Ev β :=
  match x.value with
  | .ok a => ⟨x.events ++ (f a).events, (f a).value⟩
  | .error p => ⟨x.events, .error p⟩

instance : Monad (Call Ev) where
  pure := ret
  bind := andThen

/-- Perform one visible event. -/
def emit (e : Ev) : Call Ev Unit := ⟨[e], .ok ()⟩

/-- Unwind with a panic. -/
def panicWith (p : Panic) : Call Ev α := ⟨[], .error p⟩

/-- `defer cleanup` around a body: the clean-up runs after the body has
returned or panicked, and a panic of the body goes on afterwards. -/
def deferring (cleanup : Call Ev Unit) (body : Call Ev α) : Call Ev α where
  events := body.events ++ cleanup.events
  value :=
    match cleanup.value with
    | .ok _ => body.value
    | .error p => .error p

@[simp] theorem events_pure (a : α) : (pure a : Call Ev α).events = [] := rfl

@[simp] theorem value_pure (a : α) : (pure a : Call Ev α).value = .ok a := rfl

@[simp] theorem events_emit (e : Ev) : (emit e).events = [e] := rfl

@[simp] theorem value_emit (e : Ev) : (emit e).value = .ok () := rfl

@[simp] theorem events_panicWith (p : Panic) : (panicWith p : Call Ev α).events = [] := rfl

@[simp] theorem value_panicWith (p : Panic) :
    (panicWith p : Call Ev α).value = .error p := rfl

@[simp] theorem events_deferring (cleanup : Call Ev Unit) (body : Call Ev α) :
    (deferring cleanup body).events = body.events ++ cleanup.events := rfl

/-- A clean-up that does not panic leaves the value of the body. -/
@[simp] theorem value_deferring {cleanup : Call Ev Unit} (body : Call Ev α)
    (h : cleanup.value = .ok ()) : (deferring cleanup body).value = body.value := by
  simp only [deferring, h]

/-- Sequencing after a returning call appends the events of the continuation. -/
theorem bind_of_ok {x : Call Ev α} {a : α} (h : x.value = .ok a) (f : α → Call Ev β) :
    x >>= f = ⟨x.events ++ (f a).events, (f a).value⟩ := by
  change x.andThen f = _
  simp only [andThen, h]

/-- Sequencing after a panic keeps the panic and adds no event. -/
theorem bind_of_error {x : Call Ev α} {p : Panic} (h : x.value = .error p)
    (f : α → Call Ev β) : x >>= f = ⟨x.events, .error p⟩ := by
  change x.andThen f = _
  simp only [andThen, h]

@[simp] theorem pure_bind (a : α) (f : α → Call Ev β) : (pure a : Call Ev α) >>= f = f a := by
  rw [bind_of_ok (value_pure a)]
  simp

@[simp] theorem events_emit_bind (e : Ev) (f : Unit → Call Ev β) :
    (emit e >>= f).events = e :: (f ()).events := rfl

@[simp] theorem value_emit_bind (e : Ev) (f : Unit → Call Ev β) :
    (emit e >>= f).value = (f ()).value := rfl

@[simp] theorem panicWith_bind (p : Panic) (f : α → Call Ev β) :
    (panicWith p : Call Ev α) >>= f = panicWith p :=
  bind_of_error (value_panicWith p) f

end Call

end Go
