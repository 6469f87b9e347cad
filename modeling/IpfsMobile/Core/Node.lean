import IpfsMobile.Concurrent.Transition
import IpfsMobile.Go.Call

/-!
# Serving and closing a node

`Node` keeps the listeners it serves the API on in a list that a mutex guards. Any
number of calls that serve and calls that close may overlap; each is broken up into
the steps between which others can run. The read of the list and the write of the
longer one in `append` are separate steps, so that the mutex has work to do. What a
listener does once it is handed to `ServeCoreHTTP` is left out.
-/

namespace IpfsMobile.Core.Node

open Go Concurrent

/-- A listener by the order of `manet.Listen`, which returns a new one each time. -/
abbrev Listener := ℕ

/-- A call of one of the methods that serve the API. -/
inductive ServeCall where
  | serveMultiaddr (smaddr : Str)
  | serveUnixSocketAPI (sockpath : Str)
  | serveTCPAPI (port : Str)
  /-- With the addresses in the repo's config, or the error of reading it. -/
  | serveConfigAPI (addresses : Except Err (List Str))
  deriving Repr

/-- The addresses for which a call goes through `ServeMultiaddr`, in order. -/
def ServeCall.addresses : ServeCall → List Str
  | serveMultiaddr smaddr => [smaddr]
  | serveUnixSocketAPI sockpath => [str "/unix/" ++ sockpath]
  | serveTCPAPI port => [str "/ip4/127.0.0.1/tcp/" ++ port]
  | serveConfigAPI (.ok addresses) => addresses
  | serveConfigAPI (.error _) => []

/-- How far a call has come. In the phases that serve, `todo` holds the addresses
still to go through `ServeMultiaddr`. -/
inductive Phase (Maddr : Type) where
  /-- Not called yet. -/
  | idle
  /-- Before `ServeMultiaddr`, or about to return. -/
  | serving (todo : List Str)
  /-- `ma.NewMultiaddr` has returned an address. -/
  | parsed (maddr : Maddr) (todo : List Str)
  /-- `manet.Listen` has returned a listener. -/
  | opened (ml : Listener) (todo : List Str)
  /-- The mutex is taken for the append. -/
  | locked (ml : Listener) (todo : List Str)
  /-- The list to append to has been read. -/
  | loaded (ml : Listener) (listeners : List Listener) (todo : List Str)
  /-- The longer list has been written. -/
  | stored (ml : Listener) (todo : List Str)
  /-- The mutex is free again; the listener's address is returned next. -/
  | unlocked (ml : Listener) (todo : List Str)
  /-- The serving call has returned. -/
  | served
  /-- Before the lock of `Close`. -/
  | closing
  /-- The mutex is taken for the loop. -/
  | closeLocked
  /-- Ranging over the list as it was at the start of the loop. -/
  | closeLoop (rest : List Listener)
  /-- The mutex is free again; `ipfsMobile.Close` is next. -/
  | stopping
  /-- `Close` has returned. -/
  | closed
  deriving DecidableEq, Repr

/-- What a call does in one step. -/
inductive Op where
  | serve (call : ServeCall)
  | newMultiaddr
  /-- `manet.Listen` opens a listener, or fails. -/
  | listen (ok : Bool)
  | lock
  | load
  | store
  | unlock
  | report
  | finish
  | close
  | range
  | closeNext
  | stop
  deriving Repr

/-- One step of one call. -/
structure Action (C : Type) where
  call : C
  op : Op

/-- The node's fields, how far each call has come, and what was done to listeners. -/
structure State (C Maddr : Type) where
  /-- `n.listeners`. -/
  listeners : List Listener := []
  /-- The call that has locked `n.muListeners`. -/
  muListeners : Option C := none
  /-- The number of listeners opened so far; the next one gets this number. -/
  opened : ℕ := 0
  /-- The listeners that `ServeMultiaddr` has returned the address of. -/
  reported : List Listener := []
  /-- The listeners closed by `l.Close()`. -/
  closed : List Listener := []
  phase : C → Phase Maddr := fun _ => .idle

section Steps

variable {C Maddr : Type} [DecidableEq C]

/-- One call goes on to a phase. -/
def State.goto (s : State C Maddr) (c : C) (p : Phase Maddr) : State C Maddr :=
  { s with phase := Function.update s.phase c p }

/-- The effect of one step of the call `c`, with what `ma.NewMultiaddr` answers. A
failure of `NewMultiaddr` or `Listen` ends the current `ServeMultiaddr`, after which
`ServeConfigAPI` goes on with the next address. -/
def step (newMultiaddr : Str → Except Err Maddr) (s : State C Maddr) (c : C) :
    Op → Option (State C Maddr)
  | .serve call =>
    match s.phase c with
    | .idle => some (s.goto c (.serving call.addresses))
    | _ => none
  | .newMultiaddr =>
    match s.phase c with
    | .serving (smaddr :: todo) =>
      match newMultiaddr smaddr with
      | .error _ => some (s.goto c (.serving todo))
      | .ok maddr => some (s.goto c (.parsed maddr todo))
    | _ => none
  | .listen ok =>
    match s.phase c with
    | .parsed _ todo =>
      if ok then some { s.goto c (.opened s.opened todo) with opened := s.opened + 1 }
      else some (s.goto c (.serving todo))
    | _ => none
  | .lock =>
    if s.muListeners = none then
      match s.phase c with
      | .opened ml todo => some { s.goto c (.locked ml todo) with muListeners := some c }
      | .closing => some { s.goto c .closeLocked with muListeners := some c }
      | _ => none
    else none
  | .load =>
    match s.phase c with
    | .locked ml todo => some (s.goto c (.loaded ml s.listeners todo))
    | _ => none
  | .store =>
    match s.phase c with
    | .loaded ml listeners todo =>
      some { s.goto c (.stored ml todo) with listeners := listeners ++ [ml] }
    | _ => none
  | .unlock =>
    match s.phase c with
    | .stored ml todo => some { s.goto c (.unlocked ml todo) with muListeners := none }
    | .closeLoop [] => some { s.goto c .stopping with muListeners := none }
    | _ => none
  | .report =>
    match s.phase c with
    | .unlocked ml todo =>
      some { s.goto c (.serving todo) with reported := s.reported ++ [ml] }
    | _ => none
  | .finish =>
    match s.phase c with
    | .serving [] => some (s.goto c .served)
    | _ => none
  | .close =>
    match s.phase c with
    | .idle => some (s.goto c .closing)
    | _ => none
  | .range =>
    match s.phase c with
    | .closeLocked => some (s.goto c (.closeLoop s.listeners))
    | _ => none
  | .closeNext =>
    match s.phase c with
    | .closeLoop (l :: rest) =>
      some { s.goto c (.closeLoop rest) with closed := s.closed ++ [l] }
    | _ => none
  | .stop =>
    match s.phase c with
    | .stopping => some (s.goto c .closed)
    | _ => none

/-- The node as a system of overlapping calls. -/
def system (C : Type) [DecidableEq C] (newMultiaddr : Str → Except Err Maddr) :
    System (State C Maddr) (Action C) where
  init := {}
  step s a := step newMultiaddr s a.call a.op

/-- The phases in which a call holds the mutex. -/
def Phase.Held : Phase Maddr → Prop
  | locked .. | loaded .. | stored .. | closeLocked | closeLoop _ => True
  | _ => False

/-- The listener that a call has opened and not yet written to the list. -/
def Phase.pending : Phase Maddr → Option Listener
  | opened ml _ | locked ml _ | loaded ml _ _ => some ml
  | _ => none

/-- The listener in the list whose address a call is going to return. -/
def Phase.written : Phase Maddr → Option Listener
  | stored ml _ | unlocked ml _ => some ml
  | _ => none

/-- The list that an append under way has read. -/
def Phase.snapshot : Phase Maddr → Option (List Listener)
  | loaded _ listeners _ => some listeners
  | _ => none

/-- The listeners that a loop of `Close` has still to close. -/
def Phase.toClose : Phase Maddr → List Listener
  | closeLoop rest => rest
  | _ => []

/-- The phases in which a call has neither the mutex nor a listener. -/
def Phase.Free : Phase Maddr → Prop
  | idle | serving _ | parsed .. | served | closing | stopping | closed => True
  | _ => False

/-- What a free phase is free of. -/
theorem Phase.Free.fields {p : Phase Maddr} (h : p.Free) :
    ¬p.Held ∧ p.pending = none ∧ p.written = none ∧ p.snapshot = none ∧ p.toClose = [] := by
  cases p <;> simp_all [Free, Held, pending, written, snapshot, toClose]

/-- What a step of the call `c` can do. The steps that only lead from one free phase
to another are taken together. -/
inductive Moves (s : State C Maddr) (c : C) : Op → State C Maddr → Prop
  | free {op q} : (s.phase c).Free → q.Free → op ≠ .range → Moves s c op (s.goto c q)
  | listen {maddr todo} : s.phase c = .parsed maddr todo →
      Moves s c (.listen true) { s.goto c (.opened s.opened todo) with opened := s.opened + 1 }
  | lock {ml todo} : s.phase c = .opened ml todo → s.muListeners = none →
      Moves s c .lock { s.goto c (.locked ml todo) with muListeners := some c }
  | load {ml todo} : s.phase c = .locked ml todo →
      Moves s c .load (s.goto c (.loaded ml s.listeners todo))
  | store {ml listeners todo} : s.phase c = .loaded ml listeners todo →
      Moves s c .store { s.goto c (.stored ml todo) with listeners := listeners ++ [ml] }
  | unlock {ml todo} : s.phase c = .stored ml todo →
      Moves s c .unlock { s.goto c (.unlocked ml todo) with muListeners := none }
  | report {ml todo} : s.phase c = .unlocked ml todo →
      Moves s c .report { s.goto c (.serving todo) with reported := s.reported ++ [ml] }
  | closeLock : s.phase c = .closing → s.muListeners = none →
      Moves s c .lock { s.goto c .closeLocked with muListeners := some c }
  | range : s.phase c = .closeLocked → Moves s c .range (s.goto c (.closeLoop s.listeners))
  | closeNext {l rest} : s.phase c = .closeLoop (l :: rest) →
      Moves s c .closeNext { s.goto c (.closeLoop rest) with closed := s.closed ++ [l] }
  | closeUnlock : s.phase c = .closeLoop [] →
      Moves s c .unlock { s.goto c .stopping with muListeners := none }

/-- Every enabled step is one of the moves. -/
theorem moves_of_step {newMultiaddr : Str → Except Err Maddr} {s s' : State C Maddr} {c : C}
    {op : Op} (h : step newMultiaddr s c op = some s') : Moves s c op s' := by
  have hfree : ∀ {p q : Phase Maddr}, s.phase c = p → p.Free → q.Free → op ≠ .range →
      Moves s c op (s.goto c q) := by
    rintro p q rfl hp hq hop
    exact .free hp hq hop
  cases op with
  | serve call =>
    simp only [step] at h
    split at h <;> cases h
    rename_i hphase
    exact hfree hphase trivial trivial (by simp)
  | newMultiaddr =>
    simp only [step] at h
    split at h
    · rename_i hphase
      split at h <;> cases h <;> exact hfree hphase trivial trivial (by simp)
    · cases h
  | listen ok =>
    simp only [step] at h
    split at h
    · rename_i hphase
      cases ok <;> cases h
      · exact hfree hphase trivial trivial (by simp)
      · exact .listen hphase
    · cases h
  | lock =>
    simp only [step] at h
    split at h
    · split at h <;> cases h
      · exact .lock ‹_› ‹_›
      · exact .closeLock ‹_› ‹_›
    · cases h
  | load =>
    simp only [step] at h
    split at h <;> cases h
    exact .load ‹_›
  | store =>
    simp only [step] at h
    split at h <;> cases h
    exact .store ‹_›
  | unlock =>
    simp only [step] at h
    split at h <;> cases h
    · exact .unlock ‹_›
    · exact .closeUnlock ‹_›
  | report =>
    simp only [step] at h
    split at h <;> cases h
    exact .report ‹_›
  | finish =>
    simp only [step] at h
    split at h <;> cases h
    rename_i hphase
    exact hfree hphase trivial trivial (by simp)
  | close =>
    simp only [step] at h
    split at h <;> cases h
    rename_i hphase
    exact hfree hphase trivial trivial (by simp)
  | range =>
    simp only [step] at h
    split at h <;> cases h
    exact .range ‹_›
  | closeNext =>
    simp only [step] at h
    split at h <;> cases h
    exact .closeNext ‹_›
  | stop =>
    simp only [step] at h
    split at h <;> cases h
    rename_i hphase
    exact hfree hphase trivial trivial (by simp)

end Steps

end IpfsMobile.Core.Node
