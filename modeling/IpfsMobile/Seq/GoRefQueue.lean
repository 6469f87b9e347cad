import IpfsMobile.Concurrent.Transition
import Mathlib.Data.Finset.Card
import Mathlib.Data.Int.Notation
import Mathlib.Tactic.Common

/-!
# Proxies for Go objects

Go counts how often a Go object is held in Java. The constructor of a proxy tracks it by a
`GoRef`, which the garbage collector puts into a queue when the proxy can no longer be
reached. A daemon thread takes it from there and tells Go. Threads that make proxies, the
collector and the daemon may be interleaved in any way.
-/

namespace IpfsMobile.Seq.GoRefQueue

open Concurrent

/-- How far the daemon is with a `GoRef`. -/
inductive Daemon where
  /-- Before `remove()`. -/
  | waiting
  /-- Before `refs.remove(ref)`. -/
  | taken (g : ℕ)
  /-- Before `destroyRef(ref.refnum)`. -/
  | unlisted (g : ℕ)
  /-- Before `ref.clear()`. -/
  | informed (g : ℕ)
  deriving DecidableEq, Repr

/-- The exceptions for numbers of Java objects. -/
inductive Rejected where
  /-- "trackGoRef called with Java refnum " + refnum -/
  | trackGoRef (refnum : ℤ)
  /-- "GoRef instantiated with a Java refnum " + refnum -/
  | goRef (refnum : ℤ)
  deriving DecidableEq, Repr

/-- The `GoRef`s, which are known by the order in which they were made, and where they are. -/
structure State where
  /-- The numbers of the Go objects. -/
  refnums : List ℤ := []
  /-- Made by a call of `track` that has not added it to `refs` yet. -/
  adding : Finset ℕ := ∅
  refs : Finset ℕ := ∅
  /-- The proxy cannot be reached any more. -/
  lost : Finset ℕ := ∅
  /-- Put into the queue, now or before. -/
  enqueued : Finset ℕ := ∅
  queue : List ℕ := []
  daemon : Daemon := .waiting
  /-- The calls of `destroyRef`. -/
  destroyed : List ℕ := []
  deriving DecidableEq

/-- One step of a thread, of the collector or of the daemon. -/
inductive Action where
  /-- `trackGoRef` up to the new `GoRef`, with the exception. -/
  | track (refnum : ℤ) (thrown : Option Rejected)
  | add (g : ℕ)
  | lose (g : ℕ)
  | enqueue (g : ℕ)
  | remove (g : ℕ)
  /-- An `InterruptedException` in `remove()`, which is ignored. -/
  | interrupt
  | unlist
  | destroyRef
  | clear
  deriving DecidableEq, Repr

/-- `new GoRef(refnum, obj, this)`. -/
def newGoRef (s : State) (refnum : ℤ) : Except Rejected State :=
  if refnum > 0 then .error (.goRef refnum)
  else .ok { s with refnums := s.refnums ++ [refnum]
                    adding := insert s.refnums.length s.adding }

/-- `trackGoRef`, without the step that adds to `refs`. -/
def trackGoRef (s : State) (refnum : ℤ) : Except Rejected State :=
  if refnum > 0 then .error (.trackGoRef refnum) else newGoRef s refnum

/-- The steps. The collector enqueues a `GoRef` once, and only as long as it can be reached
itself. -/
def step (s : State) : Action → Option State
  | .track refnum thrown =>
    match trackGoRef s refnum with
    | .error e => if thrown = some e then some s else none
    | .ok s => if thrown = none then some s else none
  | .add g =>
    if g ∈ s.adding then some { s with adding := s.adding.erase g, refs := insert g s.refs }
    else none
  | .lose g =>
    if g < s.refnums.length ∧ g ∉ s.lost then some { s with lost := insert g s.lost } else none
  | .enqueue g =>
    if g ∈ s.lost ∧ g ∉ s.enqueued ∧ (g ∈ s.adding ∨ g ∈ s.refs) then
      some { s with enqueued := insert g s.enqueued, queue := s.queue ++ [g] }
    else none
  | .remove g =>
    if s.daemon = .waiting ∧ g ∈ s.queue then
      some { s with daemon := .taken g, queue := s.queue.erase g }
    else none
  | .interrupt => if s.daemon = .waiting then some s else none
  | .unlist =>
    match s.daemon with
    | .taken g => some { s with daemon := .unlisted g, refs := s.refs.erase g }
    | _ => none
  | .destroyRef =>
    match s.daemon with
    | .unlisted g => some { s with daemon := .informed g, destroyed := s.destroyed ++ [g] }
    | _ => none
  | .clear =>
    match s.daemon with
    | .informed _ => some { s with daemon := .waiting }
    | _ => none

/-- The proxies of a process. -/
def system : System State Action where
  init := {}
  step := step

/-- What a step does. -/
inductive Moves (s : State) : Action → State → Prop
  | reject {n e} : 0 < n → Moves s (.track n (some e)) s
  | interrupt : Moves s .interrupt s
  | track {n} : n ≤ 0 → Moves s (.track n none)
      { s with refnums := s.refnums ++ [n], adding := insert s.refnums.length s.adding }
  | add {g} : g ∈ s.adding →
      Moves s (.add g) { s with adding := s.adding.erase g, refs := insert g s.refs }
  | lose {g} : g < s.refnums.length → g ∉ s.lost →
      Moves s (.lose g) { s with lost := insert g s.lost }
  | enqueue {g} : g ∈ s.lost → g ∉ s.enqueued → Moves s (.enqueue g)
      { s with enqueued := insert g s.enqueued, queue := s.queue ++ [g] }
  | remove {g} : s.daemon = .waiting → g ∈ s.queue →
      Moves s (.remove g) { s with daemon := .taken g, queue := s.queue.erase g }
  | unlist {g} : s.daemon = .taken g →
      Moves s .unlist { s with daemon := .unlisted g, refs := s.refs.erase g }
  | destroyRef {g} : s.daemon = .unlisted g →
      Moves s .destroyRef { s with daemon := .informed g, destroyed := s.destroyed ++ [g] }
  | clear {g} : s.daemon = .informed g → Moves s .clear { s with daemon := .waiting }

/-- Every enabled step is one of the moves. -/
theorem moves_of_step {s s' : State} {a : Action} (h : step s a = some s') : Moves s a s' := by
  cases a with
  | track n thrown =>
    simp only [step, trackGoRef, newGoRef] at h
    by_cases hn : n > 0
    · simp only [if_pos hn] at h
      split at h <;> cases h
      rename_i hthrown
      subst hthrown
      exact .reject hn
    · simp only [if_neg hn] at h
      split at h <;> cases h
      rename_i hthrown
      subst hthrown
      exact .track (by omega)
  | add g =>
    simp only [step] at h
    split at h <;> cases h
    exact .add ‹_›
  | lose g =>
    simp only [step] at h
    split at h <;> cases h
    rename_i hlose
    exact .lose hlose.1 hlose.2
  | enqueue g =>
    simp only [step] at h
    split at h <;> cases h
    rename_i henqueue
    exact .enqueue henqueue.1 henqueue.2.1
  | remove g =>
    simp only [step] at h
    split at h <;> cases h
    rename_i hremove
    exact .remove hremove.1 hremove.2
  | interrupt =>
    simp only [step] at h
    split at h <;> cases h
    exact .interrupt
  | unlist =>
    simp only [step] at h
    split at h <;> cases h
    exact .unlist ‹_›
  | destroyRef =>
    simp only [step] at h
    split at h <;> cases h
    exact .destroyRef ‹_›
  | clear =>
    simp only [step] at h
    split at h <;> cases h
    exact .clear ‹_›

end IpfsMobile.Seq.GoRefQueue
