import IpfsMobile.Go.Call
import Mathlib.Data.List.ReduceOption

/-!
# Functions that change a state and may fail

A Go function that works on an object in place and returns an error has changed the
object by the time it fails. Such functions compose: the second runs on what the first
has left, unless the first failed. The loop that calls them one after another stops at
the first error. `RunsTo` says what such a loop is for, on the list of what it calls.
-/

namespace Go

/-- A function that changes a state in place and returns an error, or nil. -/
abbrev Fallible (σ ε : Type) := σ → σ × Option ε

namespace Fallible

variable {σ ε ι : Type}

/-- Change nothing and succeed. -/
def skip : Fallible σ ε := fun s => (s, none)

/-- Run the second function on what the first has left, unless the first failed. -/
def andThen (f g : Fallible σ ε) : Fallible σ ε := fun s =>
  match f s with
  | (s', some e) => (s', some e)
  | (s', none) => g s'

/-- Call the functions of a list in order, leaving out nil, and stop at the first error. -/
def chain : List (Option (Fallible σ ε)) → Fallible σ ε
  | [] => skip
  | none :: fs => chain fs
  | some f :: fs => andThen f (chain fs)

/-- Run a function and record its name, whatever it returns. -/
def recorded (run : ι → Fallible σ ε) (i : ι) : Fallible (σ × List ι) ε := fun s =>
  (((run i s.1).1, s.2 ++ [i]), (run i s.1).2)

/-- Running the named functions in order, up to and including the first that fails, leads
from one state to another. The list of those that ran and the error come with it. -/
inductive RunsTo (run : ι → Fallible σ ε) : List ι → σ → List ι → σ → Option ε → Prop
  | done {s : σ} : RunsTo run [] s [] s none
  | failed {i : ι} {is : List ι} {s s' : σ} {e : ε} : run i s = (s', some e) →
      RunsTo run (i :: is) s [i] s' (some e)
  | next {i : ι} {is executed : List ι} {s s' s'' : σ} {err : Option ε} :
      run i s = (s', none) → RunsTo run is s' executed s'' err →
      RunsTo run (i :: is) s (i :: executed) s'' err

/-- Apply a function, if there is one, to what was made. Its error comes back wrapped. -/
def applyTo (wrap : ε → ε) (made : Except ε σ) (f : Option (Fallible σ ε)) : Except ε σ :=
  match made, f with
  | .error e, _ => .error e
  | .ok s, none => .ok s
  | .ok s, some f =>
    match f s with
    | (s', none) => .ok s'
    | (_, some e) => .error (wrap e)

@[simp] theorem chain_nil : chain ([] : List (Option (Fallible σ ε))) = skip := rfl

@[simp] theorem chain_cons_none (fs : List (Option (Fallible σ ε))) :
    chain (none :: fs) = chain fs := rfl

@[simp] theorem chain_cons_some (f : Fallible σ ε) (fs : List (Option (Fallible σ ε))) :
    chain (some f :: fs) = andThen f (chain fs) := rfl

@[simp] theorem andThen_skip (f : Fallible σ ε) : andThen f skip = f := by
  funext s
  unfold andThen skip
  split <;> rename_i hf <;> exact hf.symm

theorem andThen_assoc (f g h : Fallible σ ε) :
    andThen (andThen f g) h = andThen f (andThen g h) := by
  funext s
  simp only [andThen]
  cases f s with
  | mk s' err => cases err <;> rfl

/-- The chain of two lists is the chain of the first, then that of the second. -/
theorem chain_append (fs gs : List (Option (Fallible σ ε))) :
    chain (fs ++ gs) = andThen (chain fs) (chain gs) := by
  induction fs with
  | nil => rfl
  | cons f fs ih =>
    cases f with
    | none => simpa using ih
    | some f =>
      rw [List.cons_append, chain_cons_some, ih, chain_cons_some, andThen_assoc]

/-- Leaving out nil beforehand makes no difference. -/
theorem chain_reduceOption (fs : List (Option (Fallible σ ε))) :
    chain (fs.reduceOption.map fun f => some (id f)) = chain fs := by
  induction fs with
  | nil => rfl
  | cons f fs ih =>
    cases f with
    | none => simpa using ih
    | some f => simpa using congrArg (andThen f) ih

/-- A recorded function does what the function does. -/
theorem recorded_eq {run : ι → Fallible σ ε} {i : ι} {s s' : σ} {err : Option ε}
    (h : run i s = (s', err)) (log : List ι) :
    recorded run i (s, log) = ((s', log ++ [i]), err) := by
  simp only [recorded, h]

/-- A chain runs its functions up to and including the first that fails, and records
exactly these. -/
theorem runsTo_chain (run : ι → Fallible σ ε) (is : List ι) (s : σ) (log : List ι) :
    ∃ executed s' err, RunsTo run is s executed s' err ∧
      chain (is.map fun i => some (recorded run i)) (s, log) = ((s', log ++ executed), err) := by
  induction is generalizing s log with
  | nil => exact ⟨[], s, none, .done, by simp [skip]⟩
  | cons i is ih =>
    rw [List.map_cons, chain_cons_some]
    cases hrun : run i s with
    | mk s' err =>
      have hrecorded := recorded_eq hrun log
      cases err with
      | some e =>
        refine ⟨[i], s', some e, .failed hrun, ?_⟩
        simp only [andThen, hrecorded]
      | none =>
        obtain ⟨executed, s'', err, hrest, hchain⟩ := ih s' (log ++ [i])
        refine ⟨i :: executed, s'', err, .next hrun hrest, ?_⟩
        simp only [andThen, hrecorded, hchain, List.append_assoc, List.singleton_append]

/-- A chain does to the state what running its functions does. -/
theorem RunsTo.chain_eq {run : ι → Fallible σ ε} {is executed : List ι} {s s' : σ}
    {err : Option ε} (h : RunsTo run is s executed s' err) :
    chain (is.map fun i => some (run i)) s = (s', err) := by
  induction h with
  | done => rfl
  | failed hrun => simp only [List.map_cons, chain_cons_some, andThen, hrun]
  | next hrun _ ih => simp only [List.map_cons, chain_cons_some, andThen, hrun, ih]

/-- There is always one way to run. -/
theorem exists_runsTo (run : ι → Fallible σ ε) (is : List ι) (s : σ) :
    ∃ executed s' err, RunsTo run is s executed s' err := by
  obtain ⟨executed, s', err, hruns, -⟩ := runsTo_chain run is s []
  exact ⟨executed, s', err, hruns⟩

/-- Without an error everything ran, one after another. -/
theorem RunsTo.of_none {run : ι → Fallible σ ε} {is executed : List ι} {s s' : σ}
    (h : RunsTo run is s executed s' none) :
    executed = is ∧ s' = is.foldl (fun s i => (run i s).1) s := by
  generalize herr : (none : Option ε) = err at h
  induction h with
  | done => exact ⟨rfl, rfl⟩
  | failed hrun => cases herr
  | next hrun _ ih =>
    obtain ⟨hexecuted, hstate⟩ := ih herr
    exact ⟨by rw [hexecuted], by rw [hstate, List.foldl_cons, hrun]⟩

end Fallible

end Go
