import IpfsMobile.Concurrent.Transition
import Mathlib.Algebra.BigOperators.Group.Finset.Basic

/-!
# Calls under way

Each step leads one call from a phase to another and leaves the phases of the others. What
the calls have still to do is a sum over those that were made, in which only one summand
changes at a time.
-/

namespace Concurrent

variable {State Action C Phase : Type} [DecidableEq C]

/-- The calls that take these steps. -/
def callsOf (call : Action → C) (as : List Action) : Finset C := (as.map call).toFinset

/-- Every call is idle at first, and a step changes the phase of its own call only. -/
structure TakesTurns (sys : System State Action) (call : Action → C) (phase : State → C → Phase)
    (idle : Phase) : Prop where
  init : ∀ c, phase sys.init c = idle
  step : ∀ s a s', sys.step s a = some s' →
    ∃ q, phase s' = Function.update (phase s) (call a) q

/-- A call that has taken no step is idle. -/
theorem TakesTurns.idle_of_trace {sys : System State Action} {call : Action → C}
    {phase : State → C → Phase} {idle : Phase} (hturns : TakesTurns sys call phase idle)
    {as : List Action} {s : State} (h : sys.Trace as s) :
    ∀ c ∉ callsOf call as, phase s c = idle := by
  unfold System.Trace at h
  induction h with
  | refl => exact fun c _ => hturns.init c
  | snoc hprev hnext ih =>
    intro c hc
    simp only [callsOf, List.map_append, List.toFinset_append, Finset.mem_union, not_or,
      List.map_cons, List.map_nil, List.mem_toFinset, List.mem_singleton] at hc
    obtain ⟨q, hq⟩ := hturns.step _ _ _ hnext
    rw [hq, Function.update_of_ne hc.2]
    exact ih c (by simpa [callsOf] using hc.1)

/-- What changes in a sum over calls when one of them goes on. -/
theorem sum_update {calls : Finset C} {c : C} (hc : c ∈ calls) (f : C → Phase → ℕ)
    (phase : C → Phase) (q : Phase) :
    ∑ d ∈ calls, f d (Function.update phase c q d) + f c (phase c) =
      ∑ d ∈ calls, f d (phase d) + f c q := by
  have hrest : ∑ d ∈ calls.erase c, f d (Function.update phase c q d) =
      ∑ d ∈ calls.erase c, f d (phase d) := by
    refine Finset.sum_congr rfl fun d hd => ?_
    rw [Function.update_of_ne (Finset.ne_of_mem_erase hd)]
  rw [← Finset.add_sum_erase calls _ hc, ← Finset.add_sum_erase calls (fun d => f d (phase d)) hc,
    hrest, Function.update_self]
  omega

end Concurrent
