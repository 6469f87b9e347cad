import Mathlib.Data.List.Induction
import Mathlib.Logic.Function.Basic
import Mathlib.Tactic.Common

/-!
# Transition systems and mutexes

An interleaving of concurrent calls is a list of actions, each taken by one call
from the state the others have left. The step function is undefined where an
action is not enabled, so that the guards used in proofs are the ones a replay of
a concrete run checks. Invariants, simulations and the exclusion that a mutex
gives are stated once here, for any states, actions and phases.
-/

namespace Concurrent

/-- A transition system: an initial state, and the effect of each action that is enabled. -/
structure System (State Action : Type) where
  init : State
  step : State → Action → Option State

namespace System

variable {State Action : Type} (sys : System State Action)

/-- The actions `as` lead from one state to another. -/
inductive Steps (s : State) : List Action → State → Prop
  | refl : Steps s [] s
  | snoc {as : List Action} {a : Action} {s' s'' : State} : Steps s as s' →
      sys.step s' a = some s'' → Steps s (as ++ [a]) s''

/-- A run from the initial state. -/
def Trace (as : List Action) (s : State) : Prop := sys.Steps sys.init as s

/-- Replay actions; undefined if one of them is not enabled. -/
def replay (s : State) (as : List Action) : Option State := as.foldlM sys.step s

/-- The state after a replay from the initial one, which stands in for an undefined one. -/
def after (as : List Action) : State := (sys.replay sys.init as).getD sys.init

variable {sys}

/-- A replay is a run. -/
theorem steps_of_replay {s s' : State} {as : List Action} (h : sys.replay s as = some s') :
    sys.Steps s as s' := by
  induction as using List.reverseRecOn generalizing s' with
  | nil =>
    obtain rfl : s = s' := by simpa [replay] using h
    exact .refl
  | append_singleton as a ih =>
    rw [replay, List.foldlM_append] at h
    cases hmid : as.foldlM sys.step s with
    | none => simp [hmid] at h
    | some mid =>
      have hstep : sys.step mid a = some s' := by simpa [hmid] using h
      exact .snoc (ih hmid) hstep

/-- A run can be replayed. -/
theorem Steps.replay_eq {s s' : State} {as : List Action} (h : sys.Steps s as s') :
    sys.replay s as = some s' := by
  induction h with
  | refl => rfl
  | snoc _ hnext ih =>
    rw [replay] at ih ⊢
    rw [List.foldlM_append, ih]
    simpa using hnext

/-- The actions of a run determine where it ends. -/
theorem Steps.unique {s s' s'' : State} {as : List Action} (h : sys.Steps s as s')
    (h' : sys.Steps s as s'') : s' = s'' :=
  Option.some.inj (h.replay_eq.symm.trans h'.replay_eq)

/-- A replay that is defined is a run to the state after it. -/
theorem trace_after {as : List Action} (h : (sys.replay sys.init as).isSome = true) :
    sys.Trace as (sys.after as) := by
  obtain ⟨s, hs⟩ := Option.isSome_iff_exists.mp h
  refine steps_of_replay ?_
  rw [after, hs, Option.getD_some]

/-- A property that every step keeps is kept along a run. -/
theorem Steps.keep {P : State → Prop}
    (hstep : ∀ s a s', P s → sys.step s a = some s' → P s') {s s' : State} {as : List Action}
    (h : sys.Steps s as s') (hs : P s) : P s' := by
  induction h with
  | refl => exact hs
  | snoc _ hnext ih => exact hstep _ _ _ ih hnext

/-- A measure that every step of some kind makes smaller bounds the runs of such steps. What
these steps keep is kept along the run. -/
theorem Steps.length_add_le {P : State → Prop} {Q : Action → Prop} {μ : State → ℕ}
    (hstep : ∀ s a s', P s → Q a → sys.step s a = some s' → P s' ∧ μ s' < μ s)
    {s s' : State} {as : List Action} (h : sys.Steps s as s') (hs : P s) (has : ∀ a ∈ as, Q a) :
    P s' ∧ as.length + μ s' ≤ μ s := by
  induction h with
  | refl => exact ⟨hs, by simp⟩
  | snoc _ hnext ih =>
    obtain ⟨hkept, hlen⟩ := ih fun a ha => has a (List.mem_append_left _ ha)
    obtain ⟨hkept', hlt⟩ := hstep _ _ _ hkept (has _ (by simp)) hnext
    refine ⟨hkept', ?_⟩
    rw [List.length_append, List.length_singleton]
    omega

/-- A run that goes on from the end of another is one run. -/
theorem Steps.append {s s' s'' : State} {as bs : List Action} (h : sys.Steps s as s')
    (h' : sys.Steps s' bs s'') : sys.Steps s (as ++ bs) s'' := by
  induction h' with
  | refl => simpa using h
  | snoc _ hnext ih =>
    rw [← List.append_assoc]
    exact .snoc ih hnext

/-- A property that holds at first and that every step keeps, given what is already
known of the states on runs, holds along every run. -/
theorem Trace.invariant {P : State → Prop} (hinit : P sys.init)
    (hstep : ∀ as s a s', sys.Trace as s → P s → sys.step s a = some s' → P s')
    {as : List Action} {s : State} (h : sys.Trace as s) : P s := by
  unfold Trace at h
  induction h with
  | refl => exact hinit
  | snoc hprev hnext ih => exact hstep _ _ _ _ hprev ih hnext

/-- The runs of a system whose actions are all taken in states that a condition allows. -/
def restrict (sys : System State Action) (P : State → Action → Prop)
    [∀ s a, Decidable (P s a)] : System State Action where
  init := sys.init
  step s a := if P s a then sys.step s a else none

section Restrict

variable {P : State → Action → Prop} [∀ s a, Decidable (P s a)]

/-- A step of the restricted system is a step that the condition allows. -/
theorem restrict_step {s s' : State} {a : Action} :
    (sys.restrict P).step s a = some s' ↔ P s a ∧ sys.step s a = some s' := by
  simp only [restrict]
  split <;> simp_all

end Restrict

/-- Every step of the first system on a run is matched by at most one step of the second. -/
structure Simulates {State' Action' : Type} (sys : System State Action)
    (abs : System State' Action') (R : State → State' → Prop) : Prop where
  /-- The initial states are related. -/
  init : R sys.init abs.init
  /-- A step leads to a state related to the same abstract state or to its successor. -/
  step : ∀ as s a s' x, sys.Trace as s → R s x → sys.step s a = some s' →
    R s' x ∨ ∃ b x', abs.step x b = some x' ∧ R s' x'

/-- A simulated run ends in a state related to one that the abstract system reaches. -/
theorem Simulates.trace {State' Action' : Type} {abs : System State' Action'}
    {R : State → State' → Prop} (hsim : Simulates sys abs R) {as : List Action} {s : State}
    (h : sys.Trace as s) : ∃ bs x, abs.Trace bs x ∧ R s x := by
  unfold Trace at h
  induction h with
  | refl => exact ⟨[], abs.init, .refl, hsim.init⟩
  | snoc hprev hnext ih =>
    obtain ⟨bs, x, habs, hrel⟩ := ih
    rcases hsim.step _ _ _ _ x hprev hrel hnext with hsame | ⟨b, x', hx, hrel'⟩
    · exact ⟨bs, x, habs, hsame⟩
    · exact ⟨bs ++ [b], x', .snoc habs hx, hrel'⟩

/-- Every step of the first system on a run is matched by the actions of the second that it
stands for. -/
structure Performs {State' Action' : Type} (sys : System State Action)
    (abs : System State' Action') (f : Action → List Action') (R : State → State' → Prop) :
    Prop where
  /-- The initial states are related. -/
  init : R sys.init abs.init
  /-- The actions that a step stands for lead to a related state. -/
  step : ∀ as s a s' x, sys.Trace as s → R s x → sys.step s a = some s' →
    ∃ x', abs.Steps x (f a) x' ∧ R s' x'

/-- A run stands for a run of the second system that ends in a related state. -/
theorem Performs.trace {State' Action' : Type} {abs : System State' Action'}
    {f : Action → List Action'} {R : State → State' → Prop} (hperf : Performs sys abs f R)
    {as : List Action} {s : State} (h : sys.Trace as s) :
    ∃ x, abs.Trace (as.flatMap f) x ∧ R s x := by
  unfold Trace at h
  induction h with
  | refl => exact ⟨abs.init, .refl, hperf.init⟩
  | snoc hprev hnext ih =>
    obtain ⟨x, habs, hrel⟩ := ih
    obtain ⟨x', hx, hrel'⟩ := hperf.step _ _ _ _ x hprev hrel hnext
    refine ⟨x', ?_, hrel'⟩
    rw [List.flatMap_append, List.flatMap_singleton]
    exact habs.append hx

end System

section Mutex

variable {C Phase : Type} {Held : Phase → Prop} {holder : Option C} {phase : C → Phase}

/-- A mutex works: a call is in a phase in which it holds the mutex exactly when it
is the recorded holder. -/
def Excludes (Held : Phase → Prop) (holder : Option C) (phase : C → Phase) : Prop :=
  ∀ c, Held (phase c) ↔ holder = some c

/-- Two calls that hold a mutex are the same call. -/
theorem Excludes.unique (h : Excludes Held holder phase) {c c' : C} (hc : Held (phase c))
    (hc' : Held (phase c')) : c = c' := by
  have heq := ((h c).mp hc).symm.trans ((h c').mp hc')
  exact Option.some.inj heq

variable [DecidableEq C]

/-- Taking a free mutex. -/
theorem Excludes.acquire (h : Excludes Held none phase) {c : C} {p : Phase} (hp : Held p) :
    Excludes Held (some c) (Function.update phase c p) := by
  intro d
  by_cases hd : d = c
  · subst hd
    simp [hp]
  · rw [Function.update_of_ne hd, h d]
    simp [Ne.symm hd]

/-- Giving a mutex back. -/
theorem Excludes.release (h : Excludes Held holder phase) {c : C} (hc : Held (phase c))
    {p : Phase} (hp : ¬Held p) : Excludes Held none (Function.update phase c p) := by
  intro d
  by_cases hd : d = c
  · subst hd
    simp [hp]
  · rw [Function.update_of_ne hd]
    refine iff_of_false (fun hheld => hd (h.unique hheld hc)) (by simp)

/-- A step of one call that neither takes nor releases the mutex. -/
theorem Excludes.update (h : Excludes Held holder phase) {c : C} {p : Phase}
    (hp : Held p ↔ Held (phase c)) : Excludes Held holder (Function.update phase c p) := by
  intro d
  by_cases hd : d = c
  · subst hd
    rw [Function.update_self, hp, h d]
  · rw [Function.update_of_ne hd, h d]

end Mutex

end Concurrent
