import IpfsMobile.Concurrent.Transition
import Mathlib.Tactic.Common

/-!
# A ticket dispenser

Callers take numbered tickets, each at most one. Every ticket comes from a single
counter, so no two callers hold the same one, and the counter stops at its bound.
This is what a component that issues unique names does, apart from the names.
-/

namespace Concurrent

/-- The next ticket, and the ticket each caller holds. -/
structure Dispenser (C : Type) where
  next : ℕ
  ticket : C → Option ℕ

namespace Dispenser

variable {C : Type} [DecidableEq C]

/-- The caller `c` takes the next ticket. -/
def take (bound : ℕ) (d : Dispenser C) (c : C) : Option (Dispenser C) :=
  if d.ticket c = none ∧ d.next < bound then
    some ⟨d.next + 1, Function.update d.ticket c (some d.next)⟩
  else none

/-- The dispenser of the tickets below a bound. -/
def system (C : Type) [DecidableEq C] (bound : ℕ) : System (Dispenser C) C where
  init := ⟨0, fun _ => none⟩
  step := take bound

/-- The tickets in use are below the next one and belong to one caller each. -/
structure Fair (bound : ℕ) (d : Dispenser C) : Prop where
  /-- The counter does not pass its bound. -/
  next_le : d.next ≤ bound
  /-- A ticket was taken before the next one. -/
  lt_next : ∀ c k, d.ticket c = some k → k < d.next
  /-- No two callers hold the same ticket. -/
  unique : ∀ c c' k, d.ticket c = some k → d.ticket c' = some k → c = c'

/-- What taking a ticket does: the counter moves on, and the caller holds its old value. -/
theorem take_cases {bound : ℕ} {d d' : Dispenser C} {c : C} (h : d.take bound c = some d') :
    d.next < bound ∧ d'.next = d.next + 1 ∧ d'.ticket = Function.update d.ticket c d.next := by
  unfold take at h
  split at h
  · rename_i hguard
    obtain rfl := Option.some.inj h
    exact ⟨hguard.2, rfl, rfl⟩
  · cases h

/-- Taking a ticket keeps a dispenser fair. -/
theorem Fair.take {bound : ℕ} {d d' : Dispenser C} {c : C} (h : d.Fair bound)
    (hstep : d.take bound c = some d') : d'.Fair bound := by
  obtain ⟨hbound, hnext, hticket⟩ := take_cases hstep
  have hcases : ∀ e k, d'.ticket e = some k →
      (e = c ∧ k = d.next) ∨ (d.ticket e = some k ∧ k < d.next) := by
    intro e k hk
    rw [hticket] at hk
    by_cases he : e = c
    · subst he
      rw [Function.update_self] at hk
      exact Or.inl ⟨rfl, (Option.some.inj hk).symm⟩
    · rw [Function.update_of_ne he] at hk
      exact Or.inr ⟨hk, h.lt_next e k hk⟩
  refine ⟨by omega, ?_, ?_⟩
  · intro e k hk
    rcases hcases e k hk with ⟨-, hk⟩ | ⟨-, hk⟩ <;> omega
  · intro e e' k hk hk'
    -- The new ticket is above all others, so a ticket is new for both callers or for none.
    rcases hcases e k hk with ⟨he, hnew⟩ | ⟨hold, hlt⟩ <;>
      rcases hcases e' k hk' with ⟨he', hnew'⟩ | ⟨hold', hlt'⟩
    · rw [he, he']
    · omega
    · omega
    · exact h.unique e e' k hold hold'

/-- A dispenser without a ticket in use is fair. -/
theorem fair_init (bound : ℕ) : (system C bound).init.Fair bound where
  next_le := Nat.zero_le _
  lt_next := by
    intro c k hk
    cases hk
  unique := by
    intro c c' k hk
    cases hk

/-- A dispenser is fair in every state it reaches. -/
theorem fair_of_trace {bound : ℕ} {cs : List C} {d : Dispenser C}
    (h : (system C bound).Trace cs d) : d.Fair bound :=
  h.invariant (fair_init bound) fun _ _ _ _ _ hfair hstep => hfair.take hstep

end Dispenser

end Concurrent
