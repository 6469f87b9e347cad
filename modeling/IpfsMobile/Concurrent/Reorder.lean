import IpfsMobile.Concurrent.Transition
import Mathlib.Data.List.Perm.Basic

/-!
# Actions in any order

Actions that are apart from each other, each of which is enabled by itself, can be taken one
after the other in every order. The states they lead to are alike.
-/

namespace Concurrent

variable {State Action : Type}

/-- Of two actions that are apart, each stays enabled after the other, and in either order they
lead to states that are alike. An action leads from states that are alike to such states. -/
structure Reorders (sys : System State Action) (good : Action → Prop)
    (apart : Action → Action → Prop) (alike : State → State → Prop) : Prop where
  refl : ∀ s, alike s s
  trans : ∀ {s t u}, alike s t → alike t u → alike s u
  symm : ∀ {a b}, apart a b → apart b a
  join : ∀ {a b s s₁ s₂}, good a → good b → apart a b → sys.step s a = some s₁ →
    sys.step s b = some s₂ →
      ∃ s₁₂ s₂₁, sys.step s₁ b = some s₁₂ ∧ sys.step s₂ a = some s₂₁ ∧ alike s₁₂ s₂₁
  respects : ∀ {a s t s' t'}, good a → alike s t → sys.step s a = some s' →
    sys.step t a = some t' → alike s' t'

/-- Actions that are apart, each of which is enabled. -/
structure Ready (sys : System State Action) (good : Action → Prop)
    (apart : Action → Action → Prop) (s : State) (as : List Action) : Prop where
  good : ∀ a ∈ as, good a
  apart : as.Pairwise apart
  enabled : ∀ a ∈ as, ∃ t, sys.step s a = some t

namespace Reorders

variable {sys : System State Action} {good : Action → Prop} {apart : Action → Action → Prop}
  {alike : State → State → Prop}

theorem replay_cons {s s' : State} {a : Action} {as : List Action} (h : sys.step s a = some s') :
    sys.replay s (a :: as) = sys.replay s' as := by
  rw [System.replay, List.foldlM_cons, h]
  rfl

/-- After one of the actions the others are still enabled. -/
theorem ready_step (hsys : Reorders sys good apart alike) {s s' : State} {a : Action}
    {as : List Action} (h : Ready sys good apart s (a :: as)) (ha : sys.step s a = some s') :
    Ready sys good apart s' as := by
  obtain ⟨hfirst, hrest⟩ := List.pairwise_cons.mp h.apart
  refine ⟨fun b hb => h.good b (List.mem_cons_of_mem _ hb), hrest, fun b hb => ?_⟩
  obtain ⟨t, hb'⟩ := h.enabled b (List.mem_cons_of_mem _ hb)
  obtain ⟨u, -, hu, -⟩ := hsys.join (h.good a List.mem_cons_self)
    (h.good b (List.mem_cons_of_mem _ hb)) (hfirst b hb) ha hb'
  exact ⟨u, hu⟩

/-- The order of the actions makes no difference to this. -/
theorem ready_perm (hsys : Reorders sys good apart alike) {s : State} {as bs : List Action}
    (hperm : as.Perm bs) (h : Ready sys good apart s as) : Ready sys good apart s bs where
  good b hb := h.good b (hperm.mem_iff.mpr hb)
  apart := (hperm.pairwise_iff hsys.symm).mp h.apart
  enabled b hb := h.enabled b (hperm.mem_iff.mpr hb)

/-- All of the actions can be taken one after the other. -/
theorem exists_replay (hsys : Reorders sys good apart alike) {s : State} {as : List Action}
    (h : Ready sys good apart s as) : ∃ t, sys.replay s as = some t := by
  induction as generalizing s with
  | nil => exact ⟨s, rfl⟩
  | cons a as ih =>
    obtain ⟨s', ha⟩ := h.enabled a List.mem_cons_self
    rw [replay_cons ha]
    exact ih (hsys.ready_step h ha)

/-- The same actions lead from states that are alike to such states. -/
theorem alike_of_replay (hsys : Reorders sys good apart alike) {as : List Action}
    (hgood : ∀ a ∈ as, good a) {s t s' t' : State} (halike : alike s t)
    (hs : sys.replay s as = some s') (ht : sys.replay t as = some t') : alike s' t' := by
  induction as generalizing s t with
  | nil =>
    obtain rfl : s = s' := Option.some.inj hs
    obtain rfl : t = t' := Option.some.inj ht
    exact halike
  | cons a as ih =>
    rw [System.replay, List.foldlM_cons] at hs ht
    obtain ⟨s₁, hs₁, hs⟩ := Option.bind_eq_some_iff.mp hs
    obtain ⟨t₁, ht₁, ht⟩ := Option.bind_eq_some_iff.mp ht
    exact ih (fun b hb => hgood b (List.mem_cons_of_mem _ hb))
      (hsys.respects (hgood a List.mem_cons_self) halike hs₁ ht₁) hs ht

/-- Two actions and then the others can be taken with the first two in either order. -/
theorem replay_swap (hsys : Reorders sys good apart alike) {s : State} {a b : Action}
    {as : List Action} (h : Ready sys good apart s (b :: a :: as)) :
    ∃ t u, sys.replay s (b :: a :: as) = some t ∧ sys.replay s (a :: b :: as) = some u ∧
      alike t u := by
  have h' : Ready sys good apart s (a :: b :: as) := hsys.ready_perm (.swap a b as) h
  obtain ⟨s₁, ha⟩ := h'.enabled a List.mem_cons_self
  obtain ⟨s₂, hb⟩ := h.enabled b List.mem_cons_self
  have hapart : apart b a := (List.pairwise_cons.mp h.apart).1 a List.mem_cons_self
  obtain ⟨s₂₁, s₁₂, hba, hab, halike⟩ := hsys.join (h.good b List.mem_cons_self)
    (h'.good a List.mem_cons_self) hapart hb ha
  have hrest := hsys.ready_step (hsys.ready_step h hb) hba
  have hrest' := hsys.ready_step (hsys.ready_step h' ha) hab
  obtain ⟨t, ht⟩ := hsys.exists_replay hrest
  obtain ⟨u, hu⟩ := hsys.exists_replay hrest'
  refine ⟨t, u, ?_, ?_, hsys.alike_of_replay hrest.good halike ht hu⟩
  · rw [replay_cons hb, replay_cons hba, ht]
  · rw [replay_cons ha, replay_cons hab, hu]

/-- Actions that are apart can be taken in every order, to states that are alike. -/
theorem replay_perm (hsys : Reorders sys good apart alike) {as bs : List Action}
    (hperm : as.Perm bs) {s : State} (h : Ready sys good apart s as) :
    ∃ t u, sys.replay s as = some t ∧ sys.replay s bs = some u ∧ alike t u := by
  induction hperm generalizing s with
  | nil => exact ⟨s, s, rfl, rfl, hsys.refl s⟩
  | @cons a as bs _ ih =>
    obtain ⟨s', ha⟩ := h.enabled a List.mem_cons_self
    rw [replay_cons ha, replay_cons ha]
    exact ih (hsys.ready_step h ha)
  | swap a b as => exact hsys.replay_swap h
  | trans hperm _ ih ih' =>
    obtain ⟨t, u, ht, hu, htu⟩ := ih h
    obtain ⟨u', w, hu', hw, huw⟩ := ih' (hsys.ready_perm hperm h)
    obtain rfl : u = u' := Option.some.inj (hu.symm.trans hu')
    exact ⟨t, w, ht, hw, hsys.trans htu huw⟩

end Reorders

end Concurrent
