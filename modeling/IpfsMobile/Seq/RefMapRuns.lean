import IpfsMobile.Concurrent.Transition
import IpfsMobile.Seq.RefMapSpec
import Mathlib.Data.Set.Card

/-!
# Runs of the map of references

Every sequence of calls on a new map is one on a finite map: a call answers by what the
calls before have stored and not removed. The arrays behind it stay within four times the
greatest number of objects that are stored at a time.
-/

namespace IpfsMobile.Seq

open Concurrent

variable {α : Type} [DecidableEq α]

/-- A call on the map, with what it returns. -/
inductive MapCall (α : Type) where
  | get (key : ℤ) (result : Option α)
  | remove (key : ℤ)
  | put (key : ℤ) (obj : Option α) (result : Except MapFault Unit)

namespace RefMap

/-- The calls on a map. -/
def system (α : Type) [DecidableEq α] : System (RefMap α) (MapCall α) where
  init := {}
  step m
    | .get key result => if m.get key = result then some m else none
    | .remove key => some (m.remove key)
    | .put key obj result => if (m.put key obj).1 = result then some (m.put key obj).2 else none

/-- What a call changes in a finite map. -/
def stored (f : ℤ → Option α) : MapCall α → ℤ → Option α
  | .remove key => Function.update f key none
  | .put key obj (.ok ()) => Function.update f key obj
  | _ => f

/-- What calls leave in a finite map that was empty. -/
def contents (calls : List (MapCall α)) : ℤ → Option α := calls.foldl stored fun _ => none

/-- How storing an object in a finite map ends: another object is not replaced, and there is
a limit to the number of objects. -/
noncomputable def storing (f : ℤ → Option α) (key : ℤ) (obj : α) : Except MapFault Unit :=
  match f key with
  | some old => if old = obj then .ok () else .error (.replacing key)
  | none => if {k | (f k).isSome}.ncard < 2 ^ 30 then .ok () else .error .indexOutOfBounds

variable {m m' : RefMap α}

omit [DecidableEq α] in
/-- `live` is the number of keys with an object. -/
theorem Sound.ncard (h : m.Sound) :
    m.live = {k | (m.get k).isSome}.ncard := by
  have hset : {k | (m.get k).isSome} =
      (((m.entries.filter (·.2.isSome)).map Prod.fst).toFinset : Set ℤ) := by
    ext k
    simp only [Set.mem_ofPred_eq, Option.isSome_iff_exists, h.get_eq_some_iff, List.coe_toFinset,
      List.mem_map, List.mem_filter]
    constructor
    · rintro ⟨obj, hmem⟩
      exact ⟨(k, some obj), ⟨hmem, obj, rfl⟩, rfl⟩
    · rintro ⟨⟨k', o⟩, ⟨hmem, obj, rfl⟩, rfl⟩
      exact ⟨obj, hmem⟩
  have hnodup : ((m.entries.filter (·.2.isSome)).map Prod.fst).Nodup :=
    h.nodup_keys.sublist (List.filter_sublist.map Prod.fst)
  rw [hset, Set.ncard_coe_finset, List.toFinset_card_of_nodup hnodup, List.length_map,
    ← List.countP_eq_length_filter, h.live_eq]

/-- `put` of an object on a sound map ends as on the finite map, and stores the object if it
returns. -/
theorem Sound.put (h : m.Sound) (key : ℤ) (obj : α) :
    (m.put key (some obj)).1 = storing m.get key obj ∧ (m.put key (some obj)).2.Sound ∧
      (∀ k, (m.put key (some obj)).2.get k =
        stored m.get (.put key (some obj) (storing m.get key obj)) k) ∧
      ((m.put key (some obj)).2.keys.length = m.keys.length ∨
        (m.put key (some obj)).2.keys.length < 4 * m.live) := by
  have hlive := h.live_le
  cases hget : m.get key with
  | some old =>
    rw [h.put_of_get hget, storing, hget]
    refine ⟨rfl, h, fun k => ?_, Or.inl rfl⟩
    by_cases heq : old = obj
    · subst heq
      simp only [if_true, stored]
      rw [← hget, Function.update_eq_self]
    · simp only [if_neg heq, stored]
  | none =>
    by_cases hroom : m.live < 2 ^ 30
    · obtain ⟨m', hput, hstores, hlen⟩ := h.put_of_room hget hroom obj
      have hcard : {k | (m.get k).isSome}.ncard < 2 ^ 30 := by
        have hncard := h.ncard
        omega
      have hstoring : storing m.get key obj = .ok () := by
        rw [storing, hget]
        exact if_pos hcard
      rw [hput, hstoring]
      refine ⟨rfl, hstores.sound, fun k => ?_, hlen⟩
      rw [hstores.get_eq, stored, Function.update_apply]
    · obtain ⟨m', hput, hsame, hlen⟩ := h.put_of_full hget (by omega) obj
      have hcard : ¬{k | (m.get k).isSome}.ncard < 2 ^ 30 := by
        have hncard := h.ncard
        omega
      have hstoring : storing m.get key obj = .error .indexOutOfBounds := by
        rw [storing, hget]
        exact if_neg hcard
      rw [hput, hstoring]
      refine ⟨rfl, hsame.sound, hsame.get_eq, Or.inr ?_⟩
      change (m'.keys.length : ℤ) < 4 * m.live
      omega

/-- What a call on a sound map does. -/
theorem Sound.step (h : m.Sound) {call : MapCall α} (hstep : (system α).step m call = some m') :
    m'.Sound ∧ m'.get = stored m.get call ∧
      (m'.keys.length = m.keys.length ∨ m'.keys.length < 4 * m.live) := by
  cases call with
  | get key result =>
    simp only [system] at hstep
    split at hstep <;> cases hstep
    exact ⟨h, rfl, Or.inl rfl⟩
  | remove key =>
    obtain rfl := Option.some.inj hstep
    obtain ⟨hsound, -, hlen, hgets⟩ := h.remove key
    refine ⟨hsound, funext fun k => ?_, Or.inl hlen⟩
    rw [hgets, stored, Function.update_apply]
  | put key obj result =>
    simp only [system] at hstep
    split at hstep <;> cases hstep
    rename_i hresult
    cases obj with
    | none =>
      subst hresult
      exact ⟨h, rfl, Or.inl rfl⟩
    | some obj =>
      obtain ⟨hend, hsound, hgets, hlen⟩ := h.put key obj
      rw [← hresult, hend]
      exact ⟨hsound, funext hgets, hlen⟩

/-- A map is sound in every state it reaches, and holds what was stored. -/
theorem sound_of_trace {calls : List (MapCall α)} (h : (system α).Trace calls m) :
    m.Sound ∧ m.get = contents calls := by
  unfold System.Trace at h
  induction h with
  | refl => exact ⟨sound_init, funext fun k => rfl⟩
  | snoc hprev hnext ih =>
    obtain ⟨hsound, hget⟩ := ih
    obtain ⟨hsound', hget', -⟩ := hsound.step hnext
    refine ⟨hsound', ?_⟩
    rw [hget', hget, contents, contents, List.foldl_append]
    rfl

variable (m) in
/-- A map answers every call as a finite map does. -/
structure Behaves (calls : List (MapCall α)) : Prop where
  get : ∀ key, m.get key = contents calls key
  put : ∀ key obj, (m.put key (some obj)).1 = storing (contents calls) key obj

/-- After every sequence of calls the map answers as the finite map with the same contents:
nothing is lost when the arrays are compacted or grow, and no other exception is thrown. -/
theorem behaves_of_trace {calls : List (MapCall α)} (h : (system α).Trace calls m) :
    m.Behaves calls := by
  obtain ⟨hsound, hget⟩ := sound_of_trace h
  refine ⟨fun key => congrFun hget key, fun key obj => ?_⟩
  rw [← hget]
  exact (hsound.put key obj).1

/-- As long as at most `n` objects are stored at a time, the arrays are at most four times as
long, however many keys are used. -/
theorem length_le_of_trace {calls : List (MapCall α)} {n : ℕ}
    (h : ((system α).restrict fun m _ => m.live ≤ n).Trace calls m) :
    m.keys.length ≤ max 16 (4 * n) := by
  have hkept : m.Sound ∧ m.keys.length ≤ max 16 (4 * n) := by
    refine h.invariant (P := fun t => t.Sound ∧ t.keys.length ≤ max 16 (4 * n))
      ⟨sound_init, Nat.le_max_left _ _⟩ fun _ t call t' _ hold hnext => ?_
    obtain ⟨hallowed, hstep⟩ := System.restrict_step.mp hnext
    obtain ⟨hsound, -, hlen⟩ := hold.1.step hstep
    have hbefore := hold.2
    exact ⟨hsound, by omega⟩
  exact hkept.2

/-- The arrays are filled and most of the objects removed, so that the next `put` compacts them.
They are filled again, so that another one makes them longer. -/
def reused : List (MapCall ℕ) :=
  (List.range 16).map (fun i => .put (42 + i) (some i) (.ok ())) ++
    (List.range 10).map (fun i => .remove (42 + i)) ++
      (List.range 11).map (fun i => .put (58 + i) (some (16 + i)) (.ok ())) ++
        [.get 42 none, .put 52 (some 3) (.error (.replacing 52)), .put 42 (some 3) (.ok ())]

/-- The map answers rightly after its arrays were compacted and have grown. -/
theorem behaves_of_trace_reused : ((system ℕ).after reused).Behaves reused :=
  behaves_of_trace (System.trace_after (by decide +kernel))

/-- Of 16 entries 6 are left before another one is put, and the arrays have grown at the end. -/
example : ((system ℕ).after (reused.take 27)).next = 7 ∧
    ((system ℕ).after reused).keys.length = 32 := by
  decide +kernel

/-- Up to 18 objects are in arrays of length 32. -/
theorem length_le_of_trace_reused :
    (((system ℕ).restrict fun m _ => m.live ≤ (18 : ℕ)).after reused).keys.length ≤
      max 16 (4 * 18) :=
  length_le_of_trace (System.trace_after (by decide +kernel))

end RefMap

end IpfsMobile.Seq
