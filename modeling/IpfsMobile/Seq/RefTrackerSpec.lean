import IpfsMobile.Concurrent.Ledger
import IpfsMobile.Seq.RefTracker

/-!
# What the tracker keeps

The tracker is a ledger of the numbers that Go holds. A number of an object that is not held
is not in use, except where an object could not be stored: it keeps its number for the next
time. Each call is worked out once here, with the state it leads to.
-/

namespace IpfsMobile.Seq.RefTracker

open Concurrent Go RefMap

variable {O : Type}

/-- The numbers that are held, with their objects and counts. -/
def ledger (t : RefTracker O) : Ledger ℤ O where
  entry n := do
    let r ← t.javaObjs.get n
    let ref ← t.refs.read r
    let o ← ref.obj
    return (o, ref.refcnt.toNat)

/-- The two maps agree, and every number has a `Ref` of its own. -/
structure Kept (t : RefTracker O) : Prop where
  sound : t.javaObjs.Sound
  /-- A number in the map has a `Ref` that was counted, for an object with this number. -/
  ref : ∀ n r, t.javaObjs.get n = some r → ∃ o k, t.refs.read r = some ⟨n, k, some o⟩ ∧
    1 ≤ k ∧ k ≤ maxValue ∧ t.javaRefs o = some n
  /-- Numbers were given out before the next one. -/
  refnum : ∀ o n, t.javaRefs o = some n → 42 ≤ n ∧ n < t.next
  /-- No two objects have the same number. -/
  injective : ∀ o o' n, t.javaRefs o = some n → t.javaRefs o' = some n → o = o'
  next : 42 ≤ t.next ∧ t.next ≤ maxValue
  /-- The `Ref` for null is there. -/
  null : t.refs.read 0 = some .null

/-- Nothing is kept at first. -/
theorem kept_init : Kept ({} : RefTracker O) where
  sound := sound_init
  ref := fun n r h => by
    rw [sound_init.get_eq_some_iff] at h
    cases h
  refnum := fun o n h => by cases h
  injective := fun o o' n h => by cases h
  next := ⟨Int.le_refl 42, (by decide : (42 : ℤ) ≤ maxValue)⟩
  null := rfl

namespace Kept

variable {t : RefTracker O} {n : ℤ} {r : Go.Ref} {o : O} {k : ℤ}

/-- The `Ref` behind a number that an object has. -/
theorem read (h : Kept t) (hget : t.javaObjs.get n = some r) (hn : t.javaRefs o = some n) :
    ∃ k, t.refs.read r = some ⟨n, k, some o⟩ ∧ 1 ≤ k ∧ k ≤ maxValue := by
  obtain ⟨o', k, hread, hpos, hle, ho'⟩ := h.ref n r hget
  obtain rfl := h.injective o o' n hn ho'
  exact ⟨k, hread, hpos, hle⟩

/-- The entry of a number in the map. -/
theorem entry_eq (hget : t.javaObjs.get n = some r)
    (hread : t.refs.read r = some ⟨n, k, some o⟩) : t.ledger.entry n = some (o, k.toNat) := by
  simp [ledger, hget, hread]

/-- Numbers that are not in the map have no entry. -/
theorem entry_eq_none (hget : t.javaObjs.get n = none) : t.ledger.entry n = none := by
  simp [ledger, hget]

/-- A number whose `Ref` is as before has the entry it had. -/
theorem entry_congr {t' : RefTracker O} {m : ℤ}
    (hget : t'.javaObjs.get m = t.javaObjs.get m)
    (hread : ∀ r, t.javaObjs.get m = some r → t'.refs.read r = t.refs.read r) :
    t'.ledger.entry m = t.ledger.entry m := by
  simp only [ledger, hget]
  cases hr : t.javaObjs.get m with
  | none => rfl
  | some r =>
    change (do let ref ← t'.refs.read r; let o ← ref.obj; return (o, ref.refcnt.toNat)) = _
    rw [hread r hr]
    rfl

/-- Ledgers with the same entries, but for one that is written. -/
theorem ledger_eq_write {t' : RefTracker O} {e : Option (O × ℕ)}
    (hn : t'.ledger.entry n = e) (hne : ∀ m ≠ n, t'.ledger.entry m = t.ledger.entry m) :
    t'.ledger = t.ledger.write n e := by
  refine congrArg Ledger.mk (funext fun m => ?_)
  by_cases hm : m = n
  · subst hm
    rw [Function.update_self]
    exact hn
  · rw [Function.update_of_ne hm]
    exact hne m hm

/-- Different numbers have different `Ref`s. -/
theorem pointer_ne (h : Kept t) {n' : ℤ} {r' : Go.Ref} (hget : t.javaObjs.get n = some r)
    (hget' : t.javaObjs.get n' = some r') (hne : n' ≠ n) : r' ≠ r := by
  rintro rfl
  obtain ⟨o, k, hread, -⟩ := h.ref n r' hget
  obtain ⟨o', k', hread', -⟩ := h.ref n' r' hget'
  rw [hread] at hread'
  exact hne (congrArg RefObject.refnum (Option.some.inj hread')).symm

/-- A `Ref` for an object is not the one for null. -/
theorem pointer_ne_null (h : Kept t) (hread : t.refs.read r = some ⟨n, k, some o⟩) : 0 ≠ r := by
  rintro rfl
  have hobj := congrArg RefObject.obj (Option.some.inj (hread.symm.trans h.null))
  cases hobj

/-- Changing the count of a number changes its entry only. -/
theorem setCount (h : Kept t) (hget : t.javaObjs.get n = some r)
    (hread : t.refs.read r = some ⟨n, k, some o⟩) {k' : ℤ} (hpos : 1 ≤ k')
    (hle : k' ≤ maxValue) :
    Kept { t with refs := t.refs.write r ⟨n, k', some o⟩ } ∧
      ledger { t with refs := t.refs.write r ⟨n, k', some o⟩ } =
        t.ledger.write n (some (o, k'.toNat)) := by
  have hwrite := Heap.read_write (Heap.valid_of_read hread) (⟨n, k', some o⟩ : RefObject O)
  have hself : (t.refs.write r ⟨n, k', some o⟩).read r = some ⟨n, k', some o⟩ := by
    rw [hwrite, if_pos rfl]
  have hother : ∀ n' r', n' ≠ n → t.javaObjs.get n' = some r' →
      (t.refs.write r ⟨n, k', some o⟩).read r' = t.refs.read r' := by
    intro n' r' hne hget'
    rw [hwrite, if_neg (h.pointer_ne hget hget' hne)]
  refine ⟨⟨h.sound, fun n' r' hget' => ?_, h.refnum, h.injective, h.next, ?_⟩, ?_⟩
  · by_cases hne : n' = n
    · subst hne
      obtain rfl : r = r' := Option.some.inj (hget.symm.trans hget')
      obtain ⟨o', k'', hread', -, -, hrefs⟩ := h.ref n' r hget
      obtain rfl : o = o' := by
        rw [hread] at hread'
        exact Option.some.inj (congrArg RefObject.obj (Option.some.inj hread'))
      exact ⟨o, k', hself, hpos, hle, hrefs⟩
    · obtain ⟨o', k'', hread', hrest⟩ := h.ref n' r' hget'
      exact ⟨o', k'', (hother n' r' hne hget').trans hread', hrest⟩
  · change (t.refs.write r _).read 0 = _
    rw [hwrite, if_neg (h.pointer_ne_null hread), h.null]
  · exact ledger_eq_write (entry_eq hget hself) fun m hm =>
      entry_congr rfl fun r' hr' => hother m r' hm hr'

/-- An object that is stored under its number gets an entry. -/
theorem store (h : Kept t) (hn : t.javaRefs o = some n) (hget : t.javaObjs.get n = none)
    {m : RefMap Go.Ref} (hstores : Stores t.javaObjs n t.refs.fresh m) :
    Kept { t with javaObjs := m, refs := t.refs.alloc ⟨n, 1, some o⟩ } ∧
      ledger { t with javaObjs := m, refs := t.refs.alloc ⟨n, 1, some o⟩ } =
        t.ledger.write n (some (o, 1)) := by
  have hfresh := Heap.read_fresh t.refs (⟨n, 1, some o⟩ : RefObject O)
  have hold : ∀ n' r', t.javaObjs.get n' = some r' →
      (t.refs.alloc ⟨n, 1, some o⟩).read r' = t.refs.read r' := by
    intro n' r' hget'
    obtain ⟨o', k', hread, -⟩ := h.ref n' r' hget'
    exact Heap.read_alloc (Heap.valid_of_read hread) _
  have hgets := hstores.get_eq
  refine ⟨⟨hstores.sound, fun n' r' hget' => ?_, h.refnum, h.injective, h.next, ?_⟩, ?_⟩
  · rw [hgets] at hget'
    split at hget'
    · rename_i heq
      subst heq
      obtain rfl := Option.some.inj hget'
      exact ⟨o, 1, hfresh, le_rfl, by decide, hn⟩
    · obtain ⟨o', k', hread, hrest⟩ := h.ref n' r' hget'
      exact ⟨o', k', (hold n' r' hget').trans hread, hrest⟩
  · exact (Heap.read_alloc (Heap.valid_of_read h.null) _).trans h.null
  · refine ledger_eq_write (entry_eq (k := 1) ?_ hfresh) fun n' hne => entry_congr ?_ (hold n')
    · rw [hgets, if_pos rfl]
    · rw [hgets, if_neg hne]

/-- An object that could not be stored changes no entry. -/
theorem fail (h : Kept t) {m : RefMap Go.Ref} (hsame : Compacts t.javaObjs m)
    (ref : RefObject O) :
    Kept { t with javaObjs := m, refs := t.refs.alloc ref } ∧
      ledger { t with javaObjs := m, refs := t.refs.alloc ref } = t.ledger := by
  have hold : ∀ n' r', t.javaObjs.get n' = some r' →
      (t.refs.alloc ref).read r' = t.refs.read r' := by
    intro n' r' hget'
    obtain ⟨o', k', hread, -⟩ := h.ref n' r' hget'
    exact Heap.read_alloc (Heap.valid_of_read hread) _
  have hgets := hsame.get_eq
  refine ⟨⟨hsame.sound, fun n' r' hget' => ?_, h.refnum, h.injective, h.next, ?_⟩, ?_⟩
  · rw [hgets] at hget'
    obtain ⟨o', k', hread, hrest⟩ := h.ref n' r' hget'
    exact ⟨o', k', (hold n' r' hget').trans hread, hrest⟩
  · exact (Heap.read_alloc (Heap.valid_of_read h.null) _).trans h.null
  · exact congrArg Ledger.mk (funext fun n' => entry_congr (hgets n') (hold n'))

end Kept

/-- What counting an object up under its number does. -/
inductive CountsUp (t : RefTracker O) (n : ℤ) (o : O) :
    Except (Thrown O) ℤ × RefTracker O → Prop
  | again {r k} : t.javaObjs.get n = some r → t.refs.read r = some ⟨n, k, some o⟩ → 1 ≤ k →
      k < maxValue → CountsUp t n o (.ok n, { t with refs := t.refs.write r ⟨n, k + 1, some o⟩ })
  | first {m} : t.javaObjs.get n = none → Stores t.javaObjs n t.refs.fresh m →
      CountsUp t n o (.ok n, { t with javaObjs := m, refs := t.refs.alloc ⟨n, 1, some o⟩ })
  | overflow {r} : t.javaObjs.get n = some r →
      t.refs.read r = some ⟨n, maxValue, some o⟩ → CountsUp t n o (.error (.overflow n), t)
  | full {m ref} : t.javaObjs.get n = none → t.javaObjs.live = 2 ^ 30 →
      Compacts t.javaObjs m → CountsUp t n o
        (.error (.inMap .indexOutOfBounds), { t with javaObjs := m, refs := t.refs.alloc ref })

/-- What a call that counts a `Ref` up does. -/
theorem incRef_eq {t : RefTracker O} {n : ℤ} {r : Go.Ref} {o : O} {k : ℤ}
    (hread : t.refs.read r = some ⟨n, k, some o⟩) : t.incRef r =
      if k = maxValue then (.error (.overflow n), t)
      else (.ok (), { t with refs := t.refs.write r ⟨n, k + 1, some o⟩ }) := by
  rw [incRef, hread]
  simp only [RefObject.inc]
  split <;> rename_i hinc <;> split at hinc <;> simp_all

namespace Kept

variable {t : RefTracker O} {n : ℤ} {o : O}

/-- Counting up does one of these. -/
theorem countsUp (h : Kept t) (hn : t.javaRefs o = some n) : CountsUp t n o (t.countUp n o) := by
  rw [countUp, refOf]
  cases hget : t.javaObjs.get n with
  | some r =>
    obtain ⟨k, hread, hpos, hle⟩ := h.read hget hn
    simp only [incRef_eq hread]
    by_cases hk : k = maxValue
    · subst hk
      simp only [if_true]
      exact .overflow hget hread
    · simp only [if_neg hk]
      exact .again hget hread hpos (lt_of_le_of_ne hle hk)
  | none =>
    have hnew : RefObject.new n o = .ok ⟨n, 0, some o⟩ := by
      have hbound := (h.refnum o n hn).1
      rw [RefObject.new, if_neg (by omega)]
    simp only [hnew]
    have hlive := h.sound.live_le
    by_cases hroom : t.javaObjs.live < 2 ^ 30
    · obtain ⟨m, hput, hstores, -⟩ := h.sound.put_of_room hget hroom t.refs.fresh
      have hinc := incRef_eq (t := { t with javaObjs := m, refs := t.refs.alloc ⟨n, 0, some o⟩ })
        (Heap.read_fresh t.refs (⟨n, 0, some o⟩ : RefObject O))
      rw [if_neg (by decide), Heap.write_fresh] at hinc
      simp only [hput, hinc]
      exact .first hget hstores
    · obtain ⟨m, hput, hsame, -⟩ := h.sound.put_of_full hget (by omega) t.refs.fresh
      simp only [hput]
      exact .full hget (by omega) hsame

end Kept

/-- What a call on the tracker means for the ledger. Exceptions change nothing, and neither do
the numbers of null and of Go objects. -/
def postings : TrackerCall O → List (Posting ℤ O)
  | .inc (.object o) (.ok n) => [.credit n o]
  | .incRefnum n (.ok ()) => [.raise n]
  | .dec n (.ok ()) => if n ≤ 0 ∨ n = nullRefnum then [] else [.debit n]
  | _ => []

/-- A number is credited to the objects it is handed out with only. -/
theorem inc_of_credit {call : TrackerCall O} {n : ℤ} {o : O}
    (h : .credit n o ∈ postings call) : call = .inc (.object o) (.ok n) := by
  unfold postings at h
  split at h
  · obtain ⟨rfl, rfl⟩ := Posting.credit.inj (List.mem_singleton.mp h)
    rfl
  · cases List.mem_singleton.mp h
  · split at h
    · cases h
    · cases List.mem_singleton.mp h
  · cases h

/-- No number is used up. -/
theorem stays_next {t : RefTracker O} : t.next ≤ t.next ∧ t.next ≤ t.next + 1 :=
  ⟨le_rfl, le_of_lt (Int.lt_succ _)⟩

variable [DecidableEq O]

/-- How the tracker goes on with a call. -/
structure Advances (t : RefTracker O) (call : TrackerCall O) (t' : RefTracker O) : Prop where
  kept : Kept t'
  posts : (Ledger.system ℤ O).Steps t.ledger (postings call) t'.ledger
  next_le : t.next ≤ t'.next ∧ t'.next ≤ t.next + 1
  /-- A number that an object has is the one it had, or new. -/
  renumbers : ∀ o n, t'.javaRefs o = some n → t.javaRefs o = some n ∨ t.next ≤ n
  /-- An object that is handed out has its number, and is held. -/
  numbered : ∀ o n, call = .inc (.object o) (.ok n) →
    t'.javaRefs o = some n ∧ t'.ledger.entry n ≠ none
  /-- An object with a number that is not held could not be stored, now or before. -/
  unheld : ∀ o n, t'.javaRefs o = some n → t'.ledger.entry n = none → t.ledger.entry n = none ∧
    (t.javaRefs o = some n ∨ ∃ p, call = .inc p (.error (.inMap .indexOutOfBounds)))

/-- One posting is a run of one step. -/
theorem steps_of_post {l l' : Ledger ℤ O} {p : Posting ℤ O} (h : l.post p = some l') :
    (Ledger.system ℤ O).Steps l [p] l' := .snoc .refl h

namespace Kept

variable {t : RefTracker O} {n : ℤ} {o : O}

/-- A call that changes nothing. -/
theorem stays (h : Kept t) {call : TrackerCall O} (hposts : postings call = [])
    (hcall : ∀ o n, call ≠ .inc (.object o) (.ok n)) : Advances t call t where
  kept := h
  posts := hposts ▸ .refl
  next_le := stays_next
  renumbers := fun _ _ hn => Or.inl hn
  numbered := fun _ _ heq => absurd heq (hcall _ _)
  unheld := fun _ _ hn hnone => ⟨hnone, Or.inl hn⟩

/-- The ledger after an object was counted up, or could not be. -/
theorem countUp (h : Kept t) (hn : t.javaRefs o = some n) {result : Except (Thrown O) ℤ}
    {t' : RefTracker O} (hcount : CountsUp t n o (result, t')) :
    Kept t' ∧ (Ledger.system ℤ O).Steps t.ledger (postings (.inc (.object o) result)) t'.ledger ∧
      t'.next = t.next ∧ t'.javaRefs = t.javaRefs ∧ (∀ n', result = .ok n' → n' = n) ∧
      (t'.ledger.entry n = none →
        result = .error (.inMap .indexOutOfBounds) ∧ t.ledger.entry n = none) ∧
      ∀ n' ≠ n, t'.ledger.entry n' = t.ledger.entry n' := by
  cases hcount with
  | again hget hread hpos hlt =>
    rename_i r k
    obtain ⟨hkept, hledger⟩ := h.setCount hget hread (by omega : 1 ≤ k + 1) hlt
    have hentry := entry_eq hget hread
    have hsucc : (k + 1).toNat = k.toNat + 1 := by omega
    refine ⟨hkept, steps_of_post ?_, rfl, rfl, ?_, ?_, ?_⟩
    · rw [hledger, Ledger.post, hentry, hsucc]
      exact if_pos rfl
    · rintro n' heq
      exact (Except.ok.inj heq).symm
    · rw [hledger, Ledger.entry_write, if_pos rfl]
      simp
    · intro n' hne
      rw [hledger, Ledger.entry_write, if_neg hne]
  | first hget hstores =>
    obtain ⟨hkept, hledger⟩ := h.store hn hget hstores
    refine ⟨hkept, steps_of_post ?_, rfl, rfl, ?_, ?_, ?_⟩
    · rw [hledger, Ledger.post, entry_eq_none hget]
    · rintro n' heq
      exact (Except.ok.inj heq).symm
    · rw [hledger, Ledger.entry_write, if_pos rfl]
      simp
    · intro n' hne
      rw [hledger, Ledger.entry_write, if_neg hne]
  | overflow hget hread =>
    refine ⟨h, .refl, rfl, rfl, by simp, fun hnone => ?_, fun _ _ => rfl⟩
    rw [entry_eq hget hread] at hnone
    cases hnone
  | full hget hlive hsame =>
    rename_i m ref
    obtain ⟨hkept, hledger⟩ := h.fail hsame ref
    refine ⟨hkept, ?_, rfl, rfl, by simp, fun hnone => ⟨rfl, ?_⟩, fun _ _ => by rw [hledger]⟩
    · rw [hledger]
      exact .refl
    · rwa [hledger] at hnone

/-- An object without a number gets the next one. -/
theorem renumber (h : Kept t) (hnone : t.javaRefs o = none) (hnext : t.next ≠ maxValue) :
    Kept { t with next := t.next + 1, javaRefs := Function.update t.javaRefs o (some t.next) } := by
  have hbound := h.next
  have hold : ∀ {o' n'}, o' ≠ o →
      (Function.update t.javaRefs o (some t.next)) o' = some n' → t.javaRefs o' = some n' := by
    intro o' n' hne hn'
    rwa [Function.update_of_ne hne] at hn'
  have hself : ∀ {n'}, (Function.update t.javaRefs o (some t.next)) o = some n' → n' = t.next := by
    intro n' hn'
    rw [Function.update_self] at hn'
    exact (Option.some.inj hn').symm
  refine ⟨h.sound, fun n' r' hget => ?_, fun o' n' hn' => ?_, fun o₁ o₂ n' h₁ h₂ => ?_, ?_, h.null⟩
  · obtain ⟨o', k', hread, hpos, hle, ho'⟩ := h.ref n' r' hget
    refine ⟨o', k', hread, hpos, hle, ?_⟩
    change Function.update t.javaRefs o (some t.next) o' = some n'
    rw [Function.update_of_ne, ho']
    rintro rfl
    rw [hnone] at ho'
    cases ho'
  · by_cases hne : o' = o
    · subst hne
      obtain rfl := hself hn'
      exact ⟨hbound.1, Int.lt_succ _⟩
    · obtain ⟨hlow, hhigh⟩ := h.refnum o' n' (hold hne hn')
      exact ⟨hlow, hhigh.trans (Int.lt_succ _)⟩
  · -- The next number is above those of the other objects.
    by_cases hne₁ : o₁ = o <;> by_cases hne₂ : o₂ = o
    · rw [hne₁, hne₂]
    · subst hne₁
      have hlt := (h.refnum o₂ n' (hold hne₂ h₂)).2
      rw [hself h₁] at hlt
      exact absurd hlt (lt_irrefl _)
    · subst hne₂
      have hlt := (h.refnum o₁ n' (hold hne₁ h₁)).2
      rw [hself h₂] at hlt
      exact absurd hlt (lt_irrefl _)
    · exact h.injective o₁ o₂ n' (hold hne₁ h₁) (hold hne₂ h₂)
  · change 42 ≤ t.next + 1 ∧ t.next + 1 ≤ maxValue
    omega

/-- An object has a number, possibly the next one, that is new. -/
structure Numbers (t : RefTracker O) (o : O) (n : ℤ) (t₁ : RefTracker O) : Prop where
  kept : Kept t₁
  number : t₁.javaRefs o = some n
  javaObjs : t₁.javaObjs = t.javaObjs
  refs : t₁.refs = t.refs
  next_le : t.next ≤ t₁.next ∧ t₁.next ≤ t.next + 1
  old : ∀ o' n', t₁.javaRefs o' = some n' → t.javaRefs o' = some n' ∨ o' = o ∧ t.next ≤ n'
  same : ∀ n', t.javaRefs o = some n' → n' = n

/-- An object that is passed is counted up under its number, unless there are no more. -/
theorem inc_cases (h : Kept t) (o : O) :
    t.next = maxValue ∧ t.inc (.object o) = (.error (.createRefOverflow o), t) ∨
      ∃ t₁ n, Numbers t o n t₁ ∧ t.inc (.object o) = t₁.countUp n o := by
  rw [RefTracker.inc, refnumOf]
  cases hn : t.javaRefs o with
  | some n =>
    refine Or.inr ⟨t, n, ⟨h, hn, rfl, rfl, stays_next, fun _ _ => Or.inl, fun n' hn' => ?_⟩, rfl⟩
    exact Option.some.inj (hn'.symm.trans hn)
  | none =>
    by_cases hnext : t.next = maxValue
    · exact Or.inl ⟨hnext, by simp only [if_pos hnext]⟩
    · simp only [if_neg hnext]
      refine Or.inr ⟨_, t.next, ⟨h.renumber hn hnext, Function.update_self .., rfl, rfl,
        ⟨le_of_lt (Int.lt_succ _), le_rfl⟩, fun o' n' hn' => ?_, fun n' hn' => ?_⟩, rfl⟩
      · change Function.update t.javaRefs o (some t.next) o' = some n' at hn'
        by_cases hne : o' = o
        · subst hne
          rw [Function.update_self] at hn'
          exact Or.inr ⟨rfl, le_of_eq (Option.some.inj hn')⟩
        · rw [Function.update_of_ne hne] at hn'
          exact Or.inl hn'
      · rw [hn] at hn'
        cases hn'

/-- Counting an object up that has a number, possibly a new one. -/
theorem advances_countUp {t₁ : RefTracker O} (h : Numbers t o n t₁) :
    Advances t (.inc (.object o) (t₁.countUp n o).1) (t₁.countUp n o).2 := by
  obtain ⟨h₁, hn, hobjs, hptrs, hnext, hold, -⟩ := h
  have hledger : t₁.ledger = t.ledger := by rw [ledger, ledger, hobjs, hptrs]
  have hcount := h₁.countsUp hn
  generalize t₁.countUp n o = c at hcount
  obtain ⟨result, t'⟩ := c
  obtain ⟨hkept, hposts, hnext', hrefs, hresult, hfull, hothers⟩ := h₁.countUp hn hcount
  refine ⟨hkept, hledger ▸ hposts, hnext'.symm ▸ hnext, ?_, ?_, ?_⟩
  · intro o' n' hn'
    rw [hrefs] at hn'
    exact (hold o' n' hn').imp_right And.right
  · intro o' n' heq
    obtain ⟨ho, hres⟩ := TrackerCall.inc.inj heq
    obtain rfl := Passed.object.inj ho
    obtain rfl := hresult n' hres
    refine ⟨by rw [hrefs, hn], fun hnone => ?_⟩
    have hfault := hres.symm.trans (hfull hnone).1
    cases hfault
  · intro o' n' hn' hnone
    rw [hrefs] at hn'
    rw [← hledger]
    by_cases hne : n' = n
    · subst hne
      obtain ⟨hfault, hbefore⟩ := hfull hnone
      exact ⟨hbefore, Or.inr ⟨.object o, by rw [hfault]⟩⟩
    · rw [hothers n' hne] at hnone
      refine ⟨hnone, Or.inl ((hold o' n' hn').resolve_right ?_)⟩
      rintro ⟨rfl, -⟩
      exact hne (Option.some.inj (hn'.symm.trans hn))

/-- Passing an object to Go. -/
theorem inc (h : Kept t) (p : Passed O) :
    Advances t (.inc p (t.inc p).1) (t.inc p).2 := by
  cases p with
  | null => exact h.stays rfl (by simp [RefTracker.inc])
  | proxy refnum => exact h.stays rfl (by simp [RefTracker.inc])
  | object o =>
    rcases h.inc_cases o with ⟨-, hinc⟩ | ⟨t₁, n, hnumbers, hinc⟩
    · rw [hinc]
      exact h.stays rfl (by simp)
    · rw [hinc]
      exact advances_countUp hnumbers

/-- Counting a number up again. -/
theorem incRefnum (h : Kept t) (n : ℤ) :
    Advances t (.incRefnum n (t.incRefnum n).1) (t.incRefnum n).2 := by
  rw [RefTracker.incRefnum]
  cases hget : t.javaObjs.get n with
  | none => exact h.stays rfl (by simp)
  | some r =>
    obtain ⟨o, k, hread, hpos, hle, hn⟩ := h.ref n r hget
    simp only [incRef_eq hread]
    by_cases hk : k = maxValue
    · simp only [if_pos hk]
      exact h.stays rfl (by simp)
    · simp only [if_neg hk]
      obtain ⟨hkept, hledger⟩ := h.setCount hget hread (by omega : 1 ≤ k + 1)
        (lt_of_le_of_ne hle hk)
      have hsucc : (k + 1).toNat = k.toNat + 1 := by omega
      refine ⟨hkept, steps_of_post ?_, stays_next, fun _ _ => Or.inl, by simp, ?_⟩
      · rw [hledger, Ledger.post, entry_eq hget hread, hsucc]
      · intro o' n' hn' hnone
        exact ⟨Ledger.entry_none_of_write (hledger ▸ hnone), Or.inl hn'⟩

/-- What is left when the number of one object is taken away. -/
theorem of_update_none {refs : O → Option ℤ} {o' : O} {n' : ℤ}
    (hn' : Function.update refs o none o' = some n') : o' ≠ o ∧ refs o' = some n' := by
  by_cases hne : o' = o
  · subst hne
    rw [Function.update_self] at hn'
    cases hn'
  · rw [Function.update_of_ne hne] at hn'
    exact ⟨hne, hn'⟩

/-- Giving a number back that is held once. -/
theorem release (h : Kept t) {r : Go.Ref} (hget : t.javaObjs.get n = some r)
    (hread : t.refs.read r = some ⟨n, 1, some o⟩) {t' : RefTracker O}
    (ht' : t' = { t with javaObjs := t.javaObjs.remove n
                         javaRefs := Function.update t.javaRefs o none
                         refs := t.refs.write r ⟨n, 0, some o⟩ }) :
    Kept t' ∧ t'.ledger = t.ledger.write n none := by
  subst ht'
  obtain ⟨hsound, -, -, hgets⟩ := h.sound.remove n
  have hn : t.javaRefs o = some n := by
    obtain ⟨o', k', hread', -, -, ho'⟩ := h.ref n r hget
    rw [hread] at hread'
    obtain rfl : o = o' := Option.some.inj (congrArg RefObject.obj (Option.some.inj hread'))
    exact ho'
  have hother : ∀ n' r', n' ≠ n → t.javaObjs.get n' = some r' →
      (t.refs.write r ⟨n, 0, some o⟩).read r' = t.refs.read r' := by
    intro n' r' hne hget'
    rw [Heap.read_write (Heap.valid_of_read hread), if_neg (h.pointer_ne hget hget' hne)]
  refine ⟨⟨hsound, fun n' r' hget' => ?_, fun o' n' hn' => h.refnum o' n' (of_update_none hn').2,
    fun o₁ o₂ n' h₁ h₂ => h.injective o₁ o₂ n' (of_update_none h₁).2 (of_update_none h₂).2,
    h.next, ?_⟩, ?_⟩
  · rw [hgets] at hget'
    split at hget'
    · cases hget'
    · rename_i hne
      obtain ⟨o', k', hread', hpos, hle, ho'⟩ := h.ref n' r' hget'
      refine ⟨o', k', (hother n' r' hne hget').trans hread', hpos, hle, ?_⟩
      change Function.update t.javaRefs o none o' = some n'
      rw [Function.update_of_ne, ho']
      rintro rfl
      exact hne (Option.some.inj (ho'.symm.trans hn))
  · change (t.refs.write r _).read 0 = _
    rw [Heap.read_write (Heap.valid_of_read hread), if_neg (h.pointer_ne_null hread), h.null]
  · refine ledger_eq_write (entry_eq_none ?_) fun n' hne => entry_congr ?_ (hother n' · hne)
    · rw [hgets, if_pos rfl]
    · rw [hgets, if_neg hne]

/-- Giving a number back. -/
theorem dec (h : Kept t) (n : ℤ) : Advances t (.dec n (t.dec n).1) (t.dec n).2 := by
  rw [RefTracker.dec]
  by_cases hgo : n ≤ 0
  · simp only [if_pos hgo]
    exact h.stays (by simp [postings, hgo]) (by simp)
  by_cases hnull : n = nullRefnum
  · simp only [if_neg hgo, if_pos hnull]
    exact h.stays (by simp [postings, hnull]) (by simp)
  have hjava : ¬(n ≤ 0 ∨ n = nullRefnum) := not_or.mpr ⟨hgo, hnull⟩
  simp only [if_neg hgo, if_neg hnull]
  cases hget : t.javaObjs.get n with
  | none => exact h.stays rfl (by simp)
  | some r =>
    obtain ⟨o, k, hread, hpos, hle, hn⟩ := h.ref n r hget
    have hentry := entry_eq hget hread
    simp only [hread]
    by_cases hk : k - 1 ≤ 0
    · obtain rfl : k = 1 := by omega
      simp only [if_pos hk]
      rw [Int.sub_self]
      obtain ⟨hkept, hledger⟩ := h.release hget hread rfl
      refine ⟨hkept, ?_, stays_next, ?_, by simp, ?_⟩
      · rw [postings, if_neg hjava]
        refine steps_of_post ?_
        rw [Ledger.post, hentry]
        exact congrArg some hledger.symm
      · intro o' n' hn'
        exact Or.inl (of_update_none hn').2
      · intro o' n' hn' hnone
        obtain ⟨hne, hold⟩ := of_update_none hn'
        rw [hledger, Ledger.entry_write, if_neg] at hnone
        · exact ⟨hnone, Or.inl hold⟩
        · rintro rfl
          exact hne (h.injective o' o n' hold hn)
    · simp only [if_neg hk]
      obtain ⟨hkept, hledger⟩ := h.setCount hget hread (by omega : 1 ≤ k - 1) (by omega)
      refine ⟨hkept, ?_, stays_next, fun _ _ => Or.inl, by simp, ?_⟩
      · rw [postings, if_neg hjava]
        refine steps_of_post ?_
        have hpred : (k - 1).toNat = k.toNat - 1 := by omega
        rw [hledger, Ledger.post, hentry, hpred]
        simp only [if_neg (show ¬k.toNat ≤ 1 by omega)]
      · intro o' n' hn' hnone
        exact ⟨Ledger.entry_none_of_write (hledger ▸ hnone), Or.inl hn'⟩

end Kept

end IpfsMobile.Seq.RefTracker
