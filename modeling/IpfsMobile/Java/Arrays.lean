import Mathlib.Algebra.Order.Ring.Int
import Mathlib.Data.List.Basic
import Mathlib.Tactic.Common

/-!
# Arrays of Java

Arrays are lists here. `Arrays.binarySearch` answers with the index of the key, or with
the place where it belongs, told apart by the sign: on an increasing range the two answers
say all about the key. `System.arraycopy` makes room at that place. Lengths and indices are
of type `int`, whose values wrap around.
-/

namespace Java

/-- The value of an expression of type `int`. -/
def int32 (x : ℤ) : ℤ := x.bmod (2 ^ 32)

/-- A value within the bounds of an `int` is what it is. -/
theorem int32_of_bounds {x : ℤ} (hlow : -2 ^ 31 ≤ x) (hhigh : x < 2 ^ 31) : int32 x = x := by
  rw [int32]
  exact Int.bmod_eq_of_le (by omega) (by omega)

section Copy

variable {α : Type}

/-- `System.arraycopy(a, srcPos, a, destPos, length)`, undefined where an index is out of
bounds. The values are all read before the first is written. -/
def arraycopy (a : List α) (srcPos destPos length : ℕ) : Option (List α) :=
  if srcPos + length ≤ a.length ∧ destPos + length ≤ a.length then
    some (a.take destPos ++ (a.drop srcPos).take length ++ a.drop (destPos + length))
  else none

/-- A loop that assigns one value to all indices from `i` on. -/
def fill (a : List α) (i : ℕ) (x : α) : List α := a.take i ++ List.replicate (a.length - i) x

/-- Shift what is at the indices from `i` on that are below `next`, if there is anything. -/
def shift (a : List α) (i next : ℕ) : Option (List α) :=
  if i < next then arraycopy a i (i + 1) (next - i) else some a

/-- The filled array has the length of the old one. -/
theorem length_fill {a : List α} {i : ℕ} (hi : i ≤ a.length) (x : α) :
    (fill a i x).length = a.length := by
  rw [fill, List.length_append, List.length_take, List.length_replicate]
  omega

/-- Before the first index that is filled nothing changes. -/
theorem take_fill {a : List α} {i : ℕ} (hi : i ≤ a.length) (x : α) :
    (fill a i x).take i = a.take i := by
  rw [fill, List.take_left' (List.length_take_of_le hi)]

/-- Shifting fits exactly if there is one more index. -/
theorem exists_shift {a : List α} {i next : ℕ} (hi : i ≤ next) (hnext : next < a.length) :
    ∃ b, shift a i next = some b ∧ b.length = a.length ∧
      ∀ x, (b.set i x).take (next + 1) = a.take i ++ x :: (a.take next).drop i := by
  rw [shift]
  split
  · rename_i hlt
    rw [arraycopy, if_pos (by omega)]
    have hmoved : ((a.drop i).take (next - i)).length = next - i := by
      rw [List.length_take, List.length_drop]
      omega
    refine ⟨_, rfl, ?_, fun x => ?_⟩
    · rw [List.length_append, List.length_append, hmoved, List.length_take, List.length_drop]
      omega
    · have hfront : (a.take (i + 1)).set i x = a.take i ++ [x] := by
        rw [List.take_add_one, List.getElem?_eq_getElem (by omega), Option.toList_some,
          List.set_append_right _ _ (List.length_take_le i a), List.length_take_of_le (by omega),
          Nat.sub_self, List.set_cons_zero]
      have hlen : ((a.take (i + 1)) ++ (a.drop i).take (next - i)).length = next + 1 := by
        rw [List.length_append, hmoved, List.length_take]
        omega
      rw [List.set_append_left _ _ (by omega), List.take_left' (by rw [List.length_set, hlen]),
        List.set_append_left _ _ (by rw [List.length_take]; omega), hfront, List.append_assoc,
        List.singleton_append, List.drop_take]
  · obtain rfl : i = next := by omega
    refine ⟨a, rfl, rfl, fun x => ?_⟩
    rw [List.drop_of_length_le (List.length_take_le i a), List.take_add_one,
      List.take_set_of_le (Nat.le_refl _), List.getElem?_set_self hnext, Option.toList_some]

/-- Without one more index nothing can be shifted. -/
theorem shift_eq_none {a : List α} {i next : ℕ} (hi : i < next) (hnext : a.length ≤ next) :
    shift a i next = none := by
  rw [shift, if_pos hi, arraycopy, if_neg (by omega)]

end Copy

section Entries

variable {κ ν : Type}

/-- The entries of two parallel arrays at the first indices. -/
def entries (keys : List κ) (vals : List ν) (next : ℕ) : List (κ × ν) :=
  (keys.take next).zip (vals.take next)

variable {keys : List κ} {vals : List ν} {next i : ℕ}

/-- An entry is a key and a value at one index. -/
theorem getElem?_entries {k : κ} {v : ν} : (entries keys vals next)[i]? = some (k, v) ↔
    i < next ∧ keys[i]? = some k ∧ vals[i]? = some v := by
  rw [entries, List.getElem?_zip_eq_some, List.getElem?_take, List.getElem?_take]
  by_cases hi : i < next <;> simp [hi]

/-- There are as many entries as indices. -/
theorem length_entries (hlen : vals.length = keys.length) (hnext : next ≤ keys.length) :
    (entries keys vals next).length = next := by
  rw [entries, List.length_zip, List.length_take, List.length_take]
  omega

/-- The keys of the entries. -/
theorem map_fst_entries (hlen : vals.length = keys.length) :
    (entries keys vals next).map Prod.fst = keys.take next := by
  have hle : (keys.take next).length ≤ (vals.take next).length := by
    simp [hlen]
  rw [entries, List.map_fst_zip hle]

/-- One more index is one more entry. -/
theorem entries_succ {k : κ} {v : ν} (hk : keys[i]? = some k) (hv : vals[i]? = some v) :
    entries keys vals (i + 1) = entries keys vals i ++ [(k, v)] := by
  have hk' := (List.getElem?_eq_some_iff.mp hk).1
  have hv' := (List.getElem?_eq_some_iff.mp hv).1
  have htake : (keys.take i).length = (vals.take i).length := by
    rw [List.length_take_of_le (Nat.le_of_lt hk'), List.length_take_of_le (Nat.le_of_lt hv')]
  rw [entries, List.take_add_one, List.take_add_one, hk, hv, Option.toList_some,
    Option.toList_some, List.zip_append htake]
  rfl

/-- Writing to the next index adds an entry. -/
theorem entries_set_succ (hk : i < keys.length) (hv : i < vals.length) (k : κ) (v : ν) :
    entries (keys.set i k) (vals.set i v) (i + 1) = entries keys vals i ++ [(k, v)] := by
  rw [entries_succ (List.getElem?_set_self hk) (List.getElem?_set_self hv), entries,
    List.take_set_of_le (Nat.le_refl _), List.take_set_of_le (Nat.le_refl _)]
  rfl

/-- A new value replaces the one of its entry. -/
theorem entries_set {k : κ} (hk : keys[i]? = some k) (v : ν) :
    entries keys (vals.set i v) next = (entries keys vals next).set i (k, v) := by
  refine List.ext_getElem? fun j => Option.ext fun e => ?_
  rw [getElem?_entries, List.getElem?_set, List.getElem?_set]
  split
  · rename_i heq
    subst heq
    have hbound := (List.getElem?_eq_some_iff.mp hk).1
    have hlen : i < (entries keys vals next).length ↔ i < next ∧ i < vals.length := by
      rw [entries, List.length_zip, List.length_take, List.length_take]
      omega
    by_cases hi : i < next <;> by_cases hv : i < vals.length <;>
      simp [hk, hi, hv, hlen, Prod.ext_iff]
  · exact getElem?_entries.symm

/-- A new entry goes between those that are before and after its index. -/
theorem entries_insert (hlen : vals.length = keys.length) (hi : i ≤ next)
    (hnext : next < keys.length) {ks : List κ} {vs : List ν} (hks : shift keys i next = some ks)
    (hvs : shift vals i next = some vs) (k : κ) (v : ν) :
    entries (ks.set i k) (vs.set i v) (next + 1) =
      (entries keys vals next).take i ++ (k, v) :: (entries keys vals next).drop i := by
  obtain ⟨ks', hks', -, hkeys⟩ := exists_shift hi hnext
  obtain ⟨vs', hvs', -, hvals⟩ := exists_shift hi (hnext.trans_eq hlen.symm)
  obtain rfl : ks' = ks := Option.some.inj (hks'.symm.trans hks)
  obtain rfl : vs' = vs := Option.some.inj (hvs'.symm.trans hvs)
  have htake : (keys.take i).length = (vals.take i).length := by
    rw [List.length_take, List.length_take, hlen]
  rw [entries, hkeys, hvals, List.zip_append htake, List.zip_cons_cons, entries, List.zip,
    List.take_zipWith, List.drop_zipWith, List.take_take, List.take_take, Nat.min_eq_left hi]

/-- Where the keys are all different, a new value leaves the entries of other keys. -/
theorem mem_set_iff {l : List (κ × ν)} (hl : (l.map Prod.fst).Nodup) {k : κ} {v v' : ν}
    (hi : l[i]? = some (k, v)) {e : κ × ν} :
    e ∈ l.set i (k, v') ↔ e = (k, v') ∨ e ∈ l ∧ e.1 ≠ k := by
  have hbound := (List.getElem?_eq_some_iff.mp hi).1
  have hindex : ∀ {j e'}, l[j]? = some e' → e'.1 = k → i = j := by
    rintro j e' hj rfl
    refine (List.getElem?_inj (by simpa using hbound) hl).mp ?_
    rw [List.getElem?_map, List.getElem?_map, hi, hj, Option.map_some, Option.map_some]
  rw [List.mem_iff_getElem?, List.mem_iff_getElem?]
  constructor
  · rintro ⟨j, hj⟩
    by_cases hij : i = j
    · subst hij
      rw [List.getElem?_set_self hbound] at hj
      exact Or.inl (Option.some.inj hj).symm
    · rw [List.getElem?_set_ne hij] at hj
      exact Or.inr ⟨⟨j, hj⟩, fun hk => hij (hindex hj hk)⟩
  · rintro (rfl | ⟨⟨j, hj⟩, hne⟩)
    · exact ⟨i, List.getElem?_set_self hbound⟩
    · refine ⟨j, ?_⟩
      rw [List.getElem?_set_ne, hj]
      rintro rfl
      exact hne (congrArg Prod.fst (Option.some.inj (hj.symm.trans hi)))

end Entries

section Search

variable {α : Type} [LinearOrder α]

/-- The loop of `Arrays.binarySearch` on the indices from `low` on that are below `high`.
A range of `fuel` indices is empty after as many turns. -/
def searchLoop (a : List α) (key : α) : ℕ → ℕ → ℕ → ℤ
  | 0, low, _ => -(low + 1)
  | fuel + 1, low, high =>
    if low < high then
      let mid := (low + (high - 1)) / 2
      match a[mid]? with
      | some midVal =>
        if midVal < key then searchLoop a key fuel (mid + 1) high
        else if key < midVal then searchLoop a key fuel low mid
        else mid
      | none => -(low + 1) -- outside of the array, which `rangeCheck` excludes
    else -(low + 1)

/-- `Arrays.binarySearch(a, 0, toIndex, key)`. -/
def binarySearch (a : List α) (toIndex : ℕ) (key : α) : ℤ :=
  searchLoop a key toIndex 0 toIndex

/-- The values at the first indices increase. -/
def Increasing (a : List α) (toIndex : ℕ) : Prop := (a.take toIndex).Pairwise (· < ·)

/-- What an answer says about the first indices of an array: the key is at this index, or it
is nowhere, and this is the place between the smaller and the greater values. -/
inductive Located (a : List α) (toIndex : ℕ) (key : α) : ℤ → Prop
  | found (i : ℕ) : i < toIndex → a[i]? = some key → Located a toIndex key i
  | absent (p : ℕ) : p ≤ toIndex → (∀ x ∈ a.take p, x < key) →
      (∀ x ∈ (a.take toIndex).drop p, key < x) → Located a toIndex key (-(p + 1))

/-- A value parts the others into those before it and those after it. -/
theorem Increasing.part {a : List α} {toIndex i : ℕ} {v : α} (h : Increasing a toIndex)
    (hi : i < toIndex) (hv : a[i]? = some v) :
    (∀ x ∈ a.take i, x < v) ∧ ∀ x ∈ (a.take toIndex).drop (i + 1), v < x := by
  obtain ⟨hlen, hget⟩ := List.getElem?_eq_some_iff.mp hv
  have hlen' : i < (a.take toIndex).length := by
    rw [List.length_take]
    omega
  have hsplit : a.take toIndex = a.take i ++ v :: (a.take toIndex).drop (i + 1) := by
    conv_lhs => rw [← List.take_append_drop i (a.take toIndex), List.drop_eq_getElem_cons hlen']
    rw [List.take_take, Nat.min_eq_left (Nat.le_of_lt hi), List.getElem_take, hget]
  rw [Increasing, hsplit, List.pairwise_append, List.pairwise_cons] at h
  exact ⟨fun x hx => h.2.2 x hx v List.mem_cons_self, h.2.1.1⟩

/-- The loop locates the key if what it has left out is smaller below and greater above. -/
theorem searchLoop_located {a : List α} {toIndex : ℕ} {key : α} (h : Increasing a toIndex)
    (hto : toIndex ≤ a.length) (fuel low high : ℕ) (hlow : low ≤ high) (hhigh : high ≤ toIndex)
    (hbelow : ∀ x ∈ a.take low, x < key) (habove : ∀ x ∈ (a.take toIndex).drop high, key < x)
    (hfuel : high - low ≤ fuel) :
    Located a toIndex key (searchLoop a key fuel low high) := by
  induction fuel generalizing low high with
  | zero =>
    obtain rfl : low = high := by omega
    exact .absent low hhigh hbelow habove
  | succ fuel ih =>
    rw [searchLoop]
    split
    · have hmid : (low + (high - 1)) / 2 < high := by omega
      have hmid' : low ≤ (low + (high - 1)) / 2 := by omega
      generalize (low + (high - 1)) / 2 = mid at hmid hmid'
      have hget : a[mid]? = some a[mid] := List.getElem?_eq_getElem (by omega)
      obtain ⟨hbefore, hafter⟩ := h.part (by omega) hget
      simp only [hget]
      split
      · rename_i hless
        refine ih (mid + 1) high (by omega) hhigh ?_ habove (by omega)
        intro x hx
        rw [List.take_add_one, hget, Option.toList_some, List.mem_append,
          List.mem_singleton] at hx
        rcases hx with hx | rfl
        · exact (hbefore x hx).trans hless
        · exact hless
      · split
        · rename_i hgreater
          refine ih low mid hmid' (by omega) hbelow ?_ (by omega)
          intro x hx
          rw [List.drop_eq_getElem_cons (by rw [List.length_take]; omega), List.getElem_take,
            List.mem_cons] at hx
          rcases hx with rfl | hx
          · exact hgreater
          · exact hgreater.trans (hafter x hx)
        · rename_i hless hgreater
          have heq : a[mid] = key := le_antisymm (not_lt.mp hgreater) (not_lt.mp hless)
          exact .found mid (by omega) (by rw [hget, heq])
    · obtain rfl : low = high := by omega
      exact .absent low hhigh hbelow habove

/-- On an increasing range the search locates the key. -/
theorem binarySearch_located {a : List α} {toIndex : ℕ} (h : Increasing a toIndex)
    (hto : toIndex ≤ a.length) (key : α) :
    Located a toIndex key (binarySearch a toIndex key) := by
  refine searchLoop_located h hto toIndex 0 toIndex (Nat.zero_le _) (Nat.le_refl _) ?_ ?_ (by omega)
  · intro x hx
    rw [List.take_zero] at hx
    cases hx
  · intro x hx
    rw [List.drop_of_length_le (List.length_take_le toIndex a)] at hx
    cases hx

example : binarySearch [41, 43, 50, 0] 3 (43 : ℤ) = 1 := by decide
example : binarySearch [41, 43, 50, 0] 3 (44 : ℤ) = -3 := by decide

end Search

end Java
