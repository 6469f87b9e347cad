import IpfsMobile.Seq.RefMap
import Mathlib.Algebra.Order.Ring.Int
import Mathlib.Tactic.NormNum
import Mathlib.Tactic.Positivity
import Mathlib.Tactic.Ring

/-!
# What the map of references holds

Behind the two arrays is a finite map from numbers to objects. Its entries are sorted, `live`
counts those with an object, and the arrays have room for `2 ^ 30` of them. An operation
changes the object of its key only, and growing changes none. The only exceptions are those
of a caller that stores nothing, another object under a key in use, or one object too many.
-/

namespace IpfsMobile.Seq

open Java

/-- The loop doubles a power of two up to the first that is not smaller. -/
theorem roundPow2Loop_spec {x : ℤ} (hx : x ≤ 2 ^ 30) (fuel c : ℕ) (hc : c ≤ 30)
    (hfuel : 31 ≤ fuel + c) (hlow : c = 0 ∨ 2 ^ (c - 1) < x) :
    ∃ d ≤ 30, roundPow2Loop x fuel (2 ^ c) = some (2 ^ d) ∧ x ≤ 2 ^ d ∧
      (d = 0 ∨ 2 ^ (d - 1) < x) := by
  induction fuel generalizing c with
  | zero => omega
  | succ fuel ih =>
    rw [roundPow2Loop]
    split
    · rename_i hless
      have hpow : (2 : ℤ) ^ c < 2 ^ 30 := by omega
      have hc' : c < 30 := (pow_lt_pow_iff_right₀ (by norm_num)).mp hpow
      have hdouble : int32 (2 ^ c * 2) = 2 ^ (c + 1) := by
        rw [← pow_succ]
        have hle : (2 : ℤ) ^ (c + 1) ≤ 2 ^ 30 := pow_le_pow_right₀ (by norm_num) (by omega)
        have hpos : (0 : ℤ) < 2 ^ (c + 1) := by positivity
        exact int32_of_bounds (by omega) (by omega)
      rw [hdouble]
      exact ih (c + 1) hc' (by omega) (Or.inr hless)
    · rename_i hle
      exact ⟨c, hc, rfl, by omega, hlow⟩

/-- Up to `2 ^ 30` there is a power of two to round to. -/
theorem roundPow2_spec {x : ℤ} (hx : x ≤ 2 ^ 30) :
    ∃ d ≤ 30, roundPow2 x = some (2 ^ d) ∧ x ≤ 2 ^ d ∧ (d = 0 ∨ 2 ^ (d - 1) < x) :=
  roundPow2Loop_spec hx 34 0 (by omega) (by omega) (Or.inl rfl)

namespace RefMap

variable {α : Type}

/-- The entries, with and without an object. -/
def entries (m : RefMap α) : List (ℤ × Option α) := Java.entries m.keys m.objs m.next

/-- The arrays are sorted and of one length, a power of two, and `live` counts the objects. -/
structure Sound (m : RefMap α) : Prop where
  sameLength : m.objs.length = m.keys.length
  power : ∃ e, 4 ≤ e ∧ e ≤ 30 ∧ m.keys.length = 2 ^ e
  next_le : m.next ≤ m.keys.length
  increasing : Increasing m.keys m.next
  live_eq : m.live = m.entries.countP (·.2.isSome)

/-- A new map is sound. -/
theorem sound_init : ({} : RefMap α).Sound where
  sameLength := rfl
  power := ⟨4, le_rfl, by omega, rfl⟩
  next_le := Nat.zero_le _
  increasing := List.Pairwise.nil
  live_eq := rfl

namespace Sound

variable {m : RefMap α} {key : ℤ}

/-- The keys of the entries are different. -/
theorem nodup_keys (h : m.Sound) : (m.entries.map Prod.fst).Nodup := by
  rw [entries, map_fst_entries h.sameLength]
  exact h.increasing.imp fun hlt => ne_of_lt hlt

/-- There is one entry for each key. -/
theorem unique (h : m.Sound) {i j : ℕ} {o o' : Option α} (hi : m.entries[i]? = some (key, o))
    (hj : m.entries[j]? = some (key, o')) : i = j := by
  have hbound := (List.getElem?_eq_some_iff.mp hi).1
  refine (List.getElem?_inj (by simpa using hbound) h.nodup_keys).mp ?_
  rw [List.getElem?_map, List.getElem?_map, hi, hj, Option.map_some, Option.map_some]

/-- The search finds the entry of a key, or the place for it. -/
theorem search (h : m.Sound) (key : ℤ) :
    (∃ (i : ℕ) (o : Option α), binarySearch m.keys m.next key = i ∧ m.entries[i]? = some (key, o) ∧
      m.objs[i]? = some o) ∨
    ∃ p ≤ m.next, binarySearch m.keys m.next key = -(p + 1) ∧
      (∀ x ∈ m.keys.take p, x < key) ∧ ∀ x ∈ (m.keys.take m.next).drop p, key < x := by
  have hlocated := binarySearch_located h.increasing h.next_le key
  generalize binarySearch m.keys m.next key = r at hlocated
  cases hlocated with
  | found i hi hkey =>
    have hlt : i < m.objs.length := by
      have hle := h.next_le
      have hlen := h.sameLength
      omega
    have hobj := List.getElem?_eq_getElem hlt
    exact Or.inl ⟨i, _, rfl, getElem?_entries.mpr ⟨hi, hkey, hobj⟩, hobj⟩
  | absent p hp hbelow habove => exact Or.inr ⟨p, hp, rfl, hbelow, habove⟩

/-- A key that belongs between the entries has none. -/
theorem not_mem (h : m.Sound) {p : ℕ} (hbelow : ∀ x ∈ m.keys.take p, x < key)
    (habove : ∀ x ∈ (m.keys.take m.next).drop p, key < x) (o : Option α) :
    (key, o) ∉ m.entries := by
  intro hmem
  have hkey : key ∈ m.keys.take m.next := by
    rw [← map_fst_entries h.sameLength]
    exact List.mem_map_of_mem hmem
  rw [← List.take_append_drop p (m.keys.take m.next), List.mem_append, List.take_take] at hkey
  rcases hkey with hkey | hkey
  · have hkey' : key ∈ m.keys.take p := by
      exact List.take_subset_take_left _ (Nat.min_le_left _ _) hkey
    exact absurd (hbelow key hkey') (lt_irrefl _)
  · exact absurd (habove key hkey) (lt_irrefl _)

/-- `get` returns the object of the entry. -/
theorem get_eq_some_iff (h : m.Sound) {obj : α} :
    m.get key = some obj ↔ (key, some obj) ∈ m.entries := by
  rw [get]
  rcases h.search key with ⟨i, o, hsearch, hentry, hobj⟩ | ⟨p, hp, hsearch, hbelow, habove⟩
  · rw [hsearch, if_pos (Int.natCast_nonneg i), Int.toNat_natCast, hobj, Option.join_some]
    constructor
    · rintro rfl
      exact List.mem_of_getElem? hentry
    · intro hmem
      obtain ⟨j, hj⟩ := List.mem_iff_getElem?.mp hmem
      obtain rfl := h.unique hentry hj
      rw [hentry] at hj
      exact congrArg Prod.snd (Option.some.inj hj)
  · rw [hsearch, if_neg (by omega)]
    exact iff_of_false (by simp) (h.not_mem hbelow habove _)

/-- A new object in an entry is the object of its key. -/
theorem set (h : m.Sound) {i : ℕ} {o : Option α} (hentry : m.entries[i]? = some (key, o))
    (o' : Option α) (live : ℤ)
    (hlive : live = m.live - o.isSome.toNat + o'.isSome.toNat) :
    { m with objs := m.objs.set i o', live := live }.Sound ∧
      ∀ k, { m with objs := m.objs.set i o', live := live }.get k =
        if k = key then o' else m.get k := by
  have hbound := (List.getElem?_eq_some_iff.mp hentry).1
  have hentries : Java.entries m.keys (m.objs.set i o') m.next = m.entries.set i (key, o') :=
    entries_set (getElem?_entries.mp hentry).2.1 o'
  have hsound : { m with objs := m.objs.set i o', live := live }.Sound := by
    refine ⟨?_, h.power, h.next_le, h.increasing, ?_⟩
    · rw [List.length_set, h.sameLength]
    · have hget : m.entries[i] = (key, o) := (List.getElem?_eq_some_iff.mp hentry).2
      have hpos : o.isSome = true → 0 < m.entries.countP (·.2.isSome) := by
        intro ho
        rw [List.countP_pos_iff]
        exact ⟨(key, o), List.mem_of_getElem? hentry, ho⟩
      have hcount := List.countP_set (p := (·.2.isSome)) (a := (key, o')) hbound
      rw [hget] at hcount
      simp only [entries] at hlive ⊢
      rw [hentries, hcount, hlive, h.live_eq]
      generalize m.entries.countP (·.2.isSome) = n at hpos
      cases o <;> cases o' <;> simp at hpos ⊢ <;> omega
  refine ⟨hsound, fun k => Option.ext fun obj => ?_⟩
  rw [hsound.get_eq_some_iff]
  simp only [entries]
  rw [hentries, mem_set_iff h.nodup_keys hentry]
  split
  · rename_i heq
    subst heq
    simp [eq_comm]
  · rename_i hne
    rw [h.get_eq_some_iff]
    simp [hne]

/-- `remove` takes the object of its key away. -/
theorem remove (h : m.Sound) (key : ℤ) : (m.remove key).Sound ∧
    (m.remove key).live = m.live - (m.get key).isSome.toNat ∧
    (m.remove key).keys.length = m.keys.length ∧
    ∀ k, (m.remove key).get k = if k = key then none else m.get k := by
  have hsame : m.get key = none → ∀ k, m.get k = if k = key then none else m.get k := by
    intro hnone k
    split
    · rename_i heq
      rw [heq, hnone]
    · rfl
  rcases h.search key with ⟨i, o, hsearch, hentry, hobj⟩ | ⟨p, -, hsearch, -, -⟩
  · have hget : m.get key = o := by
      rw [RefMap.get, hsearch, if_pos (Int.natCast_nonneg i), Int.toNat_natCast, hobj,
        Option.join_some]
    rw [RefMap.remove, hsearch, if_pos (Int.natCast_nonneg i), Int.toNat_natCast, hobj,
      Option.join_some]
    cases o with
    | none =>
      rw [if_neg (by simp), hget]
      exact ⟨h, by simp, rfl, hsame hget⟩
    | some obj =>
      obtain ⟨hsound, hgets⟩ := h.set hentry none (m.live - 1) (by simp)
      rw [if_pos (by simp), hget]
      exact ⟨hsound, by simp, rfl, hgets⟩
  · have hget : m.get key = none := by
      rw [RefMap.get, hsearch, if_neg (by omega)]
    rw [RefMap.remove, hsearch, if_neg (by omega), hget]
    exact ⟨h, by simp, rfl, hsame hget⟩

end Sound

/-- An object is stored under a key that had none; the arrays may have grown. -/
structure Stores (m : RefMap α) (key : ℤ) (obj : α) (m' : RefMap α) : Prop where
  sound : m'.Sound
  live_eq : m'.live = m.live + 1
  get_eq : ∀ k, m'.get k = if k = key then some obj else m.get k

namespace Sound

variable {m : RefMap α} {key : ℤ}

/-- A key without an entry gets one at its place, if there is room. -/
theorem insertAt (h : m.Sound) {p : ℕ} (hp : p ≤ m.next)
    (hbelow : ∀ x ∈ m.keys.take p, x < key)
    (habove : ∀ x ∈ (m.keys.take m.next).drop p, key < x) (hroom : m.next < m.keys.length)
    (obj : α) : ∃ m', m.insertAt p key obj = (.ok (), m') ∧ Stores m key obj m' ∧
      m'.keys.length = m.keys.length := by
  obtain ⟨ks, hks, hkslen, hkeys⟩ := exists_shift hp hroom
  obtain ⟨os, hos, hoslen, -⟩ := exists_shift hp (hroom.trans_eq h.sameLength.symm)
  have hentries : Java.entries (ks.set p key) (os.set p (some obj)) (m.next + 1) =
      m.entries.take p ++ (key, some obj) :: m.entries.drop p :=
    entries_insert h.sameLength hp hroom hks hos key (some obj)
  refine ⟨⟨m.next + 1, m.live + 1, ks.set p key, os.set p (some obj)⟩, ?_, ?_, ?_⟩
  · simp only [RefMap.insertAt, hks, hos]
    rw [if_pos (by omega)]
  · have hsound : Sound ⟨m.next + 1, m.live + 1, ks.set p key, os.set p (some obj)⟩ := by
      refine ⟨?_, ?_, ?_, ?_, ?_⟩
      · rw [List.length_set, List.length_set, hkslen, hoslen, h.sameLength]
      · rw [List.length_set, hkslen]
        exact h.power
      · rw [List.length_set, hkslen]
        exact hroom
      · simp only [Increasing]
        rw [hkeys]
        have hold := h.increasing
        rw [Increasing, ← List.take_append_drop p (m.keys.take m.next), List.take_take,
          Nat.min_eq_left hp] at hold
        obtain ⟨hfirst, hlast, hbetween⟩ := List.pairwise_append.mp hold
        refine List.pairwise_append.mpr ⟨hfirst, List.pairwise_cons.mpr ⟨habove, hlast⟩, ?_⟩
        intro x hx y hy
        rcases List.mem_cons.mp hy with rfl | hy
        · exact hbelow x hx
        · exact hbetween x hx y hy
      · simp only [entries]
        rw [hentries, List.countP_append, List.countP_cons_of_pos rfl, h.live_eq]
        have hcount : m.entries.countP (·.2.isSome) = (m.entries.take p).countP (·.2.isSome) +
            (m.entries.drop p).countP (·.2.isSome) := by
          rw [← List.countP_append, List.take_append_drop]
        rw [hcount]
        omega
    refine ⟨hsound, rfl, fun k => Option.ext fun o => ?_⟩
    rw [hsound.get_eq_some_iff]
    simp only [entries]
    rw [hentries, List.mem_append, List.mem_cons, or_left_comm, ← List.mem_append,
      List.take_append_drop, Prod.ext_iff]
    split
    · rename_i heq
      subst heq
      simp [h.not_mem hbelow habove, eq_comm]
    · rename_i hne
      rw [h.get_eq_some_iff]
      simp [hne]
  · rw [List.length_set, hkslen]

/-- Without room a key gets no entry. -/
theorem insertAt_full (h : m.Sound) {p : ℕ} (hp : p ≤ m.next) (hfull : m.next = m.keys.length)
    (obj : α) : m.insertAt p key obj = (.error .indexOutOfBounds, m) := by
  rw [RefMap.insertAt]
  rcases Nat.lt_or_eq_of_le hp with hlt | rfl
  · rw [shift_eq_none hlt (le_of_eq hfull.symm)]
  · have hlen := h.sameLength
    simp only [shift, lt_irrefl, if_false]
    rw [if_neg (by omega)]

variable [DecidableEq α]

/-- A key with an entry keeps an object that is there, and gets one otherwise. -/
theorem putAt (h : m.Sound) {i : ℕ} {o : Option α} (hentry : m.entries[i]? = some (key, o))
    (hobj : m.objs[i]? = some o) (obj : α) :
    (o = none → ∃ m', m.putAt i key obj = (.ok (), m') ∧ Stores m key obj m' ∧
      m'.keys.length = m.keys.length) ∧
    (∀ old, o = some old → m.putAt i key obj =
      (if old = obj then .ok () else .error (.replacing key), m)) := by
  have hbound := (List.getElem?_eq_some_iff.mp hobj).1
  constructor
  · rintro rfl
    obtain ⟨hsound, hgets⟩ := h.set hentry (some obj) (m.live + 1) (by simp)
    refine ⟨_, ?_, ⟨hsound, rfl, hgets⟩, rfl⟩
    simp only [RefMap.putAt, hobj, Option.join_some, if_true, List.getElem?_set_self hbound,
      ne_eq, not_true_eq_false, if_false]
  · rintro old rfl
    simp only [RefMap.putAt, hobj, Option.join_some, reduceCtorEq, if_false, ne_eq,
      Option.some.injEq, ite_not]
    split <;> rfl

end Sound

/-- After some turns of the loop of `grow`, the entries with an object are at the front of the
new arrays, and what is still to be read from them is as it was. -/
structure Compacted (inPlace : Bool) (keys : List ℤ) (objs : List (Option α)) (length turns : ℕ)
    (new : List ℤ × List (Option α) × ℕ) : Prop where
  keys_length : new.1.length = length
  objs_length : new.2.1.length = length
  le_turns : new.2.2 ≤ turns
  entries_eq : Java.entries new.1 new.2.1 new.2.2 =
    (Java.entries keys objs turns).filter (·.2.isSome)
  unread : inPlace = true → new.1.drop turns = keys.drop turns ∧
    new.2.1.drop turns = objs.drop turns

/-- Every turn keeps the entry it reads, if it has an object. -/
theorem compacted {inPlace : Bool} {keys newKeys : List ℤ} {objs newObjs : List (Option α)}
    (hlen : objs.length = keys.length) (hnew : newObjs.length = newKeys.length)
    (hfits : keys.length ≤ newKeys.length)
    (hplace : inPlace = true → newKeys = keys ∧ newObjs = objs) {turns : ℕ}
    (hturns : turns ≤ keys.length) :
    Compacted inPlace keys objs newKeys.length turns
      (compactLoop inPlace keys objs turns (newKeys, newObjs, 0)) := by
  induction turns with
  | zero =>
    refine ⟨rfl, hnew, le_rfl, rfl, fun h => ?_⟩
    obtain ⟨rfl, rfl⟩ := hplace h
    exact ⟨rfl, rfl⟩
  | succ turns ih =>
    have h := ih (Nat.le_of_succ_le hturns)
    rw [compactLoop]
    generalize compactLoop inPlace keys objs turns (newKeys, newObjs, 0) = new at h
    obtain ⟨ks, os, j⟩ := new
    have hkeylen : ks.length = newKeys.length := h.keys_length
    have hobjlen : os.length = newKeys.length := h.objs_length
    have hj : j ≤ turns := h.le_turns
    have hget : ∃ k o, keys[turns]? = some k ∧ objs[turns]? = some o :=
      ⟨_, _, List.getElem?_eq_getElem (by omega), List.getElem?_eq_getElem (by omega)⟩
    obtain ⟨k, o, hk, ho⟩ := hget
    rcases hread : (if inPlace then (ks, os) else (keys, objs)) with ⟨fromKeys, fromObjs⟩
    -- A turn in place reads at an index that no turn before has written to.
    have hfrom : fromKeys[turns]? = some k ∧ fromObjs[turns]? = some o := by
      cases inPlace with
      | false =>
        obtain ⟨rfl, rfl⟩ := Prod.mk.inj hread
        exact ⟨hk, ho⟩
      | true =>
        obtain ⟨rfl, rfl⟩ := Prod.mk.inj hread
        obtain ⟨hkeys, hobjs⟩ := h.unread rfl
        have hkeys' := congrArg (·[0]?) hkeys
        have hobjs' := congrArg (·[0]?) hobjs
        simp only [List.getElem?_drop, Nat.add_zero] at hkeys' hobjs'
        exact ⟨hkeys'.trans hk, hobjs'.trans ho⟩
    have hunread : inPlace = true → ks.drop (turns + 1) = keys.drop (turns + 1) ∧
        os.drop (turns + 1) = objs.drop (turns + 1) := by
      intro hplace
      obtain ⟨hkeys, hobjs⟩ := h.unread hplace
      rw [← List.drop_drop, ← List.drop_drop, ← List.drop_drop, ← List.drop_drop]
      exact ⟨congrArg (List.drop 1) hkeys, congrArg (List.drop 1) hobjs⟩
    have hentries := h.entries_eq
    simp only [hread, hfrom, Option.join_some, Option.getD_some]
    cases o with
    | none =>
      refine ⟨hkeylen, hobjlen, Nat.le_succ_of_le hj, ?_, hunread⟩
      rw [entries_succ hk ho, List.filter_append, ← hentries]
      simp
    | some obj =>
      refine ⟨?_, ?_, Nat.succ_le_succ hj, ?_, fun hplace => ?_⟩
      · rw [List.length_set, hkeylen]
      · rw [List.length_set, hobjlen]
      · rw [entries_succ hk ho, List.filter_append, ← hentries]
        exact entries_set_succ (by omega) (by omega) k (some obj)
      · rw [List.drop_set_of_lt (by omega), List.drop_set_of_lt (by omega)]
        exact hunread hplace

/-- The entries without an object are gone, and everything else is as before. -/
structure Compacts (m m' : RefMap α) : Prop where
  sound : m'.Sound
  live_eq : m'.live = m.live
  next_eq : (m'.next : ℤ) = m.live
  get_eq : ∀ k, m'.get k = m.get k

namespace Sound

variable {m : RefMap α}

/-- Compacting full arrays into arrays that are long enough. -/
theorem compact (h : m.Sound) (hfull : m.next = m.keys.length) (inPlace : Bool)
    (newKeys : List ℤ) (newObjs : List (Option α)) (hnew : newObjs.length = newKeys.length)
    (hfits : m.keys.length ≤ newKeys.length)
    (hpower : ∃ e, 4 ≤ e ∧ e ≤ 30 ∧ newKeys.length = 2 ^ e)
    (hplace : inPlace = true → newKeys = m.keys ∧ newObjs = m.objs) :
    ∃ m', m.compact inPlace newKeys newObjs = (.ok (), m') ∧ Compacts m m' ∧
      m'.keys.length = newKeys.length := by
  have hloop := compacted h.sameLength hnew hfits hplace le_rfl
  rcases hres : compactLoop inPlace m.keys m.objs m.keys.length (newKeys, newObjs, 0) with
    ⟨ks, os, j⟩
  rw [hres] at hloop
  obtain ⟨hks, hos, hj, hentries, -⟩ := hloop
  simp only at hks hos hj hentries
  have hold : Java.entries m.keys m.objs m.keys.length = m.entries := by
    rw [entries, hfull]
  rw [hold] at hentries
  have hcount : m.live = j := by
    have hlen := congrArg List.length hentries
    rw [length_entries (by omega) (by omega), ← List.countP_eq_length_filter] at hlen
    rw [h.live_eq, hlen]
  have hfilled : Java.entries (fill ks j 0) (fill os j none) j =
      m.entries.filter (·.2.isSome) := by
    rw [← hentries, Java.entries, take_fill (by omega), take_fill (by omega)]
    rfl
  refine ⟨⟨j, m.live, fill ks j 0, fill os j none⟩, ?_, ?_, ?_⟩
  · simp only [RefMap.compact, hres, hcount, ne_eq, not_true_eq_false, if_false]
  · have hsound : Sound ⟨j, m.live, fill ks j 0, fill os j none⟩ := by
      refine ⟨?_, ?_, ?_, ?_, ?_⟩
      · rw [length_fill (by omega), length_fill (by omega), hos, hks]
      · rw [length_fill (by omega), hks]
        exact hpower
      · change j ≤ (fill ks j 0).length
        rw [length_fill (by omega)]
        omega
      · have hkeys : (fill ks j 0).take j = (m.entries.filter (·.2.isSome)).map Prod.fst := by
          rw [← hfilled, map_fst_entries]
          rw [length_fill (by omega), length_fill (by omega), hos, hks]
        have hsorted : (m.entries.map Prod.fst).Pairwise (· < ·) := by
          rw [entries, map_fst_entries h.sameLength]
          exact h.increasing
        simp only [Increasing]
        rw [hkeys]
        exact hsorted.sublist (List.filter_sublist.map Prod.fst)
      · simp only [entries]
        rw [hfilled, List.countP_filter, h.live_eq]
        simp
    refine ⟨hsound, rfl, hcount.symm, fun k => Option.ext fun o => ?_⟩
    rw [hsound.get_eq_some_iff, h.get_eq_some_iff]
    simp only [entries]
    rw [hfilled, List.mem_filter]
    simp [entries]
  · rw [length_fill (by omega), hks]

/-- Growing full arrays leaves room for one more object, unless `2 ^ 30` are there. The
arrays get longer only if more than half of the entries have an object. -/
theorem grow (h : m.Sound) (hfull : m.next = m.keys.length) :
    ∃ m', m.grow = (.ok (), m') ∧ Compacts m m' ∧
      (m.live < 2 ^ 30 → m.live < m'.keys.length) ∧
      (m.live = 2 ^ 30 → m'.keys.length = 2 ^ 30) ∧
      (m'.keys.length = m.keys.length ∨ m'.keys.length < 4 * m.live) := by
  obtain ⟨e, he, he', hlen⟩ := h.power
  have hlen' : (m.keys.length : ℤ) = 2 ^ e := by
    rw [hlen]
    norm_cast
  have hmono : ∀ {a b : ℕ}, a ≤ b → (2 : ℤ) ^ a ≤ 2 ^ b :=
    fun hab => pow_le_pow_right₀ (by norm_num) hab
  have hlive : 0 ≤ m.live ∧ m.live ≤ 2 ^ e := by
    have hcount := List.countP_le_length (p := (·.2.isSome)) (l := m.entries)
    have hentries : m.entries.length = m.next := length_entries h.sameLength h.next_le
    have heq := h.live_eq
    omega
  have hbound := hmono he'
  obtain ⟨d, hd, hround, hup, hdown⟩ := roundPow2_spec (hlive.2.trans hbound)
  rw [RefMap.grow, hround]
  have hdouble : d < 30 → int32 (2 * 2 ^ d) = 2 ^ (d + 1) := by
    intro hlt
    have hle := hmono (Nat.succ_le_of_lt hlt)
    have hpos : (0 : ℤ) < 2 ^ (d + 1) := by positivity
    rw [mul_comm, ← pow_succ]
    exact int32_of_bounds (by omega) (by omega)
  have hwrap : d = 30 → int32 (2 * 2 ^ d) = -2 ^ 31 := by
    rintro rfl
    rfl
  have hde : d ≤ e := by
    by_contra hgt
    have hle := hmono (show e ≤ d - 1 by omega)
    omega
  by_cases hless : (m.keys.length : ℤ) < int32 (2 * 2 ^ d)
  · -- More than half of the entries are in use, and there are longer arrays.
    have hlt : d < 30 := by
      by_contra hge
      rw [hwrap (by omega)] at hless
      omega
    rw [hdouble hlt, hlen'] at hless
    have hed : e ≤ d := by
      have hlt' := (pow_lt_pow_iff_right₀ (by norm_num)).mp hless
      omega
    obtain rfl : d = e := by omega
    have hlength : int32 (m.keys.length * 2) = ((2 ^ (d + 1) : ℕ) : ℤ) := by
      rw [hlen', mul_comm, hdouble hlt]
      norm_cast
    obtain ⟨m', hcompact, hsame, hnew⟩ := h.compact hfull false
      (List.replicate (2 ^ (d + 1)) 0) (List.replicate (2 ^ (d + 1)) none) (by simp)
      (by simp [hlen, pow_succ]) ⟨d + 1, by omega, by omega, by simp⟩ (by simp)
    have hnew' : (m'.keys.length : ℤ) = 2 * 2 ^ d := by
      rw [hnew, List.length_replicate, pow_succ]
      push_cast
      ring
    have hhalf : (2 : ℤ) ^ d = 2 * 2 ^ (d - 1) := by
      rw [← pow_succ', Nat.sub_add_cancel (by omega)]
    have hmore : 2 ^ (d - 1) < m.live := hdown.resolve_left (by omega)
    refine ⟨m', ?_, hsame, ?_, ?_, ?_⟩
    · simp only [hdouble hlt, hlength]
      rw [hlen', if_pos hless, if_neg (not_lt.mpr (Int.natCast_nonneg _)), Int.toNat_natCast,
        hcompact]
    · intro
      rw [hnew']
      omega
    · intro hfull'
      have hle := hmono (show d ≤ 29 by omega)
      omega
    · refine Or.inr ?_
      rw [hnew', hhalf]
      omega
  · -- The entries without an object leave enough room, or there is none left.
    obtain ⟨m', hcompact, hsame, hnew⟩ := h.compact hfull true m.keys m.objs h.sameLength
      le_rfl h.power (fun _ => ⟨rfl, rfl⟩)
    refine ⟨m', ?_, hsame, ?_, ?_, Or.inl hnew⟩
    · simp only [if_neg hless, hcompact]
    · intro hroom
      rw [hnew, hlen']
      by_cases hlt : d < 30
      · rw [hdouble hlt, hlen', pow_succ] at hless
        have hpos : (0 : ℤ) < 2 ^ d := by positivity
        omega
      · obtain rfl : d = 30 := by omega
        obtain rfl : e = 30 := by omega
        exact hroom
    · intro hfull'
      have hle : 30 ≤ e := by
        by_contra hlt
        have hle := hmono (show e ≤ 29 by omega)
        omega
      rw [hnew, hlen, show e = 30 by omega]

/-- There are at most `2 ^ 30` objects. -/
theorem live_le (h : m.Sound) : m.live ≤ m.next ∧ m.live ≤ 2 ^ 30 := by
  obtain ⟨e, -, he, hlen⟩ := h.power
  have hpow : (2 : ℕ) ^ e ≤ 2 ^ 30 := pow_le_pow_right₀ (by norm_num) he
  have hcount := List.countP_le_length (p := (·.2.isSome)) (l := m.entries)
  have hentries : m.entries.length = m.next := length_entries h.sameLength h.next_le
  have heq := h.live_eq
  have hnext := h.next_le
  omega

/-- If all entries have an object, a key without an object has no entry. -/
theorem search_of_dense (h : m.Sound) (hdense : (m.next : ℤ) = m.live)
    (hget : m.get key = none) : ∃ p ≤ m.next, binarySearch m.keys m.next key = -(p + 1) ∧
      (∀ x ∈ m.keys.take p, x < key) ∧ ∀ x ∈ (m.keys.take m.next).drop p, key < x := by
  refine (h.search key).resolve_left ?_
  rintro ⟨i, o, -, hentry, -⟩
  have hall : m.entries.countP (·.2.isSome) = m.entries.length := by
    have hentries : m.entries.length = m.next := length_entries h.sameLength h.next_le
    have heq := h.live_eq
    omega
  have hsome : o.isSome = true :=
    List.countP_eq_length.mp hall _ (List.mem_of_getElem? hentry)
  obtain ⟨obj, rfl⟩ := Option.isSome_iff_exists.mp hsome
  have hget' := h.get_eq_some_iff.mpr (List.mem_of_getElem? hentry)
  rw [hget] at hget'
  cases hget'

variable [DecidableEq α]

/-- `put` leaves an object where it is, and does not replace it by another. -/
theorem put_of_get (h : m.Sound) {old : α} (hget : m.get key = some old) (obj : α) :
    m.put key (some obj) = (if old = obj then .ok () else .error (.replacing key), m) := by
  rcases h.search key with ⟨i, o, hsearch, hentry, hobj⟩ | ⟨p, -, hsearch, -, -⟩
  · rw [RefMap.get, hsearch, if_pos (Int.natCast_nonneg i), Int.toNat_natCast, hobj,
      Option.join_some] at hget
    rw [put, hsearch, if_pos (Int.natCast_nonneg i), Int.toNat_natCast]
    exact (h.putAt hentry hobj obj).2 old hget
  · rw [RefMap.get, hsearch, if_neg (by omega)] at hget
    cases hget

/-- `put` of a key without an entry grows full arrays before it looks for the place. -/
theorem put_of_absent (h : m.Sound) (hget : m.get key = none)
    (habsent : binarySearch m.keys m.next key < 0) (hfull : m.next = m.keys.length) (obj : α) :
    ∃ m' p, m.grow = (.ok (), m') ∧ m.put key (some obj) = m'.insertAt p key obj ∧
      p ≤ m'.next ∧ (∀ x ∈ m'.keys.take p, x < key) ∧
      ∀ x ∈ (m'.keys.take m'.next).drop p, key < x := by
  obtain ⟨m', hgrow, hsame, -⟩ := h.grow hfull
  have hget' : m'.get key = none := (hsame.get_eq key).trans hget
  obtain ⟨p, hp, hsearch, hplace⟩ :=
    hsame.sound.search_of_dense (hsame.next_eq.trans hsame.live_eq.symm) hget'
  refine ⟨m', p, hgrow, ?_, hp, hplace⟩
  have hcomplement : (-binarySearch m'.keys m'.next key - 1).toNat = p := by
    rw [hsearch]
    omega
  simp only [put, if_neg (not_le.mpr habsent), if_pos (le_of_eq hfull.symm), hgrow, hcomplement]

/-- `put` stores an object under a key without one, if fewer than `2 ^ 30` are there. -/
theorem put_of_room (h : m.Sound) (hget : m.get key = none) (hroom : m.live < 2 ^ 30) (obj : α) :
    ∃ m', m.put key (some obj) = (.ok (), m') ∧ Stores m key obj m' ∧
      (m'.keys.length = m.keys.length ∨ m'.keys.length < 4 * m.live) := by
  rcases h.search key with ⟨i, o, hsearch, hentry, hobj⟩ | ⟨p, hp, hsearch, hbelow, habove⟩
  · rw [RefMap.get, hsearch, if_pos (Int.natCast_nonneg i), Int.toNat_natCast, hobj,
      Option.join_some] at hget
    obtain ⟨m', hput, hstores, hlen⟩ := (h.putAt hentry hobj obj).1 hget
    refine ⟨m', ?_, hstores, Or.inl hlen⟩
    rw [put, hsearch, if_pos (Int.natCast_nonneg i), Int.toNat_natCast, hput]
  · rcases Nat.lt_or_eq_of_le h.next_le with hlt | hfull
    · obtain ⟨m', hput, hstores, hlen⟩ := h.insertAt hp hbelow habove hlt obj
      refine ⟨m', ?_, hstores, Or.inl hlen⟩
      have hcomplement : (-(-((p : ℤ) + 1)) - 1).toNat = p := by omega
      rw [put, hsearch, if_neg (by omega), if_neg (by omega), hcomplement, hput]
    · obtain ⟨m', p', hgrow, hput, hp', hbelow', habove'⟩ :=
        h.put_of_absent hget (by omega) hfull obj
      obtain ⟨m₁, hgrow₁, hsame, hroom', -, hlen⟩ := h.grow hfull
      obtain rfl : m₁ = m' := congrArg Prod.snd (hgrow₁.symm.trans hgrow)
      have hnext := hsame.next_eq
      obtain ⟨m'', hinsert, hstores, hlen'⟩ :=
        hsame.sound.insertAt hp' hbelow' habove' (by have := hroom' hroom; omega) obj
      refine ⟨m'', hput.trans hinsert, ⟨hstores.sound, ?_, fun k => ?_⟩, ?_⟩
      · rw [hstores.live_eq, hsame.live_eq]
      · rw [hstores.get_eq, hsame.get_eq]
      · rw [hlen']
        exact hlen

/-- `put` stores no object that is one too many. -/
theorem put_of_full (h : m.Sound) (hget : m.get key = none) (hfull : m.live = 2 ^ 30) (obj : α) :
    ∃ m', m.put key (some obj) = (.error .indexOutOfBounds, m') ∧ Compacts m m' ∧
      m'.keys.length = 2 ^ 30 := by
  have hlive := h.live_le
  have hnext : m.next = m.keys.length ∧ (m.next : ℤ) = m.live := by
    obtain ⟨e, -, he, hlen⟩ := h.power
    have hpow : (2 : ℕ) ^ e ≤ 2 ^ 30 := pow_le_pow_right₀ (by norm_num) he
    have hle := h.next_le
    omega
  obtain ⟨p, -, hsearch, -⟩ := h.search_of_dense hnext.2 hget
  obtain ⟨m', p', hgrow, hput, hp', -⟩ := h.put_of_absent hget (by omega) hnext.1 obj
  obtain ⟨m₁, hgrow₁, hsame, -, hroom, -⟩ := h.grow hnext.1
  obtain rfl : m₁ = m' := congrArg Prod.snd (hgrow₁.symm.trans hgrow)
  have hlen := hroom hfull
  have hnext' := hsame.next_eq
  exact ⟨m₁, hput.trans (hsame.sound.insertAt_full hp' (by omega) obj), hsame, hlen⟩

end Sound

end RefMap

end IpfsMobile.Seq
