import IpfsMobile.Go.Call
import Mathlib.Algebra.Order.Ring.Rat
import Mathlib.Data.List.Sort
import Mathlib.Tactic.Common

/-!
# JSON values

A JSON value is a tree of arrays and objects. The members of an object are a map from
names to values: the first one of a name counts and their order has no meaning. A path of
names is read and set step by step; setting makes the objects that are missing on the way.
-/

namespace Go

/-- Text in JSON: a sequence of Unicode characters. -/
abbrev Text := List Char

/-- The characters of a literal. -/
def text (s : String) : Text := s.toList

namespace Members

variable {α β : Type}

/-- The value of a name. -/
def find (p : Text) : List (Text × α) → Option α
  | [] => none
  | (q, a) :: ms => if q = p then some a else find p ms

/-- Set the value of a name, in its place or at the end. -/
def put (p : Text) (a : α) : List (Text × α) → List (Text × α)
  | [] => [(p, a)]
  | (q, b) :: ms => if q = p then (p, a) :: ms else (q, b) :: put p a ms

/-- Change all values. -/
def mapValues (f : α → β) (ms : List (Text × α)) : List (Text × β) := ms.map fun m => (m.1, f m.2)

@[simp] theorem find_nil (p : Text) : find p ([] : List (Text × α)) = none := rfl

theorem find_cons (p q : Text) (a : α) (ms : List (Text × α)) :
    find p ((q, a) :: ms) = if q = p then some a else find p ms := rfl

@[simp] theorem mapValues_nil (f : α → β) : mapValues f ([] : List (Text × α)) = [] := rfl

@[simp] theorem mapValues_cons (f : α → β) (p : Text) (a : α) (ms : List (Text × α)) :
    mapValues f ((p, a) :: ms) = (p, f a) :: mapValues f ms := rfl

/-- The name that was set has the new value. -/
@[simp] theorem find_put_self (p : Text) (a : α) (ms : List (Text × α)) :
    find p (put p a ms) = some a := by
  induction ms with
  | nil => simp [put, find]
  | cons m ms ih =>
    obtain ⟨q, b⟩ := m
    by_cases hq : q = p
    · simp [put, find, hq]
    · simp [put, find, hq, ih]

/-- The other names keep their values. -/
theorem find_put_of_ne {p q : Text} (h : q ≠ p) (a : α) (ms : List (Text × α)) :
    find q (put p a ms) = find q ms := by
  induction ms with
  | nil => simp [put, find, Ne.symm h]
  | cons m ms ih =>
    obtain ⟨r, b⟩ := m
    by_cases hr : r = p
    · subst hr
      simp [put, find, Ne.symm h]
    · simp [put, find, hr, ih]

/-- Looking up a changed value. -/
@[simp] theorem find_mapValues (f : α → β) (p : Text) (ms : List (Text × α)) :
    find p (mapValues f ms) = (find p ms).map f := by
  induction ms with
  | nil => rfl
  | cons m ms ih =>
    obtain ⟨q, b⟩ := m
    by_cases hq : q = p
    · simp [find, hq]
    · simp [find, hq, ih]

/-- A filter on names that lets a name through does not change its value. -/
theorem find_filter {p : Text} (keep : Text → Bool) (h : keep p = true) (ms : List (Text × α)) :
    find p (ms.filter fun m => keep m.1) = find p ms := by
  induction ms with
  | nil => rfl
  | cons m ms ih =>
    obtain ⟨q, b⟩ := m
    by_cases hq : q = p
    · subst hq
      simp [h, find]
    · by_cases hkeep : keep q = true
      · simp [hkeep, find, hq, ih]
      · simp [hkeep, find, hq, ih]

theorem find_append (p : Text) (ms ns : List (Text × α)) :
    find p (ms ++ ns) = (find p ms).or (find p ns) := by
  induction ms with
  | nil => rfl
  | cons m ms ih =>
    obtain ⟨q, b⟩ := m
    by_cases hq : q = p
    · simp [find, hq]
    · simp [find, hq, ih]

/-- Members put over others: the others count for the names that are left. -/
theorem find_over (p : Text) (ms ns : List (Text × α)) :
    find p (ms ++ ns.filter fun m => (find m.1 ms).isNone) = (find p ms).or (find p ns) := by
  rw [find_append]
  cases hfind : find p ms with
  | none =>
    have hkeep : (find p ms).isNone = true := by simp [hfind]
    rw [find_filter (fun q => (find q ms).isNone) hkeep]
  | some a => rfl

/-- Setting a name that a filter lets through. -/
theorem filter_put_of_keep {p : Text} (keep : Text → Bool) (h : keep p = true) (a : α)
    (ms : List (Text × α)) :
    (put p a ms).filter (fun m => keep m.1) = put p a (ms.filter fun m => keep m.1) := by
  induction ms with
  | nil => simp [put, h]
  | cons m ms ih =>
    obtain ⟨q, b⟩ := m
    by_cases hq : q = p
    · subst hq
      simp [put, h]
    · by_cases hkeep : keep q = true
      · simp [put, hq, hkeep, ih]
      · simp [put, hq, hkeep, ih]

/-- Setting a name that a filter holds back. -/
theorem filter_put_of_drop {p : Text} (keep : Text → Bool) (h : keep p = false) (a : α)
    (ms : List (Text × α)) :
    (put p a ms).filter (fun m => keep m.1) = ms.filter fun m => keep m.1 := by
  induction ms with
  | nil => simp [put, h]
  | cons m ms ih =>
    obtain ⟨q, b⟩ := m
    by_cases hq : q = p
    · subst hq
      simp [put, h]
    · by_cases hkeep : keep q = true
      · simp [put, hq, hkeep, ih]
      · simp [put, hq, hkeep, ih]

/-- Names in the order in which `encoding/json` writes the members of a map. -/
def nameLe : Text → Text → Bool
  | [], _ => true
  | _ :: _, [] => false
  | c :: cs, d :: ds => c.val < d.val || c.val = d.val && nameLe cs ds

/-- The members in the order of their names. -/
def sort (ms : List (Text × α)) : List (Text × α) :=
  ms.insertionSort fun m n => nameLe m.1 n.1 = true

end Members

open Members

/-- A JSON value. Numbers are known by their value. -/
inductive Json where
  | null
  | bool (b : Bool)
  | num (q : ℚ)
  | str (s : Text)
  | arr (vs : List Json)
  | obj (ms : List (Text × Json))

namespace Json

/-- What holds of a value if it holds of all values in it holds of every value. -/
@[elab_as_elim, induction_eliminator]
theorem induction {P : Json → Prop} (null : P .null) (bool : ∀ b, P (.bool b))
    (num : ∀ q, P (.num q)) (str : ∀ s, P (.str s))
    (arr : ∀ vs, (∀ v ∈ vs, P v) → P (.arr vs))
    (obj : ∀ ms, (∀ m ∈ ms, P m.2) → P (.obj ms)) (j : Json) : P j := by
  refine @Json.rec P (fun vs => ∀ v ∈ vs, P v) (fun ms => ∀ m ∈ ms, P m.2) (fun m => P m.2)
    null bool num str arr obj ?_ ?_ ?_ ?_ ?_ j
  · simp
  · intro v vs hv hvs
    exact List.forall_mem_cons.mpr ⟨hv, hvs⟩
  · simp
  · intro m ms hm hms
    exact List.forall_mem_cons.mpr ⟨hm, hms⟩
  · intro p v hv
    exact hv

mutual

/-- Change all numbers in a value. -/
def mapNum (f : ℚ → ℚ) : Json → Json
  | null => null
  | bool b => bool b
  | num q => num (f q)
  | str s => str s
  | arr vs => arr (mapNumList f vs)
  | obj ms => obj (mapNumMembers f ms)

/-- Change all numbers in a list of values. -/
def mapNumList (f : ℚ → ℚ) : List Json → List Json
  | [] => []
  | v :: vs => mapNum f v :: mapNumList f vs

/-- Change all numbers in a list of members. -/
def mapNumMembers (f : ℚ → ℚ) : List (Text × Json) → List (Text × Json)
  | [] => []
  | (p, v) :: ms => (p, mapNum f v) :: mapNumMembers f ms

end

mutual

/-- The numbers in a value. -/
def numbers : Json → List ℚ
  | null | bool _ | str _ => []
  | num q => [q]
  | arr vs => numbersList vs
  | obj ms => numbersMembers ms

/-- The numbers in a list of values. -/
def numbersList : List Json → List ℚ
  | [] => []
  | v :: vs => numbers v ++ numbersList vs

/-- The numbers in a list of members. -/
def numbersMembers : List (Text × Json) → List ℚ
  | [] => []
  | (_, v) :: ms => numbers v ++ numbersMembers ms

end

mutual

/-- The value with the members of all objects in the order of their names. -/
def sorted : Json → Json
  | null => null
  | bool b => bool b
  | num q => num q
  | str s => str s
  | arr vs => arr (sortedList vs)
  | obj ms => obj (sort (sortedMembers ms))

/-- A list of values with the members of all objects in the order of their names. -/
def sortedList : List Json → List Json
  | [] => []
  | v :: vs => sorted v :: sortedList vs

/-- A list of members with the members of all objects in their values in order. -/
def sortedMembers : List (Text × Json) → List (Text × Json)
  | [] => []
  | (p, v) :: ms => (p, sorted v) :: sortedMembers ms

end

/-- The same value up to the order of members. -/
def Same (v w : Json) : Prop := v.sorted = w.sorted

theorem mapNum_arr (f : ℚ → ℚ) (vs : List Json) : (arr vs).mapNum f = arr (vs.map (mapNum f)) := by
  rw [mapNum]
  congr 1
  induction vs with
  | nil => rfl
  | cons v vs ih => rw [mapNumList, List.map_cons, ih]

theorem mapNum_obj (f : ℚ → ℚ) (ms : List (Text × Json)) :
    (obj ms).mapNum f = obj (mapValues (mapNum f) ms) := by
  rw [mapNum]
  congr 1
  induction ms with
  | nil => rfl
  | cons m ms ih =>
    obtain ⟨p, v⟩ := m
    rw [mapNumMembers, mapValues_cons, ih]

/-- The numbers of a value are all unchanged if the value is. -/
theorem mapNum_eq_self_iff {f : ℚ → ℚ} (j : Json) :
    j.mapNum f = j ↔ ∀ q ∈ j.numbers, f q = q := by
  induction j with
  | null | bool b | str s => simp [mapNum, numbers]
  | num q => simp [mapNum, numbers]
  | arr vs ih =>
    rw [mapNum_arr, numbers, arr.injEq]
    induction vs with
    | nil => simp [numbersList]
    | cons v vs ihs =>
      have hv := ih v (by simp)
      have hvs := ihs fun w hw => ih w (by simp [hw])
      simp only [List.map_cons, List.cons.injEq, numbersList, List.mem_append, or_imp, forall_and,
        hv, hvs]
  | obj ms ih =>
    rw [mapNum_obj, numbers, obj.injEq]
    induction ms with
    | nil => simp [numbersMembers]
    | cons m ms ihs =>
      obtain ⟨p, v⟩ := m
      have hv := ih (p, v) (by simp)
      have hms := ihs fun w hw => ih w (by simp [hw])
      simp only [mapValues_cons, List.cons.injEq, Prod.mk.injEq, true_and, numbersMembers,
        List.mem_append, or_imp, forall_and, hv, hms]

/-- Changing the numbers again in a way that leaves changed numbers alone. -/
theorem mapNum_mapNum {f : ℚ → ℚ} (h : ∀ q, f (f q) = f q) (j : Json) :
    (j.mapNum f).mapNum f = j.mapNum f := by
  induction j with
  | null | bool b | str s => rfl
  | num q => simp [mapNum, h]
  | arr vs ih =>
    rw [mapNum_arr, mapNum_arr, List.map_map]
    congr 1
    exact List.map_congr_left ih
  | obj ms ih =>
    rw [mapNum_obj, mapNum_obj, mapValues, mapValues, List.map_map]
    congr 1
    refine List.map_congr_left fun m hm => ?_
    simp [ih m hm]

/-- The value at a path of names. -/
def get (j : Json) : List Text → Option Json
  | [] => some j
  | p :: ps =>
    match j with
    | obj ms =>
      match find p ms with
      | some v => v.get ps
      | none => none
    | _ => none

/-- The member in which setting a path goes on: an empty object if there is none. -/
def cursor (p : Text) (ms : List (Text × Json)) : Json :=
  match find p ms with
  | none | some null => obj []
  | some v => v

/-- Set the value at a path of names. It fails if the path leads through something else
than an object. -/
def set (j v : Json) : List Text → Option Json
  | [] => some v
  | p :: ps =>
    match j with
    | obj ms => ((cursor p ms).set v ps).map fun w => obj (put p w ms)
    | _ => none

/-- The members of an object. -/
def members : Json → Option (List (Text × Json))
  | obj ms => some ms
  | _ => none

theorem eq_obj_of_members {j : Json} {ms : List (Text × Json)} (h : j.members = some ms) :
    j = obj ms := by
  cases j with
  | obj ns => rw [Option.some.inj h]
  | null | bool b | num q | str s | arr vs => cases h

theorem get_obj_cons (ms : List (Text × Json)) (p : Text) (ps : List Text) :
    (obj ms).get (p :: ps) = (find p ms).bind fun v => v.get ps := by
  rw [get]
  cases find p ms <;> rfl

/-- No member can be read in anything but an object. -/
theorem get_cons_of_ne_obj {j : Json} (h : ∀ ms, j ≠ obj ms) (p : Text) (ps : List Text) :
    j.get (p :: ps) = none := by
  cases j <;> simp_all [get]

/-- Setting a path in a value does something to an object in it. -/
theorem set_cons_eq_some {j v j' : Json} {p : Text} {ps : List Text}
    (h : j.set v (p :: ps) = some j') :
    ∃ ms w, j = obj ms ∧ (cursor p ms).set v ps = some w ∧ j' = obj (put p w ms) := by
  cases j with
  | obj ms =>
    obtain ⟨w, hw, rfl⟩ := Option.map_eq_some_iff.mp h
    exact ⟨ms, w, rfl, hw, rfl⟩
  | null | bool b | num q | str s | arr vs => simp [set] at h

/-- What a path was set in is an object. -/
theorem ne_null_of_set {j v j' : Json} {p : Text} {ps : List Text}
    (h : j.set v (p :: ps) = some j') : j' ≠ null := by
  obtain ⟨ms, w, -, -, rfl⟩ := set_cons_eq_some h
  simp

/-- The cursor is the value of the name, unless that is missing or null. -/
theorem cursor_cases (p : Text) (ms : List (Text × Json)) :
    ((find p ms).getD null = null ∧ cursor p ms = obj []) ∨
      (∃ v, find p ms = some v ∧ v ≠ null ∧ cursor p ms = v) := by
  rw [cursor]
  cases hfind : find p ms with
  | none => exact Or.inl ⟨rfl, rfl⟩
  | some v =>
    cases v with
    | null => exact Or.inl ⟨rfl, rfl⟩
    | bool b | num q | str s | arr vs | obj ns => exact Or.inr ⟨_, rfl, by simp, rfl⟩

/-- At the path that was set there is the value. -/
theorem get_set {j v j' : Json} {path : List Text} (h : j.set v path = some j') :
    j'.get path = some v := by
  induction path generalizing j j' with
  | nil =>
    obtain rfl := Option.some.inj h
    rfl
  | cons p ps ih =>
    obtain ⟨ms, w, rfl, hw, rfl⟩ := set_cons_eq_some h
    rw [get_obj_cons, find_put_self]
    exact ih hw

/-- Reading a value whose numbers are changed. -/
theorem get_mapNum (f : ℚ → ℚ) (j : Json) (path : List Text) :
    (j.mapNum f).get path = (j.get path).map (mapNum f) := by
  induction path generalizing j with
  | nil => rfl
  | cons p ps ih =>
    cases j with
    | obj ms =>
      rw [mapNum_obj, get_obj_cons, get_obj_cons, find_mapValues]
      cases find p ms with
      | none => rfl
      | some v => exact ih v
    | arr vs => rw [mapNum_arr]; rfl
    | null | bool b | num q | str s => rfl

theorem mapNum_eq_null_iff {f : ℚ → ℚ} {j : Json} : j.mapNum f = null ↔ j = null := by
  cases j <;> simp [mapNum]

theorem cursor_mapNum (f : ℚ → ℚ) (p : Text) (ms : List (Text × Json)) :
    cursor p (mapValues (mapNum f) ms) = (cursor p ms).mapNum f := by
  rw [cursor, cursor, find_mapValues]
  cases find p ms with
  | none => rfl
  | some v => cases v <;> rfl

/-- Setting a path in a value whose numbers are changed. -/
theorem set_mapNum (f : ℚ → ℚ) (j v : Json) (path : List Text) :
    (j.mapNum f).set (v.mapNum f) path = (j.set v path).map (mapNum f) := by
  induction path generalizing j with
  | nil => rfl
  | cons p ps ih =>
    cases j with
    | obj ms =>
      rw [mapNum_obj, set, set, cursor_mapNum, ih]
      cases (cursor p ms).set v ps with
      | none => rfl
      | some w =>
        have hset : put p (w.mapNum f) (mapValues (mapNum f) ms) =
            mapValues (mapNum f) (put p w ms) := by
          induction ms with
          | nil => rfl
          | cons m ms ihms =>
            obtain ⟨q, u⟩ := m
            by_cases hq : q = p
            · simp [put, hq]
            · simp [put, hq, ihms]
        simp only [Option.map_some, mapNum_obj, hset]
    | arr vs => rw [mapNum_arr]; rfl
    | null | bool b | num q | str s => rfl

/-- A path that was set in a value with unchanged numbers, to such a value. -/
theorem mapNum_of_set {f : ℚ → ℚ} {j v j' : Json} {path : List Text} (hj : j.mapNum f = j)
    (hv : v.mapNum f = v) (h : j.set v path = some j') : j'.mapNum f = j' := by
  have hset := set_mapNum f j v path
  rw [hj, hv, h, Option.map_some] at hset
  exact (Option.some.inj hset).symm

/-- Neither path is a prefix of the other, where names count up to `fold`. -/
def Apart (fold : Text → Text) (path path' : List Text) : Prop :=
  ¬path.map fold <+: path'.map fold ∧ ¬path'.map fold <+: path.map fold

variable {fold : Text → Text}

theorem not_apart_nil_left (path : List Text) : ¬Apart fold [] path := fun h => h.1 (by simp)

theorem not_apart_nil_right (path : List Text) : ¬Apart fold path [] := fun h => h.2 (by simp)

/-- Paths are apart at the first name or after it. -/
theorem Apart.cons_cases {p p' : Text} {ps ps' : List Text} (h : Apart fold (p :: ps) (p' :: ps')) :
    fold p ≠ fold p' ∨ fold p = fold p' ∧ Apart fold ps ps' := by
  by_cases hfold : fold p = fold p'
  · refine Or.inr ⟨hfold, ?_, ?_⟩
    · intro hprefix
      exact h.1 (by simpa [hfold] using hprefix)
    · intro hprefix
      exact h.2 (by simpa [hfold] using hprefix)
  · exact Or.inl hfold

/-- An empty object has nothing at a path that is apart from some other. -/
theorem Apart.get_empty {path path' : List Text} (h : Apart fold path path') :
    (obj []).get path' = none := by
  cases path' with
  | nil => exact absurd h (not_apart_nil_right path)
  | cons p ps => rfl

/-- Setting a path changes nothing apart from it. -/
theorem get_set_of_apart {j v j' : Json} {path path' : List Text} (h : j.set v path = some j')
    (hapart : Apart fold path path') : j'.get path' = j.get path' := by
  induction path generalizing j j' path' with
  | nil => exact absurd hapart (not_apart_nil_left path')
  | cons p ps ih =>
    obtain ⟨ms, w, rfl, hw, rfl⟩ := set_cons_eq_some h
    cases path' with
    | nil => exact absurd hapart (not_apart_nil_right _)
    | cons p' ps' =>
      rw [get_obj_cons, get_obj_cons]
      by_cases hp : p' = p
      · subst hp
        have hrest : Apart fold ps ps' := by
          rcases hapart.cons_cases with hne | ⟨-, hrest⟩
          · exact absurd rfl hne
          · exact hrest
        have hget := ih hw hrest
        rw [find_put_self, Option.bind_some, hget]
        rcases cursor_cases p' ms with ⟨hnone, hcursor⟩ | ⟨u, hfind, -, hcursor⟩
        · rw [hcursor, hrest.get_empty]
          cases hfind : find p' ms with
          | none => rfl
          | some u =>
            rw [hfind] at hnone
            obtain rfl : u = null := hnone
            cases ps' with
            | nil => exact absurd hrest (not_apart_nil_right ps)
            | cons q qs => rfl
        · rw [hcursor, hfind, Option.bind_some]
      · rw [find_put_of_ne hp]

mutual

/-- Compare two values. -/
def beq : Json → Json → Bool
  | null, null => true
  | bool a, bool b => a == b
  | num p, num q => p == q
  | str s, str t => s == t
  | arr vs, arr ws => beqList vs ws
  | obj ms, obj ns => beqMembers ms ns
  | _, _ => false

/-- Compare two lists of values. -/
def beqList : List Json → List Json → Bool
  | [], [] => true
  | v :: vs, w :: ws => beq v w && beqList vs ws
  | _, _ => false

/-- Compare two lists of members. -/
def beqMembers : List (Text × Json) → List (Text × Json) → Bool
  | [], [] => true
  | (p, v) :: ms, (q, w) :: ns => p == q && beq v w && beqMembers ms ns
  | _, _ => false

end

/-- The comparison decides equality. -/
theorem beq_iff (j k : Json) : beq j k = true ↔ j = k := by
  induction j generalizing k with
  | null | bool b | num q | str s => cases k <;> simp [beq]
  | arr vs ih =>
    cases k with
    | arr ws =>
      rw [beq, arr.injEq]
      induction vs generalizing ws with
      | nil => cases ws <;> simp [beqList]
      | cons v vs ihs =>
        cases ws with
        | nil => simp [beqList]
        | cons w ws =>
          have hvs := ihs (fun u hu => ih u (by simp [hu])) ws
          simp [beqList, ih v (by simp) w, hvs]
    | null | bool b | num q | str s | obj ms => simp [beq]
  | obj ms ih =>
    cases k with
    | obj ns =>
      rw [beq, obj.injEq]
      induction ms generalizing ns with
      | nil => cases ns <;> simp [beqMembers]
      | cons m ms ihs =>
        obtain ⟨p, v⟩ := m
        cases ns with
        | nil => simp [beqMembers]
        | cons n ns =>
          obtain ⟨q, w⟩ := n
          have hms := ihs (fun u hu => ih u (by simp [hu])) ns
          simp [beqMembers, ih (p, v) (by simp) w, hms]
    | null | bool b | num q | str s | arr vs => simp [beq]

instance : DecidableEq Json := fun j k => decidable_of_iff _ (beq_iff j k)

instance (v w : Json) : Decidable (Same v w) := inferInstanceAs (Decidable (_ = _))

end Json

end Go
