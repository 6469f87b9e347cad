import IpfsMobile.Go.JsonRoundTrip

/-!
# Paths through typed values

A path is set in what a value was written as, the result is read into the type again and
written. What is at the path then depends on the type alone: whether the path names a
place in it, and what the type there makes of the value that was set.
-/

namespace Go

open Members

namespace Json

/-- What a path is set in: an empty object instead of null. -/
def opened : Json → Json
  | null => obj []
  | j => j

/-- The value of a member, null if there is none. -/
def member (j : Json) (p : Text) : Json := (j.get [p]).getD null

theorem member_obj (ms : List (Text × Json)) (p : Text) :
    (obj ms).member p = (find p ms).getD null := by
  rw [member, get_obj_cons]
  cases find p ms <;> rfl

theorem member_opened (j : Json) (p : Text) : j.opened.member p = j.member p := by
  cases j <;> rfl

theorem get_opened (j : Json) (p : Text) (ps : List Text) :
    j.opened.get (p :: ps) = j.get (p :: ps) := by
  cases j <;> rfl

/-- Reading on in a member. -/
theorem get_member (j : Json) (p q : Text) (qs : List Text) :
    (j.member p).get (q :: qs) = j.get (p :: q :: qs) := by
  cases j with
  | obj ms =>
    rw [member_obj, get_obj_cons]
    cases find p ms <;> rfl
  | null | bool b | num n | str s | arr vs => rfl

/-- Setting a path puts what was set in a member. -/
theorem set_opened_cons {c v j' : Json} {p : Text} {ps : List Text}
    (h : c.opened.set v (p :: ps) = some j') :
    ∃ ms w, c.opened = obj ms ∧ (c.member p).opened.set v ps = some w ∧ j' = obj (put p w ms) := by
  obtain ⟨ms, w, hopened, hw, rfl⟩ := set_cons_eq_some h
  have hcursor : cursor p ms = (c.member p).opened := by
    rw [← member_opened, hopened, member_obj, cursor]
    cases find p ms with
    | none => rfl
    | some u => cases u <;> rfl
  rw [hcursor] at hw
  exact ⟨ms, w, hopened, hw, rfl⟩

end Json

/-- A field of a struct, by its place, and its type. -/
inductive Slot : Fields → Ty → Type 1
  | here {name : Text} {omitEmpty : Bool} {t : Ty} {rest : Fields} :
    Slot (.cons name omitEmpty t rest) t
  | there {name : Text} {omitEmpty : Bool} {t t' : Ty} {rest : Fields} : Slot rest t →
    Slot (.cons name omitEmpty t' rest) t

namespace Slot

/-- The name of a field. -/
def name : {fs : Fields} → {t : Ty} → Slot fs t → Text
  | .cons name _ _ _, _, here => name
  | .cons _ _ _ _, _, there s => s.name

/-- Whether a field is marked `omitempty`. -/
def omitEmpty : {fs : Fields} → {t : Ty} → Slot fs t → Bool
  | .cons _ omitEmpty _ _, _, here => omitEmpty
  | .cons _ _ _ _, _, there s => s.omitEmpty

/-- The value of a field. -/
def get : {fs : Fields} → {t : Ty} → Slot fs t → fs.Val → t.Val
  | .cons _ _ _ _, _, here, (a, _) => a
  | .cons _ _ _ _, _, there s, (_, as) => s.get as

variable {lib : EncodingJson}

theorem name_mem {fs : Fields} {t : Ty} (s : Slot fs t) : s.name ∈ fs.names := by
  induction s with
  | here => exact List.mem_cons_self
  | there s ih => exact List.mem_cons_of_mem _ ih

/-- The first field has another name than those after it. -/
theorem name_ne {name : Text} {omitEmpty : Bool} {t t' : Ty} {rest : Fields}
    (hwf : (Fields.cons name omitEmpty t' rest).WF lib) (s : Slot rest t) : name ≠ s.name := by
  rintro rfl
  exact hwf.not_mem_names s.name_mem

/-- Every name of a struct is the name of a field. -/
theorem exists_of_mem {p : Text} : {fs : Fields} → p ∈ fs.names → ∃ t, ∃ s : Slot fs t, s.name = p
  | .cons name _ t rest, h => by
    rcases List.mem_cons.mp h with rfl | hmem
    · exact ⟨t, here, rfl⟩
    · obtain ⟨t', s, rfl⟩ := exists_of_mem hmem
      exact ⟨t', there s, rfl⟩

theorem get_zero {fs : Fields} {t : Ty} (s : Slot fs t) : s.get fs.zero = t.zero := by
  induction s with
  | here => rfl
  | there s ih => exact ih

/-- What is written for a field. -/
theorem find_encode {fs : Fields} {t : Ty} (hwf : fs.WF lib) (s : Slot fs t) (as : fs.Val) :
    find s.name (fs.encode as) =
      if s.omitEmpty && t.isEmpty (s.get as) then none else some (t.encode (s.get as)) := by
  induction s with
  | here =>
    obtain ⟨a, as⟩ := as
    exact find_encode_cons_self hwf.not_mem_names a as
  | @there name' omitEmpty' t t' rest s ih =>
    obtain ⟨a, as⟩ := as
    rw [name, find_encode_cons_of_ne (s.name_ne hwf).symm]
    exact ih hwf.2.2 as

/-- What is read for a field. -/
theorem decode_get {fs : Fields} {t : Ty} (s : Slot fs t) {olds bs : fs.Val}
    {ms : List (Text × Json)} (h : fs.decode lib olds ms = some bs) :
    (lib.matching s.name ms).foldlM (fun a v => t.decode lib a v) (s.get olds) =
      some (s.get bs) := by
  induction s with
  | here => exact (decode_cons h).1
  | there s ih => exact ih (decode_cons h).2

end Slot

variable {lib : EncodingJson}

mutual

/-- Induction on the types that are meant for JSON. -/
theorem Ty.WF.induction {P : Ty → Prop} (scalar : ∀ κ, P (.scalar κ)) (any : P .any)
    (list : ∀ t, P (.list t)) (map : ∀ t, t.WF lib → P t → P (.map t))
    (ptr : ∀ t, t.WF lib → (∀ a, t.encode a ≠ .null) → P t → P (.ptr t))
    (struct : ∀ fs, fs.WF lib → (∀ t, Slot fs t → P t) → P (.struct fs)) :
    {t : Ty} → t.WF lib → P t
  | .scalar κ, _ => scalar κ
  | .any, _ => any
  | .list t, _ => list t
  | .map t, hwf => map t hwf (Ty.WF.induction scalar any list map ptr struct hwf)
  | .ptr t, hwf => ptr t hwf.1 hwf.2 (Ty.WF.induction scalar any list map ptr struct hwf.1)
  | .struct fs, hwf => struct fs hwf fun _ s =>
    Fields.WF.induction scalar any list map ptr struct hwf s

/-- The same for the fields of a struct. -/
theorem Fields.WF.induction {P : Ty → Prop} (scalar : ∀ κ, P (.scalar κ)) (any : P .any)
    (list : ∀ t, P (.list t)) (map : ∀ t, t.WF lib → P t → P (.map t))
    (ptr : ∀ t, t.WF lib → (∀ a, t.encode a ≠ .null) → P t → P (.ptr t))
    (struct : ∀ fs, fs.WF lib → (∀ t, Slot fs t → P t) → P (.struct fs)) :
    {fs : Fields} → fs.WF lib → {t : Ty} → Slot fs t → P t
  | .cons _ _ _ _, hwf, _, .here => Ty.WF.induction scalar any list map ptr struct hwf.2.1
  | .cons _ _ _ _, hwf, _, .there s =>
    Fields.WF.induction scalar any list map ptr struct hwf.2.2 s

end

variable (lib)

/-- A type keeps a value if it reads the value, through float64s, and writes the same. -/
def Ty.Keeps (t : Ty) (v : Json) : Prop :=
  ∃ b, t.decode lib t.zero (lib.generic v) = some b ∧ (t.encode b).Same v

/-- A type leaves out a value that it reads as one that `omitempty` leaves out. -/
def Ty.LeavesOut (t : Ty) (v : Json) : Prop :=
  ∃ b, t.decode lib t.zero (lib.generic v) = some b ∧ t.isEmpty b = true

mutual

/-- A value that is set at a path is there afterwards: the path names a place in the type,
with its fields spelled as in the type, and the type there keeps the value. -/
def Ty.Observable : Ty → List Text → Json → Prop
  | t, [], v => t.Keeps lib v
  | .any, _ :: _, v => (lib.generic v).Same v
  | .map t, _ :: ps, v => t.Observable ps v
  | .ptr t, p :: ps, v => t.Observable (p :: ps) v
  | .struct fs, p :: ps, v => fs.Observable p ps v
  | .scalar _, _ :: _, _ | .list _, _ :: _, _ => False

/-- The same for a path that begins with the name of a field. What is set in the field
itself must not be left out. -/
def Fields.Observable : Fields → Text → List Text → Json → Prop
  | .nil, _, _, _ => False
  | .cons name omitEmpty t rest, p, ps, v =>
    if name = p then
      t.Observable ps v ∧ ¬(omitEmpty = true ∧ ps = [] ∧ t.LeavesOut lib v)
    else rest.Observable p ps v

end

/-- What was written for a value of a type and read into a generic value, or nothing. -/
def Ty.Fits (t : Ty) (c : Json) : Prop := c = .null ∨ ∃ a, c = lib.generic (t.encode a)

variable {lib}

/-- No object is read into a scalar. -/
theorem decode_scalar_obj (κ : Scalar) (old : κ.Carrier) (ms : List (Text × Json))
    (b : κ.Carrier) : Ty.decode lib (.scalar κ) old (.obj ms) ≠ some b := by
  intro h
  have hnone : κ.decode old (.obj ms) = some b := h
  rw [κ.decode_obj] at hnone
  cases hnone

/-- Looking up a name in what was read member by member. -/
theorem find_of_mapM {α : Type} {f : Json → Option α} {ms : List (Text × Json)}
    {new : List (Text × α)} (h : (ms.mapM fun m => (f m.2).map fun a => (m.1, a)) = some new)
    (p : Text) : (find p new).map some = (find p ms).map f := by
  induction ms generalizing new with
  | nil =>
    obtain rfl : [] = new := by simpa using h
    rfl
  | cons m ms ih =>
    obtain ⟨q, v⟩ := m
    obtain ⟨n, new', hn, hnew', rfl⟩ := exists_of_mapM_cons h
    obtain ⟨a, ha, rfl⟩ := Option.map_eq_some_iff.mp hn
    by_cases hq : q = p
    · have hread : f v = some a := ha
      rw [find_cons, find_cons, if_pos hq, if_pos hq, Option.map_some, Option.map_some, hread]
    · rw [find_cons, find_cons, if_neg hq, if_neg hq, ih hnew']

/-- Looking up a name in a map that was read. -/
theorem find_decode_map {t : Ty} {old b : Option (List (Text × t.Val))} {ms : List (Text × Json)}
    (h : Ty.decode lib (.map t) old (.obj ms) = some b) (p : Text) :
    ∃ a : Option t.Val, a.map some = (find p ms).map (t.decode lib t.zero) ∧ ∀ ps,
      ((Ty.map t).encode b).get (p :: ps) =
        (a.or (find p (old.getD []))).bind fun a => (t.encode a).get ps := by
  obtain ⟨new, hnew, rfl⟩ := Option.map_eq_some_iff.mp h
  refine ⟨find p new, find_of_mapM hnew p, fun ps => ?_⟩
  have hget : ((Ty.map t).encode
      (some (new ++ (old.getD []).filter fun m => (find m.1 new).isNone))).get (p :: ps) =
        (find p (mapValues t.encode
          (new ++ (old.getD []).filter fun m => (find m.1 new).isNone))).bind fun v => v.get ps :=
    Json.get_obj_cons _ p ps
  rw [hget, find_mapValues, find_over, Option.bind_map]
  rfl

/-- An element of a map that was read is read anew. -/
theorem get_decode_map {t : Ty} {old b : Option (List (Text × t.Val))} {ms : List (Text × Json)}
    (h : Ty.decode lib (.map t) old (.obj ms) = some b) {p : Text} {v : Json}
    (hfind : find p ms = some v) :
    ∃ a, t.decode lib t.zero v = some a ∧ ∀ ps,
      ((Ty.map t).encode b).get (p :: ps) = (t.encode a).get ps := by
  obtain ⟨a, ha, hget⟩ := find_decode_map h p
  rw [hfind, Option.map_some] at ha
  obtain ⟨a, rfl, hread⟩ := Option.map_eq_some_iff.mp ha
  exact ⟨a, hread.symm, hget⟩

/-- The other elements of a map that was read are those that were there. -/
theorem get_decode_map_of_not_find {t : Ty} {old b : Option (List (Text × t.Val))}
    {ms : List (Text × Json)} (h : Ty.decode lib (.map t) old (.obj ms) = some b) {p : Text}
    (hfind : find p ms = none) (ps : List Text) :
    ((Ty.map t).encode b).get (p :: ps) = ((Ty.map t).encode old).get (p :: ps) := by
  obtain ⟨a, ha, hget⟩ := find_decode_map h p
  rw [hfind, Option.map_none, Option.map_eq_none_iff] at ha
  rw [hget ps, ha]
  cases old with
  | none => rfl
  | some as =>
    change _ = (Json.obj (mapValues t.encode as)).get (p :: ps)
    rw [Json.get_obj_cons, find_mapValues, Option.bind_map]
    rfl

/-- Nothing is in a value that is left out. -/
theorem get_of_isEmpty : (t : Ty) → (a : t.Val) → t.isEmpty a = true → ∀ p ps,
    (t.encode a).get (p :: ps) = none
  | .scalar κ, a, _, p, ps => Json.get_cons_of_ne_obj (κ.encode_ne_obj a) p ps
  | .any, (j : Json), h, p, ps => by
    obtain rfl : j = .null := by simpa [Ty.isEmpty] using h
    rfl
  | .list t, none, _, _, _ => rfl
  | .list t, some vs, _, _, _ => rfl
  | .map t, none, _, _, _ => rfl
  | .map t, some ms, h, _, _ => by
    obtain rfl : ms = [] := by simpa [Ty.isEmpty] using h
    rfl
  | .ptr t, none, _, _, _ => rfl
  | .ptr t, some a, h, _, _ => by simp [Ty.isEmpty] at h
  | .struct fs, a, h, _, _ => by simp [Ty.isEmpty] at h

/-- Reading on in a field. It makes no difference whether the field was left out. -/
theorem Slot.get_encode {fs : Fields} {t : Ty} (hwf : fs.WF lib) (s : Slot fs t) (as : fs.Val)
    (q : Text) (qs : List Text) :
    (Json.obj (fs.encode as)).get (s.name :: q :: qs) = (t.encode (s.get as)).get (q :: qs) := by
  rw [Json.get_obj_cons, s.find_encode hwf]
  split
  · rename_i hleft
    rw [Bool.and_eq_true] at hleft
    exact (get_of_isEmpty t _ hleft.2 q qs).symm
  · rfl

/-- There is nothing at a name that no field has. -/
theorem get_encode_of_not_mem {fs : Fields} {p : Text} (h : p ∉ fs.names) (as : fs.Val)
    (ps : List Text) : (Json.obj (fs.encode as)).get (p :: ps) = none := by
  rw [Json.get_obj_cons, find_encode_of_not_mem as h]
  rfl

@[simp] theorem observable_nil (t : Ty) (v : Json) : t.Observable lib [] v ↔ t.Keeps lib v := by
  cases t <;> rw [Ty.Observable]

/-- A path that begins with the name of a field. -/
theorem Slot.observable_iff {fs : Fields} {t : Ty} (hwf : fs.WF lib) (s : Slot fs t)
    (ps : List Text) (v : Json) :
    fs.Observable lib s.name ps v ↔
      t.Observable lib ps v ∧ ¬(s.omitEmpty = true ∧ ps = [] ∧ t.LeavesOut lib v) := by
  induction s with
  | here => rw [Fields.Observable, Slot.name, if_pos rfl, Slot.omitEmpty]
  | there s ih =>
    rw [Fields.Observable, Slot.name, if_neg (s.name_ne hwf)]
    exact ih hwf.2.2

/-- A path that begins with something else. -/
theorem not_observable_of_not_mem {p : Text} : {fs : Fields} → p ∉ fs.names → ∀ ps v,
    ¬fs.Observable lib p ps v
  | .nil, _, _, _ => fun h => h
  | .cons name omitEmpty t rest, h, ps, v => by
    simp only [Fields.names, List.mem_cons, not_or] at h
    rw [Fields.Observable, if_neg (Ne.symm h.1)]
    exact not_observable_of_not_mem h.2 ps v

theorem Ty.Fits.member {t : Ty} {c : Json} (h : (Ty.map t).Fits lib c) (p : Text) :
    t.Fits lib (c.member p) := by
  rcases h with rfl | ⟨a, rfl⟩
  · exact Or.inl rfl
  · cases a with
    | none => exact Or.inl rfl
    | some as =>
      change t.Fits lib ((lib.generic (.obj (mapValues t.encode as))).member p)
      rw [generic_obj, Json.member_obj, find_mapValues, find_mapValues]
      cases find p as with
      | none => exact Or.inl rfl
      | some a => exact Or.inr ⟨a, rfl⟩

theorem Ty.Fits.pointee {t : Ty} {c : Json} (h : (Ty.ptr t).Fits lib c) : t.Fits lib c := by
  rcases h with rfl | ⟨a, rfl⟩
  · exact Or.inl rfl
  · cases a with
    | none => exact Or.inl rfl
    | some a => exact Or.inr ⟨a, rfl⟩

theorem Ty.Fits.field {fs : Fields} {c : Json} (h : (Ty.struct fs).Fits lib c) (hwf : fs.WF lib)
    {t : Ty} (s : Slot fs t) : t.Fits lib (c.member s.name) := by
  rcases h with rfl | ⟨as, rfl⟩
  · exact Or.inl rfl
  · change t.Fits lib ((lib.generic (.obj (fs.encode as))).member s.name)
    rw [generic_obj, Json.member_obj, find_mapValues, s.find_encode hwf]
    split
    · exact Or.inl rfl
    · exact Or.inr ⟨_, rfl⟩

/-- The fields of a struct are single members. -/
theorem Ty.Fits.single {fs : Fields} {c : Json} (h : (Ty.struct fs).Fits lib c) (hwf : fs.WF lib)
    {p : Text} (hp : p ∈ fs.names) {ms : List (Text × Json)} (hms : c.opened = .obj ms) :
    lib.Single p ms := by
  rcases h with rfl | ⟨as, rfl⟩
  · obtain rfl := Json.obj.inj hms
    exact single_nil p
  · change (lib.generic (.obj (fs.encode as))).opened = .obj ms at hms
    rw [generic_obj] at hms
    obtain rfl := Json.obj.inj hms
    exact single_mapValues (single_encode hwf as hp) lib.generic

variable (lib)

/-- What is shown at a path that was set is the value that was set exactly if that is
observable. -/
def Ty.Shows (t : Ty) : Prop :=
  ∀ c v path j b, t.Fits lib c → c.opened.set (lib.generic v) path = some j →
    t.decode lib t.zero j = some b →
      ((∃ w, (t.encode b).get path = some w ∧ w.Same v) ↔ t.Observable lib path v)

variable {lib}

/-- It remains to look at the paths that lead somewhere. -/
theorem Ty.Shows.of_cons {t : Ty}
    (h : ∀ c v p ps j b, t.Fits lib c → c.opened.set (lib.generic v) (p :: ps) = some j →
      t.decode lib t.zero j = some b →
        ((∃ w, (t.encode b).get (p :: ps) = some w ∧ w.Same v) ↔ t.Observable lib (p :: ps) v)) :
    t.Shows lib := by
  intro c v path j b hfits hset hread
  cases path with
  | nil =>
    obtain rfl : lib.generic v = j := Option.some.inj hset
    rw [observable_nil]
    constructor
    · rintro ⟨w, hw, hsame⟩
      obtain rfl : t.encode b = w := Option.some.inj hw
      exact ⟨b, hread, hsame⟩
    · rintro ⟨b', hb', hsame⟩
      obtain rfl : b = b' := Option.some.inj (hread.symm.trans hb')
      exact ⟨_, rfl, hsame⟩
  | cons p ps => exact h c v p ps j b hfits hset hread

theorem shows_scalar (κ : Scalar) : (Ty.scalar κ).Shows lib := by
  refine .of_cons fun c v p ps j b _ hset hread => ?_
  obtain ⟨ms, w, -, -, rfl⟩ := Json.set_opened_cons hset
  exact absurd hread (decode_scalar_obj κ _ _ b)

theorem shows_list (t : Ty) : (Ty.list t).Shows lib := by
  refine .of_cons fun c v p ps j b _ hset hread => ?_
  obtain ⟨ms, w, -, -, rfl⟩ := Json.set_opened_cons hset
  cases hread

theorem shows_any : Ty.any.Shows lib := by
  refine .of_cons fun c v p ps j b _ hset hread => ?_
  obtain rfl : lib.generic j = b := Option.some.inj hread
  have hget : (lib.generic j).get (p :: ps) = some (lib.generic v) := by
    rw [EncodingJson.generic, Json.get_mapNum, Json.get_set hset, Option.map_some]
    exact congrArg some (generic_generic v)
  change (∃ w, (lib.generic j).get (p :: ps) = some w ∧ w.Same v) ↔ (lib.generic v).Same v
  rw [hget]
  constructor
  · rintro ⟨w, hw, hsame⟩
    obtain rfl := Option.some.inj hw
    exact hsame
  · intro hsame
    exact ⟨_, rfl, hsame⟩

theorem shows_map {t : Ty} (ht : t.Shows lib) : (Ty.map t).Shows lib := by
  refine .of_cons fun c v p ps j b hfits hset hread => ?_
  obtain ⟨ms, w, -, hw, rfl⟩ := Json.set_opened_cons hset
  obtain ⟨a, ha, hget⟩ := get_decode_map hread (find_put_self p w ms)
  have hrest := ht (c.member p) v ps w a (hfits.member p) hw ha
  rwa [hget ps]

theorem shows_ptr {t : Ty} (ht : t.Shows lib) : (Ty.ptr t).Shows lib := by
  refine .of_cons fun c v p ps j b hfits hset hread => ?_
  rw [decode_ptr (Json.ne_null_of_set hset)] at hread
  obtain ⟨a, ha, rfl⟩ := Option.map_eq_some_iff.mp hread
  exact ht c v (p :: ps) _ a hfits.pointee hset ha

theorem shows_struct {fs : Fields} (hwf : fs.WF lib) (hfs : ∀ t, Slot fs t → t.Shows lib) :
    (Ty.struct fs).Shows lib := by
  refine .of_cons fun c v p ps j b hfits hset hread => ?_
  obtain ⟨ms, w, hms, hw, rfl⟩ := Json.set_opened_cons hset
  have hfields : fs.decode lib fs.zero (put p w ms) = some b := hread
  change (∃ u, (Json.obj (fs.encode b)).get (p :: ps) = some u ∧ u.Same v) ↔
    fs.Observable lib p ps v
  by_cases hp : p ∈ fs.names
  · obtain ⟨t, s, rfl⟩ := Slot.exists_of_mem hp
    have hsingle := single_put_self (hfits.single hwf hp hms) w
    have hslot := s.decode_get hfields
    rw [matching_of_single hsingle, find_put_self, s.get_zero] at hslot
    have ha : t.decode lib t.zero w = some (s.get b) := by simpa using hslot
    have hshows := hfs t s (c.member s.name) v ps w (s.get b) (hfits.field hwf s) hw ha
    rw [s.observable_iff hwf, ← hshows]
    cases ps with
    | nil =>
      obtain rfl : lib.generic v = w := Option.some.inj hw
      have hleaves : t.LeavesOut lib v ↔ t.isEmpty (s.get b) = true := by
        rw [Ty.LeavesOut, ha]
        simp
      rw [Json.get_obj_cons, s.find_encode hwf, hleaves]
      by_cases hleft : (s.omitEmpty && t.isEmpty (s.get b)) = true
      · rw [if_pos hleft]
        rw [Bool.and_eq_true] at hleft
        simp [hleft.1, hleft.2]
      · rw [if_neg hleft]
        rw [Bool.and_eq_true] at hleft
        simp [hleft]
    | cons q qs => simp [s.get_encode hwf]
  · rw [get_encode_of_not_mem hp]
    simp [not_observable_of_not_mem hp]

/-- What is shown at a path that was set. -/
theorem Ty.shows {t : Ty} (hwf : t.WF lib) : t.Shows lib :=
  hwf.induction (P := fun t => t.Shows lib) shows_scalar shows_any shows_list
    (fun _ _ => shows_map) (fun _ _ _ => shows_ptr) (fun _ => shows_struct)

end Go
