import IpfsMobile.Go.Float64
import IpfsMobile.Go.Json

/-!
# Go types in JSON

`encoding/json` writes and reads a value by its type. A value that goes through an
`interface{}` on its way has its numbers read into float64s and written again. A value is
settled if this leaves its numbers as they are.
-/

namespace Go

open Members

/-- What is left open of `encoding/json`. -/
structure EncodingJson where
  /-- Names that match up to letter case are folded to the same text. -/
  fold : Text → Text
  /-- What decoding into an `interface{}` and encoding does to numbers. -/
  float : Float64

namespace EncodingJson

variable (lib : EncodingJson)

/-- What is read from a value into an `interface{}`. -/
def generic (j : Json) : Json := j.mapNum lib.float.round

/-- The numbers of a value are unchanged by being read into float64s and written again. -/
def Settled (j : Json) : Prop := lib.generic j = j

end EncodingJson

section Generic

variable {lib : EncodingJson}

@[simp] theorem generic_generic (j : Json) : lib.generic (lib.generic j) = lib.generic j :=
  Json.mapNum_mapNum lib.float.round_round j

theorem generic_eq_null_iff {j : Json} : lib.generic j = .null ↔ j = .null :=
  Json.mapNum_eq_null_iff

@[simp] theorem generic_arr (vs : List Json) : lib.generic (.arr vs) = .arr (vs.map lib.generic) :=
  Json.mapNum_arr _ vs

@[simp] theorem generic_obj (ms : List (Text × Json)) :
    lib.generic (.obj ms) = .obj (mapValues lib.generic ms) :=
  Json.mapNum_obj _ ms

theorem settled_null : lib.Settled .null := rfl

/-- A list is settled if its elements are. -/
theorem settled_arr_iff {vs : List Json} : lib.Settled (.arr vs) ↔ ∀ v ∈ vs, lib.Settled v := by
  rw [EncodingJson.Settled, generic_arr, Json.arr.injEq]
  induction vs with
  | nil => simp
  | cons v vs ih => simp [ih, EncodingJson.Settled]

/-- An object is settled if its members are. -/
theorem settled_obj_iff {ms : List (Text × Json)} :
    lib.Settled (.obj ms) ↔ ∀ m ∈ ms, lib.Settled m.2 := by
  rw [EncodingJson.Settled, generic_obj, Json.obj.injEq]
  induction ms with
  | nil => simp
  | cons m ms ih =>
    obtain ⟨p, v⟩ := m
    simp [ih, EncodingJson.Settled]

end Generic

/-- A type that is written as a value without members: booleans, strings, integers, and types
whose marshallers write no object. A type whose marshaller writes one is typed by what is
written: `peer.AddrInfo` as a struct of its members, `*json.RawMessage` as an `interface{}`. -/
structure Scalar where
  Carrier : Type
  zero : Carrier
  /-- What `omitempty` leaves out. -/
  isEmpty : Carrier → Bool
  encode : Carrier → Json
  /-- The value that is read in the place of an old one. -/
  decode : Carrier → Json → Option Carrier
  /-- No object is written. -/
  encode_ne_obj : ∀ a ms, encode a ≠ .obj ms
  /-- No object is read. -/
  decode_obj : ∀ old ms, decode old (.obj ms) = none
  /-- If any value is left out then the zero value is. -/
  isEmpty_zero : ∀ a, isEmpty a = true → isEmpty zero = true
  /-- The zero value is settled. -/
  settled_zero : ∀ lib : EncodingJson, lib.Settled (encode zero)
  /-- A value that is left out is settled. -/
  settled_of_isEmpty : ∀ (lib : EncodingJson) a, isEmpty a = true → lib.Settled (encode a)
  /-- What is read from a settled value in the place of another one is settled. -/
  settled_decode : ∀ (lib : EncodingJson) old j b, lib.Settled (encode old) → lib.Settled j →
    decode old j = some b → lib.Settled (encode b)
  /-- What is read through float64s is written as it was read. -/
  writes_back : ∀ (lib : EncodingJson) a b, decode zero (lib.generic (encode a)) = some b →
    encode b = lib.generic (encode a) ∧ isEmpty b = isEmpty a

namespace Scalar

/-- `bool`. -/
def boolean : Scalar where
  Carrier := Bool
  zero := false
  isEmpty b := !b
  encode := .bool
  decode
    | old, .null => some old
    | _, .bool b => some b
    | _, _ => none
  encode_ne_obj _ _ := by simp
  decode_obj _ _ := rfl
  isEmpty_zero _ _ := rfl
  settled_zero _ := rfl
  settled_of_isEmpty _ _ _ := rfl
  settled_decode _ _ _ _ _ _ _ := rfl
  writes_back lib a b h := by
    obtain rfl : a = b := Option.some.inj h
    exact ⟨rfl, rfl⟩

/-- `string`. -/
def string : Scalar where
  Carrier := Text
  zero := []
  isEmpty s := s.isEmpty
  encode := .str
  decode
    | old, .null => some old
    | _, .str s => some s
    | _, _ => none
  encode_ne_obj _ _ := by simp
  decode_obj _ _ := rfl
  isEmpty_zero _ _ := rfl
  settled_zero _ := rfl
  settled_of_isEmpty _ _ _ := rfl
  settled_decode _ _ _ _ _ _ _ := rfl
  writes_back lib a b h := by
    obtain rfl : a = b := Option.some.inj h
    exact ⟨rfl, rfl⟩

/-- Read a number into an integer type. It must be an integer of the type. -/
def readInt (width : ℕ) (q : ℚ) : Option (BitVec width) :=
  if ((BitVec.ofInt width q.num).toInt : ℚ) = q then some (BitVec.ofInt width q.num) else none

theorem readInt_eq_some {width : ℕ} {q : ℚ} {n : BitVec width} (h : readInt width q = some n) :
    (n.toInt : ℚ) = q := by
  rw [readInt] at h
  split at h
  · obtain rfl := Option.some.inj h
    assumption
  · cases h

/-- Zero is settled. -/
theorem settled_int_zero (lib : EncodingJson) (width : ℕ) :
    lib.Settled (.num (0 : BitVec width).toInt) := by
  have hround : lib.float.round ((0 : BitVec width).toInt : ℚ) =
      ((0 : BitVec width).toInt : ℚ) := by
    simpa using lib.float.round_zero
  exact congrArg Json.num hround

/-- A signed integer type of so many bits. -/
def int (width : ℕ) : Scalar where
  Carrier := BitVec width
  zero := 0
  isEmpty n := n = 0
  encode n := .num n.toInt
  decode
    | old, .null => some old
    | _, .num q => readInt width q
    | _, _ => none
  encode_ne_obj _ _ := by simp
  decode_obj _ _ := rfl
  isEmpty_zero _ _ := by simp
  settled_zero lib := settled_int_zero lib width
  settled_of_isEmpty lib n h := by
    obtain rfl : n = 0 := of_decide_eq_true h
    exact settled_int_zero lib width
  settled_decode lib old j b hold hj h := by
    cases j with
    | null =>
      obtain rfl : old = b := Option.some.inj h
      exact hold
    | num q =>
      rw [readInt_eq_some h]
      exact hj
    | bool c | str s | arr vs | obj ms => cases h
  writes_back lib a b h := by
    have hexact : (b.toInt : ℚ) = lib.float.round a.toInt := readInt_eq_some h
    refine ⟨congrArg Json.num hexact, ?_⟩
    rw [decide_eq_decide]
    constructor
    · rintro rfl
      by_contra ha
      have hne : a.toInt ≠ 0 := fun hint => ha (BitVec.toInt_inj.mp (by rw [hint]; simp))
      apply lib.float.round_ne_zero a.toInt hne
      rw [← hexact]
      simp
    · rintro rfl
      have hzero : lib.float.round ((0 : BitVec width).toInt : ℚ) = 0 := by
        simpa using lib.float.round_zero
      rw [hzero] at hexact
      have hint : b.toInt = 0 := by exact_mod_cast hexact
      exact BitVec.toInt_inj.mp (by rw [hint]; simp)

end Scalar

mutual

/-- A Go type. -/
inductive Ty : Type 1 where
  | scalar (κ : Scalar)
  /-- `interface{}`. -/
  | any
  /-- A slice. -/
  | list (t : Ty)
  /-- A map with strings as keys. -/
  | map (t : Ty)
  | ptr (t : Ty)
  | struct (fs : Fields)

/-- The fields of a struct, each with its name in JSON, whether it is marked `omitempty`,
and its type. -/
inductive Fields : Type 1 where
  | nil
  | cons (name : Text) (omitEmpty : Bool) (t : Ty) (rest : Fields)

end

mutual

/-- The values of a type. Slices, maps and pointers may be nil. -/
@[reducible] def Ty.Val : Ty → Type
  | .scalar κ => κ.Carrier
  | .any => Json
  | .list t => Option (List t.Val)
  | .map t => Option (List (Text × t.Val))
  | .ptr t => Option t.Val
  | .struct fs => fs.Val

/-- The values of the fields of a struct. -/
@[reducible] def Fields.Val : Fields → Type
  | .nil => Unit
  | .cons _ _ t rest => t.Val × rest.Val

end

mutual

/-- The zero value of a type. -/
def Ty.zero : (t : Ty) → t.Val
  | .scalar κ => κ.zero
  | .any => Json.null
  | .list t => (none : Option (List t.Val))
  | .map t => (none : Option (List (Text × t.Val)))
  | .ptr t => (none : Option t.Val)
  | .struct fs => fs.zero

/-- The zero values of the fields of a struct. -/
def Fields.zero : (fs : Fields) → fs.Val
  | .nil => ()
  | .cons _ _ t rest => (t.zero, rest.zero)

end

/-- What `omitempty` leaves out: nil, slices and maps without elements, and some scalars. -/
def Ty.isEmpty : (t : Ty) → t.Val → Bool
  | .scalar κ, a => κ.isEmpty a
  | .any, (j : Json) => j = .null
  | .list _, (vs : Option (List _)) => (vs.getD []).isEmpty
  | .map _, (ms : Option (List (Text × _))) => (ms.getD []).isEmpty
  | .ptr _, (a : Option _) => a.isNone
  | .struct _, _ => false

mutual

/-- `json.Marshal`. -/
def Ty.encode : (t : Ty) → t.Val → Json
  | .scalar κ, a => κ.encode a
  | .any, (j : Json) => j
  | .list t, (vs : Option (List t.Val)) =>
    match vs with
    | none => .null
    | some vs => .arr (vs.map t.encode)
  | .map t, (ms : Option (List (Text × t.Val))) =>
    match ms with
    | none => .null
    | some ms => .obj (mapValues t.encode ms)
  | .ptr t, (a : Option t.Val) =>
    match a with
    | none => .null
    | some a => t.encode a
  | .struct fs, a => .obj (fs.encode a)

/-- The members that are written for the fields of a struct. -/
def Fields.encode : (fs : Fields) → fs.Val → List (Text × Json)
  | .nil, _ => []
  | .cons name omitEmpty t rest, (a, as) =>
    if omitEmpty && t.isEmpty a then rest.encode as else (name, t.encode a) :: rest.encode as

end

mutual

/-- The numbers in a value of a type. -/
def Ty.numbers : (t : Ty) → t.Val → List ℚ
  | .scalar κ, a => (κ.encode a).numbers
  | .any, (j : Json) => j.numbers
  | .list t, (vs : Option (List t.Val)) => (vs.getD []).flatMap t.numbers
  | .map t, (ms : Option (List (Text × t.Val))) => (ms.getD []).flatMap fun m => t.numbers m.2
  | .ptr t, (a : Option t.Val) =>
    match a with
    | none => []
    | some a => t.numbers a
  | .struct fs, a => fs.numbers a

/-- The numbers in the fields of a struct. -/
def Fields.numbers : (fs : Fields) → fs.Val → List ℚ
  | .nil, _ => []
  | .cons _ _ t rest, (a, as) => t.numbers a ++ rest.numbers as

end

variable (lib : EncodingJson)

/-- The values of the members that match a name, in the order of their own names. -/
def EncodingJson.matching (name : Text) (ms : List (Text × Json)) : List Json :=
  (sort (ms.filter fun m => lib.fold m.1 = lib.fold name)).map (·.2)

mutual

/-- `json.Unmarshal` of a value that was written from a generic map, in the place of an
old value. Null leaves the old value, or makes it nil. The elements of a slice are read in
the place of those that are there. The elements of a map are made anew and put over those
that are there. -/
def Ty.decode : (t : Ty) → t.Val → Json → Option t.Val
  | .scalar κ, old, j => κ.decode old j
  | .any, _, j => some (lib.generic j)
  | .list t, (old : Option (List t.Val)), j =>
    match j with
    | .null => some (none : Option (List t.Val))
    | .arr vs => (vs.zipIdx.mapM fun v => t.decode ((old.getD [])[v.2]?.getD t.zero) v.1).map some
    | _ => none
  | .map t, (old : Option (List (Text × t.Val))), j =>
    match j with
    | .null => some (none : Option (List (Text × t.Val)))
    | .obj ms =>
      (ms.mapM fun m => (t.decode t.zero m.2).map fun a => (m.1, a)).map fun new =>
        some (new ++ (old.getD []).filter fun m => (find m.1 new).isNone)
    | _ => none
  | .ptr t, (old : Option t.Val), j =>
    match j with
    | .null => some (none : Option t.Val)
    | j => (t.decode (old.getD t.zero) j).map some
  | .struct fs, old, j =>
    match j with
    | .null => some old
    | .obj ms => fs.decode old ms
    | _ => none

/-- Read the fields of a struct: each from the members that match its name, one after the
other. Other members are dropped. -/
def Fields.decode : (fs : Fields) → fs.Val → List (Text × Json) → Option fs.Val
  | .nil, _, _ => some ()
  | .cons name _ t rest, (old, olds), ms => do
    let a ← (lib.matching name ms).foldlM (fun a v => t.decode a v) old
    let as ← rest.decode olds ms
    return (a, as)

end

/-- The names of the fields of a struct. -/
def Fields.names : Fields → List Text
  | .nil => []
  | .cons name _ _ rest => name :: rest.names

mutual

/-- A type of the kind that is meant for JSON: no pointer to what is written as null, and
no fields of a struct whose names match each other. -/
def Ty.WF : Ty → Prop
  | .scalar _ | .any => True
  | .list t | .map t => t.WF
  | .ptr t => t.WF ∧ ∀ a, t.encode a ≠ .null
  | .struct fs => fs.WF

/-- The fields of a struct of that kind. -/
def Fields.WF : Fields → Prop
  | .nil => True
  | .cons name _ t rest =>
    (∀ name' ∈ rest.names, lib.fold name' ≠ lib.fold name) ∧ t.WF ∧ rest.WF

end

/-- The members of an object that match a name are at most one, and that is spelled so. -/
def EncodingJson.Single (name : Text) (ms : List (Text × Json)) : Prop :=
  ms.filter (fun m => lib.fold m.1 = lib.fold name) = (find name ms).toList.map fun v => (name, v)

/-- Each field of a struct is read from the member that was written for it through a generic
value, or from none if it was left out. -/
def Fields.Reads (fs : Fields) (as : fs.Val) (ms : List (Text × Json)) : Prop :=
  ∀ name ∈ fs.names,
    lib.matching name ms = ((find name (fs.encode as)).map lib.generic).toList

variable {lib}

/-- Reading a slice where there is none. -/
theorem decode_list_nil (t : Ty) (vs : List Json) :
    Ty.decode lib (.list t) (none : Option (List t.Val)) (.arr vs) =
      (vs.mapM fun v => t.decode lib t.zero v).map some := by
  have hfst : (vs.zipIdx.mapM fun v => t.decode lib t.zero v.1) =
      vs.mapM fun v => t.decode lib t.zero v := by
    have hmap :=
      List.mapM_map (f := Prod.fst) (g := fun v => t.decode lib t.zero v) (l := vs.zipIdx)
    rw [List.zipIdx_map_fst] at hmap
    exact hmap.symm
  rw [← hfst]
  rfl

/-- Reading anything but null into a pointer reads what it points to. -/
theorem decode_ptr {t : Ty} {old : Option t.Val} {j : Json} (h : j ≠ .null) :
    Ty.decode lib (.ptr t) old j = (t.decode lib (old.getD t.zero) j).map some := by
  cases j <;> first | exact absurd rfl h | rfl

/-- The first field and the others are read from the same members. -/
theorem decode_cons {name : Text} {omitEmpty : Bool} {t : Ty} {rest : Fields} {old b : t.Val}
    {olds bs : rest.Val} {ms : List (Text × Json)}
    (h : Fields.decode lib (.cons name omitEmpty t rest) (old, olds) ms = some (b, bs)) :
    (lib.matching name ms).foldlM (fun a v => t.decode lib a v) old = some b ∧
      rest.decode lib olds ms = some bs := by
  obtain ⟨b', hb, hbind⟩ := Option.bind_eq_some_iff.mp h
  obtain ⟨bs', hbs, hpair⟩ := Option.bind_eq_some_iff.mp hbind
  obtain ⟨rfl, rfl⟩ := Prod.mk.inj (Option.some.inj hpair)
  exact ⟨hb, hbs⟩

/-- Only the names of the fields are written. -/
theorem find_encode_of_not_mem {name : Text} : {fs : Fields} → (as : fs.Val) → name ∉ fs.names →
    find name (fs.encode as) = none
  | .nil, _, _ => rfl
  | .cons name' omitEmpty t rest, (a, as), h => by
    simp only [Fields.names, List.mem_cons, not_or] at h
    have hrest := find_encode_of_not_mem as h.2
    rw [Fields.encode]
    split
    · exact hrest
    · rw [find_cons, if_neg (Ne.symm h.1), hrest]

/-- What is written for the first field. -/
theorem find_encode_cons_self {name : Text} {omitEmpty : Bool} {t : Ty} {rest : Fields}
    (hnew : name ∉ rest.names) (a : t.Val) (as : rest.Val) :
    find name (Fields.encode (.cons name omitEmpty t rest) (a, as)) =
      if omitEmpty && t.isEmpty a then none else some (t.encode a) := by
  rw [Fields.encode]
  split
  · exact find_encode_of_not_mem as hnew
  · rw [find_cons, if_pos rfl]

/-- What is written for the other fields. -/
theorem find_encode_cons_of_ne {name name' : Text} (h : name' ≠ name) {omitEmpty : Bool} {t : Ty}
    {rest : Fields} (a : t.Val) (as : rest.Val) :
    find name' (Fields.encode (.cons name omitEmpty t rest) (a, as)) =
      find name' (rest.encode as) := by
  rw [Fields.encode]
  split
  · rfl
  · rw [find_cons, if_neg (Ne.symm h)]

/-- The first field does not come again. -/
theorem Fields.WF.not_mem_names {name : Text} {omitEmpty : Bool} {t : Ty} {rest : Fields}
    (h : (Fields.cons name omitEmpty t rest).WF lib) : name ∉ rest.names :=
  fun hmem => h.1 name hmem rfl

/-- A single member is the one that is read. -/
theorem matching_of_single {name : Text} {ms : List (Text × Json)} (h : lib.Single name ms) :
    lib.matching name ms = (find name ms).toList := by
  rw [EncodingJson.matching, h]
  cases find name ms <;> rfl

theorem single_nil (name : Text) : lib.Single name [] := rfl

/-- Setting the member itself leaves it the single one. -/
theorem single_put_self {name : Text} {ms : List (Text × Json)} (h : lib.Single name ms)
    (v : Json) : lib.Single name (put name v ms) := by
  have hkeep : decide (lib.fold name = lib.fold name) = true := by simp
  rw [EncodingJson.Single,
    filter_put_of_keep (fun p => decide (lib.fold p = lib.fold name)) hkeep, h, find_put_self]
  cases find name ms <;> simp [put]

/-- Setting a member that does not match leaves it the single one. -/
theorem single_put_of_ne {name p : Text} {ms : List (Text × Json)} (h : lib.Single name ms)
    (hne : lib.fold p ≠ lib.fold name) (v : Json) : lib.Single name (put p v ms) := by
  have hdrop : decide (lib.fold p = lib.fold name) = false := by simp [hne]
  have hname : name ≠ p := fun heq => hne (by rw [heq])
  rw [EncodingJson.Single,
    filter_put_of_drop (fun p => decide (lib.fold p = lib.fold name)) hdrop, h,
    find_put_of_ne hname]

theorem single_mapValues {name : Text} {ms : List (Text × Json)} (h : lib.Single name ms)
    (f : Json → Json) : lib.Single name (mapValues f ms) := by
  have hfilter : (mapValues f ms).filter (fun m => lib.fold m.1 = lib.fold name) =
      mapValues f (ms.filter fun m => lib.fold m.1 = lib.fold name) := by
    simp only [mapValues, List.filter_map]
    rfl
  rw [EncodingJson.Single, hfilter, h, find_mapValues]
  cases find name ms <;> rfl

/-- Nothing that is written for the fields matches a name that none of them matches. -/
theorem filter_encode_eq_nil {name : Text} : {fs : Fields} → (as : fs.Val) →
    (∀ name' ∈ fs.names, lib.fold name' ≠ lib.fold name) →
    (fs.encode as).filter (fun m => lib.fold m.1 = lib.fold name) = []
  | .nil, _, _ => rfl
  | .cons name' omitEmpty t rest, (a, as), h => by
    have hhead := h name' (by simp [Fields.names])
    have hrest := filter_encode_eq_nil as fun n hn => h n (by simp [Fields.names, hn])
    rw [Fields.encode]
    split
    · exact hrest
    · simp [hhead, hrest]

/-- What is written for a field is the single member that matches its name. -/
theorem single_encode {name : Text} : {fs : Fields} → fs.WF lib → (as : fs.Val) → name ∈ fs.names →
    lib.Single name (fs.encode as)
  | .cons name' omitEmpty t rest, hwf, (a, as), h => by
    rcases List.mem_cons.mp h with rfl | hmem
    · have hrest : (rest.encode as).filter (fun m => lib.fold m.1 = lib.fold name) = [] :=
        filter_encode_eq_nil as hwf.1
      rw [EncodingJson.Single, find_encode_cons_self hwf.not_mem_names, Fields.encode]
      split
      · exact hrest
      · simp [hrest]
    · have hfold := hwf.1 name hmem
      have hne : name ≠ name' := fun heq => hfold (by rw [heq])
      have hrest := single_encode hwf.2.2 as hmem
      rw [EncodingJson.Single, find_encode_cons_of_ne hne, Fields.encode]
      split
      · exact hrest
      · rw [List.filter_cons_of_neg (by simpa using Ne.symm hfold)]
        exact hrest

/-- The fields of a struct read what was written for them. -/
theorem reads_encode {fs : Fields} (hwf : fs.WF lib) (as : fs.Val) :
    fs.Reads lib as (mapValues lib.generic (fs.encode as)) := by
  intro name hmem
  have hsingle := single_mapValues (single_encode hwf as hmem) lib.generic
  rw [matching_of_single hsingle, find_mapValues]

end Go
