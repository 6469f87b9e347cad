import IpfsMobile.Go.JsonType

/-!
# Through a generic value and back

What a typed value is written as is read into a generic value, with its numbers as
float64s, and from there into the type again. The result is written as the generic value
was, whatever the type is, and is settled.
-/

namespace Go

open Members

variable {lib : EncodingJson}

/-- A list of results has a first result and the others. -/
theorem exists_of_mapM_cons {α β : Type} {f : α → Option β} {x : α} {xs : List α} {ys : List β}
    (h : (x :: xs).mapM f = some ys) :
    ∃ y zs, f x = some y ∧ xs.mapM f = some zs ∧ ys = y :: zs := by
  rw [List.mapM_cons] at h
  obtain ⟨y, hy, hrest⟩ := Option.bind_eq_some_iff.mp h
  obtain ⟨zs, hzs, hcons⟩ := Option.bind_eq_some_iff.mp hrest
  exact ⟨y, zs, hy, hzs, (Option.some.inj hcons).symm⟩

/-- If each element of a list is read from what the result is written as, then the list is
what the results are written as. -/
theorem map_eq_of_mapM {α β : Type} {f : α → Option β} {g : β → α} {xs : List α} {ys : List β}
    (h : ∀ x ∈ xs, ∀ y, f x = some y → g y = x) (hxs : xs.mapM f = some ys) : ys.map g = xs := by
  induction xs generalizing ys with
  | nil =>
    obtain rfl : [] = ys := by simpa using hxs
    rfl
  | cons x xs ih =>
    obtain ⟨y, zs, hy, hzs, rfl⟩ := exists_of_mapM_cons hxs
    rw [List.map_cons, h x (by simp) y hy, ih (fun w hw => h w (by simp [hw])) hzs]

/-- If a value is left out then the zero value is. -/
theorem zero_isEmpty_of_isEmpty : (t : Ty) → (a : t.Val) → t.isEmpty a = true →
    t.isEmpty t.zero = true
  | .scalar κ, a, h => κ.isEmpty_zero a h
  | .any, _, _ => by simp [Ty.isEmpty, Ty.zero]
  | .list _, _, _ => rfl
  | .map _, _, _ => rfl
  | .ptr _, _, _ => rfl
  | .struct _, _, h => by simp [Ty.isEmpty] at h

variable (lib)

/-- What is read back through a generic value is written again as it was read, and is left
out where the first value was. -/
def Ty.WritesBack (t : Ty) : Prop :=
  ∀ a b, t.decode lib t.zero (lib.generic (t.encode a)) = some b →
    t.encode b = lib.generic (t.encode a) ∧ t.isEmpty b = t.isEmpty a

/-- The same of the fields of a struct. -/
def Fields.WriteBack (fs : Fields) : Prop :=
  ∀ as bs ms, fs.Reads lib as ms → fs.decode lib fs.zero ms = some bs →
    fs.encode bs = mapValues lib.generic (fs.encode as)

variable {lib}

theorem writesBack_any : Ty.any.WritesBack lib := by
  intro (a : Json) (b : Json) h
  have hread : some (lib.generic (lib.generic a)) = some b := h
  rw [generic_generic] at hread
  obtain rfl := Option.some.inj hread
  refine ⟨rfl, ?_⟩
  simp only [Ty.isEmpty, decide_eq_decide]
  exact generic_eq_null_iff

theorem writesBack_list {t : Ty} (ht : t.WritesBack lib) : (Ty.list t).WritesBack lib := by
  intro (a : Option (List t.Val)) (b : Option (List t.Val)) h
  cases a with
  | none =>
    obtain rfl := Option.some.inj h
    exact ⟨rfl, rfl⟩
  | some as =>
    have hread : (((as.map t.encode).map lib.generic).mapM fun v =>
        t.decode lib t.zero v).map some = some b := by
      rw [← h]
      change _ = Ty.decode lib (.list t) (none : Option (List t.Val))
        (lib.generic (.arr (as.map t.encode)))
      rw [generic_arr, decode_list_nil]
    obtain ⟨bs, hbs, rfl⟩ := Option.map_eq_some_iff.mp hread
    have hmap : bs.map t.encode = (as.map t.encode).map lib.generic := by
      refine map_eq_of_mapM (fun v hv b hb => ?_) hbs
      rw [List.map_map] at hv
      obtain ⟨a, -, rfl⟩ := List.mem_map.mp hv
      exact (ht a b hb).1
    have hlen : bs.length = as.length := by simpa using congrArg List.length hmap
    have hencode : Json.arr (bs.map t.encode) = lib.generic (.arr (as.map t.encode)) := by
      rw [generic_arr, hmap]
    have hempty : bs.isEmpty = as.isEmpty := by
      rw [Bool.eq_iff_iff, List.isEmpty_iff, List.isEmpty_iff, ← List.length_eq_zero_iff,
        ← List.length_eq_zero_iff, hlen]
    exact ⟨hencode, hempty⟩

theorem writesBack_map {t : Ty} (ht : t.WritesBack lib) : (Ty.map t).WritesBack lib := by
  intro (a : Option (List (Text × t.Val))) (b : Option (List (Text × t.Val))) h
  cases a with
  | none =>
    obtain rfl := Option.some.inj h
    exact ⟨rfl, rfl⟩
  | some as =>
    have hread : ((mapValues lib.generic (mapValues t.encode as)).mapM fun m =>
        (t.decode lib t.zero m.2).map fun a => (m.1, a)).map (fun new => some (new ++ [])) =
          some b := by
      rw [← h]
      change _ = Ty.decode lib (.map t) (none : Option (List (Text × t.Val)))
        (lib.generic (.obj (mapValues t.encode as)))
      rw [generic_obj]
      rfl
    obtain ⟨bs, hbs, rfl⟩ := Option.map_eq_some_iff.mp hread
    have hmap : mapValues t.encode bs = mapValues lib.generic (mapValues t.encode as) := by
      refine map_eq_of_mapM (fun m hm b hb => ?_) hbs
      obtain ⟨n, hn, rfl⟩ := List.mem_map.mp hm
      obtain ⟨a, -, rfl⟩ := List.mem_map.mp hn
      obtain ⟨c, hc, rfl⟩ := Option.map_eq_some_iff.mp hb
      exact congrArg (Prod.mk _) (ht a.2 c hc).1
    have hlen : bs.length = as.length := by simpa [mapValues] using congrArg List.length hmap
    have hencode : Json.obj (mapValues t.encode (bs ++ [])) =
        lib.generic (.obj (mapValues t.encode as)) := by
      rw [generic_obj, List.append_nil, hmap]
    have hempty : (bs ++ []).isEmpty = as.isEmpty := by
      rw [List.append_nil, Bool.eq_iff_iff, List.isEmpty_iff, List.isEmpty_iff,
        ← List.length_eq_zero_iff, ← List.length_eq_zero_iff, hlen]
    exact ⟨hencode, hempty⟩

theorem writesBack_ptr {t : Ty} (hnull : ∀ a, t.encode a ≠ .null) (ht : t.WritesBack lib) :
    (Ty.ptr t).WritesBack lib := by
  intro (a : Option t.Val) (b : Option t.Val) h
  cases a with
  | none =>
    obtain rfl := Option.some.inj h
    exact ⟨rfl, rfl⟩
  | some a =>
    have hne : lib.generic (t.encode a) ≠ .null := fun heq => hnull a (generic_eq_null_iff.mp heq)
    have hread : Ty.decode lib (.ptr t) (none : Option t.Val) (lib.generic (t.encode a)) =
        some b := h
    rw [decode_ptr hne] at hread
    obtain ⟨c, hc, rfl⟩ := Option.map_eq_some_iff.mp hread
    exact ⟨(ht a c hc).1, rfl⟩

theorem writesBack_struct {fs : Fields} (hreads : ∀ as, fs.Reads lib as
    (mapValues lib.generic (fs.encode as))) (hfs : fs.WriteBack lib) :
    (Ty.struct fs).WritesBack lib := by
  intro (as : fs.Val) (bs : fs.Val) h
  have hread : Ty.decode lib (.struct fs) fs.zero (lib.generic (.obj (fs.encode as))) = some bs := h
  rw [generic_obj] at hread
  have hfields : fs.decode lib fs.zero (mapValues lib.generic (fs.encode as)) = some bs := hread
  have hencode : Json.obj (fs.encode bs) = lib.generic (.obj (fs.encode as)) := by
    rw [generic_obj, hfs as bs _ (hreads as) hfields]
  exact ⟨hencode, rfl⟩

/-- A field that is read from what was written for it is left out as before, or is written as
before. -/
theorem reread_field {t : Ty} (ht : t.WritesBack lib) {omitEmpty : Bool} {a b : t.Val}
    (h : ((if omitEmpty && t.isEmpty a then none else some (t.encode a)).map
      lib.generic).toList.foldlM (fun a v => t.decode lib a v) t.zero = some b) :
    (omitEmpty && t.isEmpty b) = (omitEmpty && t.isEmpty a) ∧
      (¬(omitEmpty && t.isEmpty a) = true → t.encode b = lib.generic (t.encode a)) := by
  by_cases hleft : (omitEmpty && t.isEmpty a) = true
  · -- The field was left out, so it is zero and is left out again.
    rw [if_pos hleft] at h
    obtain rfl : t.zero = b := Option.some.inj h
    refine ⟨?_, fun hnot => absurd hleft hnot⟩
    rw [hleft]
    rw [Bool.and_eq_true] at hleft ⊢
    exact ⟨hleft.1, zero_isEmpty_of_isEmpty t a hleft.2⟩
  · rw [if_neg hleft] at h
    have hread : t.decode lib t.zero (lib.generic (t.encode a)) = some b := by simpa using h
    obtain ⟨hencode, hempty⟩ := ht a b hread
    exact ⟨by rw [hempty], fun _ => hencode⟩

theorem writeBack_cons {name : Text} {omitEmpty : Bool} {t : Ty} {rest : Fields}
    (hwf : (Fields.cons name omitEmpty t rest).WF lib) (ht : t.WritesBack lib)
    (hrest : rest.WriteBack lib) : (Fields.cons name omitEmpty t rest).WriteBack lib := by
  rintro ⟨a, as⟩ ⟨b, bs⟩ ms hreads h
  obtain ⟨hb, hbs⟩ := decode_cons h
  have hreads' : rest.Reads lib as ms := by
    intro name' hmem
    have hne : name' ≠ name := fun heq => hwf.1 name' hmem (by rw [heq])
    rw [hreads name' (List.mem_cons_of_mem _ hmem), find_encode_cons_of_ne hne]
  rw [hreads name List.mem_cons_self, find_encode_cons_self hwf.not_mem_names] at hb
  obtain ⟨hleft, hencode⟩ := reread_field ht hb
  rw [Fields.encode, Fields.encode, hleft, hrest as bs ms hreads' hbs]
  split
  · rfl
  · rename_i hnot
    rw [mapValues_cons, hencode hnot]

mutual

/-- Every type writes back what is read through a generic value. -/
theorem Ty.writesBack : (t : Ty) → t.WF lib → t.WritesBack lib
  | .scalar κ, _ => κ.writes_back lib
  | .any, _ => writesBack_any
  | .list t, hwf => writesBack_list (Ty.writesBack t hwf)
  | .map t, hwf => writesBack_map (Ty.writesBack t hwf)
  | .ptr t, hwf => writesBack_ptr hwf.2 (Ty.writesBack t hwf.1)
  | .struct fs, hwf => writesBack_struct (fun as => reads_encode hwf as) (Fields.writeBack fs hwf)

/-- The same of the fields of a struct. -/
theorem Fields.writeBack : (fs : Fields) → fs.WF lib → fs.WriteBack lib
  | .nil, _ => fun _ _ _ _ _ => rfl
  | .cons _ _ t rest, hwf =>
    writeBack_cons hwf (Ty.writesBack t hwf.2.1) (Fields.writeBack rest hwf.2.2)

end

/-- What is left out is settled. -/
theorem settled_of_isEmpty : (t : Ty) → (a : t.Val) → t.isEmpty a = true → lib.Settled (t.encode a)
  | .scalar κ, a, h => κ.settled_of_isEmpty lib a h
  | .any, (j : Json), h => by
    obtain rfl : j = .null := by simpa [Ty.isEmpty] using h
    exact settled_null
  | .list t, none, _ => settled_null
  | .list t, some vs, h => by
    obtain rfl : vs = [] := by simpa [Ty.isEmpty] using h
    exact settled_arr_iff.mpr (by simp)
  | .map t, none, _ => settled_null
  | .map t, some ms, h => by
    obtain rfl : ms = [] := by simpa [Ty.isEmpty] using h
    exact settled_obj_iff.mpr (by simp [mapValues])
  | .ptr t, none, _ => settled_null
  | .ptr t, some a, h => by simp [Ty.isEmpty] at h
  | .struct fs, a, h => by simp [Ty.isEmpty] at h

mutual

/-- What a value is written as is settled exactly if every number in the value is unchanged by
being read into a float64 and written again. -/
theorem Ty.settled_iff : (t : Ty) → (a : t.Val) →
    (lib.Settled (t.encode a) ↔ ∀ q ∈ t.numbers a, lib.float.round q = q)
  | .scalar κ, a => Json.mapNum_eq_self_iff (κ.encode a)
  | .any, (j : Json) => Json.mapNum_eq_self_iff j
  | .list t, none => by simp [Ty.numbers, Ty.encode, settled_null]
  | .list t, some vs => by
    have hvs : lib.Settled (.arr (vs.map t.encode)) ↔ ∀ a ∈ vs, lib.Settled (t.encode a) := by
      rw [settled_arr_iff, List.forall_mem_map]
    rw [Ty.encode, hvs, Ty.numbers, Option.getD_some, List.forall_mem_flatMap]
    simp only [Ty.settled_iff t]
  | .map t, none => by simp [Ty.numbers, Ty.encode, settled_null]
  | .map t, some ms => by
    have hms : lib.Settled (.obj (mapValues t.encode ms)) ↔
        ∀ m ∈ ms, lib.Settled (t.encode m.2) := by
      rw [settled_obj_iff, mapValues, List.forall_mem_map]
    rw [Ty.encode, hms, Ty.numbers, Option.getD_some, List.forall_mem_flatMap]
    simp only [Ty.settled_iff t]
  | .ptr t, none => by simp [Ty.numbers, Ty.encode, settled_null]
  | .ptr t, some a => Ty.settled_iff t a
  | .struct fs, as => Fields.settled_iff fs as

/-- The same of the fields of a struct. Those that are left out have no other numbers. -/
theorem Fields.settled_iff : (fs : Fields) → (as : fs.Val) →
    (lib.Settled (.obj (fs.encode as)) ↔ ∀ q ∈ fs.numbers as, lib.float.round q = q)
  | .nil, _ => by simp [Fields.encode, Fields.numbers, settled_obj_iff]
  | .cons name omitEmpty t rest, (a, as) => by
    have hhead := Ty.settled_iff t a
    have htail := Fields.settled_iff rest as
    simp only [Fields.numbers, List.mem_append, or_imp, forall_and, ← hhead, ← htail]
    rw [Fields.encode]
    split
    · rename_i hleft
      rw [Bool.and_eq_true] at hleft
      simp [settled_of_isEmpty t a hleft.2]
    · simp [settled_obj_iff]

end

/-- A property that every element gives its result holds of all results. -/
theorem forall_of_mapM {α β : Type} {f : α → Option β} {P : β → Prop} {xs : List α} {ys : List β}
    (h : ∀ x ∈ xs, ∀ y, f x = some y → P y) (hxs : xs.mapM f = some ys) : ∀ y ∈ ys, P y := by
  induction xs generalizing ys with
  | nil =>
    obtain rfl : [] = ys := by simpa using hxs
    simp
  | cons x xs ih =>
    obtain ⟨y, zs, hy, hzs, rfl⟩ := exists_of_mapM_cons hxs
    exact List.forall_mem_cons.mpr ⟨h x (by simp) y hy, ih (fun w hw => h w (by simp [hw])) hzs⟩

/-- A property that every element keeps holds at the end. -/
theorem of_foldlM {α β : Type} {f : β → α → Option β} {P : β → Prop} {xs : List α} {a b : β}
    (h : ∀ x ∈ xs, ∀ a b, P a → f a x = some b → P b) (ha : P a) (hxs : xs.foldlM f a = some b) :
    P b := by
  induction xs generalizing a with
  | nil =>
    obtain rfl : a = b := Option.some.inj hxs
    exact ha
  | cons x xs ih =>
    rw [List.foldlM_cons] at hxs
    obtain ⟨c, hc, hrest⟩ := Option.bind_eq_some_iff.mp hxs
    exact ih (fun w hw => h w (by simp [hw])) (h x (by simp) a c ha hc) hrest

/-- The members that match a name are members. -/
theorem mem_of_mem_matching {name : Text} {ms : List (Text × Json)} {v : Json}
    (h : v ∈ lib.matching name ms) : ∃ m ∈ ms, m.2 = v := by
  obtain ⟨m, hm, rfl⟩ := List.mem_map.mp h
  rw [sort, List.mem_insertionSort] at hm
  exact ⟨m, List.mem_of_mem_filter hm, rfl⟩

variable (lib)

/-- What is read from a settled value in the place of another one is settled. -/
def Ty.KeepsSettled (t : Ty) : Prop :=
  ∀ old j b, lib.Settled (t.encode old) → lib.Settled j → t.decode lib old j = some b →
    lib.Settled (t.encode b)

/-- The same of the fields of a struct. -/
def Fields.KeepSettled (fs : Fields) : Prop :=
  ∀ olds ms bs, lib.Settled (.obj (fs.encode olds)) → lib.Settled (.obj ms) →
    fs.decode lib olds ms = some bs → lib.Settled (.obj (fs.encode bs))

variable {lib}

theorem keepsSettled_list {t : Ty} (hzero : lib.Settled (t.encode t.zero))
    (ht : t.KeepsSettled lib) : (Ty.list t).KeepsSettled lib := by
  intro old j b hold hj h
  cases j with
  | null =>
    obtain rfl : none = b := Option.some.inj h
    exact settled_null
  | arr vs =>
    obtain ⟨bs, hbs, rfl⟩ := Option.map_eq_some_iff.mp h
    have holds : ∀ i : ℕ, lib.Settled (t.encode ((old.getD [])[i]?.getD t.zero)) := by
      intro i
      cases old with
      | none => exact hzero
      | some as =>
        cases hget : as[i]? with
        | none => simpa [hget] using hzero
        | some a =>
          have hmem : t.encode a ∈ as.map t.encode :=
            List.mem_map_of_mem (List.mem_of_getElem? hget)
          simpa [hget] using settled_arr_iff.mp hold _ hmem
    have hall : ∀ c ∈ bs, lib.Settled (t.encode c) := by
      refine forall_of_mapM (fun v hv c hc => ?_) hbs
      have hmem : v.1 ∈ vs := List.fst_mem_of_mem_zipIdx hv
      exact ht _ v.1 c (holds v.2) (settled_arr_iff.mp hj v.1 hmem) hc
    refine settled_arr_iff.mpr fun v hv => ?_
    obtain ⟨c, hc, rfl⟩ := List.mem_map.mp hv
    exact hall c hc
  | bool c | num q | str s | obj ms => cases h

theorem keepsSettled_map {t : Ty} (hzero : lib.Settled (t.encode t.zero))
    (ht : t.KeepsSettled lib) : (Ty.map t).KeepsSettled lib := by
  intro old j b hold hj h
  cases j with
  | null =>
    obtain rfl : none = b := Option.some.inj h
    exact settled_null
  | obj ms =>
    obtain ⟨new, hnew, rfl⟩ := Option.map_eq_some_iff.mp h
    have hall : ∀ n ∈ new, lib.Settled (t.encode n.2) := by
      refine forall_of_mapM (fun m hm n hn => ?_) hnew
      obtain ⟨c, hc, rfl⟩ := Option.map_eq_some_iff.mp hn
      exact ht _ m.2 c hzero (settled_obj_iff.mp hj m hm) hc
    have hrest : ∀ n ∈ old.getD [], lib.Settled (t.encode n.2) := by
      cases old with
      | none => simp
      | some ns =>
        intro n hn
        exact settled_obj_iff.mp hold (n.1, t.encode n.2) (List.mem_map.mpr ⟨n, hn, rfl⟩)
    refine settled_obj_iff.mpr fun m hm => ?_
    obtain ⟨n, hn, rfl⟩ := List.mem_map.mp hm
    rcases List.mem_append.mp hn with hnew | hold
    · exact hall n hnew
    · exact hrest n (List.mem_of_mem_filter hold)
  | bool c | num q | str s | arr vs => cases h

theorem keepsSettled_ptr {t : Ty} (hzero : lib.Settled (t.encode t.zero))
    (ht : t.KeepsSettled lib) : (Ty.ptr t).KeepsSettled lib := by
  intro old j b hold hj h
  by_cases hnull : j = .null
  · subst hnull
    obtain rfl : none = b := Option.some.inj h
    exact settled_null
  · rw [decode_ptr hnull] at h
    obtain ⟨c, hc, rfl⟩ := Option.map_eq_some_iff.mp h
    cases old with
    | none => exact ht _ j c hzero hj hc
    | some a => exact ht a j c hold hj hc

theorem keepsSettled_struct {fs : Fields} (hfs : fs.KeepSettled lib) :
    (Ty.struct fs).KeepsSettled lib := by
  intro old j b hold hj h
  cases j with
  | null =>
    obtain rfl : old = b := Option.some.inj h
    exact hold
  | obj ms => exact hfs old ms b hold hj h
  | bool c | num q | str s | arr vs => cases h

/-- What is written for the first field is settled if all is. -/
theorem settled_head {name : Text} {omitEmpty : Bool} {t : Ty} {rest : Fields} {a : t.Val}
    {as : rest.Val}
    (h : lib.Settled (.obj (Fields.encode (.cons name omitEmpty t rest) (a, as)))) :
    lib.Settled (t.encode a) ∧ lib.Settled (.obj (rest.encode as)) := by
  rw [Fields.encode] at h
  split at h
  · rename_i hleft
    rw [Bool.and_eq_true] at hleft
    exact ⟨settled_of_isEmpty t a hleft.2, h⟩
  · rw [settled_obj_iff, List.forall_mem_cons] at h
    exact ⟨h.1, settled_obj_iff.mpr h.2⟩

theorem keepSettled_cons {name : Text} {omitEmpty : Bool} {t : Ty} {rest : Fields}
    (ht : t.KeepsSettled lib) (hrest : rest.KeepSettled lib) :
    (Fields.cons name omitEmpty t rest).KeepSettled lib := by
  rintro ⟨old, olds⟩ ms ⟨b, bs⟩ hold hms h
  obtain ⟨hb, hbs⟩ := decode_cons h
  obtain ⟨hhead, htail⟩ := settled_head hold
  have hnew : lib.Settled (t.encode b) := by
    refine of_foldlM (P := fun a => lib.Settled (t.encode a)) (fun v hv a c ha hc => ?_) hhead hb
    obtain ⟨m, hm, rfl⟩ := mem_of_mem_matching hv
    exact ht a m.2 c ha (settled_obj_iff.mp hms m hm) hc
  have hothers := hrest olds ms bs htail hms hbs
  rw [Fields.encode]
  split
  · exact hothers
  · exact settled_obj_iff.mpr (List.forall_mem_cons.mpr ⟨hnew, settled_obj_iff.mp hothers⟩)

mutual

/-- Zero values are settled. -/
theorem Ty.settled_zero : (t : Ty) → lib.Settled (t.encode t.zero)
  | .scalar κ => κ.settled_zero lib
  | .any | .list _ | .map _ | .ptr _ => settled_null
  | .struct fs => Fields.settled_zero fs

/-- The same of the fields of a struct. -/
theorem Fields.settled_zero : (fs : Fields) → lib.Settled (.obj (fs.encode fs.zero))
  | .nil => settled_obj_iff.mpr (by simp [Fields.encode])
  | .cons name omitEmpty t rest => by
    have hhead := Ty.settled_zero t
    have htail := Fields.settled_zero rest
    rw [Fields.zero, Fields.encode]
    split
    · exact htail
    · exact settled_obj_iff.mpr (List.forall_mem_cons.mpr ⟨hhead, settled_obj_iff.mp htail⟩)

end

mutual

/-- Every type reads settled values from settled ones. -/
theorem Ty.keepsSettled : (t : Ty) → t.KeepsSettled lib
  | .scalar κ => κ.settled_decode lib
  | .any => fun _ j b _ hj h => by
    obtain rfl : lib.generic j = b := Option.some.inj h
    exact generic_generic j
  | .list t => keepsSettled_list (Ty.settled_zero t) (Ty.keepsSettled t)
  | .map t => keepsSettled_map (Ty.settled_zero t) (Ty.keepsSettled t)
  | .ptr t => keepsSettled_ptr (Ty.settled_zero t) (Ty.keepsSettled t)
  | .struct fs => keepsSettled_struct (Fields.keepSettled fs)

/-- The same of the fields of a struct. -/
theorem Fields.keepSettled : (fs : Fields) → fs.KeepSettled lib
  | .nil => fun _ _ _ _ _ _ => settled_obj_iff.mpr (by simp [Fields.encode])
  | .cons _ _ t rest => keepSettled_cons (Ty.keepsSettled t) (Fields.keepSettled rest)

end

/-- A scalar type reads what it has written if that is settled. -/
def Scalar.Readable (lib : EncodingJson) (κ : Scalar) : Prop :=
  ∀ a, lib.Settled (κ.encode a) → (κ.decode κ.zero (κ.encode a)).isSome

variable (lib)

mutual

/-- The scalars in a type read what they have written. -/
def Ty.Readable : Ty → Prop
  | .scalar κ => κ.Readable lib
  | .any => True
  | .list t | .map t | .ptr t => t.Readable
  | .struct fs => fs.Readable

/-- The same of the fields of a struct. -/
def Fields.Readable : Fields → Prop
  | .nil => True
  | .cons _ _ t rest => t.Readable ∧ rest.Readable

end

/-- What is written for a value of a type can be read into the type if it is settled. -/
def Ty.ReadsBack (t : Ty) : Prop :=
  ∀ a, lib.Settled (t.encode a) → (t.decode lib t.zero (t.encode a)).isSome

/-- The same of the fields of a struct. -/
def Fields.ReadBack (fs : Fields) : Prop :=
  ∀ as ms, fs.Reads lib as ms → lib.Settled (.obj (fs.encode as)) →
    (fs.decode lib fs.zero ms).isSome

variable {lib}

theorem Scalar.readable_boolean : Scalar.boolean.Readable lib := fun _ _ => rfl

theorem Scalar.readable_string : Scalar.string.Readable lib := fun _ _ => rfl

theorem Scalar.readable_int (width : ℕ) : (Scalar.int width).Readable lib := by
  intro (n : BitVec width) _
  change (readInt width (n.toInt : ℚ)).isSome
  rw [readInt, Rat.num_intCast, BitVec.ofInt_toInt, if_pos rfl]
  rfl

/-- A list of results is there if each result is. -/
theorem isSome_mapM {α β : Type} {f : α → Option β} {xs : List α}
    (h : ∀ x ∈ xs, (f x).isSome) : (xs.mapM f).isSome := by
  induction xs with
  | nil => rfl
  | cons x xs ih =>
    obtain ⟨y, hy⟩ := Option.isSome_iff_exists.mp (h x (by simp))
    obtain ⟨ys, hys⟩ := Option.isSome_iff_exists.mp (ih fun w hw => h w (by simp [hw]))
    rw [List.mapM_cons, hy, hys]
    rfl

theorem readsBack_list {t : Ty} (ht : t.ReadsBack lib) : (Ty.list t).ReadsBack lib
  | none, _ => rfl
  | some as, h => by
    change (Ty.decode lib (.list t) (none : Option (List t.Val)) (.arr (as.map t.encode))).isSome
    rw [decode_list_nil, Option.isSome_map]
    refine isSome_mapM fun v hv => ?_
    obtain ⟨a, -, rfl⟩ := List.mem_map.mp hv
    exact ht a (settled_arr_iff.mp h _ hv)

theorem readsBack_map {t : Ty} (ht : t.ReadsBack lib) : (Ty.map t).ReadsBack lib
  | none, _ => rfl
  | some as, h => by
    have hall : ((mapValues t.encode as).mapM fun m =>
        (t.decode lib t.zero m.2).map fun a => (m.1, a)).isSome := by
      refine isSome_mapM fun m hm => ?_
      obtain ⟨a, -, rfl⟩ := List.mem_map.mp hm
      rw [Option.isSome_map]
      exact ht a.2 (settled_obj_iff.mp h _ hm)
    obtain ⟨new, hnew⟩ := Option.isSome_iff_exists.mp hall
    change (((mapValues t.encode as).mapM fun m =>
      (t.decode lib t.zero m.2).map fun a => (m.1, a)).map _).isSome
    rw [hnew]
    rfl

theorem readsBack_ptr {t : Ty} (hnull : ∀ a, t.encode a ≠ .null) (ht : t.ReadsBack lib) :
    (Ty.ptr t).ReadsBack lib
  | none, _ => rfl
  | some a, h => by
    change (Ty.decode lib (.ptr t) (none : Option t.Val) (t.encode a)).isSome
    rw [decode_ptr (hnull a), Option.isSome_map]
    exact ht a h

theorem readBack_cons {name : Text} {omitEmpty : Bool} {t : Ty} {rest : Fields}
    (hwf : (Fields.cons name omitEmpty t rest).WF lib) (ht : t.ReadsBack lib)
    (hrest : rest.ReadBack lib) : (Fields.cons name omitEmpty t rest).ReadBack lib := by
  rintro ⟨a, as⟩ ms hreads h
  obtain ⟨hhead, htail⟩ := settled_head h
  have hreads' : rest.Reads lib as ms := by
    intro name' hmem
    have hne : name' ≠ name := fun heq => hwf.1 name' hmem (by rw [heq])
    rw [hreads name' (List.mem_cons_of_mem _ hmem), find_encode_cons_of_ne hne]
  have hfirst : ((lib.matching name ms).foldlM (fun a v => t.decode lib a v) t.zero).isSome := by
    rw [hreads name List.mem_cons_self, find_encode_cons_self hwf.not_mem_names]
    split
    · rfl
    · have hread := ht a hhead
      rw [← hhead] at hread
      simpa using hread
  obtain ⟨b, hb⟩ := Option.isSome_iff_exists.mp hfirst
  obtain ⟨bs, hbs⟩ := Option.isSome_iff_exists.mp (hrest as ms hreads' htail)
  change (do
    let a ← (lib.matching name ms).foldlM (fun a v => t.decode lib a v) t.zero
    let as ← rest.decode lib rest.zero ms
    return (a, as) : Option (t.Val × rest.Val)).isSome
  rw [hb, hbs]
  rfl

mutual

/-- Every type reads what it has written if that is settled. -/
theorem Ty.readsBack : (t : Ty) → t.WF lib → t.Readable lib → t.ReadsBack lib
  | .scalar κ, _, h => h
  | .any, _, _ => fun _ _ => rfl
  | .list t, hwf, h => readsBack_list (Ty.readsBack t hwf h)
  | .map t, hwf, h => readsBack_map (Ty.readsBack t hwf h)
  | .ptr t, hwf, h => readsBack_ptr hwf.2 (Ty.readsBack t hwf.1 h)
  | .struct fs, hwf, h => by
    intro (as : fs.Val) hsettled
    have hreads := reads_encode hwf as
    have hobj : lib.generic (.obj (fs.encode as)) = .obj (fs.encode as) := hsettled
    rw [generic_obj, Json.obj.injEq] at hobj
    rw [hobj] at hreads
    exact Fields.readBack fs hwf h as _ hreads hsettled

/-- The same of the fields of a struct. -/
theorem Fields.readBack : (fs : Fields) → fs.WF lib → fs.Readable lib → fs.ReadBack lib
  | .nil, _, _ => fun _ _ _ _ => rfl
  | .cons _ _ t rest, hwf, h =>
    readBack_cons hwf (Ty.readsBack t hwf.2.1 h.1) (Fields.readBack rest hwf.2.2 h.2)

end

end Go
