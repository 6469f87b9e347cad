import IpfsMobile.Go.JsonPaths

/-!
# What setting a path leaves alone

A path is set in what a value was written as, and the result is read into the type again.
Away from the path everything stays, but for two things. A struct that is made on the way
brings its other fields with it. And a path that spells a field otherwise than the type is a
second member for this field: if it is read over the first one, it replaces the element of a
map or the `interface{}` that it leads into.
-/

namespace Go

open Members

variable (lib : EncodingJson)

mutual

/-- What is read over a value at a path replaces an element of a map or an `interface{}` that
the other path leads into as well. -/
def Ty.Replaces : Ty → List Text → List Text → Prop
  | .scalar _, _, _ | .list _, _, _ => False
  | .any, _, _ => True
  | .map _, path, path' =>
    match path, path' with
    | p :: _, p' :: _ => p = p'
    | _, _ => False
  | .ptr t, path, path' => t.Replaces path path'
  | .struct fs, path, path' =>
    match path, path' with
    | p :: ps, p' :: ps' => lib.fold p = lib.fold p' ∧ fs.Replaces p' ps ps'
    | _, _ => False

/-- The same in a field. -/
def Fields.Replaces : Fields → Text → List Text → List Text → Prop
  | .nil, _, _, _ => False
  | .cons name _ t rest, p, ps, ps' =>
    if name = p then t.Replaces ps ps' else rest.Replaces p ps ps'

end

mutual

/-- Both paths lead into a field that the first one spells otherwise than the type. It comes
after the field in the order of names, so what is set there is read over the field, and
replaces something that the other path leads into. -/
def Ty.Respells : Ty → List Text → List Text → Prop
  | .scalar _, _, _ | .any, _, _ | .list _, _, _ => False
  | .map t, path, path' =>
    match path, path' with
    | p :: ps, p' :: ps' => p = p' ∧ t.Respells ps ps'
    | _, _ => False
  | .ptr t, path, path' => t.Respells path path'
  | .struct fs, path, path' =>
    match path, path' with
    | p :: ps, p' :: ps' => lib.fold p = lib.fold p' ∧ fs.Respells p p' ps ps'
    | _, _ => False

/-- The same in a field. -/
def Fields.Respells : Fields → Text → Text → List Text → List Text → Prop
  | .nil, _, _, _, _ => False
  | .cons name _ t rest, p, p', ps, ps' =>
    if name = p' then
      if p = p' then t.Respells ps ps' else nameLe p' p = true ∧ t.Replaces lib ps ps'
    else rest.Respells p p' ps ps'

end

mutual

/-- Setting one path in a value makes a struct that the other path leads into. -/
def Ty.Creates : Ty → List Text → List Text → Json → Prop
  | .scalar _, _, _, _ | .any, _, _, _ | .list _, _, _, _ => False
  | .map t, path, path', c =>
    match path, path' with
    | p :: ps, p' :: ps' => p = p' ∧ t.Creates ps ps' (c.member p')
    | _, _ => False
  | .ptr t, path, path', c => t.Creates path path' c
  | .struct fs, path, path', c =>
    match path, path' with
    | p :: ps, p' :: ps' =>
      c = .null ∨ lib.fold p = lib.fold p' ∧ fs.Creates p' ps ps' (c.member p')
    | _, _ => False

/-- The same in a field. -/
def Fields.Creates : Fields → Text → List Text → List Text → Json → Prop
  | .nil, _, _, _, _ => False
  | .cons name _ t rest, p, ps, ps', c =>
    if name = p then t.Creates ps ps' c else rest.Creates p ps ps' c

end

variable {lib}

/-- The rest of the paths in the field that they lead into. -/
theorem Slot.replaces_iff {fs : Fields} {t : Ty} (hwf : fs.WF lib) (s : Slot fs t)
    (ps ps' : List Text) : fs.Replaces lib s.name ps ps' ↔ t.Replaces lib ps ps' := by
  induction s with
  | here => rw [Fields.Replaces, Slot.name, if_pos rfl]
  | there s ih =>
    rw [Fields.Replaces, Slot.name, if_neg (s.name_ne hwf)]
    exact ih hwf.2.2

theorem Slot.respells_iff {fs : Fields} {t : Ty} (hwf : fs.WF lib) (s : Slot fs t) (p : Text)
    (ps ps' : List Text) :
    fs.Respells lib p s.name ps ps' ↔
      if p = s.name then t.Respells lib ps ps'
      else nameLe s.name p = true ∧ t.Replaces lib ps ps' := by
  induction s with
  | here => rw [Fields.Respells, Slot.name, if_pos rfl]
  | there s ih =>
    rw [Fields.Respells, Slot.name, if_neg (s.name_ne hwf)]
    exact ih hwf.2.2

theorem Slot.creates_iff {fs : Fields} {t : Ty} (hwf : fs.WF lib) (s : Slot fs t)
    (ps ps' : List Text) (c : Json) :
    fs.Creates lib s.name ps ps' c ↔ t.Creates lib ps ps' c := by
  induction s with
  | here => rw [Fields.Creates, Slot.name, if_pos rfl]
  | there s ih =>
    rw [Fields.Creates, Slot.name, if_neg (s.name_ne hwf)]
    exact ih hwf.2.2

theorem Slot.wf {fs : Fields} {t : Ty} (hwf : fs.WF lib) (s : Slot fs t) : t.WF lib := by
  induction s with
  | here => exact hwf.2.1
  | there s ih => exact ih hwf.2.2

/-- What is at a path stays, or it is replaced, or it appears in something that is made. -/
def Stays (before after : Option Json) (replaced created : Prop) : Prop :=
  after = before ∨ before ≠ none ∧ replaced ∨ before = none ∧ created

theorem Stays.imp {before after : Option Json} {replaced replaced' created created' : Prop}
    (h : Stays before after replaced created) (hreplaced : replaced → replaced')
    (hcreated : created → created') : Stays before after replaced' created' :=
  h.imp_right (Or.imp (And.imp_right hreplaced) (And.imp_right hcreated))

/-- Paths that are apart lead somewhere. -/
theorem Json.Apart.exists_cons {fold : Text → Text} {path path' : List Text}
    (h : Json.Apart fold path path') :
    ∃ p ps p' ps', path = p :: ps ∧ path' = p' :: ps' := by
  cases path with
  | nil => exact absurd h (Json.not_apart_nil_left path')
  | cons p ps =>
    cases path' with
    | nil => exact absurd h (Json.not_apart_nil_right _)
    | cons p' ps' => exact ⟨p, ps, p', ps', rfl, rfl⟩

/-- A path set in nothing is an object with one member. -/
theorem set_empty_cons {v w : Json} {p : Text} {ps : List Text}
    (h : (Json.obj []).set v (p :: ps) = some w) :
    ∃ u, (Json.obj []).set v ps = some u ∧ w = .obj [(p, u)] := by
  obtain ⟨u, hu, rfl⟩ := Option.map_eq_some_iff.mp h
  exact ⟨u, hu, rfl⟩

/-- The field that reads a single member. -/
theorem matching_singleton (name p : Text) (u : Json) :
    lib.matching name [(p, u)] = if lib.fold p = lib.fold name then [u] else [] := by
  rw [EncodingJson.matching]
  split
  · rename_i hfold
    simp [hfold, Members.sort]
  · rename_i hfold
    simp [hfold, Members.sort]

/-- Nothing is made in what is left out that would not be made where there is nothing. -/
theorem creates_null_of_isEmpty : (t : Ty) → (a : t.Val) → t.isEmpty a = true →
    ∀ {p ps p' ps'}, t.Creates lib (p :: ps) (p' :: ps') (t.encode a) →
      t.Creates lib (p :: ps) (p' :: ps') .null
  | .scalar _, _, _, _, _, _, _, h => h
  | .any, _, _, _, _, _, _, h => h
  | .list _, _, _, _, _, _, _, h => h
  | .map t, none, _, _, _, _, _, h => h
  | .map t, some ms, hempty, p, ps, p', ps', h => by
    obtain rfl : ms = [] := by simpa [Ty.isEmpty] using hempty
    exact h
  | .ptr t, none, _, _, _, _, _, h => h
  | .ptr t, some a, hempty, _, _, _, _, _ => by simp [Ty.isEmpty] at hempty
  | .struct fs, a, hempty, _, _, _, _, _ => by simp [Ty.isEmpty] at hempty

/-- The same for what is written for a field. -/
theorem Slot.creates_member {fs : Fields} {t : Ty} (hwf : fs.WF lib) (s : Slot fs t) {as : fs.Val}
    {p p' : Text} {ps ps' : List Text}
    (h : t.Creates lib (p :: ps) (p' :: ps') (t.encode (s.get as))) :
    t.Creates lib (p :: ps) (p' :: ps') ((Json.obj (fs.encode as)).member s.name) := by
  rw [Json.member_obj, s.find_encode hwf]
  split
  · rename_i hleft
    rw [Bool.and_eq_true] at hleft
    exact creates_null_of_isEmpty t _ hleft.2 h
  · exact h

theorem member_generic (c : Json) (p : Text) :
    (lib.generic c).member p = lib.generic (c.member p) := by
  rw [Json.member, EncodingJson.generic, Json.get_mapNum, Json.member]
  cases c.get [p] <;> rfl

mutual

/-- What is made does not depend on the numbers. -/
theorem Ty.creates_of_generic : (t : Ty) → {path path' : List Text} → {c : Json} →
    t.Creates lib path path' (lib.generic c) → t.Creates lib path path' c
  | .scalar _, _, _, _, h | .any, _, _, _, h | .list _, _, _, _, h => h
  | .map t, p :: ps, p' :: ps', c, h => by
    have hrest := h.2
    rw [member_generic] at hrest
    exact ⟨h.1, Ty.creates_of_generic t hrest⟩
  | .ptr t, _, _, _, h => Ty.creates_of_generic t h
  | .struct fs, p :: ps, p' :: ps', c, h => by
    rcases h with hnull | ⟨hfold, hrest⟩
    · exact Or.inl (generic_eq_null_iff.mp hnull)
    · rw [member_generic] at hrest
      exact Or.inr ⟨hfold, Fields.creates_of_generic fs hrest⟩

/-- The same in the fields of a struct. -/
theorem Fields.creates_of_generic : (fs : Fields) → {p : Text} → {ps ps' : List Text} →
    {c : Json} → fs.Creates lib p ps ps' (lib.generic c) → fs.Creates lib p ps ps' c
  | .cons name _ t rest, p, ps, ps', c, h => by
    rw [Fields.Creates] at h ⊢
    split
    · rename_i hname
      rw [if_pos hname] at h
      exact Ty.creates_of_generic t h
    · rename_i hname
      rw [if_neg hname] at h
      exact Fields.creates_of_generic rest h

end

/-- What a struct is written as and read into a generic value. -/
theorem generic_struct {fs : Fields} (as : fs.Val) :
    lib.generic ((Ty.struct fs).encode as) = .obj (mapValues lib.generic (fs.encode as)) :=
  generic_obj _

/-- Apart from a path a struct stays if its fields do: those that the path does not match, and
apart from the rest of the path the one that it leads into. -/
theorem stays_struct {fs : Fields} (hwf : fs.WF lib) {ms : List (Text × Json)} {bs : fs.Val}
    {p p' : Text} {ps ps' : List Text} {replaced : Prop}
    (hapart : Json.Apart lib.fold (p :: ps) (p' :: ps'))
    (hother : p' ∉ fs.names → find p' ms = none)
    (haway : ∀ t (s : Slot fs t), lib.fold p ≠ lib.fold s.name →
      find s.name (fs.encode bs) = find s.name ms)
    (hinto : ∀ t (s : Slot fs t), s.name = p' → lib.fold p = lib.fold p' →
      Json.Apart lib.fold ps ps' →
        Stays (((Json.obj ms).member s.name).get ps') ((t.encode (s.get bs)).get ps') replaced
          (t.Creates lib ps ps' ((Json.obj ms).member s.name))) :
    Stays ((Json.obj ms).get (p' :: ps')) ((Json.obj (fs.encode bs)).get (p' :: ps')) replaced
      (Ty.Creates lib (.struct fs) (p :: ps) (p' :: ps') (.obj ms)) := by
  by_cases hp' : p' ∈ fs.names
  · obtain ⟨t, s, rfl⟩ := Slot.exists_of_mem hp'
    by_cases hfold : lib.fold p = lib.fold s.name
    · have hrest := hapart.cons_cases.resolve_left fun hne => hne hfold
      have hstays := hinto t s rfl hfold hrest.2
      obtain ⟨r, rs, q, qs, rfl, rfl⟩ := hrest.2.exists_cons
      rw [s.get_encode hwf, ← Json.get_member]
      refine hstays.imp id fun hcreates => Or.inr ⟨hfold, ?_⟩
      rw [s.creates_iff hwf]
      exact hcreates
    · rw [Json.get_obj_cons, Json.get_obj_cons, haway t s hfold]
      exact Or.inl rfl
  · rw [get_encode_of_not_mem hp', Json.get_obj_cons, hother hp']
    exact Or.inl rfl

/-- A field with the zero value has nothing where it had nothing, if its type is such that the
zero value has nothing where another value has nothing. -/
theorem Slot.get_of_zero {fs : Fields} (hwf : fs.WF lib) {t : Ty} (s : Slot fs t)
    (ht : ∀ (a : t.Val) path, (t.encode a).get path = none → (t.encode t.zero).get path = none)
    {as bs : fs.Val} (hzero : s.get bs = t.zero) {ps : List Text}
    (hnone : (Json.obj (fs.encode as)).get (s.name :: ps) = none) :
    (Json.obj (fs.encode bs)).get (s.name :: ps) = none := by
  rw [Json.get_obj_cons, s.find_encode hwf] at hnone ⊢
  rw [hzero]
  by_cases hleft : (s.omitEmpty && t.isEmpty (s.get as)) = true
  · rw [Bool.and_eq_true] at hleft
    rw [hleft.1, zero_isEmpty_of_isEmpty t _ hleft.2]
    rfl
  · rw [if_neg hleft, Option.bind_some] at hnone
    split
    · rfl
    · exact ht _ _ hnone

/-- The zero value of a type has nothing where another value has nothing. -/
theorem Ty.get_zero {t : Ty} (hwf : t.WF lib) : ∀ (a : t.Val) path,
    (t.encode a).get path = none → (t.encode t.zero).get path = none := by
  -- Null has nothing at any path.
  have hnull : ∀ (j : Json) path, j.get path = none → Json.null.get path = none := by
    intro j path h
    cases path with
    | nil => cases h
    | cons p ps => rfl
  refine hwf.induction (P := fun t => ∀ (a : t.Val) path,
    (t.encode a).get path = none → (t.encode t.zero).get path = none)
    (fun κ a path h => ?_) (fun _ => hnull _) (fun _ _ => hnull _) (fun _ _ _ _ => hnull _)
    (fun _ _ _ _ _ => hnull _) (fun fs hwf hfs (as : fs.Val) path h => ?_)
  · cases path with
    | nil => cases h
    | cons p ps => exact Json.get_cons_of_ne_obj (κ.encode_ne_obj κ.zero) p ps
  · cases path with
    | nil => cases h
    | cons p ps =>
      by_cases hp : p ∈ fs.names
      · obtain ⟨t, s, rfl⟩ := Slot.exists_of_mem hp
        exact s.get_of_zero hwf (hfs t s) s.get_zero h
      · exact get_encode_of_not_mem hp fs.zero ps

variable (lib)

/-- Where there was nothing apart from a path, a path that is set in nothing and read makes
nothing but in a struct that is made on the way. -/
def Ty.Makes (t : Ty) : Prop :=
  ∀ c v path path' w b, t.Fits lib c → Json.Apart lib.fold path path' →
    (Json.obj []).set v path = some w → t.decode lib t.zero w = some b → c.get path' = none →
      (t.encode b).get path' = none ∨ t.Creates lib path path' c

variable {lib}

theorem makes_scalar (κ : Scalar) : (Ty.scalar κ).Makes lib := by
  intro c v path path' w b _ hapart _ _ _
  obtain ⟨p, ps, p', ps', rfl, rfl⟩ := hapart.exists_cons
  exact Or.inl (Json.get_cons_of_ne_obj (κ.encode_ne_obj b) p' ps')

theorem makes_list (t : Ty) : (Ty.list t).Makes lib := by
  intro c v path path' w b _ hapart hset hread _
  obtain ⟨p, ps, p', ps', rfl, rfl⟩ := hapart.exists_cons
  obtain ⟨u, -, rfl⟩ := set_empty_cons hset
  cases hread

/-- A path that is set in nothing is all there is. -/
theorem get_generic_of_apart {v w : Json} {path path' : List Text}
    (hset : (Json.obj []).set v path = some w) (hapart : Json.Apart lib.fold path path') :
    (lib.generic w).get path' = none := by
  rw [EncodingJson.generic, Json.get_mapNum, Json.get_set_of_apart hset hapart, hapart.get_empty]
  rfl

theorem makes_any : Ty.any.Makes lib := by
  intro c v path path' w b _ hapart hset hread _
  obtain rfl : lib.generic w = b := Option.some.inj hread
  exact Or.inl (get_generic_of_apart hset hapart)

theorem makes_map {t : Ty} (ht : t.Makes lib) : (Ty.map t).Makes lib := by
  intro c v path path' w b hfits hapart hset hread hnone
  obtain ⟨p, ps, p', ps', rfl, rfl⟩ := hapart.exists_cons
  obtain ⟨u, hu, rfl⟩ := set_empty_cons hset
  by_cases hp : p = p'
  · subst hp
    have hrest := hapart.cons_cases.resolve_left fun hne => hne rfl
    have hself : find p [(p, u)] = some u := by simp [find_cons]
    obtain ⟨a, ha, hget⟩ := get_decode_map hread hself
    obtain ⟨r, rs, q, qs, rfl, rfl⟩ := hrest.2.exists_cons
    rw [← Json.get_member] at hnone
    rw [hget]
    exact (ht (c.member p) v _ _ u a (hfits.member p) hrest.2 hu ha hnone).imp_right fun hcreates =>
      ⟨rfl, hcreates⟩
  · have hfind : find p' [(p, u)] = none := by simp [find_cons, hp]
    exact Or.inl (get_decode_map_of_not_find hread hfind ps')

theorem makes_ptr {t : Ty} (ht : t.Makes lib) : (Ty.ptr t).Makes lib := by
  intro c v path path' w b hfits hapart hset hread hnone
  obtain ⟨p, ps, p', ps', rfl, rfl⟩ := hapart.exists_cons
  rw [decode_ptr (Json.ne_null_of_set hset)] at hread
  obtain ⟨a, ha, rfl⟩ := Option.map_eq_some_iff.mp hread
  exact ht c v _ _ w a hfits.pointee hapart hset ha hnone

theorem makes_struct {fs : Fields} (hwf : fs.WF lib) (hfs : ∀ t, Slot fs t → t.Makes lib) :
    (Ty.struct fs).Makes lib := by
  intro c v path path' w (bs : fs.Val) hfits hapart hset hread hnone
  obtain ⟨p, ps, p', ps', rfl, rfl⟩ := hapart.exists_cons
  obtain ⟨u, hu, rfl⟩ := set_empty_cons hset
  have hfields : fs.decode lib fs.zero [(p, u)] = some bs := hread
  by_cases hp' : p' ∈ fs.names
  · obtain ⟨t, s, rfl⟩ := Slot.exists_of_mem hp'
    have hslot := s.decode_get hfields
    rw [matching_singleton, s.get_zero] at hslot
    by_cases hfold : lib.fold p = lib.fold s.name
    · have hrest := hapart.cons_cases.resolve_left fun hne => hne hfold
      rw [if_pos hfold] at hslot
      have hfield : t.decode lib t.zero u = some (s.get bs) := by simpa using hslot
      obtain ⟨r, rs, q, qs, rfl, rfl⟩ := hrest.2.exists_cons
      rw [← Json.get_member] at hnone
      change (Json.obj (fs.encode bs)).get _ = none ∨ _
      rw [s.get_encode hwf]
      refine (hfs t s _ v _ _ u _ (hfits.field hwf s) hrest.2 hu hfield hnone).imp_right
        fun hcreates => Or.inr ⟨hfold, ?_⟩
      rw [s.creates_iff hwf]
      exact hcreates
    · rw [if_neg hfold] at hslot
      have hzero : t.zero = s.get bs := Option.some.inj hslot
      rcases hfits with rfl | ⟨as, rfl⟩
      · exact Or.inr (Or.inl rfl)
      · rw [EncodingJson.generic, Json.get_mapNum, Option.map_eq_none_iff] at hnone
        exact Or.inl (s.get_of_zero hwf (Ty.get_zero (s.wf hwf)) hzero.symm hnone)
  · exact Or.inl (get_encode_of_not_mem hp' bs ps')

/-- What is read from a path that was set in nothing, for every type. -/
theorem Ty.makes {t : Ty} (hwf : t.WF lib) : t.Makes lib :=
  hwf.induction (P := fun t => t.Makes lib) makes_scalar makes_any makes_list
    (fun _ _ => makes_map) (fun _ _ _ => makes_ptr) (fun _ => makes_struct)

variable (lib)

/-- A path that is set in nothing and read over a value changes nothing apart from the path but
what it replaces. -/
def Ty.Overlays (t : Ty) : Prop :=
  ∀ old v path path' w b, Json.Apart lib.fold path path' → (Json.obj []).set v path = some w →
    t.decode lib old w = some b →
      Stays ((t.encode old).get path') ((t.encode b).get path') (t.Replaces lib path path')
        (t.Creates lib path path' (t.encode old))

variable {lib}

theorem overlays_scalar (κ : Scalar) : (Ty.scalar κ).Overlays lib := by
  intro old v path path' w b hapart _ _
  obtain ⟨p, ps, p', ps', rfl, rfl⟩ := hapart.exists_cons
  have hold := Json.get_cons_of_ne_obj (κ.encode_ne_obj old) p' ps'
  have hb := Json.get_cons_of_ne_obj (κ.encode_ne_obj b) p' ps'
  exact Or.inl (hb.trans hold.symm)

theorem overlays_any : Ty.any.Overlays lib := by
  intro old v path path' w b hapart hset hread
  obtain rfl : lib.generic w = b := Option.some.inj hread
  by_cases hnone : (Ty.any.encode old).get path' = none
  · exact Or.inl ((get_generic_of_apart hset hapart).trans hnone.symm)
  · exact Or.inr (Or.inl ⟨hnone, trivial⟩)

theorem overlays_list (t : Ty) : (Ty.list t).Overlays lib := by
  intro old v path path' w b hapart hset hread
  obtain ⟨p, ps, p', ps', rfl, rfl⟩ := hapart.exists_cons
  obtain ⟨u, -, rfl⟩ := set_empty_cons hset
  cases hread

theorem overlays_map {t : Ty} (hwf : t.WF lib) : (Ty.map t).Overlays lib := by
  intro old v path path' w b hapart hset hread
  obtain ⟨p, ps, p', ps', rfl, rfl⟩ := hapart.exists_cons
  obtain ⟨u, hu, rfl⟩ := set_empty_cons hset
  by_cases hp : p = p'
  · subst hp
    by_cases hnone : ((Ty.map t).encode old).get (p :: ps') = none
    · -- An element that is made anew has nothing there either, unless it is a struct.
      have hrest := hapart.cons_cases.resolve_left fun hne => hne rfl
      have hself : find p [(p, u)] = some u := by simp [find_cons]
      obtain ⟨a, ha, hget⟩ := get_decode_map hread hself
      have hfits : (Ty.map t).Fits lib (lib.generic ((Ty.map t).encode old)) := Or.inr ⟨old, rfl⟩
      have hbefore : (lib.generic ((Ty.map t).encode old)).get (p :: ps') = none := by
        rw [EncodingJson.generic, Json.get_mapNum, hnone]
        rfl
      obtain ⟨r, rs, q, qs, rfl, rfl⟩ := hrest.2.exists_cons
      rw [← Json.get_member] at hbefore
      rcases Ty.makes hwf _ v _ _ u a (hfits.member p) hrest.2 hu ha hbefore with
        hafter | hcreates
      · exact Or.inl ((hget _).trans (hafter.trans hnone.symm))
      · exact Or.inr (Or.inr ⟨hnone, Ty.creates_of_generic (.map t) ⟨rfl, hcreates⟩⟩)
    · exact Or.inr (Or.inl ⟨hnone, rfl⟩)
  · have hfind : find p' [(p, u)] = none := by simp [find_cons, hp]
    exact Or.inl (get_decode_map_of_not_find hread hfind ps')

/-- A path that is set in nothing and read alone, where there was nothing at all. -/
theorem Ty.stays_made {t : Ty} (hwf : t.WF lib) {v w : Json} {b : t.Val} {path path' : List Text}
    {replaced : Prop} (hapart : Json.Apart lib.fold path path')
    (hset : (Json.obj []).set v path = some w) (hread : t.decode lib t.zero w = some b) :
    Stays (Json.null.get path') ((t.encode b).get path') replaced
      (t.Creates lib path path' .null) := by
  obtain ⟨p, ps, p', ps', rfl, rfl⟩ := hapart.exists_cons
  exact (Ty.makes hwf .null v _ _ w b (Or.inl rfl) hapart hset hread rfl).imp_right
    fun hcreates => Or.inr ⟨rfl, hcreates⟩

theorem overlays_ptr {t : Ty} (hwf : t.WF lib) (ht : t.Overlays lib) : (Ty.ptr t).Overlays lib := by
  intro (old : Option t.Val) v path path' w b hapart hset hread
  obtain ⟨p, ps, p', ps', rfl, rfl⟩ := hapart.exists_cons
  rw [decode_ptr (Json.ne_null_of_set hset)] at hread
  obtain ⟨c, hc, rfl⟩ := Option.map_eq_some_iff.mp hread
  cases old with
  | none => exact Ty.stays_made hwf hapart hset hc
  | some a => exact ht a v _ _ w c hapart hset hc

theorem overlays_struct {fs : Fields} (hwf : fs.WF lib) (hfs : ∀ t, Slot fs t → t.Overlays lib) :
    (Ty.struct fs).Overlays lib := by
  intro (olds : fs.Val) v path path' w (bs : fs.Val) hapart hset hread
  obtain ⟨p, ps, p', ps', rfl, rfl⟩ := hapart.exists_cons
  obtain ⟨u, hu, rfl⟩ := set_empty_cons hset
  have hfields : fs.decode lib olds [(p, u)] = some bs := hread
  apply stays_struct hwf hapart
  · exact find_encode_of_not_mem olds
  · intro t s hfold
    have hslot := s.decode_get hfields
    rw [matching_singleton, if_neg hfold] at hslot
    have hsame : s.get olds = s.get bs := Option.some.inj hslot
    rw [s.find_encode hwf, s.find_encode hwf, hsame]
  · rintro t s rfl hfold hrest
    have hslot := s.decode_get hfields
    rw [matching_singleton, if_pos hfold] at hslot
    have hfield : t.decode lib (s.get olds) u = some (s.get bs) := by simpa using hslot
    have hstays := hfs t s _ v _ _ u _ hrest hu hfield
    obtain ⟨r, rs, q, qs, rfl, rfl⟩ := hrest.exists_cons
    rw [Json.get_member, s.get_encode hwf]
    refine hstays.imp (fun hreplaces => ⟨hfold, ?_⟩) (s.creates_member hwf)
    rw [s.replaces_iff hwf]
    exact hreplaces

/-- What is set in nothing can be read over a value of every type. -/
theorem Ty.overlays {t : Ty} (hwf : t.WF lib) : t.Overlays lib :=
  hwf.induction (P := fun t => t.Overlays lib) overlays_scalar overlays_any overlays_list
    (fun _ hwf _ => overlays_map hwf) (fun _ hwf _ => overlays_ptr hwf) (fun _ => overlays_struct)

/-- A field that is read from what was written for it is written as before. -/
theorem Slot.find_reread {fs : Fields} {t : Ty} (hwf : fs.WF lib) (s : Slot fs t) {as bs : fs.Val}
    (h : (find s.name (mapValues lib.generic (fs.encode as))).toList.foldlM
      (fun a v => t.decode lib a v) t.zero = some (s.get bs)) :
    find s.name (fs.encode bs) = find s.name (mapValues lib.generic (fs.encode as)) := by
  rw [find_mapValues, s.find_encode hwf] at h ⊢
  obtain ⟨hleft, hencode⟩ := reread_field (Ty.writesBack t (s.wf hwf)) h
  rw [s.find_encode hwf, hleft]
  split
  · rfl
  · rename_i hnot
    rw [hencode hnot, Option.map_some]

/-- An element of a map that is read from what was written for it is written as before. Nothing
must have been there if nothing was written. -/
theorem get_reread_map {t : Ty} (hwf : t.WF lib) {old b as : Option (List (Text × t.Val))}
    {ms : List (Text × Json)} (h : Ty.decode lib (.map t) old (.obj ms) = some b) {p : Text}
    (hfind : find p ms = (find p (as.getD [])).map fun a => lib.generic (t.encode a))
    {ps : List Text} (hold : find p ms = none → ((Ty.map t).encode old).get (p :: ps) = none) :
    ((Ty.map t).encode b).get (p :: ps) = (lib.generic ((Ty.map t).encode as)).get (p :: ps) := by
  have hget : (lib.generic ((Ty.map t).encode as)).get (p :: ps) =
      (find p ms).bind fun v => v.get ps := by
    cases as with
    | none =>
      rw [hfind]
      rfl
    | some as =>
      change (lib.generic (.obj (mapValues t.encode as))).get (p :: ps) = _
      rw [generic_obj, Json.get_obj_cons, find_mapValues, find_mapValues, Option.map_map, hfind]
      rfl
  rw [hget]
  cases helem : find p (as.getD []) with
  | none =>
    rw [helem] at hfind
    rw [get_decode_map_of_not_find h hfind, hold hfind, hfind]
    rfl
  | some a =>
    rw [helem, Option.map_some] at hfind
    obtain ⟨e, he, hread⟩ := get_decode_map h hfind
    have hencode := (Ty.writesBack t hwf a e he).1
    rw [hread, hfind, hencode]
    rfl

variable (lib)

/-- What was written for a value and is read over a path that was set in nothing shows up
apart from the path. -/
def Ty.Underlays (t : Ty) : Prop :=
  ∀ a v path path' w x b, Json.Apart lib.fold path path' → (Json.obj []).set v path = some w →
    t.decode lib t.zero w = some x → t.decode lib x (lib.generic (t.encode a)) = some b →
      Stays ((lib.generic (t.encode a)).get path') ((t.encode b).get path') False
        (t.Creates lib path path' (lib.generic (t.encode a)))

variable {lib}

theorem underlays_scalar (κ : Scalar) : (Ty.scalar κ).Underlays lib := by
  intro a v path path' w x b hapart hset hread _
  obtain ⟨p, ps, p', ps', rfl, rfl⟩ := hapart.exists_cons
  obtain ⟨u, -, rfl⟩ := set_empty_cons hset
  exact absurd hread (decode_scalar_obj κ _ _ x)

theorem underlays_any : Ty.any.Underlays lib := by
  intro a v path path' w x b _ _ _ hdoc
  obtain rfl : lib.generic (lib.generic a) = b := Option.some.inj hdoc
  rw [generic_generic]
  exact Or.inl rfl

theorem underlays_list (t : Ty) : (Ty.list t).Underlays lib := by
  intro a v path path' w x b hapart hset hread _
  obtain ⟨p, ps, p', ps', rfl, rfl⟩ := hapart.exists_cons
  obtain ⟨u, -, rfl⟩ := set_empty_cons hset
  cases hread

theorem underlays_map {t : Ty} (hwf : t.WF lib) : (Ty.map t).Underlays lib := by
  intro (as : Option (List (Text × t.Val))) v path path' w x b hapart hset hread hdoc
  obtain ⟨p, ps, p', ps', rfl, rfl⟩ := hapart.exists_cons
  cases as with
  | none =>
    obtain rfl : none = b := Option.some.inj hdoc
    exact Or.inl rfl
  | some as =>
    have hobj : lib.generic ((Ty.map t).encode (some as)) =
        .obj (mapValues lib.generic (mapValues t.encode as)) := generic_obj _
    have hread' := hdoc
    rw [hobj] at hread'
    have hfind : find p' (mapValues lib.generic (mapValues t.encode as)) =
        (find p' ((some as).getD [])).map fun a => lib.generic (t.encode a) := by
      rw [find_mapValues, find_mapValues, Option.map_map]
      rfl
    by_cases hnone : (lib.generic ((Ty.map t).encode (some as))).get (p' :: ps') = none
    · rcases Ty.makes (t := .map t) hwf _ v _ _ w x (Or.inr ⟨some as, rfl⟩) hapart hset hread
        hnone with hafter | hcreates
      · exact Or.inl (get_reread_map hwf hread' hfind fun _ => hafter)
      · exact Or.inr (Or.inr ⟨hnone, hcreates⟩)
    · refine Or.inl (get_reread_map hwf hread' hfind fun hnot => absurd ?_ hnone)
      rw [hobj, Json.get_obj_cons, hnot]
      rfl

theorem underlays_ptr {t : Ty} (hnull : ∀ a, t.encode a ≠ .null) (ht : t.Underlays lib) :
    (Ty.ptr t).Underlays lib := by
  intro (a : Option t.Val) v path path' w (x : Option t.Val) (b : Option t.Val) hapart hset hread
    hdoc
  cases a with
  | none =>
    obtain rfl : none = b := Option.some.inj hdoc
    exact Or.inl rfl
  | some a =>
    obtain ⟨p, ps, p', ps', rfl, rfl⟩ := hapart.exists_cons
    have hne : lib.generic (t.encode a) ≠ .null := fun heq => hnull a (generic_eq_null_iff.mp heq)
    rw [decode_ptr (Json.ne_null_of_set hset)] at hread
    obtain ⟨y, hy, rfl⟩ := Option.map_eq_some_iff.mp hread
    have hptr : Ty.decode lib (.ptr t) (some y) (lib.generic (t.encode a)) = some b := hdoc
    rw [decode_ptr hne] at hptr
    obtain ⟨c, hc, rfl⟩ := Option.map_eq_some_iff.mp hptr
    exact ht a v _ _ w y c hapart hset hy hc

theorem underlays_struct {fs : Fields} (hwf : fs.WF lib) (hfs : ∀ t, Slot fs t → t.Underlays lib) :
    (Ty.struct fs).Underlays lib := by
  intro (as : fs.Val) v path path' w (xs : fs.Val) (bs : fs.Val) hapart hset hread hdoc
  obtain ⟨p, ps, p', ps', rfl, rfl⟩ := hapart.exists_cons
  obtain ⟨u, hu, rfl⟩ := set_empty_cons hset
  rw [generic_struct as] at hdoc ⊢
  have hmade : fs.decode lib fs.zero [(p, u)] = some xs := hread
  have hfields : fs.decode lib xs (mapValues lib.generic (fs.encode as)) = some bs := hdoc
  have hsingle := fun t (s : Slot fs t) =>
    single_mapValues (single_encode hwf as s.name_mem) lib.generic
  apply stays_struct hwf hapart
  · intro hp'
    rw [find_mapValues, find_encode_of_not_mem as hp', Option.map_none]
  · intro t s hfold
    have hfirst := s.decode_get hmade
    rw [matching_singleton, s.get_zero, if_neg hfold] at hfirst
    have hzero : t.zero = s.get xs := Option.some.inj hfirst
    have hslot := s.decode_get hfields
    rw [matching_of_single (hsingle t s), ← hzero] at hslot
    exact s.find_reread hwf hslot
  · rintro t s rfl hfold hrest
    have hfirst := s.decode_get hmade
    rw [matching_singleton, s.get_zero, if_pos hfold] at hfirst
    have hx : t.decode lib t.zero u = some (s.get xs) := by simpa using hfirst
    have hslot := s.decode_get hfields
    rw [matching_of_single (hsingle t s)] at hslot
    rw [Json.member_obj]
    rw [find_mapValues, s.find_encode hwf] at hslot ⊢
    by_cases hleft : (s.omitEmpty && t.isEmpty (s.get as)) = true
    · rw [if_pos hleft] at hslot ⊢
      have hsame : s.get xs = s.get bs := Option.some.inj hslot
      rw [hsame] at hx
      exact Ty.stays_made (s.wf hwf) hrest hu hx
    · rw [if_neg hleft] at hslot ⊢
      have hread' : t.decode lib (s.get xs) (lib.generic (t.encode (s.get as))) =
          some (s.get bs) := by
        simpa using hslot
      exact hfs t s _ v _ _ u _ _ hrest hu hx hread'

/-- What was written for a value can be read over what is set in nothing, for every type. -/
theorem Ty.underlays {t : Ty} (hwf : t.WF lib) : t.Underlays lib :=
  hwf.induction (P := fun t => t.Underlays lib) underlays_scalar underlays_any underlays_list
    (fun _ hwf _ => underlays_map hwf) (fun _ _ => underlays_ptr) (fun _ => underlays_struct)

/-- The elements of what was written for a map. -/
theorem Ty.Fits.elements {t : Ty} {c : Json} (h : (Ty.map t).Fits lib c)
    {ms : List (Text × Json)} (hms : c.opened = .obj ms) :
    ∃ as : Option (List (Text × t.Val)), c = lib.generic ((Ty.map t).encode as) ∧
      ∀ p, find p ms = (find p (as.getD [])).map fun a => lib.generic (t.encode a) := by
  have hnil : ∀ ns : List (Text × Json), Json.opened .null = .obj ns → ns = [] := by
    intro ns hns
    exact (Json.obj.inj hns).symm
  rcases h with rfl | ⟨as, rfl⟩
  · obtain rfl := hnil ms hms
    exact ⟨none, rfl, fun _ => rfl⟩
  · refine ⟨as, rfl, fun p => ?_⟩
    cases as with
    | none =>
      obtain rfl := hnil ms hms
      rfl
    | some as =>
      change (lib.generic (.obj (mapValues t.encode as))).opened = .obj ms at hms
      rw [generic_obj] at hms
      obtain rfl := Json.obj.inj hms
      rw [find_mapValues, find_mapValues, Option.map_map]
      rfl

/-- What was written and read into a generic value is settled. -/
theorem Ty.Fits.settled {t : Ty} {c : Json} (h : t.Fits lib c) : lib.Settled c := by
  rcases h with rfl | ⟨a, rfl⟩
  · exact settled_null
  · exact generic_generic _

/-- A single member that does not match a name has no namesake. -/
theorem find_eq_none_of_single {name p : Text} {ms : List (Text × Json)} (h : lib.Single name ms)
    (hfold : lib.fold p = lib.fold name) (hne : p ≠ name) : find p ms = none := by
  have hkeep : decide (lib.fold p = lib.fold name) = true := by simp [hfold]
  rw [← find_filter (fun q => decide (lib.fold q = lib.fold name)) hkeep, h]
  cases find name ms with
  | none => rfl
  | some v => simp [find_cons, Ne.symm hne]

/-- A member of another spelling is read after the one that is spelled as the field, if its
name comes after that, or before it. -/
theorem matching_put_of_fold {name p : Text} {ms : List (Text × Json)} (h : lib.Single name ms)
    (hfold : lib.fold p = lib.fold name) (hne : p ≠ name) (v : Json) :
    nameLe name p = true ∧ lib.matching name (put p v ms) = (find name ms).toList ++ [v] ∨
      lib.matching name (put p v ms) = v :: (find name ms).toList := by
  have hkeep : decide (lib.fold p = lib.fold name) = true := by simp [hfold]
  have hfilter := filter_put_of_keep (fun q => decide (lib.fold q = lib.fold name)) hkeep v ms
  rw [EncodingJson.matching, hfilter, h]
  cases find name ms with
  | none => exact Or.inr rfl
  | some u =>
    have hput : put p v [(name, u)] = [(name, u), (p, v)] := by simp [put, Ne.symm hne]
    change _ ∧ (sort (put p v [(name, u)])).map (·.2) = [u, v] ∨
      (sort (put p v [(name, u)])).map (·.2) = [v, u]
    rw [hput]
    by_cases hle : nameLe name p = true
    · exact Or.inl ⟨hle, by simp [sort, hle]⟩
    · exact Or.inr (by simp [sort, hle])

variable (lib)

/-- Setting a path in what was written for a value changes nothing apart from the path but what
another spelling of a field replaces. -/
def Ty.Frames (t : Ty) : Prop :=
  ∀ c v path path' j b, t.Fits lib c → Json.Apart lib.fold path path' →
    c.opened.set v path = some j → t.decode lib t.zero j = some b →
      Stays (c.get path') ((t.encode b).get path') (t.Respells lib path path')
        (t.Creates lib path path' c)

variable {lib}

theorem frames_scalar (κ : Scalar) : (Ty.scalar κ).Frames lib := by
  intro c v path path' j b _ hapart hset hread
  obtain ⟨p, ps, p', ps', rfl, rfl⟩ := hapart.exists_cons
  obtain ⟨ms, w, -, -, rfl⟩ := Json.set_opened_cons hset
  exact absurd hread (decode_scalar_obj κ _ _ b)

theorem frames_list (t : Ty) : (Ty.list t).Frames lib := by
  intro c v path path' j b _ hapart hset hread
  obtain ⟨p, ps, p', ps', rfl, rfl⟩ := hapart.exists_cons
  obtain ⟨ms, w, -, -, rfl⟩ := Json.set_opened_cons hset
  cases hread

theorem frames_any : Ty.any.Frames lib := by
  intro c v path path' j b hfits hapart hset hread
  obtain rfl : lib.generic j = b := Option.some.inj hread
  obtain ⟨p, ps, p', ps', rfl, rfl⟩ := hapart.exists_cons
  have hget : j.get (p' :: ps') = c.get (p' :: ps') := by
    rw [Json.get_set_of_apart hset hapart, Json.get_opened]
  have hsettled : (c.get (p' :: ps')).map lib.generic = c.get (p' :: ps') := by
    have hc : c.mapNum lib.float.round = c := hfits.settled
    have hmap := Json.get_mapNum lib.float.round c (p' :: ps')
    rw [hc] at hmap
    exact hmap.symm
  refine Or.inl ?_
  change (j.mapNum lib.float.round).get (p' :: ps') = _
  rw [Json.get_mapNum, hget]
  exact hsettled

theorem frames_map {t : Ty} (hwf : t.WF lib) (ht : t.Frames lib) : (Ty.map t).Frames lib := by
  intro c v path path' j b hfits hapart hset hread
  obtain ⟨p, ps, p', ps', rfl, rfl⟩ := hapart.exists_cons
  obtain ⟨ms, w, hms, hw, rfl⟩ := Json.set_opened_cons hset
  by_cases hp : p' = p
  · subst hp
    have hrest := hapart.cons_cases.resolve_left fun hne => hne rfl
    obtain ⟨a, ha, hget⟩ := get_decode_map hread (find_put_self p' w ms)
    have hstays := ht (c.member p') v ps ps' w a (hfits.member p') hrest.2 hw ha
    obtain ⟨r, rs, q, qs, rfl, rfl⟩ := hrest.2.exists_cons
    rw [hget, ← Json.get_member]
    exact hstays.imp (fun hrespells => ⟨rfl, hrespells⟩) fun hcreates => ⟨rfl, hcreates⟩
  · obtain ⟨as, hc, hfind⟩ := hfits.elements hms
    have hfind' := find_put_of_ne hp w ms
    rw [hfind] at hfind'
    refine Or.inl ?_
    rw [hc]
    exact get_reread_map hwf hread hfind' fun _ => rfl

theorem frames_ptr {t : Ty} (ht : t.Frames lib) : (Ty.ptr t).Frames lib := by
  intro c v path path' j b hfits hapart hset hread
  obtain ⟨p, ps, p', ps', rfl, rfl⟩ := hapart.exists_cons
  rw [decode_ptr (Json.ne_null_of_set hset)] at hread
  obtain ⟨a, ha, rfl⟩ := Option.map_eq_some_iff.mp hread
  exact ht c v _ _ j a hfits.pointee hapart hset ha

/-- Two members are read one after the other. -/
theorem foldlM_pair {t : Ty} {old b : t.Val} {u v : Json}
    (h : [u, v].foldlM (fun a v => t.decode lib a v) old = some b) :
    ∃ a, t.decode lib old u = some a ∧ t.decode lib a v = some b := by
  rw [List.foldlM_cons] at h
  obtain ⟨a, ha, hb⟩ := Option.bind_eq_some_iff.mp h
  exact ⟨a, ha, by simpa using hb⟩

/-- A path that leads into a field in another spelling. It is read after or before what was
written for the field, or alone if the field was left out. -/
theorem stays_of_respelled {t : Ty} (hwf : t.WF lib) {doc : Option Json} {last : Prop}
    (hdoc : ∀ u, doc = some u → ∃ a, u = lib.generic (t.encode a)) {b : t.Val} {v w : Json}
    {path path' : List Text} (hapart : Json.Apart lib.fold path path')
    (hset : (Json.obj []).set v path = some w)
    (hread : last ∧ (doc.toList ++ [w]).foldlM (fun a v => t.decode lib a v) t.zero = some b ∨
      (w :: doc.toList).foldlM (fun a v => t.decode lib a v) t.zero = some b) :
    Stays ((doc.getD .null).get path') ((t.encode b).get path')
      (last ∧ t.Replaces lib path path') (t.Creates lib path path' (doc.getD .null)) := by
  cases doc with
  | none =>
    have halone : t.decode lib t.zero w = some b := by simpa using hread.imp_left And.right
    exact Ty.stays_made hwf hapart hset halone
  | some u =>
    obtain ⟨a, rfl⟩ := hdoc u rfl
    rcases hread with ⟨hlast, hafter⟩ | hbefore
    · obtain ⟨d, hd, hb⟩ := foldlM_pair hafter
      have hencode := (Ty.writesBack t hwf a d hd).1
      have hstays := Ty.overlays hwf d v path path' w b hapart hset hb
      rw [hencode] at hstays
      exact hstays.imp (fun hreplaces => ⟨hlast, hreplaces⟩) id
    · obtain ⟨x, hx, hb⟩ := foldlM_pair hbefore
      exact (Ty.underlays hwf a v path path' w x b hapart hset hx hb).imp False.elim id

/-- A path that leads into a field, in its own spelling or in another. -/
theorem frames_field {fs : Fields} (hwf : fs.WF lib) {t : Ty} (s : Slot fs t) (ht : t.Frames lib)
    {as bs : fs.Val} {v w : Json} {p : Text} {ps ps' : List Text}
    (hfold : lib.fold p = lib.fold s.name) (hapart : Json.Apart lib.fold ps ps')
    (hset : ((Json.obj (mapValues lib.generic (fs.encode as))).member p).opened.set v ps = some w)
    (hread : fs.decode lib fs.zero (put p w (mapValues lib.generic (fs.encode as))) = some bs) :
    Stays (((Json.obj (mapValues lib.generic (fs.encode as))).member s.name).get ps')
      ((t.encode (s.get bs)).get ps') (fs.Respells lib p s.name ps ps')
      (t.Creates lib ps ps' ((Json.obj (mapValues lib.generic (fs.encode as))).member s.name)) := by
  have hfits : (Ty.struct fs).Fits lib (.obj (mapValues lib.generic (fs.encode as))) :=
    Or.inr ⟨as, (generic_struct as).symm⟩
  have hsingle := single_mapValues (single_encode hwf as s.name_mem) lib.generic
  have hslot := s.decode_get hread
  rw [s.get_zero] at hslot
  rw [s.respells_iff hwf]
  by_cases hp : p = s.name
  · subst hp
    rw [matching_of_single (single_put_self hsingle w), find_put_self] at hslot
    have hfield : t.decode lib t.zero w = some (s.get bs) := by simpa using hslot
    rw [if_pos rfl]
    exact ht _ v ps ps' w _ (hfits.field hwf s) hapart hset hfield
  · have hnone := find_eq_none_of_single hsingle hfold hp
    have hempty : (Json.obj []).set v ps = some w := by
      rw [Json.member_obj, hnone] at hset
      exact hset
    have hdoc : ∀ u, find s.name (mapValues lib.generic (fs.encode as)) = some u →
        ∃ a, u = lib.generic (t.encode a) := by
      intro u hu
      rw [find_mapValues, s.find_encode hwf] at hu
      split at hu
      · cases hu
      · exact ⟨_, (Option.some.inj hu).symm⟩
    rw [if_neg hp, Json.member_obj]
    apply stays_of_respelled (s.wf hwf) hdoc hapart hempty
    rcases matching_put_of_fold hsingle hfold hp w with ⟨hle, hafter⟩ | hbefore
    · exact Or.inl ⟨hle, by rwa [hafter] at hslot⟩
    · exact Or.inr (by rwa [hbefore] at hslot)

theorem frames_struct {fs : Fields} (hwf : fs.WF lib) (hfs : ∀ t, Slot fs t → t.Frames lib) :
    (Ty.struct fs).Frames lib := by
  intro c v path path' j (bs : fs.Val) hfits hapart hset hread
  obtain ⟨p, ps, p', ps', rfl, rfl⟩ := hapart.exists_cons
  obtain ⟨ms, w, hms, hw, rfl⟩ := Json.set_opened_cons hset
  have hfields : fs.decode lib fs.zero (put p w ms) = some bs := hread
  rcases hfits with rfl | ⟨as, rfl⟩
  · exact Or.inr (Or.inr ⟨rfl, Or.inl rfl⟩)
  · rw [generic_struct as] at hms hw ⊢
    obtain rfl := Json.obj.inj hms
    apply stays_struct hwf hapart
    · intro hp'
      rw [find_mapValues, find_encode_of_not_mem as hp', Option.map_none]
    · intro t s hfold
      have hsingle := single_mapValues (single_encode hwf as s.name_mem) lib.generic
      have hne : s.name ≠ p := fun heq => hfold (by rw [heq])
      have hslot := s.decode_get hfields
      rw [matching_of_single (single_put_of_ne hsingle hfold w), find_put_of_ne hne,
        s.get_zero] at hslot
      exact s.find_reread hwf hslot
    · rintro t s rfl hfold hrest
      exact (frames_field hwf s (hfs t s) hfold hrest hw hfields).imp
        (fun hrespells => ⟨hfold, hrespells⟩) id

/-- What setting a path changes apart from it, whatever the type is. -/
theorem Ty.frames {t : Ty} (hwf : t.WF lib) : t.Frames lib :=
  hwf.induction (P := fun t => t.Frames lib) frames_scalar frames_any frames_list
    (fun _ => frames_map) (fun _ _ _ => frames_ptr) (fun _ => frames_struct)

end Go
