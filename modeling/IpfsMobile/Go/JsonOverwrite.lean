import IpfsMobile.Go.JsonOrder

/-!
# Paths that are set again

A path is set in what a typed value was written as, the result is read into the type, and then
the same path is set again. The second value is taken exactly if it would have been taken at
once, and the result is written the same, down to the order of members. A path that is set to
what is there already changes nothing in the generic value.
-/

namespace Go

open Members

namespace Members

variable {α β : Type}

/-- The second value of a name replaces the first. -/
theorem put_put (p : Text) (a b : α) (ms : List (Text × α)) :
    put p b (put p a ms) = put p b ms := by
  induction ms with
  | nil => simp [put]
  | cons m ms ih =>
    obtain ⟨q, c⟩ := m
    by_cases hq : q = p
    · simp [put, hq]
    · simp [put, hq, ih]

/-- With another value only the member of the name is another one. -/
theorem mem_put {p : Text} {a : α} (b : α) {ms : List (Text × α)} {m : Text × α}
    (h : m ∈ put p a ms) : m = (p, a) ∨ m ∈ put p b ms := by
  induction ms with
  | nil => exact Or.inl (List.mem_singleton.mp h)
  | cons n ms ih =>
    obtain ⟨q, c⟩ := n
    rw [put] at h ⊢
    by_cases hq : q = p
    · rw [if_pos hq] at h ⊢
      rcases List.mem_cons.mp h with hm | hmem
      · exact Or.inl hm
      · exact Or.inr (List.mem_cons_of_mem _ hmem)
    · rw [if_neg hq] at h ⊢
      rcases List.mem_cons.mp h with rfl | hmem
      · exact Or.inr List.mem_cons_self
      · exact (ih hmem).imp_right (List.mem_cons_of_mem _)

/-- A name that has the value already. -/
theorem put_eq_self {p : Text} {a : α} {ms : List (Text × α)} (h : find p ms = some a) :
    put p a ms = ms := by
  induction ms with
  | nil => cases h
  | cons m ms ih =>
    obtain ⟨q, c⟩ := m
    rw [find_cons] at h
    by_cases hq : q = p
    · rw [if_pos hq] at h
      obtain rfl := Option.some.inj h
      rw [put, if_pos hq, hq]
    · rw [if_neg hq] at h
      rw [put, if_neg hq, ih h]

end Members

namespace Json

/-- The second value that a path is set to replaces the first. -/
theorem set_set {j j' v v' : Json} {path : List Text} (h : j.set v path = some j') :
    j'.set v' path = j.set v' path := by
  induction path generalizing j j' with
  | nil => rfl
  | cons p ps ih =>
    obtain ⟨ms, w, rfl, hw, rfl⟩ := set_cons_eq_some h
    have hrest : (cursor p (put p w ms)).set v' ps = (cursor p ms).set v' ps := by
      cases ps with
      | nil => rfl
      | cons q qs =>
        rw [cursor_put_self (ne_null_of_set hw)]
        exact ih hw
    rw [set, set, hrest]
    cases (cursor p ms).set v' ps with
    | none => rfl
    | some u => exact congrArg (fun ns => some (obj ns)) (put_put p w u ms)

/-- A path that has the value already. -/
theorem set_eq_self {j v : Json} {path : List Text} (h : j.get path = some v) :
    j.set v path = some j := by
  induction path generalizing j with
  | nil => exact congrArg some (Option.some.inj h).symm
  | cons p ps ih =>
    cases j with
    | obj ms =>
      rw [get_obj_cons] at h
      obtain ⟨w, hfind, hget⟩ := Option.bind_eq_some_iff.mp h
      have hrest : (cursor p ms).set v ps = some w := by
        cases ps with
        | nil => exact congrArg some (Option.some.inj hget).symm
        | cons q qs =>
          have hcursor : cursor p ms = w := by
            rw [cursor, hfind]
            cases w <;> first | rfl | cases hget
          rw [hcursor]
          exact ih hget
      rw [set, hrest]
      exact congrArg (fun ns => some (obj ns)) (put_eq_self hfind)
    | null | bool b | num q | str s | arr vs => cases h

/-- Every path can be set in nothing. -/
theorem exists_set_empty (v : Json) (path : List Text) : ∃ j, (obj []).set v path = some j := by
  induction path with
  | nil => exact ⟨v, rfl⟩
  | cons p ps ih =>
    obtain ⟨w, hw⟩ := ih
    exact ⟨obj [(p, w)], congrArg (Option.map fun u => obj [(p, u)]) hw⟩

/-- A path is set in a member, or in nothing if there is none. -/
theorem cursor_eq_opened (p : Text) (ms : List (Text × Json)) :
    cursor p ms = ((obj ms).member p).opened := by
  rw [member_obj, cursor]
  cases find p ms with
  | none => rfl
  | some u => cases u <;> rfl

/-- Setting a path in a member sets it. -/
theorem set_of_member {c v w : Json} {ms : List (Text × Json)} (hms : c.opened = obj ms) {p : Text}
    {ps : List Text} (hw : (c.member p).opened.set v ps = some w) :
    c.opened.set v (p :: ps) = some (obj (put p w ms)) := by
  have hcursor : cursor p ms = (c.member p).opened := by
    rw [cursor_eq_opened, ← hms, member_opened]
  rw [hms, set, hcursor, hw]
  rfl

end Json

variable {lib : EncodingJson}

/-- A map that is read with one value put in it is written with that element in its place, if the
others are written back. -/
theorem mapValues_of_mapM_put {t : Ty} {p : Text} {w : Json} {ms : List (Text × Json)}
    (hback : ∀ m ∈ ms, ∀ a, t.decode lib t.zero m.2 = some a → t.encode a = m.2)
    {as : List (Text × t.Val)}
    (h : ((put p w ms).mapM fun m => (t.decode lib t.zero m.2).map fun a => (m.1, a)) = some as) :
    ∃ e, t.decode lib t.zero w = some e ∧ mapValues t.encode as = put p (t.encode e) ms := by
  induction ms generalizing as with
  | nil =>
    obtain ⟨n, ns, hn, hns, rfl⟩ := exists_of_mapM_cons h
    obtain ⟨e, he, rfl⟩ := Option.map_eq_some_iff.mp hn
    obtain rfl : [] = ns := Option.some.inj hns
    exact ⟨e, he, rfl⟩
  | cons m ms ih =>
    obtain ⟨q, c⟩ := m
    have hback' : ∀ m ∈ ms, ∀ a, t.decode lib t.zero m.2 = some a → t.encode a = m.2 :=
      fun m hm => hback m (List.mem_cons_of_mem _ hm)
    rw [put] at h
    by_cases hq : q = p
    · rw [if_pos hq] at h
      obtain ⟨n, ns, hn, hns, rfl⟩ := exists_of_mapM_cons h
      obtain ⟨e, he, rfl⟩ := Option.map_eq_some_iff.mp hn
      have hrest : mapValues t.encode ns = ms := by
        refine map_eq_of_mapM (fun m hm n hn => ?_) hns
        obtain ⟨a, ha, rfl⟩ := Option.map_eq_some_iff.mp hn
        exact congrArg (Prod.mk m.1) (hback' m hm a ha)
      refine ⟨e, he, ?_⟩
      rw [mapValues_cons, hrest, put, if_pos hq]
    · rw [if_neg hq] at h
      obtain ⟨n, ns, hn, hns, rfl⟩ := exists_of_mapM_cons h
      obtain ⟨a, ha, rfl⟩ := Option.map_eq_some_iff.mp hn
      obtain ⟨e, he, hrest⟩ := ih hback' hns
      refine ⟨e, he, ?_⟩
      rw [mapValues_cons, hrest, hback (q, c) (by simp) a ha, put, if_neg hq]

/-- What was written for the elements of a map is written for what is read from it. -/
theorem Ty.Fits.writes_back {t : Ty} (hwf : t.WF lib) {c : Json} (h : (Ty.map t).Fits lib c)
    {ms : List (Text × Json)} (hms : c.opened = .obj ms) :
    ∀ m ∈ ms, ∀ a, t.decode lib t.zero m.2 = some a → t.encode a = m.2 := by
  rcases h with rfl | ⟨as, rfl⟩
  · obtain rfl := Json.obj.inj hms
    simp
  · cases as with
    | none =>
      obtain rfl := Json.obj.inj hms
      simp
    | some as =>
      change (lib.generic (.obj (mapValues t.encode as))).opened = .obj ms at hms
      rw [generic_obj] at hms
      obtain rfl := Json.obj.inj hms
      intro m hm a ha
      obtain ⟨n, hn, rfl⟩ := List.mem_map.mp hm
      obtain ⟨x, -, rfl⟩ := List.mem_map.mp hn
      exact (Ty.writesBack t hwf x.2 a ha).1

/-- A step in a map leads to the members before with one of them set. -/
theorem encode_step_map {t : Ty} (hwf : t.WF lib) {c v : Json} {p : Text} {ps : List Text}
    {b : (Ty.map t).Val} (h : (Ty.map t).Step lib c (p :: ps) v b)
    (hfits : (Ty.map t).Fits lib c) :
    ∃ ms e, c.opened = .obj ms ∧ t.Step lib (c.member p) ps v e ∧
      (Ty.map t).encode b = .obj (put p (t.encode e) ms) := by
  obtain ⟨j, hset, hread⟩ := h
  obtain ⟨ms, w, hms, hw, rfl⟩ := Json.set_opened_cons hset
  obtain ⟨new, hnew, rfl⟩ := Option.map_eq_some_iff.mp hread
  obtain ⟨e, he, hmap⟩ := mapValues_of_mapM_put (hfits.writes_back hwf hms) hnew
  refine ⟨ms, e, hms, ⟨w, hw, he⟩, ?_⟩
  change Json.obj (mapValues t.encode (new ++ [])) = _
  rw [List.append_nil, hmap]

/-- Each result is there if the list of them is. -/
theorem isSome_of_mapM {α β : Type} {f : α → Option β} {xs : List α} {ys : List β}
    (h : xs.mapM f = some ys) {x : α} (hx : x ∈ xs) : (f x).isSome := by
  induction xs generalizing ys with
  | nil => cases hx
  | cons z xs ih =>
    obtain ⟨y, ys, hy, hys, rfl⟩ := exists_of_mapM_cons h
    rcases List.mem_cons.mp hx with rfl | hmem
    · rw [hy]
      rfl
    · exact ih hys hmem

/-- A step in a map can be taken if one in the element can, and the others can be read. -/
theorem exists_step_map {t : Ty} {c v u : Json} {p : Text} {ps : List Text}
    {ms : List (Text × Json)} (hms : c.opened = .obj ms)
    {as : List (Text × t.Val)} (hothers : ((put p u ms).mapM fun m =>
      (t.decode lib t.zero m.2).map fun a => (m.1, a)) = some as)
    (h : ∃ e, t.Step lib (c.member p) ps v e) : ∃ b, (Ty.map t).Step lib c (p :: ps) v b := by
  obtain ⟨e, w, hw, he⟩ := h
  have hall : ((put p w ms).mapM fun m =>
      (t.decode lib t.zero m.2).map fun a => (m.1, a)).isSome := by
    refine isSome_mapM fun m hm => ?_
    rcases mem_put u hm with rfl | hmem
    · rw [Option.isSome_map, he]
      rfl
    · exact isSome_of_mapM hothers hmem
  obtain ⟨new, hnew⟩ := Option.isSome_iff_exists.mp hall
  exact ⟨some (new ++ []), .obj (put p w ms), Json.set_of_member hms hw,
    Option.map_eq_some_iff.mpr ⟨new, hnew, by simp [Ty.zero]⟩⟩

/-- A struct is read if each of its fields is. -/
theorem exists_decode : {fs : Fields} → {ms : List (Text × Json)} →
    (∀ t (s : Slot fs t), ∃ a,
      (lib.matching s.name ms).foldlM (fun a v => t.decode lib a v) t.zero = some a) →
    ∃ bs, fs.decode lib fs.zero ms = some bs
  | .nil, _, _ => ⟨(), rfl⟩
  | .cons name omitEmpty t rest, ms, h => by
    have hfirst : ∃ a,
        (lib.matching name ms).foldlM (fun a v => t.decode lib a v) t.zero = some a :=
      h t Slot.here
    obtain ⟨a, ha⟩ := hfirst
    have hothers : ∃ as, rest.decode lib rest.zero ms = some as :=
      exists_decode fun t' s => h t' s.there
    obtain ⟨as, has⟩ := hothers
    refine ⟨(a, as), ?_⟩
    change (do
      let a ← (lib.matching name ms).foldlM (fun a v => t.decode lib a v) t.zero
      let as ← rest.decode lib rest.zero ms
      return (a, as) : Option (t.Val × rest.Val)) = some (a, as)
    rw [ha, has]
    rfl

/-- What a struct was written for has members of the names of its fields only. -/
theorem Ty.Fits.find_eq_none {fs : Fields} {c : Json} (h : (Ty.struct fs).Fits lib c) {p : Text}
    (hp : p ∉ fs.names) {ms : List (Text × Json)} (hms : c.opened = .obj ms) :
    find p ms = none := by
  rcases h with rfl | ⟨as, rfl⟩
  · obtain rfl := Json.obj.inj hms
    rfl
  · change (lib.generic (.obj (fs.encode as))).opened = .obj ms at hms
    rw [generic_obj] at hms
    obtain rfl := Json.obj.inj hms
    rw [find_mapValues, find_encode_of_not_mem as hp]
    rfl

/-- A step in a struct can be taken if one in the field of the name can, if there is one, and the
others can be read. -/
theorem exists_step_struct {fs : Fields} (hwf : fs.WF lib) {c v : Json} {p : Text} {ps : List Text}
    (hfits : (Ty.struct fs).Fits lib c) (hexact : fs.Exact lib p ps) {ms : List (Text × Json)}
    (hms : c.opened = .obj ms)
    (hin : ∀ t (s : Slot fs t), s.name = p → ∃ e, t.Step lib (c.member s.name) ps v e)
    (hout : ∀ t (s : Slot fs t), s.name ≠ p → ∃ a,
      (find s.name ms).toList.foldlM (fun a v => t.decode lib a v) t.zero = some a) :
    ∃ bs, (Ty.struct fs).Step lib c (p :: ps) v bs := by
  have hset : ∃ w, (c.member p).opened.set v ps = some w := by
    by_cases hp : p ∈ fs.names
    · obtain ⟨t, s, rfl⟩ := Slot.exists_of_mem hp
      obtain ⟨e, w, hw, -⟩ := hin t s rfl
      exact ⟨w, hw⟩
    · have hmember : c.member p = .null := by
        rw [← Json.member_opened, hms, Json.member_obj, hfits.find_eq_none hp hms]
        rfl
      rw [hmember]
      exact Json.exists_set_empty v ps
  obtain ⟨w, hw⟩ := hset
  have hread : ∃ bs, fs.decode lib fs.zero (put p w ms) = some bs := by
    refine exists_decode fun t s => ?_
    have hsingle := hfits.single hwf s.name_mem hms
    by_cases hp : s.name = p
    · subst hp
      obtain ⟨e, w', hw', he⟩ := hin t s rfl
      obtain rfl := Option.some.inj (hw'.symm.trans hw)
      rw [matching_of_single (single_put_self hsingle w'), find_put_self]
      exact ⟨e, by simpa using he⟩
    · have hfold : lib.fold p ≠ lib.fold s.name := fun hfold =>
        hp (s.exact hexact hfold.symm).1
      rw [matching_of_single (single_put_of_ne hsingle hfold w), find_put_of_ne hp]
      exact hout t s hp
  obtain ⟨bs, hbs⟩ := hread
  exact ⟨bs, .obj (put p w ms), Json.set_of_member hms hw, hbs⟩

theorem Slot.readable {fs : Fields} {t : Ty} (s : Slot fs t) (h : fs.Readable lib) :
    t.Readable lib := by
  induction s with
  | here => exact h.1
  | there s ih => exact ih h.2

/-- A field is read from what was written for it. -/
theorem Slot.exists_reread {fs : Fields} (hwf : fs.WF lib) (hreadable : fs.Readable lib) {t : Ty}
    (s : Slot fs t) {as : fs.Val} (h : lib.Settled (.obj (fs.encode as))) : ∃ a,
      (find s.name (fs.encode as)).toList.foldlM (fun a v => t.decode lib a v) t.zero =
        some a := by
  have hmember : find s.name (mapValues lib.generic (fs.encode as)) =
      find s.name (fs.encode as) := by
    have hobj : lib.generic (.obj (fs.encode as)) = .obj (fs.encode as) := h
    rw [generic_obj, Json.obj.injEq] at hobj
    rw [hobj]
  rw [find_mapValues, s.find_encode hwf] at hmember
  rw [s.find_encode hwf]
  split
  · exact ⟨t.zero, rfl⟩
  · rename_i hleft
    rw [if_neg hleft] at hmember
    have hsettled : lib.Settled (t.encode (s.get as)) := Option.some.inj hmember
    have hread := Ty.readsBack t (s.wf hwf) (s.readable hreadable) _ hsettled
    obtain ⟨a, ha⟩ := Option.isSome_iff_exists.mp hread
    exact ⟨a, by simpa using ha⟩

variable (lib)

/-- A path is set in what a value was written as, and is to be set again. -/
structure Ty.Begun (t : Ty) (c : Json) (path : List Text) (v v' : Json) (a : t.Val) : Prop where
  fits : t.Fits lib c
  settled : lib.Settled v ∧ lib.Settled v'
  exact : t.Exact lib path
  first : t.Step lib c path v a

/-- The second value replaces the first. -/
def Ty.Overwrites (t : Ty) : Prop :=
  ∀ c path v v' a b b', t.Begun lib c path v v' a → t.Step lib (t.encode a) path v' b →
    t.Step lib c path v' b' → t.encode b = t.encode b'

/-- The second value is taken exactly if it would have been taken at once. -/
def Ty.Retakes (t : Ty) : Prop :=
  ∀ c path v v' a, t.Begun lib c path v v' a →
    ((∃ b, t.Step lib (t.encode a) path v' b) ↔ ∃ b, t.Step lib c path v' b)

variable {lib}

/-- What the value in the middle is written as. -/
theorem Ty.Begun.fits_middle {t : Ty} {c v v' : Json} {path : List Text} {a : t.Val}
    (h : t.Begun lib c path v v' a) : t.Fits lib (t.encode a) :=
  h.first.fits h.fits h.settled.1

/-- It remains to look at the paths that lead somewhere. -/
theorem Ty.Overwrites.of_cons {t : Ty} (h : ∀ c p ps v v' a b b',
    t.Begun lib c (p :: ps) v v' a → t.Step lib (t.encode a) (p :: ps) v' b →
      t.Step lib c (p :: ps) v' b' → t.encode b = t.encode b') : t.Overwrites lib := by
  intro c path v v' a b b' hbegun hb hb'
  cases path with
  | nil =>
    have hsame : b = b' := hb.unique hb'
    exact congrArg t.encode hsame
  | cons p ps => exact h c p ps v v' a b b' hbegun hb hb'

theorem Ty.Retakes.of_cons {t : Ty} (h : ∀ c p ps v v' a, t.Begun lib c (p :: ps) v v' a →
    ((∃ b, t.Step lib (t.encode a) (p :: ps) v' b) ↔ ∃ b, t.Step lib c (p :: ps) v' b)) :
    t.Retakes lib := by
  intro c path v v' a hbegun
  cases path with
  | nil => exact Iff.rfl
  | cons p ps => exact h c p ps v v' a hbegun

theorem overwrites_scalar (κ : Scalar) : (Ty.scalar κ).Overwrites lib :=
  .of_cons fun _ _ _ _ _ _ _ _ h _ _ => absurd h.first not_step_scalar

theorem overwrites_list (t : Ty) : (Ty.list t).Overwrites lib :=
  .of_cons fun _ _ _ _ _ _ _ _ h _ _ => absurd h.first not_step_list

theorem overwrites_any : Ty.any.Overwrites lib := by
  refine .of_cons fun c p ps v v' (a : Json) (b : Json) (b' : Json) h hb hb' => ?_
  obtain ⟨ha, hopened⟩ := step_any h.first h.fits h.settled.1
  obtain ⟨hb, -⟩ := step_any hb h.fits_middle h.settled.2
  obtain ⟨hb', -⟩ := step_any hb' h.fits h.settled.2
  change a.opened.set v' (p :: ps) = some b at hb
  rw [hopened, Json.set_set ha, hb'] at hb
  exact (Option.some.inj hb).symm

theorem overwrites_ptr {t : Ty} (ht : t.Overwrites lib) : (Ty.ptr t).Overwrites lib := by
  refine .of_cons fun c p ps v v' a b b' h hb hb' => ?_
  obtain ⟨e, rfl, he⟩ := step_ptr h.first
  obtain ⟨e₁, rfl, he₁⟩ := step_ptr hb
  obtain ⟨e₂, rfl, he₂⟩ := step_ptr hb'
  exact ht c _ v v' e e₁ e₂ ⟨h.fits.pointee, h.settled, h.exact, he⟩ he₁ he₂

theorem overwrites_map {t : Ty} (hwf : t.WF lib) (ht : t.Overwrites lib) :
    (Ty.map t).Overwrites lib := by
  refine .of_cons fun c p ps v v' a b b' h hb hb' => ?_
  obtain ⟨ms, e, hms, he, ha⟩ := encode_step_map hwf h.first h.fits
  obtain ⟨ms₁, e₁, hms₁, he₁, hb⟩ := encode_step_map hwf hb h.fits_middle
  obtain ⟨ms₂, e₂, hms₂, he₂, hb'⟩ := encode_step_map hwf hb' h.fits
  rw [ha] at hms₁ he₁
  rw [Json.member_obj, find_put_self] at he₁
  obtain rfl : put p (t.encode e) ms = ms₁ := Json.obj.inj hms₁
  obtain rfl : ms = ms₂ := Json.obj.inj (hms.symm.trans hms₂)
  have hsame : t.encode e₁ = t.encode e₂ :=
    ht (c.member p) ps v v' e e₁ e₂ ⟨h.fits.member p, h.settled, h.exact, he⟩ he₁ he₂
  rw [hb, hb', put_put, hsame]

theorem overwrites_struct {fs : Fields} (hwf : fs.WF lib)
    (hfs : ∀ t, Slot fs t → t.Overwrites lib) : (Ty.struct fs).Overwrites lib := by
  refine .of_cons fun c p ps v v' (as : fs.Val) (bs : fs.Val) (bs' : fs.Val) h hbs hbs' => ?_
  refine congrArg Json.obj (encode_congr hwf fun t s => ?_)
  by_cases hp : s.name = p
  · have ha := (step_struct hwf h.first h.fits h.exact s).1 hp
    have hb := (step_struct hwf hbs h.fits_middle h.exact s).1 hp
    have hb' := (step_struct hwf hbs' h.fits h.exact s).1 hp
    cases ps with
    | nil =>
      obtain hget : s.get bs = s.get bs' := hb.unique hb'
      rw [s.find_encode hwf, s.find_encode hwf, hget]
    | cons q qs =>
      -- The field that the first value was set in is written, and is set again.
      have hwf' := s.wf hwf
      rw [s.member_encode_of_not_isEmpty hwf (ha.isEmpty hwf')] at hb
      have hexact' := (s.exact h.exact (congrArg lib.fold hp)).2
      have hsame : t.encode (s.get bs) = t.encode (s.get bs') :=
        hfs t s (c.member s.name) (q :: qs) v v' _ _ _
          ⟨h.fits.field hwf s, h.settled, hexact', ha⟩ hb hb'
      rw [s.find_encode_of_not_isEmpty hwf (hb.isEmpty hwf'),
        s.find_encode_of_not_isEmpty hwf (hb'.isEmpty hwf'), hsame]
  · rw [((step_struct hwf hbs h.fits_middle h.exact s).2 hp).2 _ rfl]
    exact find_of_steps hwf h.fits h.first h.exact hbs' h.exact s hp hp

/-- A path that is set again has only the second value, in every type. -/
theorem Ty.overwrites {t : Ty} (hwf : t.WF lib) : t.Overwrites lib :=
  hwf.induction (P := fun t => t.Overwrites lib) overwrites_scalar overwrites_any overwrites_list
    (fun _ => overwrites_map) (fun _ _ _ => overwrites_ptr) (fun _ => overwrites_struct)

theorem retakes_any : Ty.any.Retakes lib := by
  refine .of_cons fun c p ps v v' (a : Json) h => ?_
  obtain ⟨ha, hopened⟩ := step_any h.first h.fits h.settled.1
  have hset : Json.set (Json.opened a) v' (p :: ps) = c.opened.set v' (p :: ps) := by
    rw [hopened, Json.set_set ha]
  change (∃ b, ∃ j, Json.set (Json.opened a) v' (p :: ps) = some j ∧ _) ↔ _
  rw [hset]
  rfl

theorem retakes_ptr {t : Ty} (ht : t.Retakes lib) : (Ty.ptr t).Retakes lib := by
  refine .of_cons fun c p ps v v' a h => ?_
  obtain ⟨e, rfl, he⟩ := step_ptr h.first
  have hstep : ∀ d : Json, (∃ b, (Ty.ptr t).Step lib d (p :: ps) v' b) ↔
      ∃ b, t.Step lib d (p :: ps) v' b := by
    intro d
    constructor
    · rintro ⟨b, hb⟩
      obtain ⟨e', -, he'⟩ := step_ptr hb
      exact ⟨e', he'⟩
    · rintro ⟨e', j, hset, he'⟩
      refine ⟨some e', j, hset, ?_⟩
      rw [decode_ptr (Json.ne_null_of_set hset)]
      exact congrArg (Option.map some) he'
  rw [hstep, hstep]
  exact ht c _ v v' e ⟨h.fits.pointee, h.settled, h.exact, he⟩

theorem retakes_map {t : Ty} (hwf : t.WF lib) (ht : t.Retakes lib) : (Ty.map t).Retakes lib := by
  refine .of_cons fun c p ps v v' a h => ?_
  obtain ⟨ms, e, hms, he, ha⟩ := encode_step_map hwf h.first h.fits
  have hmember : ((Ty.map t).encode a).member p = t.encode e := by
    rw [ha, Json.member_obj, find_put_self]
    rfl
  -- The other elements were read in the first step.
  obtain ⟨j, hset, hread⟩ := h.first
  obtain ⟨ms', w, hms', -, rfl⟩ := Json.set_opened_cons hset
  obtain rfl : ms = ms' := Json.obj.inj (hms.symm.trans hms')
  obtain ⟨new, hnew, -⟩ := Option.map_eq_some_iff.mp hread
  have hrest := ht (c.member p) ps v v' e ⟨h.fits.member p, h.settled, h.exact, he⟩
  constructor
  · rintro ⟨b, hb⟩
    obtain ⟨⟨e', he', -⟩, -⟩ := step_map hwf hb h.fits_middle
    rw [hmember] at he'
    exact exists_step_map hms hnew (hrest.mp ⟨e', he'⟩)
  · rintro ⟨b, hb⟩
    obtain ⟨⟨e', he', -⟩, -⟩ := step_map hwf hb h.fits
    have hopened : ((Ty.map t).encode a).opened = .obj (put p (t.encode e) ms) := by
      rw [ha]
      rfl
    rw [← put_put p (t.encode e) w ms] at hnew
    refine exists_step_map hopened hnew ?_
    rw [hmember]
    exact hrest.mpr ⟨e', he'⟩

theorem retakes_struct {fs : Fields} (hwf : fs.WF lib) (hreadable : fs.Readable lib)
    (hfs : ∀ t, Slot fs t → t.Retakes lib) : (Ty.struct fs).Retakes lib := by
  refine .of_cons fun c p ps v v' (as : fs.Val) h => ?_
  have hfield : ∀ t (s : Slot fs t), s.name = p →
      ((∃ e, t.Step lib (((Ty.struct fs).encode as).member s.name) ps v' e) ↔
        ∃ e, t.Step lib (c.member s.name) ps v' e) := by
    intro t s hp
    have ha := (step_struct hwf h.first h.fits h.exact s).1 hp
    cases ps with
    | nil => exact Iff.rfl
    | cons q qs =>
      rw [s.member_encode_of_not_isEmpty hwf (ha.isEmpty (s.wf hwf))]
      exact hfs t s (c.member s.name) (q :: qs) v v' _ ⟨h.fits.field hwf s, h.settled,
        (s.exact h.exact (congrArg lib.fold hp)).2, ha⟩
  constructor
  · rintro ⟨bs, hbs⟩
    obtain ⟨j, hset, -⟩ := h.first
    obtain ⟨ms, w, hms, -, rfl⟩ := Json.set_opened_cons hset
    refine exists_step_struct hwf h.fits h.exact hms (fun t s hp => ?_) fun t s hp => ?_
    · exact (hfield t s hp).mp ⟨_, (step_struct hwf hbs h.fits_middle h.exact s).1 hp⟩
    · exact ⟨_, reread_of_step hwf h.first h.fits h.exact hms s hp⟩
  · rintro ⟨bs, hbs⟩
    refine exists_step_struct hwf h.fits_middle h.exact rfl (fun t s hp => ?_) fun t s hp => ?_
    · exact (hfield t s hp).mpr ⟨_, (step_struct hwf hbs h.fits h.exact s).1 hp⟩
    · exact s.exists_reread hwf hreadable (h.first.settled h.fits h.settled.1)

/-- A path that is set again takes the second value as it would have at once, in every type that
reads what it writes. -/
theorem Ty.retakes {t : Ty} (hwf : t.WF lib) : t.Readable lib → t.Retakes lib :=
  hwf.induction (P := fun t => t.Readable lib → t.Retakes lib)
    (fun _ _ => .of_cons fun _ _ _ _ _ _ h => absurd h.first not_step_scalar)
    (fun _ => retakes_any)
    (fun _ _ => .of_cons fun _ _ _ _ _ _ h => absurd h.first not_step_list)
    (fun _ hwf ht hreadable => retakes_map hwf (ht hreadable))
    (fun _ _ _ ht hreadable => retakes_ptr (ht hreadable))
    (fun _ hwf hfs hreadable =>
      retakes_struct hwf hreadable fun t s => hfs t s (s.readable hreadable))

end Go
