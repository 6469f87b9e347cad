import IpfsMobile.Go.JsonOverwrite

/-!
# Paths that can both be set

Of two paths that are apart, each can be set in what a typed value was written as. Then the one
can still be set after the other, in the type: neither takes away what the other needs on its
way, and what is made on the way of one is not in the way of the other. A path that is set in
two values that read alike leads to values that read alike.
-/

namespace Go

open Members

namespace Members

variable {α : Type}

theorem mem_of_mem_put {p : Text} {a : α} {ms : List (Text × α)} {m : Text × α}
    (h : m ∈ put p a ms) : m = (p, a) ∨ m ∈ ms := by
  induction ms with
  | nil => exact Or.inl (List.mem_singleton.mp h)
  | cons n ms ih =>
    obtain ⟨q, b⟩ := n
    rw [put] at h
    by_cases hq : q = p
    · rw [if_pos hq] at h
      exact (List.mem_cons.mp h).imp_right (List.mem_cons_of_mem _)
    · rw [if_neg hq] at h
      rcases List.mem_cons.mp h with rfl | hmem
      · exact Or.inr List.mem_cons_self
      · exact (ih hmem).imp_right (List.mem_cons_of_mem _)

end Members

/-- Of two paths that are apart, the one can be set after the other if it can be set at all. -/
theorem Json.exists_set_of_apart {fold : Text → Text} {j j₁ j₂ v v' : Json} {path path' : List Text}
    (hapart : Json.Apart fold path path') (h₁ : j.set v path = some j₁)
    (h₂ : j.set v' path' = some j₂) : ∃ j₁₂, j₁.set v' path' = some j₁₂ := by
  induction path generalizing j j₁ j₂ path' with
  | nil => exact absurd hapart (Json.not_apart_nil_left path')
  | cons p ps ih =>
    cases path' with
    | nil => exact absurd hapart (Json.not_apart_nil_right _)
    | cons q qs =>
      obtain ⟨ms, w₁, rfl, hw₁, rfl⟩ := Json.set_cons_eq_some h₁
      obtain ⟨ms', w₂, hms', hw₂, rfl⟩ := Json.set_cons_eq_some h₂
      obtain rfl := Json.obj.inj hms'
      have hrest : ∃ w, (Json.cursor q (put p w₁ ms)).set v' qs = some w := by
        by_cases hq : q = p
        · subst hq
          have hrest := (hapart.cons_cases.resolve_left fun hne => hne rfl).2
          obtain ⟨p', ps', q', qs', rfl, rfl⟩ := hrest.exists_cons
          rw [Json.cursor_put_self (Json.ne_null_of_set hw₁)]
          exact ih hrest hw₁ hw₂
        · rw [Json.cursor_put_of_ne hq]
          exact ⟨w₂, hw₂⟩
      obtain ⟨w, hw⟩ := hrest
      rw [Json.set, hw]
      exact ⟨_, rfl⟩

variable (lib : EncodingJson)

/-- What can be set in nothing can be set in what a zero value is written as. -/
def Ty.Starts (t : Ty) : Prop :=
  ∀ path v a, t.Exact lib path → t.Step lib .null path v a →
    ∃ b, t.Step lib (t.encode t.zero) path v b

/-- Two paths that are apart, each spelled as the type does, can be set. -/
structure Ty.Fork (t : Ty) (c : Json) (path path' : List Text) (v v' : Json) (a b : t.Val) :
    Prop where
  fits : t.Fits lib c
  settled : lib.Settled v ∧ lib.Settled v'
  exact : t.Exact lib path ∧ t.Exact lib path'
  apart : Json.Apart lib.fold path path'
  left : t.Step lib c path v a
  right : t.Step lib c path' v' b

/-- After the one path the other can still be set. -/
def Ty.Joins (t : Ty) : Prop :=
  ∀ c path path' v v' a b, t.Fork lib c path path' v v' a b →
    ∃ ab, t.Step lib (t.encode a) path' v' ab

variable {lib}

theorem starts_of_null {t : Ty} (hnull : t.encode t.zero = .null) : t.Starts lib := by
  intro path v a _ ha
  rw [hnull]
  exact ⟨a, ha⟩

theorem starts_scalar (κ : Scalar) : (Ty.scalar κ).Starts lib := by
  intro path v a _ ha
  cases path with
  | nil => exact ⟨a, ha⟩
  | cons p ps => exact absurd ha not_step_scalar

theorem starts_struct {fs : Fields} (hwf : fs.WF lib) (hreadable : fs.Readable lib)
    (hfs : ∀ t, Slot fs t → t.Starts lib) : (Ty.struct fs).Starts lib := by
  intro path v (as : fs.Val) hexact ha
  cases path with
  | nil => exact ⟨as, ha⟩
  | cons p ps =>
    have hzero : (Ty.struct fs).Fits lib (.obj (fs.encode fs.zero)) :=
      Or.inr ⟨fs.zero, (Fields.settled_zero fs).symm⟩
    refine exists_step_struct hwf hzero hexact rfl (fun t s hp => ?_) fun t s _ =>
      s.exists_reread hwf hreadable (Fields.settled_zero fs)
    have hstep := (step_struct hwf ha (Or.inl rfl) hexact s).1 hp
    change ∃ e, t.Step lib (((Ty.struct fs).encode fs.zero).member s.name) ps v e
    rw [member_struct, s.find_encode hwf, s.get_zero]
    split
    · exact ⟨_, hstep⟩
    · exact hfs t s ps v _ (s.exact hexact (congrArg lib.fold hp)).2 hstep

theorem Ty.starts {t : Ty} (hwf : t.WF lib) : t.Readable lib → t.Starts lib :=
  hwf.induction (P := fun t => t.Readable lib → t.Starts lib)
    (fun κ _ => starts_scalar κ)
    (fun _ => starts_of_null rfl)
    (fun _ _ => starts_of_null rfl)
    (fun _ _ _ _ => starts_of_null rfl)
    (fun _ _ _ _ _ => starts_of_null rfl)
    (fun _ hwf hfs hreadable =>
      starts_struct hwf hreadable fun t s => hfs t s (s.readable hreadable))

/-- What a step leads to is written as the document for the next one. -/
theorem Ty.Fork.fits_left {t : Ty} {c v v' : Json} {path path' : List Text} {a b : t.Val}
    (h : t.Fork lib c path path' v v' a b) : t.Fits lib (t.encode a) :=
  h.left.fits h.fits h.settled.1

theorem joins_scalar (κ : Scalar) : (Ty.scalar κ).Joins lib := by
  intro c path path' v v' a b h
  obtain ⟨p, ps, p', ps', rfl, rfl⟩ := h.apart.exists_cons
  exact absurd h.left not_step_scalar

theorem joins_list (t : Ty) : (Ty.list t).Joins lib := by
  intro c path path' v v' a b h
  obtain ⟨p, ps, p', ps', rfl, rfl⟩ := h.apart.exists_cons
  exact absurd h.left not_step_list

theorem joins_any : Ty.any.Joins lib := by
  intro c path path' v v' (a : Json) (b : Json) h
  obtain ⟨p, ps, p', ps', rfl, rfl⟩ := h.apart.exists_cons
  obtain ⟨ha, hopened⟩ := step_any h.left h.fits h.settled.1
  obtain ⟨hb, -⟩ := step_any h.right h.fits h.settled.2
  obtain ⟨j, hj⟩ := Json.exists_set_of_apart h.apart ha hb
  refine ⟨lib.generic j, j, ?_, rfl⟩
  change a.opened.set v' (p' :: ps') = some j
  rw [hopened]
  exact hj

theorem joins_ptr {t : Ty} (ht : t.Joins lib) : (Ty.ptr t).Joins lib := by
  intro c path path' v v' a b h
  obtain ⟨p, ps, p', ps', rfl, rfl⟩ := h.apart.exists_cons
  obtain ⟨e, rfl, he⟩ := step_ptr h.left
  obtain ⟨e', rfl, he'⟩ := step_ptr h.right
  obtain ⟨x, j, hset, hread⟩ := ht c _ _ v v' e e' ⟨h.fits.pointee, h.settled, h.exact, h.apart,
    he, he'⟩
  refine ⟨some x, j, hset, ?_⟩
  rw [decode_ptr (Json.ne_null_of_set hset)]
  exact congrArg (Option.map some) hread

theorem joins_map {t : Ty} (hwf : t.WF lib) (hreadable : t.Readable lib) (ht : t.Joins lib) :
    (Ty.map t).Joins lib := by
  intro c path path' v v' a b h
  obtain ⟨p, ps, q, qs, rfl, rfl⟩ := h.apart.exists_cons
  obtain ⟨ms, e, hms, he, ha⟩ := encode_step_map hwf h.left h.fits
  obtain ⟨-, hothers⟩ := step_map hwf h.left h.fits
  obtain ⟨⟨e', he', -⟩, -⟩ := step_map hwf h.right h.fits
  -- The element at the second path is what it was, or what the first path was set in.
  have hstep : ∃ x, t.Step lib (((Ty.map t).encode a).member q) qs v' x := by
    by_cases hq : q = p
    · subst hq
      have hrest := (h.apart.cons_cases.resolve_left fun hne => hne rfl).2
      rw [ha, Json.member_obj, find_put_self]
      exact ht (c.member q) ps qs v v' e e' ⟨h.fits.member q, h.settled, h.exact, hrest, he, he'⟩
    · rw [Json.member_eq_of_get (hothers q hq)]
      exact ⟨e', he'⟩
  obtain ⟨x, w, hw, hx⟩ := hstep
  -- All elements are read, since they were written.
  have hread := Ty.readsBack (.map t) hwf hreadable a (h.left.settled h.fits h.settled.1)
  obtain ⟨y, hy⟩ := Option.isSome_iff_exists.mp hread
  rw [ha] at hy
  obtain ⟨new, hnew, -⟩ := Option.map_eq_some_iff.mp hy
  have hall : ((put q w (put p (t.encode e) ms)).mapM fun m =>
      (t.decode lib t.zero m.2).map fun a => (m.1, a)).isSome := by
    refine isSome_mapM fun m hm => ?_
    rcases mem_of_mem_put hm with rfl | hmem
    · rw [Option.isSome_map, hx]
      rfl
    · exact isSome_of_mapM hnew hmem
  obtain ⟨as, has⟩ := Option.isSome_iff_exists.mp hall
  have hopened : ((Ty.map t).encode a).opened = .obj (put p (t.encode e) ms) := by
    rw [ha]
    rfl
  exact exists_step_map hopened has ⟨x, w, hw, hx⟩

/-- The field that the second path leads into can be set. -/
theorem exists_step_of_fork {fs : Fields} (hwf : fs.WF lib) (hreadable : fs.Readable lib)
    {c v v' : Json} {p : Text} {ps : List Text} {t : Ty} (s : Slot fs t) (ht : t.Joins lib)
    {qs : List Text} {as bs : fs.Val}
    (h : (Ty.struct fs).Fork lib c (p :: ps) (s.name :: qs) v v' as bs) :
    ∃ x, t.Step lib (((Ty.struct fs).encode as).member s.name) qs v' x := by
  have hright := (step_struct hwf h.right h.fits h.exact.2 s).1 rfl
  have hexact := (s.exact h.exact.2 rfl).2
  by_cases hp : s.name = p
  · subst hp
    have hrest := (h.apart.cons_cases.resolve_left fun hne => hne rfl).2
    have hexact' := (s.exact h.exact.1 rfl).2
    have hleft := (step_struct hwf h.left h.fits h.exact.1 s).1 rfl
    obtain ⟨r, rs, r', rs', rfl, rfl⟩ := hrest.exists_cons
    rw [s.member_encode_of_not_isEmpty hwf (hleft.isEmpty (s.wf hwf))]
    exact ht _ _ _ v v' _ _ ⟨h.fits.field hwf s, h.settled, ⟨hexact', hexact⟩, hrest, hleft, hright⟩
  · obtain ⟨hmade, hkept⟩ := (step_struct hwf h.left h.fits h.exact.1 s).2 hp
    rw [member_struct]
    rcases h.fits with rfl | ⟨os, rfl⟩
    · rw [s.find_encode hwf, hmade rfl]
      split
      · exact ⟨_, hright⟩
      · exact Ty.starts (s.wf hwf) (s.readable hreadable) qs v' _ hexact hright
    · rw [hkept _ (generic_struct os), ← Json.member_obj, ← generic_struct]
      exact ⟨_, hright⟩

theorem joins_struct {fs : Fields} (hwf : fs.WF lib) (hreadable : fs.Readable lib)
    (hfs : ∀ t, Slot fs t → t.Joins lib) : (Ty.struct fs).Joins lib := by
  intro c path path' v v' (as : fs.Val) (bs : fs.Val) h
  obtain ⟨p, ps, q, qs, rfl, rfl⟩ := h.apart.exists_cons
  refine exists_step_struct hwf h.fits_left h.exact.2 rfl (fun t s hq => ?_) fun t s _ =>
    s.exists_reread hwf hreadable (h.left.settled h.fits h.settled.1)
  subst hq
  exact exists_step_of_fork hwf hreadable s (hfs t s) h

/-- Of two paths that can be set and are apart, the one can be set after the other, in every type
that reads what it writes. -/
theorem Ty.joins {t : Ty} (hwf : t.WF lib) : t.Readable lib → t.Joins lib :=
  hwf.induction (P := fun t => t.Readable lib → t.Joins lib)
    (fun κ _ => joins_scalar κ)
    (fun _ => joins_any)
    (fun t _ => joins_list t)
    (fun _ hwf ht hreadable => joins_map hwf hreadable (ht hreadable))
    (fun _ _ _ ht hreadable => joins_ptr (ht hreadable))
    (fun _ hwf hfs hreadable =>
      joins_struct hwf hreadable fun t s => hfs t s (s.readable hreadable))

namespace Json.ReadsAlike

variable {j k : Json}

theorem eq_null (h : ReadsAlike null k) : k = null := by
  have hleaf : some (leaf null) = some (leaf k) := h []
  cases k <;> first | rfl | cases hleaf

/-- What values that read alike have at a name reads alike. -/
theorem member (h : ReadsAlike j k) (p : Text) : ReadsAlike (j.member p) (k.member p) := by
  intro path
  cases path with
  | nil =>
    have hget := h [p]
    rw [Json.member, Json.member]
    cases hj : j.get [p] with
    | none =>
      rw [hj] at hget
      rw [Option.map_eq_none_iff.mp hget.symm]
    | some u =>
      rw [hj] at hget
      obtain ⟨w, hw, hleaf⟩ := Option.map_eq_some_iff.mp hget.symm
      rw [hw]
      exact congrArg some hleaf.symm
  | cons q qs =>
    rw [get_member, get_member]
    exact h (p :: q :: qs)

theorem opened (h : ReadsAlike j k) : ReadsAlike j.opened k.opened := by
  cases j with
  | null =>
    rw [h.eq_null]
    exact readsAlike_refl _
  | bool _ | num _ | str _ | arr _ | obj _ =>
    cases k with
    | null =>
      have hleaf := h []
      cases hleaf
    | bool _ | num _ | str _ | arr _ | obj _ => exact h

/-- The members of objects that read alike do. -/
theorem rel_find {ms ns : List (Text × Json)} (h : ReadsAlike (obj ms) (obj ns)) (p : Text) :
    Option.Rel ReadsAlike (find p ms) (find p ns) := by
  have hget := h [p]
  have hmember := h.member p
  rw [member_obj, member_obj] at hmember
  rw [get_obj_cons, get_obj_cons] at hget
  cases hm : find p ms with
  | none =>
    rw [hm] at hget
    cases hn : find p ns with
    | none => exact .none
    | some w => rw [hn] at hget; cases hget
  | some u =>
    rw [hm] at hget hmember
    cases hn : find p ns with
    | none => rw [hn] at hget; cases hget
    | some w =>
      rw [hn] at hmember
      exact .some hmember

/-- A path is set alike in values that read alike. -/
theorem set {v j' k' : Json} {path : List Text} (h : ReadsAlike j k) (hj : j.set v path = some j')
    (hk : k.set v path = some k') : ReadsAlike j' k' := by
  induction path generalizing j k j' k' with
  | nil =>
    obtain rfl : v = j' := Option.some.inj hj
    obtain rfl : v = k' := Option.some.inj hk
    exact readsAlike_refl v
  | cons p ps ih =>
    obtain ⟨ms, w, rfl, hw, rfl⟩ := set_cons_eq_some hj
    obtain ⟨ns, u, rfl, hu, rfl⟩ := set_cons_eq_some hk
    refine readsAlike_obj fun r => ?_
    by_cases hr : r = p
    · subst hr
      rw [find_put_self, find_put_self]
      rw [cursor_eq_opened] at hw hu
      exact .some (ih (h.member r).opened hw hu)
    · rw [find_put_of_ne hr, find_put_of_ne hr]
      exact h.rel_find r

/-- Values that read alike do so after they are read into generic values. -/
theorem generic {lib : EncodingJson} (h : ReadsAlike j k) :
    ReadsAlike (lib.generic j) (lib.generic k) := by
  have hleaf : ∀ u : Json, (lib.generic u).leaf = u.leaf.map lib.generic := by
    intro u
    cases u with
    | obj ms =>
      rw [generic_obj]
      rfl
    | arr vs =>
      have harr : (arr vs).leaf = some (arr vs) := rfl
      rw [harr, Option.map_some, generic_arr]
      rfl
    | null | bool _ | num _ | str _ => rfl
  have hget : ∀ u : Json, ∀ path, ((lib.generic u).get path).map leaf =
      ((u.get path).map leaf).map (Option.map lib.generic) := by
    intro u path
    have hmap : (lib.generic u).get path = (u.get path).map lib.generic :=
      get_mapNum lib.float.round u path
    rw [hmap]
    cases u.get path with
    | none => rfl
    | some w => exact congrArg some (hleaf w)
  intro path
  rw [hget, hget, h path]

end Json.ReadsAlike

variable (lib)

/-- A path that is set in two values that read alike leads to values that read alike. -/
def Ty.Respects (t : Ty) : Prop :=
  ∀ c c' path v a a', t.Fits lib c ∧ t.Fits lib c' → c.ReadsAlike c' → lib.Settled v →
    t.Exact lib path → t.Step lib c path v a → t.Step lib c' path v a' →
      (t.encode a).ReadsAlike (t.encode a')

variable {lib}

/-- It remains to look at the paths that lead somewhere. -/
theorem Ty.Respects.of_cons {t : Ty} (h : ∀ c c' p ps v a a', t.Fits lib c ∧ t.Fits lib c' →
    c.ReadsAlike c' → lib.Settled v → t.Exact lib (p :: ps) → t.Step lib c (p :: ps) v a →
      t.Step lib c' (p :: ps) v a' → (t.encode a).ReadsAlike (t.encode a')) : t.Respects lib := by
  intro c c' path v a a' hfits halike hv hexact ha ha'
  cases path with
  | nil =>
    have hsame : a = a' := ha.unique ha'
    rw [hsame]
    exact Json.readsAlike_refl _
  | cons p ps => exact h c c' p ps v a a' hfits halike hv hexact ha ha'

theorem respects_scalar (κ : Scalar) : (Ty.scalar κ).Respects lib :=
  .of_cons fun _ _ _ _ _ _ _ _ _ _ _ ha _ => absurd ha not_step_scalar

theorem respects_list (t : Ty) : (Ty.list t).Respects lib :=
  .of_cons fun _ _ _ _ _ _ _ _ _ _ _ ha _ => absurd ha not_step_list

theorem respects_any : Ty.any.Respects lib := by
  refine .of_cons fun c c' p ps v (a : Json) (a' : Json) hfits halike hv _ ha ha' => ?_
  exact halike.opened.set (step_any ha hfits.1 hv).1 (step_any ha' hfits.2 hv).1

theorem respects_ptr {t : Ty} (ht : t.Respects lib) : (Ty.ptr t).Respects lib := by
  refine .of_cons fun c c' p ps v a a' hfits halike hv hexact ha ha' => ?_
  obtain ⟨e, rfl, he⟩ := step_ptr ha
  obtain ⟨e', rfl, he'⟩ := step_ptr ha'
  exact ht c c' _ v e e' ⟨hfits.1.pointee, hfits.2.pointee⟩ halike hv hexact he he'

theorem respects_map {t : Ty} (hwf : t.WF lib) (ht : t.Respects lib) : (Ty.map t).Respects lib := by
  refine .of_cons fun c c' p ps v a a' hfits halike hv hexact ha ha' => ?_
  obtain ⟨⟨e, he, hget⟩, hothers⟩ := step_map hwf ha hfits.1
  obtain ⟨⟨e', he', hget'⟩, hothers'⟩ := step_map hwf ha' hfits.2
  refine Json.readsAlike_of_cons (Json.leaf_of_get (hget [])) (Json.leaf_of_get (hget' []))
    fun r rs => ?_
  by_cases hr : r = p
  · subst hr
    rw [hget, hget']
    exact ht _ _ ps v e e' ⟨hfits.1.member r, hfits.2.member r⟩ (halike.member r) hv hexact he
      he' rs
  · rw [hothers r hr, hothers' r hr]
    exact halike (r :: rs)

/-- A field that a step in a struct does not lead into reads alike if it did. -/
theorem rel_find_of_steps {fs : Fields} (hwf : fs.WF lib) {c c' v : Json} {p : Text}
    {ps : List Text} {as as' : fs.Val}
    (hfits : (Ty.struct fs).Fits lib c ∧ (Ty.struct fs).Fits lib c') (halike : c.ReadsAlike c')
    (hexact : fs.Exact lib p ps) (h : (Ty.struct fs).Step lib c (p :: ps) v as)
    (h' : (Ty.struct fs).Step lib c' (p :: ps) v as') {t : Ty} (s : Slot fs t) (hp : s.name ≠ p) :
    Option.Rel Json.ReadsAlike (find s.name (fs.encode as)) (find s.name (fs.encode as')) := by
  obtain ⟨hmade, hkept⟩ := (step_struct hwf h hfits.1 hexact s).2 hp
  obtain ⟨hmade', hkept'⟩ := (step_struct hwf h' hfits.2 hexact s).2 hp
  rcases hfits with ⟨rfl | ⟨os, rfl⟩, hfits'⟩
  · rw [s.find_encode hwf, s.find_encode hwf, hmade rfl, hmade' halike.eq_null]
    exact Json.rel_readsAlike_refl _
  · rcases hfits' with rfl | ⟨os', rfl⟩
    · have hleaf := halike []
      rw [generic_struct] at hleaf
      cases hleaf
    · rw [hkept _ (generic_struct os), hkept' _ (generic_struct os')]
      rw [generic_struct, generic_struct] at halike
      exact halike.rel_find s.name

theorem respects_struct {fs : Fields} (hwf : fs.WF lib) (hfs : ∀ t, Slot fs t → t.Respects lib) :
    (Ty.struct fs).Respects lib := by
  refine .of_cons fun c c' p ps v (as : fs.Val) (as' : fs.Val) hfits halike hv hexact ha ha' => ?_
  refine Json.readsAlike_obj fun r => ?_
  by_cases hr : r ∈ fs.names
  · obtain ⟨t, s, rfl⟩ := Slot.exists_of_mem hr
    by_cases hp : s.name = p
    · have hstep := (step_struct hwf ha hfits.1 hexact s).1 hp
      have hstep' := (step_struct hwf ha' hfits.2 hexact s).1 hp
      cases ps with
      | nil =>
        obtain hget : s.get as = s.get as' := hstep.unique hstep'
        rw [s.find_encode hwf, s.find_encode hwf, hget]
        exact Json.rel_readsAlike_refl _
      | cons q qs =>
        have hwf' := s.wf hwf
        rw [s.find_encode_of_not_isEmpty hwf (hstep.isEmpty hwf'),
          s.find_encode_of_not_isEmpty hwf (hstep'.isEmpty hwf')]
        exact .some (hfs t s _ _ (q :: qs) v _ _ ⟨hfits.1.field hwf s, hfits.2.field hwf s⟩
          (halike.member s.name) hv (s.exact hexact (congrArg lib.fold hp)).2 hstep hstep')
    · exact rel_find_of_steps hwf hfits halike hexact ha ha' s hp
  · rw [find_encode_of_not_mem as hr, find_encode_of_not_mem as' hr]
    exact .none

/-- A path that is set in two values that read alike leads to values that read alike, in every
type. -/
theorem Ty.respects {t : Ty} (hwf : t.WF lib) : t.Respects lib :=
  hwf.induction (P := fun t => t.Respects lib) respects_scalar respects_any respects_list
    (fun _ => respects_map) (fun _ _ _ => respects_ptr) (fun _ => respects_struct)

end Go
