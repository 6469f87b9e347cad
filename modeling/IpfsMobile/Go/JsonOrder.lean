import IpfsMobile.Go.JsonFrame

/-!
# The order in which paths are set

Two paths that are apart are set one after the other, each time in what the typed value before
was written as, and the result is read into the type. In either order the same is there in the
end, at every path, if the paths spell the fields on their way as the type does.
-/

namespace Go

open Members

namespace Json

/-- A value without members, or nothing for an object. -/
def leaf : Json → Option Json
  | obj _ => none
  | j => some j

/-- At every path there is the same in two values, or an object in both. -/
def ReadsAlike (j k : Json) : Prop := ∀ path, (j.get path).map leaf = (k.get path).map leaf

/-- Objects read alike if the values of each name do. -/
theorem readsAlike_obj {ms ns : List (Text × Json)}
    (h : ∀ p, Option.Rel ReadsAlike (find p ms) (find p ns)) : ReadsAlike (obj ms) (obj ns) := by
  intro path
  cases path with
  | nil => rfl
  | cons p ps =>
    rw [get_obj_cons, get_obj_cons]
    cases hm : find p ms with
    | none =>
      have hrel := h p
      rw [hm] at hrel
      cases hn : find p ns with
      | none => rfl
      | some w => rw [hn] at hrel; cases hrel
    | some v =>
      have hrel := h p
      rw [hm] at hrel
      cases hn : find p ns with
      | none => rw [hn] at hrel; cases hrel
      | some w =>
        rw [hn] at hrel
        cases hrel with
        | some hvw => exact hvw ps

theorem readsAlike_refl (j : Json) : ReadsAlike j j := fun _ => rfl

/-- What is found is there alike if it is the same. -/
theorem rel_readsAlike_refl : ∀ x : Option Json, Option.Rel ReadsAlike x x
  | none => .none
  | some j => .some (readsAlike_refl j)

/-- Values that are both objects read alike if they do at the paths that lead somewhere. -/
theorem readsAlike_of_cons {j k : Json} (hj : j.leaf = none) (hk : k.leaf = none)
    (h : ∀ p ps, (j.get (p :: ps)).map leaf = (k.get (p :: ps)).map leaf) : ReadsAlike j k := by
  intro path
  cases path with
  | nil => exact congrArg some (hj.trans hk.symm)
  | cons p ps => exact h p ps

/-- What has a member is an object. -/
theorem leaf_of_get {j w : Json} {p : Text} {ps : List Text} (h : j.get (p :: ps) = some w) :
    j.leaf = none := by
  cases j <;> first | rfl | cases h

theorem cursor_put_self {w : Json} (h : w ≠ null) (p : Text) (ms : List (Text × Json)) :
    cursor p (put p w ms) = w := by
  rw [cursor, find_put_self]
  cases w <;> first | exact absurd rfl h | rfl

theorem cursor_put_of_ne {p q : Text} (h : q ≠ p) (w : Json) (ms : List (Text × Json)) :
    cursor q (put p w ms) = cursor q ms := by
  rw [cursor, cursor, find_put_of_ne h]

/-- Two paths that are apart can be set in either order. -/
theorem readsAlike_of_set {fold : Text → Text} {j j₁ j₁₂ j₂ j₂₁ v v' : Json}
    {path path' : List Text} (hapart : Apart fold path path') (h₁ : j.set v path = some j₁)
    (h₁₂ : j₁.set v' path' = some j₁₂) (h₂ : j.set v' path' = some j₂)
    (h₂₁ : j₂.set v path = some j₂₁) : ReadsAlike j₁₂ j₂₁ := by
  induction path generalizing j j₁ j₁₂ j₂ j₂₁ path' with
  | nil => exact absurd hapart (not_apart_nil_left path')
  | cons p ps ih =>
    cases path' with
    | nil => exact absurd hapart (not_apart_nil_right _)
    | cons q qs =>
      obtain ⟨ms, w₁, rfl, hw₁, rfl⟩ := set_cons_eq_some h₁
      obtain ⟨ms₁, w₁₂, hms₁, hw₁₂, rfl⟩ := set_cons_eq_some h₁₂
      obtain ⟨ms', w₂, hms', hw₂, rfl⟩ := set_cons_eq_some h₂
      obtain ⟨ms₂, w₂₁, hms₂, hw₂₁, rfl⟩ := set_cons_eq_some h₂₁
      obtain rfl := obj.inj hms₁
      obtain rfl := obj.inj hms'
      obtain rfl := obj.inj hms₂
      apply readsAlike_obj
      intro r
      by_cases hq : q = p
      · subst hq
        have hrest := (hapart.cons_cases.resolve_left fun hne => hne rfl).2
        obtain ⟨p', ps', q', qs', rfl, rfl⟩ := hrest.exists_cons
        rw [cursor_put_self (ne_null_of_set hw₁)] at hw₁₂
        rw [cursor_put_self (ne_null_of_set hw₂)] at hw₂₁
        by_cases hr : r = q
        · subst hr
          rw [find_put_self, find_put_self]
          exact .some (ih hrest hw₁ hw₁₂ hw₂ hw₂₁)
        · simp only [find_put_of_ne hr]
          exact rel_readsAlike_refl _
      · rw [cursor_put_of_ne hq, hw₂] at hw₁₂
        rw [cursor_put_of_ne (Ne.symm hq), hw₁] at hw₂₁
        obtain rfl := Option.some.inj hw₁₂
        obtain rfl := Option.some.inj hw₂₁
        by_cases hr : r = p
        · subst hr
          rw [find_put_of_ne (Ne.symm hq), find_put_self, find_put_self]
          exact rel_readsAlike_refl _
        · by_cases hr' : r = q
          · subst hr'
            rw [find_put_self, find_put_of_ne hr, find_put_self]
            exact rel_readsAlike_refl _
          · simp only [find_put_of_ne hr, find_put_of_ne hr']
            exact rel_readsAlike_refl _

end Json

variable (lib : EncodingJson)

mutual

/-- A path spells the fields on its way as the type does. -/
def Ty.Exact : Ty → List Text → Prop
  | .scalar _, _ | .any, _ | .list _, _ | .map _, [] | .struct _, [] => True
  | .map t, _ :: ps => t.Exact ps
  | .ptr t, path => t.Exact path
  | .struct fs, p :: ps => fs.Exact p ps

/-- The same for a path that begins with a name that a field matches. -/
def Fields.Exact : Fields → Text → List Text → Prop
  | .nil, _, _ => True
  | .cons name _ t rest, p, ps =>
    (lib.fold name = lib.fold p → name = p ∧ t.Exact ps) ∧ rest.Exact p ps

end

/-- A path is set in what a value was written as, and the result is read. -/
def Ty.Step (t : Ty) (c : Json) (path : List Text) (v : Json) (b : t.Val) : Prop :=
  ∃ j, c.opened.set v path = some j ∧ t.decode lib t.zero j = some b

variable {lib}

theorem Slot.exact {fs : Fields} {t : Ty} (s : Slot fs t) {p : Text} {ps : List Text}
    (h : fs.Exact lib p ps) (hfold : lib.fold s.name = lib.fold p) :
    s.name = p ∧ t.Exact lib ps := by
  induction s with
  | here => exact h.1 hfold
  | there s ih => exact ih h.2 hfold

/-- A document in which a settled value is set is settled. -/
theorem Ty.Fits.settled_set {t : Ty} {c v j : Json} {path : List Text} (hfits : t.Fits lib c)
    (hv : lib.Settled v) (hset : c.opened.set v path = some j) : lib.Settled j := by
  have hopened : lib.Settled c.opened := by
    cases c with
    | null => exact settled_obj_iff.mpr (by simp)
    | bool _ | num _ | str _ | arr _ | obj _ => exact hfits.settled
  exact Json.mapNum_of_set hopened hv hset

namespace Ty.Step

variable {t : Ty} {c v : Json} {path : List Text} {b : t.Val}

theorem unique (h : t.Step lib c path v b) {b' : t.Val} (h' : t.Step lib c path v b') : b = b' := by
  obtain ⟨j, hj, hb⟩ := h
  obtain ⟨j', hj', hb'⟩ := h'
  obtain rfl := Option.some.inj (hj.symm.trans hj')
  exact Option.some.inj (hb.symm.trans hb')

/-- The result of a step is settled. -/
theorem settled (h : t.Step lib c path v b) (hfits : t.Fits lib c) (hv : lib.Settled v) :
    lib.Settled (t.encode b) := by
  obtain ⟨j, hj, hb⟩ := h
  exact Ty.keepsSettled t t.zero j b (Ty.settled_zero t) (hfits.settled_set hv hj) hb

/-- What the result is written as is the document for the next step. -/
theorem fits (h : t.Step lib c path v b) (hfits : t.Fits lib c) (hv : lib.Settled v) :
    t.Fits lib (t.encode b) := by
  have hsettled : lib.generic (t.encode b) = t.encode b := h.settled hfits hv
  exact Or.inr ⟨b, hsettled.symm⟩

end Ty.Step

/-- No path leads into a scalar. -/
theorem not_step_scalar {κ : Scalar} {c v : Json} {p : Text} {ps : List Text}
    {b : (Ty.scalar κ).Val} : ¬(Ty.scalar κ).Step lib c (p :: ps) v b := by
  rintro ⟨j, hset, hread⟩
  obtain ⟨ms, w, -, -, rfl⟩ := Json.set_opened_cons hset
  exact decode_scalar_obj κ _ _ b hread

/-- No path leads into a slice. -/
theorem not_step_list {t : Ty} {c v : Json} {p : Text} {ps : List Text} {b : (Ty.list t).Val} :
    ¬(Ty.list t).Step lib c (p :: ps) v b := by
  rintro ⟨j, hset, hread⟩
  obtain ⟨ms, w, -, -, rfl⟩ := Json.set_opened_cons hset
  cases hread

/-- A step in a map takes a step in one element and leaves the others. -/
theorem step_map {t : Ty} (hwf : t.WF lib) {c v : Json} {p : Text} {ps : List Text}
    {b : (Ty.map t).Val} (h : (Ty.map t).Step lib c (p :: ps) v b)
    (hfits : (Ty.map t).Fits lib c) :
    (∃ e, t.Step lib (c.member p) ps v e ∧
      ∀ qs, ((Ty.map t).encode b).get (p :: qs) = (t.encode e).get qs) ∧
      ∀ q, q ≠ p → ∀ qs, ((Ty.map t).encode b).get (q :: qs) = c.get (q :: qs) := by
  obtain ⟨j, hset, hread⟩ := h
  obtain ⟨ms, w, hms, hw, rfl⟩ := Json.set_opened_cons hset
  constructor
  · obtain ⟨e, he, hget⟩ := get_decode_map hread (find_put_self p w ms)
    exact ⟨e, ⟨w, hw, he⟩, hget⟩
  · intro q hq qs
    obtain ⟨as, rfl, hfind⟩ := hfits.elements hms
    have hfind' := (find_put_of_ne hq w ms).trans (hfind q)
    exact get_reread_map hwf hread hfind' fun _ => rfl

/-- A step in a struct reads the fields that it does not lead into from where they were. -/
theorem reread_of_step {fs : Fields} (hwf : fs.WF lib) {c v : Json} {p : Text} {ps : List Text}
    {bs : fs.Val} (h : (Ty.struct fs).Step lib c (p :: ps) v bs)
    (hfits : (Ty.struct fs).Fits lib c) (hexact : fs.Exact lib p ps) {ms : List (Text × Json)}
    (hms : c.opened = .obj ms) {t : Ty} (s : Slot fs t) (hne : s.name ≠ p) :
    (find s.name ms).toList.foldlM (fun a v => t.decode lib a v) t.zero = some (s.get bs) := by
  obtain ⟨j, hset, hread⟩ := h
  obtain ⟨ms', w, hms', -, rfl⟩ := Json.set_opened_cons hset
  obtain rfl : ms = ms' := Json.obj.inj (hms.symm.trans hms')
  have hfields : fs.decode lib fs.zero (put p w ms) = some bs := hread
  have hslot := s.decode_get hfields
  have hfold : lib.fold p ≠ lib.fold s.name := fun hfold => hne (s.exact hexact hfold.symm).1
  rwa [s.get_zero, matching_of_single (single_put_of_ne (hfits.single hwf s.name_mem hms) hfold w),
    find_put_of_ne hne] at hslot

/-- A step in a struct takes a step in the field of the name, if there is one. The other fields
are zero if the struct was made, and stay as they were written if not. -/
theorem step_struct {fs : Fields} (hwf : fs.WF lib) {c v : Json} {p : Text} {ps : List Text}
    {bs : fs.Val} (h : (Ty.struct fs).Step lib c (p :: ps) v bs)
    (hfits : (Ty.struct fs).Fits lib c) (hexact : fs.Exact lib p ps) {t : Ty} (s : Slot fs t) :
    (s.name = p → t.Step lib (c.member s.name) ps v (s.get bs)) ∧
      (s.name ≠ p → (c = .null → s.get bs = t.zero) ∧
        ∀ ms, c = .obj ms → find s.name (fs.encode bs) = find s.name ms) := by
  constructor
  · rintro rfl
    obtain ⟨j, hset, hread⟩ := h
    obtain ⟨ms, w, hms, hw, rfl⟩ := Json.set_opened_cons hset
    have hfields : fs.decode lib fs.zero (put s.name w ms) = some bs := hread
    have hsingle := hfits.single hwf s.name_mem hms
    have hslot := s.decode_get hfields
    rw [s.get_zero, matching_of_single (single_put_self hsingle w), find_put_self] at hslot
    exact ⟨w, hw, by simpa using hslot⟩
  · intro hne
    constructor
    · rintro rfl
      have hnil : Json.opened .null = .obj [] := rfl
      exact (Option.some.inj (reread_of_step hwf h hfits hexact hnil s hne)).symm
    · rintro ms rfl
      have hslot := reread_of_step hwf h hfits hexact rfl s hne
      rcases hfits with hnull | ⟨as, has⟩
      · cases hnull
      · change Json.obj ms = lib.generic (.obj (fs.encode as)) at has
        rw [generic_obj] at has
        obtain rfl := Json.obj.inj has
        exact s.find_reread hwf hslot

/-- A field that neither of two steps leads into is the same after both. -/
theorem find_of_steps {fs : Fields} (hwf : fs.WF lib) {c v v' : Json} {p q : Text}
    {ps qs : List Text} {as bs : fs.Val} (hfits : (Ty.struct fs).Fits lib c)
    (h : (Ty.struct fs).Step lib c (p :: ps) v as) (hexact : fs.Exact lib p ps)
    (h' : (Ty.struct fs).Step lib c (q :: qs) v' bs) (hexact' : fs.Exact lib q qs) {t : Ty}
    (s : Slot fs t) (hp : s.name ≠ p) (hq : s.name ≠ q) :
    find s.name (fs.encode as) = find s.name (fs.encode bs) := by
  have ha := (step_struct hwf h hfits hexact s).2 hp
  have hb := (step_struct hwf h' hfits hexact' s).2 hq
  rcases hfits with rfl | ⟨os, rfl⟩
  · rw [s.find_encode hwf, s.find_encode hwf, ha.1 rfl, hb.1 rfl]
  · rw [ha.2 _ (generic_struct os), hb.2 _ (generic_struct os)]

/-- What a struct is written as has the members of its fields. -/
theorem member_struct {fs : Fields} (as : fs.Val) (p : Text) :
    ((Ty.struct fs).encode as).member p = (find p (fs.encode as)).getD .null :=
  Json.member_obj _ _

/-- A field that is not left out is a member. -/
theorem Slot.find_encode_of_not_isEmpty {fs : Fields} (hwf : fs.WF lib) {t : Ty} (s : Slot fs t)
    {as : fs.Val} (h : t.isEmpty (s.get as) = false) :
    find s.name (fs.encode as) = some (t.encode (s.get as)) := by
  rw [s.find_encode hwf, h, Bool.and_false, if_neg Bool.false_ne_true]

theorem Slot.member_encode_of_not_isEmpty {fs : Fields} (hwf : fs.WF lib) {t : Ty} (s : Slot fs t)
    {as : fs.Val} (h : t.isEmpty (s.get as) = false) :
    ((Ty.struct fs).encode as).member s.name = t.encode (s.get as) := by
  rw [member_struct, s.find_encode_of_not_isEmpty hwf h]
  rfl

/-- No step along a path leads to a value that is left out. -/
theorem Ty.Step.isEmpty {t : Ty} (hwf : t.WF lib) {c v : Json} {p : Text} {ps : List Text}
    {b : t.Val} (h : t.Step lib c (p :: ps) v b) : t.isEmpty b = false := by
  obtain ⟨j, hset, hread⟩ := h
  obtain ⟨ms, w, hms, hw, rfl⟩ := Json.set_opened_cons hset
  cases t with
  | scalar κ => exact absurd hread (decode_scalar_obj κ _ _ b)
  | list t => cases hread
  | any =>
    obtain rfl : lib.generic (.obj (put p w ms)) = b := Option.some.inj hread
    rw [generic_obj]
    rfl
  | map t =>
    obtain ⟨e, -, hget⟩ := get_decode_map hread (find_put_self p w ms)
    by_contra hempty
    have hnone := get_of_isEmpty (.map t) b (by simpa using hempty) p []
    rw [hget] at hnone
    cases hnone
  | ptr t =>
    obtain ⟨a, -, rfl⟩ := Option.map_eq_some_iff.mp hread
    rfl
  | struct fs => rfl

/-- The fields of a struct are written alike if each of them is. -/
theorem encode_congr : {fs : Fields} → fs.WF lib → {as bs : fs.Val} →
    (∀ t (s : Slot fs t), find s.name (fs.encode as) = find s.name (fs.encode bs)) →
      fs.encode as = fs.encode bs
  | .nil, _, _, _, _ => rfl
  | .cons name omitEmpty t rest, hwf, (a, as), (b, bs), h => by
    have hrest : rest.encode as = rest.encode bs := by
      refine encode_congr hwf.2.2 fun t' s => ?_
      have hne := (s.name_ne hwf).symm
      have hfind := h t' s.there
      rwa [Slot.name, find_encode_cons_of_ne hne, find_encode_cons_of_ne hne] at hfind
    have hfirst := h t Slot.here
    rw [Slot.name, find_encode_cons_self hwf.not_mem_names,
      find_encode_cons_self hwf.not_mem_names] at hfirst
    rw [Fields.encode, Fields.encode, hrest]
    split at hfirst <;> split at hfirst
    · rw [if_pos ‹_›, if_pos ‹_›]
    · cases hfirst
    · cases hfirst
    · rw [if_neg ‹_›, if_neg ‹_›, Option.some.inj hfirst]

variable (lib)

/-- A step from nothing and one from what a zero value is written as lead to the same. -/
def Ty.Sprouts (t : Ty) : Prop :=
  ∀ path v a b, t.Exact lib path → t.Step lib .null path v a →
    t.Step lib (t.encode t.zero) path v b → t.encode a = t.encode b ∧ t.isEmpty a = t.isEmpty b

variable {lib}

/-- If the zero value is written as null there is no difference. -/
theorem sprouts_of_null {t : Ty} (hnull : t.encode t.zero = .null) : t.Sprouts lib := by
  intro path v a b _ ha hb
  rw [hnull] at hb
  obtain rfl := ha.unique hb
  exact ⟨rfl, rfl⟩

/-- It remains to look at the paths that lead somewhere. -/
theorem Ty.Sprouts.of_cons {t : Ty} (h : ∀ p ps v a b, t.Exact lib (p :: ps) →
    t.Step lib .null (p :: ps) v a → t.Step lib (t.encode t.zero) (p :: ps) v b →
      t.encode a = t.encode b ∧ t.isEmpty a = t.isEmpty b) : t.Sprouts lib := by
  intro path v a b hexact ha hb
  cases path with
  | nil =>
    obtain rfl := ha.unique hb
    exact ⟨rfl, rfl⟩
  | cons p ps => exact h p ps v a b hexact ha hb

theorem sprouts_scalar (κ : Scalar) : (Ty.scalar κ).Sprouts lib :=
  .of_cons fun _ _ _ _ _ _ ha _ => absurd ha not_step_scalar

theorem sprouts_struct {fs : Fields} (hwf : fs.WF lib) (hfs : ∀ t, Slot fs t → t.Sprouts lib) :
    (Ty.struct fs).Sprouts lib := by
  refine .of_cons fun p ps v (as : fs.Val) (bs : fs.Val) hexact ha hb => ?_
  change (Ty.struct fs).Step lib (.obj (fs.encode fs.zero)) (p :: ps) v bs at hb
  have hzero : (Ty.struct fs).Fits lib (.obj (fs.encode fs.zero)) :=
    Or.inr ⟨fs.zero, (Fields.settled_zero fs).symm⟩
  refine ⟨congrArg Json.obj (encode_congr hwf fun t s => ?_), rfl⟩
  obtain ⟨hin, hout⟩ := step_struct hwf ha (Or.inl rfl) hexact s
  obtain ⟨hin', hout'⟩ := step_struct hwf hb hzero hexact s
  by_cases hp : s.name = p
  · have hstep := hin hp
    have hstep' := hin' hp
    have hexact' : t.Exact lib ps := (s.exact hexact (congrArg lib.fold hp)).2
    have hsame : t.encode (s.get as) = t.encode (s.get bs) ∧
        t.isEmpty (s.get as) = t.isEmpty (s.get bs) := by
      rw [Json.member_obj, s.find_encode hwf, s.get_zero] at hstep'
      split at hstep'
      · obtain hget : s.get as = s.get bs := hstep.unique hstep'
        exact ⟨congrArg _ hget, congrArg _ hget⟩
      · exact hfs t s ps v _ _ hexact' hstep hstep'
    rw [s.find_encode hwf, s.find_encode hwf, hsame.1, hsame.2]
  · rw [(hout' hp).2 _ rfl, s.find_encode hwf, s.find_encode hwf, (hout hp).1 rfl, s.get_zero]

/-- A step sprouts alike from nothing and from a zero value, in every type. -/
theorem Ty.sprouts {t : Ty} (hwf : t.WF lib) : t.Sprouts lib :=
  hwf.induction (P := fun t => t.Sprouts lib) sprouts_scalar (sprouts_of_null rfl)
    (fun _ => sprouts_of_null rfl) (fun _ _ _ => sprouts_of_null rfl)
    (fun _ _ _ _ => sprouts_of_null rfl) (fun _ => sprouts_struct)

variable (lib)

/-- Two paths that are apart, each spelled as the type does, are set in either order. -/
structure Ty.Diamond (t : Ty) (c : Json) (path path' : List Text) (v v' : Json)
    (a ab b ba : t.Val) : Prop where
  fits : t.Fits lib c
  settled : lib.Settled v ∧ lib.Settled v'
  exact : t.Exact lib path ∧ t.Exact lib path'
  apart : Json.Apart lib.fold path path'
  left : t.Step lib c path v a ∧ t.Step lib (t.encode a) path' v' ab
  right : t.Step lib c path' v' b ∧ t.Step lib (t.encode b) path v ba

/-- In either order the same is there in the end. -/
def Ty.Swaps (t : Ty) : Prop :=
  ∀ c path path' v v' a ab b ba, t.Diamond lib c path path' v v' a ab b ba →
    (t.encode ab).ReadsAlike (t.encode ba)

variable {lib}

namespace Ty.Diamond

variable {t : Ty} {c v v' : Json} {path path' : List Text} {a ab b ba : t.Val}

theorem symm (h : t.Diamond lib c path path' v v' a ab b ba) :
    t.Diamond lib c path' path v' v b ba a ab :=
  ⟨h.fits, h.settled.symm, h.exact.symm, h.apart.symm, h.right, h.left⟩

/-- What the two values in the middle are written as. -/
theorem fits_middle (h : t.Diamond lib c path path' v v' a ab b ba) :
    t.Fits lib (t.encode a) ∧ t.Fits lib (t.encode b) :=
  ⟨h.left.1.fits h.fits h.settled.1, h.right.1.fits h.fits h.settled.2⟩

end Ty.Diamond

theorem swaps_scalar (κ : Scalar) : (Ty.scalar κ).Swaps lib := by
  intro c path path' v v' a ab b ba h
  obtain ⟨p, ps, p', ps', rfl, rfl⟩ := h.apart.exists_cons
  exact absurd h.left.1 not_step_scalar

theorem swaps_list (t : Ty) : (Ty.list t).Swaps lib := by
  intro c path path' v v' a ab b ba h
  obtain ⟨p, ps, p', ps', rfl, rfl⟩ := h.apart.exists_cons
  exact absurd h.left.1 not_step_list

/-- A generic value is read as it is, and an object is opened as it is. -/
theorem step_any {c v b : Json} {p : Text} {ps : List Text} (h : Ty.any.Step lib c (p :: ps) v b)
    (hfits : Ty.any.Fits lib c) (hv : lib.Settled v) :
    c.opened.set v (p :: ps) = some b ∧ b.opened = b := by
  obtain ⟨j, hset, hread⟩ := h
  have hj : lib.generic j = j := hfits.settled_set hv hset
  obtain rfl : j = b := hj.symm.trans (Option.some.inj hread)
  obtain ⟨ms, w, -, -, rfl⟩ := Json.set_opened_cons hset
  exact ⟨hset, rfl⟩

theorem swaps_any : Ty.any.Swaps lib := by
  intro c path path' v v' (a : Json) (ab : Json) (b : Json) (ba : Json) h
  obtain ⟨p, ps, p', ps', rfl, rfl⟩ := h.apart.exists_cons
  obtain ⟨ha, hopened⟩ := step_any h.left.1 h.fits h.settled.1
  obtain ⟨hab, -⟩ := step_any h.left.2 h.fits_middle.1 h.settled.2
  obtain ⟨hb, hopened'⟩ := step_any h.right.1 h.fits h.settled.2
  obtain ⟨hba, -⟩ := step_any h.right.2 h.fits_middle.2 h.settled.1
  change a.opened.set v' (p' :: ps') = some ab at hab
  change b.opened.set v (p :: ps) = some ba at hba
  rw [hopened] at hab
  rw [hopened'] at hba
  exact Json.readsAlike_of_set h.apart ha hab hb hba

/-- What a step leads to points to something, which the step in it leads to. -/
theorem step_ptr {t : Ty} {c v : Json} {p : Text} {ps : List Text} {b : (Ty.ptr t).Val}
    (h : (Ty.ptr t).Step lib c (p :: ps) v b) : ∃ e, b = some e ∧ t.Step lib c (p :: ps) v e := by
  obtain ⟨j, hset, hread⟩ := h
  rw [decode_ptr (Json.ne_null_of_set hset)] at hread
  obtain ⟨e, he, rfl⟩ := Option.map_eq_some_iff.mp hread
  exact ⟨e, rfl, j, hset, he⟩

theorem swaps_ptr {t : Ty} (ht : t.Swaps lib) : (Ty.ptr t).Swaps lib := by
  intro c path path' v v' a ab b ba h
  obtain ⟨p, ps, p', ps', rfl, rfl⟩ := h.apart.exists_cons
  obtain ⟨e, rfl, he⟩ := step_ptr h.left.1
  obtain ⟨e₁, rfl, he₁⟩ := step_ptr h.left.2
  obtain ⟨e', rfl, he'⟩ := step_ptr h.right.1
  obtain ⟨e₂, rfl, he₂⟩ := step_ptr h.right.2
  exact ht c _ _ v v' e e₁ e' e₂
    ⟨h.fits.pointee, h.settled, h.exact, h.apart, ⟨he, he₁⟩, ⟨he', he₂⟩⟩

/-- What a map has at a name, from what is read there. -/
theorem Json.member_eq_of_get {j k : Json} {p : Text}
    (h : ∀ ps, j.get (p :: ps) = k.get (p :: ps)) : j.member p = k.member p := by
  rw [Json.member, Json.member, h []]

theorem swaps_map {t : Ty} (hwf : t.WF lib) (ht : t.Swaps lib) : (Ty.map t).Swaps lib := by
  intro c path path' v v' a ab b ba h
  obtain ⟨p, ps, q, qs, rfl, rfl⟩ := h.apart.exists_cons
  obtain ⟨hfits, hfits'⟩ := h.fits_middle
  obtain ⟨⟨e, he, hget⟩, hothers⟩ := step_map hwf h.left.1 h.fits
  obtain ⟨⟨e₁, he₁, hget₁⟩, hothers₁⟩ := step_map hwf h.left.2 hfits
  obtain ⟨⟨e', he', hget'⟩, hothers'⟩ := step_map hwf h.right.1 h.fits
  obtain ⟨⟨e₂, he₂, hget₂⟩, hothers₂⟩ := step_map hwf h.right.2 hfits'
  have hleaf := Json.leaf_of_get (hget₁ [])
  have hleaf' := Json.leaf_of_get (hget₂ [])
  refine Json.readsAlike_of_cons hleaf hleaf' fun r rs => ?_
  by_cases hq : q = p
  · subst hq
    by_cases hr : r = q
    · subst hr
      have hrest := (h.apart.cons_cases.resolve_left fun hne => hne rfl).2
      have hmember : ((Ty.map t).encode a).member r = t.encode e := by
        rw [Json.member, hget []]
        rfl
      have hmember' : ((Ty.map t).encode b).member r = t.encode e' := by
        rw [Json.member, hget' []]
        rfl
      rw [hmember] at he₁
      rw [hmember'] at he₂
      have halike := ht (c.member r) ps qs v v' e e₁ e' e₂
        ⟨h.fits.member r, h.settled, h.exact, hrest, ⟨he, he₁⟩, ⟨he', he₂⟩⟩
      rw [hget₁, hget₂]
      exact halike rs
    · rw [hothers₁ r hr, hothers r hr, hothers₂ r hr, hothers' r hr]
  · -- Each of the two elements is the same whether it is set first or last.
    rw [Json.member_eq_of_get (hothers q hq)] at he₁
    rw [Json.member_eq_of_get (hothers' p (Ne.symm hq))] at he₂
    obtain rfl := he₁.unique he'
    obtain rfl := he₂.unique he
    by_cases hr : r = p
    · subst hr
      rw [hothers₁ r (Ne.symm hq), hget, hget₂]
    · by_cases hr' : r = q
      · subst hr'
        rw [hget₁, hothers₂ r hr, hget']
      · rw [hothers₁ r hr', hothers r hr, hothers₂ r hr, hothers' r hr']

/-- A field that only one of the two paths leads into. -/
theorem find_of_diamond {fs : Fields} (hwf : fs.WF lib) {c v v' : Json} {p q : Text}
    {ps qs : List Text} {as abs bs bas : fs.Val}
    (h : (Ty.struct fs).Diamond lib c (p :: ps) (q :: qs) v v' as abs bs bas) {t : Ty}
    (s : Slot fs t) (hp : s.name = p) (hq : s.name ≠ q) :
    find s.name (fs.encode abs) = find s.name (fs.encode bas) := by
  obtain ⟨hfits, hfits'⟩ := h.fits_middle
  have ha := (step_struct hwf h.left.1 h.fits h.exact.1 s).1 hp
  have hab := ((step_struct hwf h.left.2 hfits h.exact.2 s).2 hq).2 _ rfl
  have hb := (step_struct hwf h.right.1 h.fits h.exact.2 s).2 hq
  have hba := (step_struct hwf h.right.2 hfits' h.exact.1 s).1 hp
  have hsame : t.encode (s.get as) = t.encode (s.get bas) ∧
      t.isEmpty (s.get as) = t.isEmpty (s.get bas) := by
    rw [member_struct] at hba
    rcases h.fits with rfl | ⟨os, rfl⟩
    · -- The struct is made, and the field in it is zero or left out if it is set last.
      rw [s.find_encode hwf, hb.1 rfl] at hba
      split at hba
      · obtain hget : s.get as = s.get bas := ha.unique hba
        exact ⟨congrArg _ hget, congrArg _ hget⟩
      · exact Ty.sprouts (s.wf hwf) ps v _ _ (s.exact h.exact.1 (congrArg lib.fold hp)).2 ha hba
    · rw [hb.2 _ (generic_struct os), ← Json.member_obj, ← generic_struct] at hba
      obtain hget : s.get as = s.get bas := ha.unique hba
      exact ⟨congrArg _ hget, congrArg _ hget⟩
  rw [hab, s.find_encode hwf, s.find_encode hwf, hsame.1, hsame.2]

/-- A field that neither path leads into. -/
theorem find_of_diamond_of_ne {fs : Fields} (hwf : fs.WF lib) {c v v' : Json} {p q : Text}
    {ps qs : List Text} {as abs bs bas : fs.Val}
    (h : (Ty.struct fs).Diamond lib c (p :: ps) (q :: qs) v v' as abs bs bas) {t : Ty}
    (s : Slot fs t) (hp : s.name ≠ p) (hq : s.name ≠ q) :
    find s.name (fs.encode abs) = find s.name (fs.encode bas) := by
  obtain ⟨hfits, hfits'⟩ := h.fits_middle
  have hab := ((step_struct hwf h.left.2 hfits h.exact.2 s).2 hq).2 _ rfl
  have hba := ((step_struct hwf h.right.2 hfits' h.exact.1 s).2 hp).2 _ rfl
  rw [hab, hba]
  exact find_of_steps hwf h.fits h.left.1 h.exact.1 h.right.1 h.exact.2 s hp hq

/-- A field that both paths lead into. -/
theorem readsAlike_of_diamond {fs : Fields} (hwf : fs.WF lib) {c v v' : Json} {t : Ty}
    (s : Slot fs t) (ht : t.Swaps lib) {ps qs : List Text} {as abs bs bas : fs.Val}
    (h : (Ty.struct fs).Diamond lib c (s.name :: ps) (s.name :: qs) v v' as abs bs bas) :
    Option.Rel Json.ReadsAlike (find s.name (fs.encode abs)) (find s.name (fs.encode bas)) := by
  obtain ⟨hfits, hfits'⟩ := h.fits_middle
  have hrest := (h.apart.cons_cases.resolve_left fun hne => hne rfl).2
  obtain ⟨r, rs, r', rs', rfl, rfl⟩ := hrest.exists_cons
  have ha := (step_struct hwf h.left.1 h.fits h.exact.1 s).1 rfl
  have hab := (step_struct hwf h.left.2 hfits h.exact.2 s).1 rfl
  have hb := (step_struct hwf h.right.1 h.fits h.exact.2 s).1 rfl
  have hba := (step_struct hwf h.right.2 hfits' h.exact.1 s).1 rfl
  have hwf' := s.wf hwf
  rw [s.member_encode_of_not_isEmpty hwf (ha.isEmpty hwf')] at hab
  rw [s.member_encode_of_not_isEmpty hwf (hb.isEmpty hwf')] at hba
  rw [s.find_encode_of_not_isEmpty hwf (hab.isEmpty hwf'),
    s.find_encode_of_not_isEmpty hwf (hba.isEmpty hwf')]
  exact .some (ht _ _ _ v v' _ _ _ _ ⟨h.fits.field hwf s, h.settled,
    ⟨(s.exact h.exact.1 rfl).2, (s.exact h.exact.2 rfl).2⟩, hrest, ⟨ha, hab⟩, ⟨hb, hba⟩⟩)

theorem swaps_struct {fs : Fields} (hwf : fs.WF lib) (hfs : ∀ t, Slot fs t → t.Swaps lib) :
    (Ty.struct fs).Swaps lib := by
  intro c path path' v v' (as : fs.Val) (abs : fs.Val) (bs : fs.Val) (bas : fs.Val) h
  obtain ⟨p, ps, q, qs, rfl, rfl⟩ := h.apart.exists_cons
  refine Json.readsAlike_obj fun r => ?_
  by_cases hr : r ∈ fs.names
  · obtain ⟨t, s, rfl⟩ := Slot.exists_of_mem hr
    by_cases hp : s.name = p
    · by_cases hq : s.name = q
      · subst hp hq
        exact readsAlike_of_diamond hwf s (hfs t s) h
      · rw [find_of_diamond hwf h s hp hq]
        exact Json.rel_readsAlike_refl _
    · by_cases hq : s.name = q
      · rw [find_of_diamond hwf h.symm s hq hp]
        exact Json.rel_readsAlike_refl _
      · rw [find_of_diamond_of_ne hwf h s hp hq]
        exact Json.rel_readsAlike_refl _
  · rw [find_encode_of_not_mem abs hr, find_encode_of_not_mem bas hr]
    exact .none

/-- Two paths that are apart can be set in either order, in every type. -/
theorem Ty.swaps {t : Ty} (hwf : t.WF lib) : t.Swaps lib :=
  hwf.induction (P := fun t => t.Swaps lib) swaps_scalar swaps_any swaps_list
    (fun _ => swaps_map) (fun _ _ _ => swaps_ptr) (fun _ => swaps_struct)

end Go
