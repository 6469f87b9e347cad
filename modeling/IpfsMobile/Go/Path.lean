import IpfsMobile.Go.Call
import Mathlib.Data.List.Induction
import Mathlib.Tactic.Common

/-!
# Slash-separated file paths

The lexical functions of `path/filepath` on Unix. `clean` works on the
components of a path: empty ones and `.` are dropped, and `..` removes the
component before it. A clean absolute path is a list of plain components,
which makes joining and measuring such paths a matter of lists.
-/

namespace Go.Path

/-- The path separator. -/
def slash : Byte := 0x2f

/-- The component that stands for the directory itself. -/
def dot : Str := str "."

/-- The component that stands for the parent directory. -/
def dotdot : Str := str ".."

/-- `filepath.IsAbs`: the path begins with the separator. -/
def isAbs (p : Str) : Bool := p.head? = some slash

/-- The components of a path other than empty ones and `.`. -/
def components (p : Str) : List Str :=
  (p.splitOn slash).filter fun c => c ≠ [] ∧ c ≠ dot

/-- One component on top of those kept so far. A `..` takes the component below it
away; at the root it disappears, elsewhere it stays in front. -/
def push (rooted : Bool) (stack : List Str) (c : Str) : List Str :=
  if c = dotdot then
    match stack with
    | [] => if rooted then [] else [dotdot]
    | top :: below => if top = dotdot then dotdot :: stack else below
  else c :: stack

/-- Remove each `..` together with the component before it. -/
def resolve (rooted : Bool) (cs : List Str) : List Str := (cs.foldl (push rooted) []).reverse

/-- Write components back as a path; a relative path without components is `.`. -/
def render (rooted : Bool) (cs : List Str) : Str :=
  if rooted then slash :: [slash].intercalate cs
  else if cs = [] then dot else [slash].intercalate cs

/-- `filepath.Clean`: the shortest equivalent path by lexical processing. -/
def clean (p : Str) : Str := render (isAbs p) (resolve (isAbs p) (components p))

/-- `filepath.Join`: the elements from the first non-empty one, joined and cleaned. -/
def join (elems : List Str) : Str :=
  match elems.dropWhile (· = []) with
  | [] => []
  | es => clean ([slash].intercalate es)

/-- `filepath.Abs`, with the answer of `os.Getwd`. -/
def abs (getwd : Except Err Str) (path : Str) : Except Err Str :=
  if isAbs path then .ok (clean path)
  else
    match getwd with
    | .error e => .error e
    | .ok wd => .ok (join [wd, path])

/-- `filepath.Base`: the last component, `.` for the empty path and `/` for a path
of separators only. -/
def base (path : Str) : Str :=
  if path = [] then dot
  else (((path.splitOn slash).filter (· ≠ [])).getLast?).getD [slash]

/-- A component that `clean` keeps as it is. -/
structure Plain (c : Str) : Prop where
  ne_nil : c ≠ []
  ne_dot : c ≠ dot
  ne_dotdot : c ≠ dotdot
  no_slash : slash ∉ c

/-- The absolute path with the given components. -/
def absolute (cs : List Str) : Str := render true cs

/-- A path of the form that `clean` gives to absolute paths. -/
def CleanAbs (p : Str) : Prop := ∃ cs, (∀ c ∈ cs, Plain c) ∧ p = absolute cs

@[simp] theorem isAbs_absolute (cs : List Str) : isAbs (absolute cs) = true := by
  simp [absolute, render, isAbs]

/-- The components of two paths with a separator between them. -/
theorem components_append_slash (a b : Str) :
    components (a ++ slash :: b) = components a ++ components b := by
  rw [components, List.splitOn_append_cons_self, List.filter_append]
  rfl

@[simp] theorem components_nil : components [] = [] := rfl

/-- A plain component is its own only component. -/
theorem Plain.components_eq {c : Str} (h : Plain c) : components c = [c] := by
  rw [components, List.splitOn_eq_singleton h.no_slash]
  simp [h.ne_nil, h.ne_dot]

/-- An absolute path with at least one component is its components, each after a separator. -/
theorem absolute_eq_flatMap {cs : List Str} (h : cs ≠ []) :
    absolute cs = cs.flatMap fun c => slash :: c := by
  induction cs with
  | nil => exact absurd rfl h
  | cons c cs ih =>
    cases cs with
    | nil => simp [absolute, render, List.intercalate_singleton]
    | cons d ds =>
      have hrest := ih (by simp)
      simp only [absolute, render, if_true] at hrest ⊢
      rw [List.intercalate_cons_cons, List.flatMap_cons, ← hrest]
      simp

/-- One more component goes to the end of an absolute path. -/
theorem absolute_append_singleton {cs : List Str} (h : cs ≠ []) (c : Str) :
    absolute (cs ++ [c]) = absolute cs ++ slash :: c := by
  rw [absolute_eq_flatMap h, absolute_eq_flatMap (by simp), List.flatMap_append]
  simp

/-- One more component goes to the front of an absolute path. -/
theorem absolute_cons (c : Str) {cs : List Str} (h : cs ≠ []) :
    absolute (c :: cs) = slash :: c ++ absolute cs := by
  rw [absolute_eq_flatMap h, absolute_eq_flatMap (by simp), List.flatMap_cons]

/-- Reading the components of a clean absolute path gives them back. -/
theorem components_absolute {cs : List Str} (h : ∀ c ∈ cs, Plain c) :
    components (absolute cs) = cs := by
  induction cs with
  | nil => rfl
  | cons c cs ih =>
    have hc : Plain c := h c (by simp)
    have hcs : ∀ d ∈ cs, Plain d := fun d hd => h d (by simp [hd])
    have hfront : components (slash :: c) = [c] := by
      have := components_append_slash [] c
      simpa [hc.components_eq] using this
    by_cases hnil : cs = []
    · subst hnil
      simpa [absolute, render, List.intercalate_singleton] using hfront
    · have hslash : ∃ t, absolute cs = slash :: t := ⟨_, rfl⟩
      obtain ⟨t, ht⟩ := hslash
      have hdrop : components t = cs := by
        have := components_append_slash [] t
        rw [List.nil_append, ← ht, ih hcs] at this
        simpa using this.symm
      rw [absolute_cons c hnil, ht, components_append_slash, hfront, hdrop]
      rfl

/-- A component other than `..` is kept. -/
theorem push_of_ne (rooted : Bool) (stack : List Str) {c : Str} (h : c ≠ dotdot) :
    push rooted stack c = c :: stack := if_neg h

/-- Components without `..` pass through `resolve` unchanged. -/
theorem resolve_of_forall_ne (rooted : Bool) {cs : List Str} (h : ∀ c ∈ cs, c ≠ dotdot) :
    resolve rooted cs = cs := by
  induction cs using List.reverseRecOn with
  | nil => rfl
  | append_singleton cs c ih =>
    have hc : c ≠ dotdot := h c (by simp)
    have hcs := ih fun d hd => h d (by simp [hd])
    simp only [resolve, List.foldl_append, List.foldl_cons, List.foldl_nil] at hcs ⊢
    rw [push_of_ne rooted _ hc, List.reverse_cons, hcs]

/-- One more component keeps the components plain at the root. -/
theorem plain_push {stack : List Str} {c : Str} (hstack : ∀ d ∈ stack, Plain d)
    (hc : c ≠ [] ∧ c ≠ dot ∧ slash ∉ c) : ∀ d ∈ push true stack c, Plain d := by
  by_cases hdd : c = dotdot
  · cases stack with
    | nil => simp [push, hdd]
    | cons top below =>
      have htop : top ≠ dotdot := (hstack top (by simp)).ne_dotdot
      simp only [push, if_pos hdd, if_neg htop]
      exact fun d hd => hstack d (by simp [hd])
  · rw [push_of_ne true stack hdd]
    exact List.forall_mem_cons.mpr ⟨⟨hc.1, hc.2.1, hdd, hc.2.2⟩, hstack⟩

/-- At the root, `resolve` leaves plain components only. -/
theorem plain_of_mem_resolve {cs : List Str} (hcs : ∀ c ∈ cs, c ≠ [] ∧ c ≠ dot ∧ slash ∉ c) :
    ∀ c ∈ resolve true cs, Plain c := by
  suffices h : ∀ c ∈ cs.foldl (push true) [], Plain c by
    intro c hc
    exact h c (List.mem_reverse.mp hc)
  induction cs using List.reverseRecOn with
  | nil => simp
  | append_singleton cs c ih =>
    rw [List.foldl_append, List.foldl_cons, List.foldl_nil]
    exact plain_push (ih fun d hd => hcs d (by simp [hd])) (hcs c (by simp))

/-- A list split at a separator has pieces without the separator. -/
theorem not_mem_of_mem_splitOn {c p : Str} (h : c ∈ p.splitOn slash) : slash ∉ c := by
  induction p generalizing c with
  | nil =>
    obtain rfl : c = [] := by simpa using h
    simp
  | cons b p ih =>
    rw [List.splitOn_cons_eq_if_modifyHead] at h
    split at h
    · rcases List.mem_cons.mp h with rfl | h
      · simp
      · exact ih h
    · rename_i hb
      cases hsplit : p.splitOn slash with
      | nil => simp [hsplit] at h
      | cons d ds =>
        rw [hsplit, List.modifyHead_cons, List.mem_cons] at h
        rcases h with rfl | h
        · have hd : slash ∉ d := ih (by simp [hsplit])
          have hne : slash ≠ b := by
            intro heq
            simp [heq] at hb
          simp [hne, hd]
        · exact ih (by simp [hsplit, h])

/-- Cleaning an absolute path gives a clean absolute path. -/
theorem cleanAbs_clean {p : Str} (h : isAbs p = true) : CleanAbs (clean p) := by
  refine ⟨resolve true (components p), plain_of_mem_resolve ?_, ?_⟩
  · intro c hc
    obtain ⟨hmem, hkeep⟩ := List.mem_filter.mp hc
    obtain ⟨hne, hdot⟩ : c ≠ [] ∧ c ≠ dot := by simpa using hkeep
    exact ⟨hne, hdot, not_mem_of_mem_splitOn hmem⟩
  · rw [clean, h]
    rfl

/-- An absolute path of plain components is already clean. -/
theorem clean_of_components {p : Str} {cs : List Str} (habs : isAbs p = true)
    (hcomp : components p = cs) (hcs : ∀ c ∈ cs, Plain c) : clean p = absolute cs := by
  rw [clean, habs, hcomp, resolve_of_forall_ne true fun c hc => (hcs c hc).ne_dotdot]
  rfl

/-- Joining a plain name to a clean absolute path appends it as a component. -/
theorem join_absolute {cs : List Str} {name : Str} (hcs : ∀ c ∈ cs, Plain c) (hname : Plain name) :
    join [absolute cs, name] = absolute (cs ++ [name]) := by
  have hjoin : join [absolute cs, name] = clean (absolute cs ++ slash :: name) := by
    have hne : absolute cs ≠ [] := by simp [absolute, render]
    simp [join, hne, List.intercalate_cons_cons, List.intercalate_singleton]
  rw [hjoin]
  refine clean_of_components (by simp [absolute, render, isAbs]) ?_ ?_
  · rw [components_append_slash, components_absolute hcs, hname.components_eq]
  · exact List.forall_mem_append.mpr ⟨hcs, by simpa using hname⟩

/-- Joining a plain root component, a clean absolute path and a plain name. -/
theorem join_root_absolute {root name : Str} {cs : List Str} (hroot : Plain root)
    (hcs : ∀ c ∈ cs, Plain c) (hname : Plain name) :
    join [slash :: root, absolute cs, name] = absolute (root :: cs ++ [name]) := by
  have hjoin : join [slash :: root, absolute cs, name] =
      clean (slash :: root ++ slash :: (absolute cs ++ slash :: name)) := by
    simp [join, List.intercalate_cons_cons, List.intercalate_singleton]
  rw [hjoin]
  refine clean_of_components (by simp [isAbs]) ?_ ?_
  · have hfront : components (slash :: root) = [root] := by
      have := components_append_slash [] root
      simpa [hroot.components_eq] using this
    rw [components_append_slash, components_append_slash, components_absolute hcs, hfront,
      hname.components_eq]
    rfl
  · intro c hc
    simp only [List.cons_append, List.mem_cons, List.mem_append, List.not_mem_nil, or_false] at hc
    rcases hc with rfl | hc | rfl
    · exact hroot
    · exact hcs c hc
    · exact hname

/-- `filepath.Abs` returns a clean absolute path, as long as the working
directory is absolute. -/
theorem cleanAbs_of_abs {getwd : Except Err Str} {path p : Str}
    (hwd : ∀ wd, getwd = .ok wd → isAbs wd = true) (h : abs getwd path = .ok p) : CleanAbs p := by
  unfold abs at h
  split at h
  · rename_i habs
    obtain rfl := Except.ok.inj h
    exact cleanAbs_clean habs
  · cases hg : getwd with
    | error e => simp [hg] at h
    | ok wd =>
      have hroot := hwd wd hg
      have hne : wd ≠ [] := by
        rintro rfl
        simp [isAbs] at hroot
      have hp : clean (wd ++ slash :: path) = p := by
        simpa [hg, join, hne, List.intercalate_cons_cons, List.intercalate_singleton] using h
      rw [← hp]
      refine cleanAbs_clean ?_
      cases wd with
      | nil => exact absurd rfl hne
      | cons b wd => exact hroot

example : clean (str "//a/./b/../c/") = str "/a/c" := by decide

end Go.Path
