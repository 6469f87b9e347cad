import IpfsMobile.Go.Path
import Mathlib.Data.List.Infix

/-!
# Files and folders

What exists on a file system, as a list of clean absolute paths. A path can only exist
if the folders on the way to it do, which is what makes an answer about a folder an
answer about everything in it.
-/

namespace Go

/-- The path `p` is below the folder `dir`. -/
def below (dir p : Str) : Bool := (dir ++ [Path.slash]).isPrefixOf p

/-- A path is below a folder if it goes on from it after a separator. -/
theorem below_iff {dir p : Str} : below dir p = true ↔ ∃ name, p = dir ++ Path.slash :: name := by
  rw [below, List.isPrefixOf_iff_prefix]
  constructor
  · rintro ⟨name, rfl⟩
    exact ⟨name, by simp⟩
  · rintro ⟨name, rfl⟩
    exact ⟨name, by simp⟩

/-- No folder is below itself. -/
@[simp] theorem below_self (dir : Str) : below dir dir = false := by
  rw [Bool.eq_false_iff]
  intro h
  obtain ⟨name, hname⟩ := below_iff.mp h
  have hlen := congrArg List.length hname
  simp only [List.length_append, List.length_cons] at hlen
  omega

/-- What is below a folder that is below another is below that one. -/
theorem below_trans {dir p q : Str} (h : below dir p = true) (h' : below p q = true) :
    below dir q = true := by
  obtain ⟨name, rfl⟩ := below_iff.mp h
  obtain ⟨name', rfl⟩ := below_iff.mp h'
  exact below_iff.mpr ⟨name ++ Path.slash :: name', by simp⟩

/-- The paths at which something exists, each with the folders on the way to it. -/
structure FileTree where
  paths : List Str
  /-- The folder of a path exists. -/
  parents : ∀ dir p, below dir p = true → p ∈ paths → dir = [] ∨ dir ∈ paths

namespace FileTree

/-- `os.RemoveAll`, when it succeeds: the path and all below it are gone. -/
def removeAll (t : FileTree) (dir : Str) : FileTree where
  paths := t.paths.filter fun p => !(p = dir || below dir p)
  parents := by
    intro d p hbelow hp
    obtain ⟨hmem, hkept⟩ := List.mem_filter.mp hp
    refine (t.parents d p hbelow hmem).imp_right fun hd => List.mem_filter.mpr ⟨hd, ?_⟩
    simp only [Bool.not_eq_true', Bool.or_eq_false_iff, decide_eq_false_iff_not] at hkept ⊢
    constructor
    · rintro rfl
      simp [hbelow] at hkept
    · rw [Bool.eq_false_iff]
      intro hdir
      simp [below_trans hdir hbelow] at hkept

/-- `os.MkdirAll`, when it succeeds: the folder and those on the way to it exist. -/
def mkdirAll (t : FileTree) (dir : Str) : FileTree where
  paths := t.paths ++ dir.inits.filter fun p => p = dir || below p dir
  parents := by
    intro d p hbelow hp
    rcases List.mem_append.mp hp with hold | hnew
    · exact (t.parents d p hbelow hold).imp_right (List.mem_append_left _)
    · obtain ⟨-, hp⟩ := List.mem_filter.mp hnew
      have hd : below d dir = true := by
        simp only [Bool.or_eq_true, decide_eq_true_eq] at hp
        rcases hp with rfl | hp
        · exact hbelow
        · exact below_trans hbelow hp
      refine Or.inr (List.mem_append_right _ (List.mem_filter.mpr ⟨?_, by simp [hd]⟩))
      obtain ⟨name, hname⟩ := below_iff.mp hd
      exact (List.mem_inits d dir).mpr ⟨_, hname.symm⟩

end FileTree

end Go
