import IpfsMobile.Go.Json
import Mathlib.Data.List.Infix

/-!
# Finding the native library

When `System.loadLibrary` fails, `NativeLoader` looks the library up among the resources and
copies it to a temporary file with the same file name at the end. On Windows the whole name is
decorated instead of what comes after the last slash, so a name with a slash is looked up
elsewhere than its parts say.
-/

namespace IpfsMobile.Jni.NativeLoader

open Go

/-- `String.lastIndexOf`, or nothing instead of -1. -/
def lastIndexOf (c : Char) : Text → Option ℕ
  | [] => none
  | d :: s =>
    match lastIndexOf c s with
    | some pos => some (pos + 1)
    | none => if d = c then some 0 else none

/-- `nameOnly`. -/
def nameOnly (libName : Text) : Text :=
  match lastIndexOf '/' libName with
  | some pos => libName.drop (pos + 1)
  | none => libName

/-- `decorateLibraryName`. -/
def decorateLibraryName (libraryName suffix : Text) : Text :=
  if suffix <:+ libraryName then libraryName
  else
    match lastIndexOf '/' libraryName with
    | some pos =>
      libraryName.take (pos + 1) ++ text "lib" ++ libraryName.drop (pos + 1) ++ suffix
    | none => text "lib" ++ libraryName ++ suffix

/-- The name of the operating system is taken for one of Windows. -/
def IsWindows (osName : Text) : Prop := text "win" <:+: osName

instance (osName : Text) : Decidable (IsWindows osName) :=
  inferInstanceAs (Decidable (text "win" <:+: osName))

/-- `libFilename`, with the name of the operating system in lower case. -/
def libFilename (osName libName : Text) : Text :=
  if IsWindows osName then text "lib" ++ libName ++ text ".dll"
  else if text "mac" <:+: osName then decorateLibraryName libName (text ".dylib")
  else decorateLibraryName libName (text ".so")

/-- What comes before the last slash, and that slash. -/
def directory (libName : Text) : Text :=
  match lastIndexOf '/' libName with
  | some pos => libName.take (pos + 1)
  | none => []

/-- A character that does not come has no last index. -/
theorem lastIndexOf_eq_none {c : Char} {s : Text} (h : c ∉ s) : lastIndexOf c s = none := by
  induction s with
  | nil => rfl
  | cons d s ih =>
    rw [List.mem_cons, not_or] at h
    rw [lastIndexOf, ih h.2, if_neg (Ne.symm h.1)]

/-- The last index of a character is where it comes for the last time. -/
theorem lastIndexOf_append {c : Char} {base : Text} (h : c ∉ base) (dir : Text) :
    lastIndexOf c (dir ++ c :: base) = some dir.length := by
  induction dir with
  | nil =>
    rw [List.nil_append, lastIndexOf, lastIndexOf_eq_none h, if_pos rfl]
    rfl
  | cons d dir ih =>
    rw [List.cons_append, lastIndexOf, ih]
    rfl

/-- A name is a directory and a file name without a slash. -/
theorem name_cases (libName : Text) :
    ('/' ∉ libName ∧ lastIndexOf '/' libName = none) ∨
      ∃ dir base, libName = dir ++ '/' :: base ∧ '/' ∉ base := by
  induction libName with
  | nil => exact Or.inl ⟨by simp, rfl⟩
  | cons d libName ih =>
    rcases ih with ⟨hno, hnone⟩ | ⟨dir, base, rfl, hno⟩
    · by_cases hd : d = '/'
      · exact Or.inr ⟨[], libName, by rw [hd]; rfl, hno⟩
      · refine Or.inl ⟨List.not_mem_cons_of_ne_of_not_mem (Ne.symm hd) hno, ?_⟩
        rw [lastIndexOf, hnone, if_neg hd]
    · exact Or.inr ⟨d :: dir, base, rfl, hno⟩

/-- Cutting a name after a slash. -/
theorem cut_at (dir base : Text) :
    (dir ++ '/' :: base).take (dir.length + 1) = dir ++ ['/'] ∧
      (dir ++ '/' :: base).drop (dir.length + 1) = base := by
  have hsplit : dir ++ '/' :: base = (dir ++ ['/']) ++ base := by simp
  have hlen : dir.length + 1 = (dir ++ ['/']).length := by simp
  rw [hsplit, hlen]
  exact ⟨List.take_left, List.drop_left⟩

/-- The parts of a name: nothing and the name, or what is up to its last slash and what comes
after that. -/
theorem parts_cases (libName : Text) :
    ('/' ∉ libName ∧ directory libName = [] ∧ nameOnly libName = libName) ∨
      ∃ dir base, '/' ∉ base ∧ libName = dir ++ '/' :: base ∧
        directory libName = dir ++ ['/'] ∧ nameOnly libName = base := by
  rcases name_cases libName with ⟨hno, hnone⟩ | ⟨dir, base, rfl, hno⟩
  · exact Or.inl ⟨hno, by rw [directory, hnone], by rw [nameOnly, hnone]⟩
  · have hpos := lastIndexOf_append hno dir
    refine Or.inr ⟨dir, base, hno, rfl, ?_, ?_⟩
    · rw [directory, hpos]
      exact (cut_at dir base).1
    · rw [nameOnly, hpos]
      exact (cut_at dir base).2

/-- A name ends with what has no slash if its file name does. -/
theorem suffix_iff {suffix : Text} (h : '/' ∉ suffix) (dir base : Text) :
    suffix <:+ dir ++ '/' :: base ↔ suffix <:+ base := by
  constructor
  · intro hname
    have hrest : '/' :: base <:+ dir ++ '/' :: base := List.suffix_append _ _
    have hnot : ∀ {t : Text}, '/' :: base <:+ t → '/' ∈ t := fun ht =>
      ht.subset List.mem_cons_self
    rcases List.suffix_or_suffix_of_suffix hname hrest with hshort | hlong
    · rcases List.suffix_cons_iff.mp hshort with rfl | hbase
      · exact absurd List.mem_cons_self h
      · exact hbase
    · exact absurd (hnot hlong) h
  · intro hbase
    exact hbase.trans ((List.suffix_cons '/' base).trans (List.suffix_append _ _))

/-- What is decorated is the file name. -/
theorem decorateLibraryName_eq {suffix : Text} (h : '/' ∉ suffix) (libName : Text) :
    decorateLibraryName libName suffix =
      directory libName ++ decorateLibraryName (nameOnly libName) suffix := by
  rcases parts_cases libName with ⟨-, hdir, hname⟩ | ⟨dir, base, hno, rfl, hdir, hname⟩
  · rw [hdir, hname, List.nil_append]
  · rw [hdir, hname]
    simp only [decorateLibraryName, suffix_iff h, lastIndexOf_eq_none hno,
      lastIndexOf_append hno, cut_at]
    split <;> simp

/-- The file name of a library has no slash. -/
theorem slash_not_mem (osName libName : Text) : '/' ∉ libFilename osName (nameOnly libName) := by
  have hno : '/' ∉ nameOnly libName := by
    rcases parts_cases libName with ⟨hno, -, hname⟩ | ⟨dir, base, hno, -, -, hname⟩ <;>
      rwa [hname]
  have hdecorate : ∀ {suffix : Text}, '/' ∉ suffix →
      '/' ∉ decorateLibraryName (nameOnly libName) suffix := by
    intro suffix hsuffix
    rw [decorateLibraryName, lastIndexOf_eq_none hno]
    split
    · exact hno
    · exact List.not_mem_append (List.not_mem_append (by decide) hno) hsuffix
  rw [libFilename]
  split
  · exact List.not_mem_append (List.not_mem_append (by decide) hno) (by decide)
  · split <;> exact hdecorate (by decide)

/-- The library is looked up in the directory of its name, under the file name that its copy
ends with, on every system but Windows. There it is if the name has no slash, and only then. The
copy gets a plain file name everywhere. -/
theorem libFilename_eq_iff (osName libName : Text) :
    (libFilename osName libName = directory libName ++ libFilename osName (nameOnly libName) ↔
      (IsWindows osName → '/' ∉ libName)) ∧
      '/' ∉ libFilename osName (nameOnly libName) := by
  refine ⟨?_, slash_not_mem osName libName⟩
  by_cases hwin : IsWindows osName
  · simp only [libFilename, hwin, if_true, true_implies]
    rcases parts_cases libName with ⟨hno, hdir, hname⟩ | ⟨dir, base, hno, rfl, hdir, hname⟩
    · simp [hdir, hname, hno]
    · refine iff_of_false (fun heq => ?_) (by simp)
      -- Before the file name there is a slash on one side and a letter on the other.
      rw [hdir, hname] at heq
      have hcut : (text "lib" ++ dir ++ ['/']) ++ (base ++ text ".dll") =
          (dir ++ ['/'] ++ text "lib") ++ (base ++ text ".dll") := by
        simpa using heq
      have hlast := congrArg List.getLast? (List.append_cancel_right hcut)
      rw [List.getLast?_concat, List.getLast?_append_of_ne_nil _ (by decide)] at hlast
      exact absurd (Option.some.inj hlast) (by decide)
  · simp only [hwin, false_implies, iff_true]
    rw [libFilename, libFilename, if_neg hwin, if_neg hwin]
    split <;> exact decorateLibraryName_eq (by decide) libName

end IpfsMobile.Jni.NativeLoader
