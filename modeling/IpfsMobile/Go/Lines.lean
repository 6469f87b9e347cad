import IpfsMobile.Go.Call
import Mathlib.Data.List.Infix
import Mathlib.Tactic.Common

/-!
# Lines of text

A text is a list of lines that end in a newline, and an unfinished line after the
last newline. The end of a line is a newline with an optional carriage return
before it.
-/

namespace Go

/-- The byte that ends a line. -/
def newline : Byte := 0x0a

/-- The byte that may stand before a newline. -/
def carriageReturn : Byte := 0x0d

/-- The lines of a text that end in a newline, without it. -/
def rawLines (text : List Byte) : List (List Byte) := (text.splitOn newline).dropLast

/-- What follows the last newline of a text. -/
def unfinished (text : List Byte) : List Byte := ((text.splitOn newline).getLast?).getD []

/-- The bytes end in a carriage return. -/
def EndsInCR (bytes : List Byte) : Prop := bytes.getLast? = some carriageReturn

instance (bytes : List Byte) : Decidable (EndsInCR bytes) := inferInstanceAs (Decidable (_ = _))

/-- Drop one carriage return at the end. -/
def dropCR (bytes : List Byte) : List Byte := if EndsInCR bytes then bytes.dropLast else bytes

/-- The lines of a text that end in a newline, without the end of the line. -/
def terminatedLines (text : List Byte) : List (List Byte) := (rawLines text).map dropCR

/-- All lines of a text, with an unfinished one that is not empty. -/
def textLines (text : List Byte) : List (List Byte) :=
  terminatedLines text ++ if unfinished text = [] then [] else [unfinished text]

/-- Splitting at newlines gives the raw lines and the unfinished one. -/
theorem splitOn_newline (text : List Byte) :
    text.splitOn newline = rawLines text ++ [unfinished text] := by
  have hne : text.splitOn newline ≠ [] := List.splitOnP_ne_nil _ _
  rw [rawLines, unfinished, List.getLast?_eq_some_getLast hne, Option.getD_some,
    List.dropLast_append_getLast hne]

/-- A text without a newline is unfinished. -/
theorem lines_of_not_mem {text : List Byte} (h : newline ∉ text) :
    rawLines text = [] ∧ unfinished text = text := by
  simp [rawLines, unfinished, List.splitOn_eq_singleton h]

/-- The first line of a text is what stands before its first newline. -/
theorem lines_of_line {line : List Byte} (h : newline ∉ line) (text : List Byte) :
    rawLines (line ++ newline :: text) = line :: rawLines text ∧
      unfinished (line ++ newline :: text) = unfinished text := by
  have hsplit : (line ++ newline :: text).splitOn newline =
      line :: (rawLines text ++ [unfinished text]) := by
    rw [List.splitOn_append_cons_self, List.splitOn_eq_singleton h, splitOn_newline text]
    rfl
  rw [rawLines, unfinished, hsplit, ← List.cons_append, List.dropLast_concat,
    List.getLast?_concat]
  exact ⟨rfl, rfl⟩

/-- Induction on a text by its lines. -/
theorem line_induction {P : List Byte → Prop} (unfinished : ∀ text, newline ∉ text → P text)
    (line : ∀ line text, newline ∉ line → P text → P (line ++ newline :: text))
    (text : List Byte) : P text := by
  induction hlen : text.length using Nat.strongRecOn generalizing text with
  | ind n ih =>
    by_cases hmem : newline ∈ text
    · obtain ⟨first, rest, rfl, hfirst⟩ := List.eq_append_cons_of_mem hmem
      refine line first rest hfirst (ih rest.length ?_ rest rfl)
      simp only [List.length_append, List.length_cons] at hlen
      omega
    · exact unfinished text hmem

/-- The unfinished line has no newline. -/
theorem newline_not_mem_unfinished (text : List Byte) : newline ∉ unfinished text := by
  induction text using line_induction with
  | unfinished text h => rwa [(lines_of_not_mem h).2]
  | line line text h ih => rwa [(lines_of_line h _).2]

/-- The unfinished line is the end of the text. -/
theorem unfinished_suffix (text : List Byte) : unfinished text <:+ text := by
  induction text using line_induction with
  | unfinished text h => rw [(lines_of_not_mem h).2]
  | line line text h ih =>
    rw [(lines_of_line h _).2]
    exact (ih.trans (List.suffix_cons _ _)).trans (List.suffix_append _ _)

/-- What comes after a text continues its unfinished line. -/
theorem rawLines_append (text more : List Byte) :
    rawLines (text ++ more) = rawLines text ++ rawLines (unfinished text ++ more) := by
  induction text using line_induction with
  | unfinished text h => rw [(lines_of_not_mem h).1, (lines_of_not_mem h).2, List.nil_append]
  | line line text h ih =>
    rw [List.append_assoc, List.cons_append, (lines_of_line h _).1, (lines_of_line h _).1,
      (lines_of_line h _).2, ih, List.cons_append]

/-- What comes after a text continues its unfinished line. -/
theorem unfinished_append (text more : List Byte) :
    unfinished (text ++ more) = unfinished (unfinished text ++ more) := by
  induction text using line_induction with
  | unfinished text h => rw [(lines_of_not_mem h).2]
  | line line text h ih =>
    rw [List.append_assoc, List.cons_append, (lines_of_line h _).2, (lines_of_line h _).2, ih]

/-- What comes after a text continues its unfinished line. -/
theorem terminatedLines_append (text more : List Byte) :
    terminatedLines (text ++ more) =
      terminatedLines text ++ terminatedLines (unfinished text ++ more) := by
  rw [terminatedLines, rawLines_append, List.map_append, terminatedLines, terminatedLines]

/-- What comes after a text continues its unfinished line. -/
theorem textLines_append (text more : List Byte) :
    textLines (text ++ more) = terminatedLines text ++ textLines (unfinished text ++ more) := by
  rw [textLines, terminatedLines_append, unfinished_append, List.append_assoc, textLines]

/-- The first line of a text comes first among its terminated lines. -/
theorem terminatedLines_line {line : List Byte} (h : newline ∉ line) (text : List Byte) :
    terminatedLines (line ++ newline :: text) = dropCR line :: terminatedLines text := by
  rw [terminatedLines, (lines_of_line h _).1, List.map_cons, terminatedLines]

/-- The first line of a text comes first among its lines. -/
theorem textLines_line {line : List Byte} (h : newline ∉ line) (text : List Byte) :
    textLines (line ++ newline :: text) = dropCR line :: textLines text := by
  rw [textLines, terminatedLines_line h, (lines_of_line h _).2, List.cons_append, textLines]

/-- A text without a newline is its only line. -/
theorem textLines_of_not_mem {text : List Byte} (h : newline ∉ text) :
    textLines text = if text = [] then [] else [text] := by
  rw [textLines, terminatedLines, (lines_of_not_mem h).1, (lines_of_not_mem h).2]
  rfl

/-- Only the empty text has no line. -/
theorem textLines_eq_nil_iff (text : List Byte) : textLines text = [] ↔ text = [] := by
  constructor
  · intro h
    by_cases hmem : newline ∈ text
    · obtain ⟨first, rest, rfl, hfirst⟩ := List.eq_append_cons_of_mem hmem
      rw [textLines_line hfirst] at h
      cases h
    · by_contra hne
      rw [textLines_of_not_mem hmem, if_neg hne] at h
      cases h
  · rintro rfl
    rfl

/-- Only a text without a newline has no terminated line. -/
theorem terminatedLines_eq_nil_iff (text : List Byte) :
    terminatedLines text = [] ↔ newline ∉ text := by
  constructor
  · intro h hmem
    obtain ⟨first, rest, rfl, hfirst⟩ := List.eq_append_cons_of_mem hmem
    rw [terminatedLines_line hfirst] at h
    cases h
  · intro h
    rw [terminatedLines, (lines_of_not_mem h).1]
    rfl

/-- Bytes that end in a carriage return and those that do not. -/
theorem dropCR_cases (bytes : List Byte) :
    (EndsInCR bytes ∧ bytes = dropCR bytes ++ [carriageReturn]) ∨
      (¬EndsInCR bytes ∧ dropCR bytes = bytes) := by
  by_cases h : EndsInCR bytes
  · refine Or.inl ⟨h, ?_⟩
    rw [dropCR, if_pos h]
    exact (List.dropLast_append_getLast? _ h).symm
  · exact Or.inr ⟨h, if_neg h⟩

/-- The bytes `r` add nothing but the carriage return of a line end to the bytes `bytes`. -/
def AddsCROnly (bytes r : List Byte) : Prop := r = [] ∨ r = [carriageReturn] ∧ ¬EndsInCR bytes

/-- Bytes after a line do not change it exactly when they add at most its
carriage return. -/
theorem dropCR_append_eq_iff (bytes r : List Byte) :
    dropCR (bytes ++ r) = dropCR bytes ↔ AddsCROnly bytes r := by
  constructor
  · intro h
    have hlen := congrArg List.length h
    rcases dropCR_cases bytes with ⟨-, hbytes⟩ | ⟨hends, hbytes⟩ <;>
      rcases dropCR_cases (bytes ++ r) with ⟨-, hall⟩ | ⟨-, hall⟩
    · have hbytes' := congrArg List.length hbytes
      have hall' := congrArg List.length hall
      simp only [List.length_append, List.length_singleton] at hbytes' hall'
      exact Or.inl (List.eq_nil_of_length_eq_zero (by omega))
    · have hbytes' := congrArg List.length hbytes
      have hall' := congrArg List.length hall
      simp only [List.length_append, List.length_singleton] at hbytes' hall'
      omega
    · rw [h, hbytes] at hall
      exact Or.inr ⟨List.append_cancel_left hall, hends⟩
    · rw [h, hbytes] at hall
      exact Or.inl (List.self_eq_append_right.mp hall)
  · rintro (rfl | ⟨rfl, hends⟩)
    · rw [List.append_nil]
    · have hcr : EndsInCR (bytes ++ [carriageReturn]) := List.getLast?_concat
      rw [dropCR, if_pos hcr, List.dropLast_concat, dropCR, if_neg hends]

end Go
