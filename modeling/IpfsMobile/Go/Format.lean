import IpfsMobile.Go.Call
import Mathlib.Data.Nat.Digits.Lemmas
import Mathlib.Tactic.Common

/-!
# Numbers as text

`strconv.FormatUint` in base 36 and the `%0ws` verb of `fmt.Sprintf`. Padding on the
left with zeros adds leading zeros to a numeral, so the padded text still determines
the number; and its letters are lower-case, so it does even when case is ignored.
-/

namespace Go

/-- The digit of value `d`, out of 0-9 and a-z. -/
def digit (d : ℕ) : Byte := if d < 10 then BitVec.ofNat 8 (0x30 + d) else BitVec.ofNat 8 (0x57 + d)

/-- The value of a digit. -/
def digitValue (b : Byte) : ℕ := if b.toNat < 0x3a then b.toNat - 0x30 else b.toNat - 0x57

/-- `strconv.FormatUint(i, 36)`: without leading zeros, and `0` for zero. -/
def formatUint36 (i : ℕ) : Str :=
  if i = 0 then str "0" else ((Nat.digits 36 i).map digit).reverse

/-- `fmt.Sprintf("%0ws", s)`: padded with zeros on the left to the width `w`. -/
def padZeros (width : ℕ) (s : Str) : Str := List.replicate (width - s.length) (digit 0) ++ s

/-- Lower-case of an ASCII letter. -/
def toLower (b : Byte) : Byte :=
  if 0x41 ≤ b.toNat ∧ b.toNat ≤ 0x5a then BitVec.ofNat 8 (b.toNat + 0x20) else b

/-- The value of a numeral in base 36. -/
def numeralValue (s : Str) : ℕ := Nat.ofDigits 36 (s.reverse.map digitValue)

/-- What is needed of digits: they have their value, and lower-case. -/
theorem digit_spec : ∀ d < 36, digitValue (digit d) = d ∧ toLower (digit d) = digit d ∧
    (digit d).toNat ≠ 0x2f := by
  decide

/-- Every byte of a numeral is a digit. -/
theorem exists_digit_of_mem_formatUint36 {i : ℕ} {b : Byte} (h : b ∈ formatUint36 i) :
    ∃ d < 36, b = digit d := by
  unfold formatUint36 at h
  split at h
  · exact ⟨0, by decide, List.mem_singleton.mp h⟩
  · obtain ⟨d, hd, rfl⟩ := List.mem_map.mp (List.mem_reverse.mp h)
    exact ⟨d, Nat.digits_lt_base (by decide) hd, rfl⟩

/-- Every byte of a padded numeral is a digit. -/
theorem exists_digit_of_mem_padZeros {width i : ℕ} {b : Byte}
    (h : b ∈ padZeros width (formatUint36 i)) : ∃ d < 36, b = digit d := by
  rcases List.mem_append.mp h with h | h
  · exact ⟨0, by decide, List.eq_of_mem_replicate h⟩
  · exact exists_digit_of_mem_formatUint36 h

/-- A padded numeral has lower-case letters only. -/
theorem map_toLower_padZeros (width i : ℕ) :
    (padZeros width (formatUint36 i)).map toLower = padZeros width (formatUint36 i) := by
  rw [List.map_congr_left ?_, List.map_id]
  intro b hb
  obtain ⟨d, hd, rfl⟩ := exists_digit_of_mem_padZeros hb
  exact (digit_spec d hd).2.1

/-- A padded numeral has the value of the number. -/
theorem numeralValue_padZeros (width i : ℕ) :
    numeralValue (padZeros width (formatUint36 i)) = i := by
  have hvalue : Nat.ofDigits 36 ((formatUint36 i).reverse.map digitValue) = i := by
    unfold formatUint36
    split
    · rename_i hzero
      rw [hzero]
      decide
    · have hmap : (Nat.digits 36 i).map (digitValue ∘ digit) = Nat.digits 36 i := by
        rw [List.map_congr_left (fun d hd => ?_), List.map_id]
        exact (digit_spec d (Nat.digits_lt_base (by decide) hd)).1
      rw [List.reverse_reverse, List.map_map, hmap, Nat.ofDigits_digits]
  rw [numeralValue, padZeros, List.reverse_append, List.reverse_replicate, List.map_append,
    List.map_replicate]
  exact (Nat.ofDigits_append_replicate_zero _).trans hvalue

/-- Padded numerals of different numbers differ. -/
theorem padZeros_formatUint36_injective (width : ℕ) :
    Function.Injective fun i => padZeros width (formatUint36 i) := by
  intro i j h
  rw [← numeralValue_padZeros width i, ← numeralValue_padZeros width j]
  exact congrArg numeralValue h

/-- A number below a power of 36 fits in so many digits. -/
theorem length_formatUint36_le {i k : ℕ} (hk : 1 ≤ k) (h : i < 36 ^ k) :
    (formatUint36 i).length ≤ k := by
  unfold formatUint36
  split
  · exact hk
  · rw [List.length_reverse, List.length_map]
    exact (Nat.digits_length_le_iff (by decide) i).mpr h

/-- Padding reaches the width exactly when the text fits in it. -/
theorem length_padZeros {width : ℕ} {s : Str} (h : s.length ≤ width) :
    (padZeros width s).length = width := by
  rw [padZeros, List.length_append, List.length_replicate]
  omega

end Go
