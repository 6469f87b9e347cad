import IpfsMobile.Go.Call
import Mathlib.Data.Int.Notation
import Mathlib.Tactic.Common

/-!
# Input streams of the host language

A `java.io.InputStream` hands out one `Int` a call: a byte as its unsigned value,
or -1 at the end. This file describes such a stream on an explicit state and what it
means that the calls of `read()` yield a given body.
-/

namespace Host

open Go (Byte)

/-- What a call of `read()` does: return an `Int`, or throw. -/
inductive ReadValue where
  | int (v : ℤ)
  | exception
  deriving DecidableEq, Repr

/-- A type of input streams, on an explicit state. -/
class InputStream (σ : Type) where
  /-- `read()`. -/
  read : σ → ReadValue × σ

variable {σ : Type} [InputStream σ]

/-- The stream after `k` calls of `read()`. -/
def afterReads (s : σ) : ℕ → σ
  | 0 => s
  | k + 1 => (InputStream.read (afterReads s k)).2

/-- What call number `k` of `read()` does. -/
def valueAt (s : σ) (k : ℕ) : ReadValue := (InputStream.read (afterReads s k)).1

/-- Call `read()` and collect the low bytes until -1, for at most `fuel` calls. The inherited
`InputStream.readAllBytes` reads in chunks: it takes -1 inside a chunk for a short read and
asks again, so it ends where the next call returns -1 as well. -/
def readAllBytes : ℕ → σ → Option (List Byte)
  | 0, _ => none
  | fuel + 1, s =>
    match InputStream.read s with
    | (.exception, _) => none
    | (.int v, s') =>
      if v = -1 then some [] else (readAllBytes fuel s').map (BitVec.ofInt 8 v :: ·)

/-- The value of a faithful stream at a position of its body: the unsigned byte, and
-1 from the end on. -/
def expectedValue (body : List Byte) (k : ℕ) : ℤ :=
  match body[k]? with
  | some b => b.toNat
  | none => -1

/-- The successive values of `read()` are the bytes of the body, then -1 for ever. -/
def Delivers (s : σ) (body : List Byte) : Prop :=
  ∀ k, valueAt s k = .int (expectedValue body k)

/-- After the first call the stream goes on from its next state. -/
theorem afterReads_succ_left (s : σ) (k : ℕ) :
    afterReads s (k + 1) = afterReads (InputStream.read s).2 k := by
  induction k with
  | zero => rfl
  | succ k ih => rw [afterReads, ih, afterReads]

/-- The values after the first are those of the next state. -/
theorem valueAt_succ_left (s : σ) (k : ℕ) :
    valueAt s (k + 1) = valueAt (InputStream.read s).2 k := by
  rw [valueAt, afterReads_succ_left, valueAt]

/-- A stream that yields the first byte and then delivers the rest delivers them all. -/
theorem delivers_cons_iff (s : σ) (b : Byte) (body : List Byte) :
    Delivers s (b :: body) ↔
      (InputStream.read s).1 = .int b.toNat ∧ Delivers (InputStream.read s).2 body := by
  constructor
  · intro h
    refine ⟨h 0, fun k => ?_⟩
    rw [← valueAt_succ_left, h (k + 1)]
    rfl
  · rintro ⟨hfirst, hrest⟩ k
    cases k with
    | zero => exact hfirst
    | succ k =>
      rw [valueAt_succ_left, hrest k]
      rfl

/-- A stream that is at its end and stays there delivers the empty body. -/
theorem delivers_nil_iff (s : σ) :
    Delivers s [] ↔ (InputStream.read s).1 = .int (-1) ∧ Delivers (InputStream.read s).2 [] := by
  constructor
  · intro h
    refine ⟨h 0, fun k => ?_⟩
    rw [← valueAt_succ_left]
    exact h (k + 1)
  · rintro ⟨hfirst, hrest⟩ k
    cases k with
    | zero => exact hfirst
    | succ k =>
      rw [valueAt_succ_left]
      exact hrest k

/-- A byte read as its unsigned value and narrowed again is the same byte. -/
theorem ofInt_toNat (b : Byte) : BitVec.ofInt 8 b.toNat = b := by
  simp

/-- The loop of `readAllBytes` ends on a faithful stream and returns the body. -/
theorem Delivers.readAllBytes_eq {s : σ} {body : List Byte} (h : Delivers s body) {fuel : ℕ}
    (hfuel : body.length < fuel) : readAllBytes fuel s = some body := by
  induction body generalizing s fuel with
  | nil =>
    obtain ⟨fuel, rfl⟩ := Nat.exists_eq_succ_of_ne_zero (by omega : fuel ≠ 0)
    have hend : (InputStream.read s).1 = .int (-1) := h 0
    rw [readAllBytes]
    cases hread : InputStream.read s with
    | mk v s' =>
      rw [hread] at hend
      obtain rfl : v = .int (-1) := hend
      rfl
  | cons b body ih =>
    obtain ⟨fuel, rfl⟩ := Nat.exists_eq_succ_of_ne_zero (by omega : fuel ≠ 0)
    obtain ⟨hfirst, hrest⟩ := (delivers_cons_iff s b body).mp h
    have hlt : body.length < fuel := by simpa using hfuel
    have hall := ih hrest hlt
    have hpos : (b.toNat : ℤ) ≠ -1 := by omega
    rw [readAllBytes]
    cases hread : InputStream.read s with
    | mk v s' =>
      rw [hread] at hfirst hall
      obtain rfl : v = .int b.toNat := hfirst
      simp only [if_neg hpos, hall, Option.map_some, ofInt_toNat]

/-- A stream that returns -1 and then stays as it is delivers the empty body. -/
theorem delivers_nil_of_stuck {s : σ} (hread : InputStream.read s = (.int (-1), s)) :
    Delivers s [] := by
  have hstay : ∀ k, afterReads s k = s := by
    intro k
    induction k with
    | zero => rfl
    | succ k ih => rw [afterReads, ih, hread]
  intro k
  rw [valueAt, hstay, hread]
  rfl

end Host
