import IpfsMobile.Core.Shell

/-!
# Reading an open response

`Response.Read` serves two kinds of callers. The host language takes -1 for the
end; a Go consumer that was handed the response as a `KReader` waits for `io.EOF`.
The results are compared here with those of the output underneath, for any reader
and any buffer lengths.
-/

namespace IpfsMobile.Core

open Go

/-- A response whose output is there to be read. -/
structure OpenResponse (σ : Type) where
  response : Response σ
  isOpen : response.res.output.isSome = true

variable {σ : Type}

/-- The open response over an output, as `post3` and `Post4` build it. -/
def OpenResponse.ofOutput (out : σ) : OpenResponse σ := ⟨⟨⟨some out, none⟩⟩, rfl⟩

variable [Reader σ]

/-- An open response has the method set of `KReader`. -/
instance : Reader (OpenResponse σ) where
  read r cap :=
    let x := Reader.read (r.response.res.output.get r.isOpen) cap
    (markEnd x.1, ⟨⟨{ r.response.res with output := some x.2 }⟩, rfl⟩)

/-- This is what `Response.read` does, which does not panic there. -/
example (r : OpenResponse σ) (cap : ℕ) :
    r.response.read cap = pure ((Reader.read r cap).1, (Reader.read r cap).2.response) := by
  obtain ⟨⟨⟨output, error⟩⟩, hopen⟩ := r
  cases output with
  | none => cases hopen
  | some out => rfl

/-- Reading a response moves its output on as reading the output does. -/
theorem stateAt_ofOutput (out : σ) (caps : ℕ → ℕ) (k : ℕ) :
    stateAt (OpenResponse.ofOutput out) caps k = OpenResponse.ofOutput (stateAt out caps k) := by
  induction k with
  | zero => rfl
  | succ k ih =>
    rw [stateAt, ih]
    rfl

/-- Each result of a response is the output's with its end marked. -/
theorem resultAt_ofOutput (out : σ) (caps : ℕ → ℕ) (k : ℕ) :
    resultAt (OpenResponse.ofOutput out) caps k = markEnd (resultAt out caps k) := by
  rw [resultAt, stateAt_ofOutput]
  rfl

/-- A result without end-of-file is passed on unchanged. -/
theorem markEnd_of_ne {r : ReadResult} (h : r.err ≠ some .eof) : markEnd r = r := if_neg h

/-- End-of-file becomes the count -1 without an error. -/
theorem markEnd_of_eof {r : ReadResult} (h : r.err = some .eof) :
    (markEnd r).n = -1 ∧ (markEnd r).err = none := by
  rw [markEnd, if_pos h]
  exact ⟨rfl, rfl⟩

/-- A marked result never carries end-of-file. -/
theorem markEnd_err_ne (r : ReadResult) : (markEnd r).err ≠ some .eof := by
  by_cases h : r.err = some .eof
  · simp [(markEnd_of_eof h).2]
  · rwa [markEnd_of_ne h]

/-- A caller that stops at the first -1 has by then been given every byte of the
results `delivered` up to call number `last`. -/
def Lossless (results delivered : ℕ → ReadResult) (last : ℕ) : Prop :=
  ∃ m, (results m).n = -1 ∧ (∀ k < m, 0 ≤ (results k).n) ∧
    takenUpTo results m = takenUpTo delivered (last + 1)

/-- Before the end, a response gives what its output gives. -/
theorem resultAt_ofOutput_of_lt {out : σ} {caps : ℕ → ℕ} {last : ℕ}
    (hrun : RunEnds out caps last .eof) {k : ℕ} (hk : k < last) :
    resultAt (OpenResponse.ofOutput out) caps k = resultAt out caps k := by
  rw [resultAt_ofOutput, markEnd_of_ne (hrun.err_before k hk)]

/-- The first -1 of a response comes from the read that reports end-of-file. -/
theorem eq_last_of_first_minus_one {out : σ} {caps : ℕ → ℕ} {last m : ℕ}
    (hrun : RunEnds out caps last .eof)
    (hm : (resultAt (OpenResponse.ofOutput out) caps m).n = -1)
    (hbefore : ∀ k < m, 0 ≤ (resultAt (OpenResponse.ofOutput out) caps k).n) : m = last := by
  have hlast : (resultAt (OpenResponse.ofOutput out) caps last).n = -1 := by
    rw [resultAt_ofOutput]
    exact (markEnd_of_eof hrun.err_last).1
  rcases Nat.lt_trichotomy m last with hlt | heq | hgt
  · rw [resultAt_ofOutput_of_lt hrun hlt, (hrun.legal m hlt.le).1] at hm
    omega
  · exact heq
  · have := hbefore last hgt
    omega

/-- What a response loses is what the output delivers together with end-of-file. -/
theorem lossless_iff_taken_nil {out : σ} {caps : ℕ → ℕ} {last : ℕ}
    (hrun : RunEnds out caps last .eof) :
    Lossless (resultAt (OpenResponse.ofOutput out) caps) (resultAt out caps) last ↔
      (resultAt out caps last).p = [] := by
  have hsame : takenUpTo (resultAt (OpenResponse.ofOutput out) caps) last =
      takenUpTo (resultAt out caps) last :=
    takenUpTo_congr fun k hk => resultAt_ofOutput_of_lt hrun hk
  rw [← (hrun.legal last le_rfl).taken_eq]
  constructor
  · rintro ⟨m, hm, hbefore, htaken⟩
    obtain rfl := eq_last_of_first_minus_one hrun hm hbefore
    rw [hsame, takenUpTo_succ] at htaken
    exact List.self_eq_append_right.mp htaken
  · intro htaken
    refine ⟨last, ?_, ?_, ?_⟩
    · rw [resultAt_ofOutput]
      exact (markEnd_of_eof hrun.err_last).1
    · intro k hk
      rw [resultAt_ofOutput_of_lt hrun hk, (hrun.legal k hk.le).1]
      exact Int.natCast_nonneg _
    · rw [hsame, takenUpTo_succ, htaken, List.append_nil]

/-- For an output that keeps the reader contract and ends in end-of-file, a response
loses no data exactly when end-of-file comes in a read of its own, without bytes. -/
theorem response_lossless_iff (out : σ) (caps : ℕ → ℕ) {last : ℕ}
    (hrun : RunEnds out caps last .eof) :
    Lossless (resultAt (OpenResponse.ofOutput out) caps) (resultAt out caps) last ↔
      (resultAt out caps last).n = 0 := by
  rw [lossless_iff_taken_nil hrun, (hrun.legal last le_rfl).1, ← List.length_eq_zero_iff]
  omega

/-- A body that arrives in two reads with an empty one between them and end-of-file
on its own. -/
def helloInChunks : Stream := .more (str "Hello") (.more [] (.more (str "World") (.eof [])))

/-- Reading `helloInChunks` ends with the fourth read. -/
theorem runEnds_helloInChunks : RunEnds helloInChunks (fun _ => 512) 3 .eof :=
  ⟨by decide, by decide, by decide⟩

/-- The condition on a body in two chunks. -/
theorem response_lossless_iff_two_chunks :
    RunEnds helloInChunks (fun _ => 512) 3 .eof ∧
      (Lossless (resultAt (OpenResponse.ofOutput helloInChunks) fun _ => 512)
          (resultAt helloInChunks fun _ => 512) 3 ↔
        (resultAt helloInChunks (fun _ => 512) 3).n = 0) :=
  ⟨runEnds_helloInChunks, response_lossless_iff _ _ runEnds_helloInChunks⟩

/-- A body that arrives together with end-of-file. -/
def helloAtOnce : Stream := .eof (str "Hello World")

/-- A body that arrives together with end-of-file is lost. -/
theorem not_lossless_data_with_eof :
    RunEnds helloAtOnce (fun _ => 1024) 0 .eof ∧
      ¬Lossless (resultAt (OpenResponse.ofOutput helloAtOnce) fun _ => 1024)
        (resultAt helloAtOnce fun _ => 1024) 0 := by
  have hrun : RunEnds helloAtOnce (fun _ => 1024) 0 .eof := ⟨by decide, by decide, by decide⟩
  refine ⟨hrun, ?_⟩
  rintro ⟨m, hm, hbefore, htaken⟩
  obtain rfl := eq_last_of_first_minus_one hrun hm hbefore
  exact absurd htaken (by decide)

/-- A consumer that follows the `io.Reader` protocol ends with the body: every count
fits its buffer, end-of-file comes after finitely many calls, and what was taken
by then is the body. -/
def Consumed (results : ℕ → ReadResult) (caps : ℕ → ℕ) (body : List Byte) : Prop :=
  ∃ m, (results m).err = some .eof ∧ (∀ k ≤ m, 0 ≤ (results k).n ∧ (results k).n ≤ caps k) ∧
    takenUpTo results (m + 1) = body

/-- No consumer that follows the `io.Reader` protocol ends on a response: end-of-file
never comes, whatever the output and the buffers are. -/
theorem not_consumed_response (out : σ) (caps : ℕ → ℕ) (body : List Byte) :
    ¬Consumed (resultAt (OpenResponse.ofOutput out) caps) caps body := by
  rintro ⟨m, hend, _, _⟩
  rw [resultAt_ofOutput] at hend
  exact markEnd_err_ne _ hend

/-- The body "Hello World" in two chunks is one that no consumer gets to the end of: the
fourth read through 512-byte buffers has the count -1 and no error. -/
theorem not_consumed_hello :
    (resultAt (OpenResponse.ofOutput helloInChunks) (fun _ => 512) 3).n = -1 ∧
      (resultAt (OpenResponse.ofOutput helloInChunks) (fun _ => 512) 3).err = none ∧
      ¬Consumed (resultAt (OpenResponse.ofOutput helloInChunks) fun _ => 512) (fun _ => 512)
          helloInChunks.bytes := by
  refine ⟨by decide, by decide, ?_⟩
  rintro ⟨m, hend, _, _⟩
  rw [resultAt_ofOutput] at hend
  exact markEnd_err_ne _ hend

end IpfsMobile.Core
