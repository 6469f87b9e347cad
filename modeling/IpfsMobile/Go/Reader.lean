import IpfsMobile.Go.Call
import Mathlib.Data.List.Range
import Mathlib.Tactic.Common

/-!
# Readers, runs of reads and finite byte streams

A reader is asked again and again with buffers of the caller's choice. The
results are unconstrained here: the `io.Reader` contract is a predicate on
them, so that a type which breaks it can still be described. `Stream` is the
general finite reader that keeps the contract: any chunks, empty ones
included, then end-of-file or an error, with or without a last chunk.
-/

namespace Go

/-- One result of `Read(p)`: the count, the bytes the call wrote at the front
of `p`, and the error. -/
structure ReadResult where
  n : ℤ
  p : List Byte
  err : Option Err
  deriving DecidableEq, Repr

/-- The bytes `p[:n]` a caller takes from a result. -/
def ReadResult.taken (r : ReadResult) : List Byte := r.p.take r.n.toNat

/-- The `io.Reader` contract for a buffer of `cap` bytes: `n` counts the bytes
written, and they fit. -/
def ReadResult.Legal (r : ReadResult) (cap : ℕ) : Prop := r.n = r.p.length ∧ r.p.length ≤ cap

instance (r : ReadResult) (cap : ℕ) : Decidable (r.Legal cap) :=
  inferInstanceAs (Decidable (_ ∧ _))

/-- A legal result is taken whole. -/
theorem ReadResult.Legal.taken_eq {r : ReadResult} {cap : ℕ} (h : r.Legal cap) :
    r.taken = r.p := by
  simp [ReadResult.taken, h.1]

/-- The method set of `io.Reader`, on an explicit state. -/
class Reader (σ : Type) where
  /-- `Read(p)` with a buffer `p` of the given length. -/
  read : σ → ℕ → ReadResult × σ

section Runs

variable {σ : Type} [Reader σ]

/-- The reader before call number `k`, when call `i` uses a buffer of `caps i` bytes. -/
def stateAt (s : σ) (caps : ℕ → ℕ) : ℕ → σ
  | 0 => s
  | k + 1 => (Reader.read (stateAt s caps k) (caps k)).2

/-- The result of call number `k`. -/
def resultAt (s : σ) (caps : ℕ → ℕ) (k : ℕ) : ReadResult :=
  (Reader.read (stateAt s caps k) (caps k)).1

/-- The bytes taken from the first `m` results, in order. -/
def takenUpTo (results : ℕ → ReadResult) (m : ℕ) : List Byte :=
  (List.range m).flatMap fun k => (results k).taken

/-- Call number `last` is the first that reports the error `e`, and the results
up to it keep the contract. -/
structure RunEnds (s : σ) (caps : ℕ → ℕ) (last : ℕ) (e : Err) : Prop where
  /-- Every result up to the end keeps the contract. -/
  legal : ∀ k ≤ last, (resultAt s caps k).Legal (caps k)
  /-- The last result carries the error. -/
  err_last : (resultAt s caps last).err = some e
  /-- No earlier result carries it. -/
  err_before : ∀ k < last, (resultAt s caps k).err ≠ some e

@[simp] theorem takenUpTo_zero (results : ℕ → ReadResult) : takenUpTo results 0 = [] := rfl

/-- One more result appends what is taken from it. -/
theorem takenUpTo_succ (results : ℕ → ReadResult) (m : ℕ) :
    takenUpTo results (m + 1) = takenUpTo results m ++ (results m).taken := by
  simp [takenUpTo, List.range_succ]

/-- The first result can be split off at the front. -/
theorem takenUpTo_succ_left (results : ℕ → ReadResult) (m : ℕ) :
    takenUpTo results (m + 1) = (results 0).taken ++ takenUpTo (fun k => results (k + 1)) m := by
  simp [takenUpTo, List.range_succ_eq_map, List.flatMap_map]

/-- Results that agree up to `m` give the same bytes. -/
theorem takenUpTo_congr {results results' : ℕ → ReadResult} {m : ℕ}
    (h : ∀ k < m, results k = results' k) : takenUpTo results m = takenUpTo results' m := by
  induction m with
  | zero => rfl
  | succ m ih =>
    rw [takenUpTo_succ, takenUpTo_succ, ih fun k hk => h k (by omega), h m (by omega)]

/-- After the first call the run goes on from the next state with the rest of the buffers. -/
theorem stateAt_succ_left (s : σ) (caps : ℕ → ℕ) (k : ℕ) :
    stateAt s caps (k + 1) =
      stateAt (Reader.read s (caps 0)).2 (fun i => caps (i + 1)) k := by
  induction k with
  | zero => rfl
  | succ k ih => rw [stateAt, ih, stateAt]

/-- The results after the first call are those of the run from the next state. -/
theorem resultAt_succ_left (s : σ) (caps : ℕ → ℕ) (k : ℕ) :
    resultAt s caps (k + 1) =
      resultAt (Reader.read s (caps 0)).2 (fun i => caps (i + 1)) k := by
  rw [resultAt, stateAt_succ_left, resultAt]

/-- A run whose first result is legal and carries no end continues to the same end. -/
theorem RunEnds.of_next {s : σ} {caps : ℕ → ℕ} {last : ℕ} {e : Err}
    (hlegal : (resultAt s caps 0).Legal (caps 0)) (herr : (resultAt s caps 0).err ≠ some e)
    (hnext : RunEnds (Reader.read s (caps 0)).2 (fun i => caps (i + 1)) last e) :
    RunEnds s caps (last + 1) e where
  legal := by
    intro k hk
    cases k with
    | zero => exact hlegal
    | succ k =>
      rw [resultAt_succ_left]
      exact hnext.legal k (by omega)
  err_last := by
    rw [resultAt_succ_left]
    exact hnext.err_last
  err_before := by
    intro k hk
    cases k with
    | zero => exact herr
    | succ k =>
      rw [resultAt_succ_left]
      exact hnext.err_before k (by omega)

end Runs

/-- A finite byte stream: chunks as they become available, then end-of-file or an
error. The last result may carry bytes together with its error. -/
inductive Stream where
  | more (chunk : List Byte) (rest : Stream)
  | eof (last : List Byte)
  | fail (last : List Byte) (text : Str)
  deriving DecidableEq, Repr

namespace Stream

/-- All bytes the stream delivers before it ends. -/
def bytes : Stream → List Byte
  | more chunk rest => chunk ++ rest.bytes
  | eof last => last
  | fail last _ => last

/-- The error that ends the stream: `io.EOF` when it ends cleanly. -/
def ending : Stream → Err
  | more _ rest => rest.ending
  | eof _ => .eof
  | fail _ text => .other text

/-- The bytes that arrive together with the end. -/
def lastChunk : Stream → List Byte
  | more _ rest => rest.lastChunk
  | eof last => last
  | fail last _ => last

/-- A bound on the number of reads that are still possible. -/
def weight : Stream → ℕ
  | more chunk rest => chunk.length + 1 + rest.weight
  | eof last => last.length + 1
  | fail last _ => last.length + 1

/-- Hand out a chunk through a buffer of `cap` bytes: whole, with the result's
error and the state after it, or else as many bytes as fit. -/
def serve (chunk : List Byte) (cap : ℕ) (err : Option Err) (after : Stream)
    (left : List Byte → Stream) : ReadResult × Stream :=
  if chunk.length ≤ cap then (⟨chunk.length, chunk, err⟩, after)
  else (⟨cap, chunk.take cap, none⟩, left (chunk.drop cap))

/-- `Read(p)` on a stream: at most one chunk at a time, cut when the buffer is smaller. -/
def read : Stream → ℕ → ReadResult × Stream
  | more chunk rest, cap => serve chunk cap none rest (more · rest)
  | eof last, cap => serve last cap (some .eof) (eof []) eof
  | fail last text, cap => serve last cap (some (.other text)) (fail [] text) (fail · text)

instance : Reader Stream := ⟨Stream.read⟩

/-- What one `serve` can do: hand out everything, or fill the buffer. -/
theorem serve_cases (chunk : List Byte) (cap : ℕ) (err : Option Err) (after : Stream)
    (left : List Byte → Stream) :
    (chunk.length ≤ cap ∧ serve chunk cap err after left = (⟨chunk.length, chunk, err⟩, after)) ∨
    (cap < chunk.length ∧
      serve chunk cap err after left = (⟨cap, chunk.take cap, none⟩, left (chunk.drop cap))) := by
  by_cases h : chunk.length ≤ cap
  · exact Or.inl ⟨h, if_pos h⟩
  · exact Or.inr ⟨by omega, if_neg h⟩

/-- The cut result is legal for the buffer that cuts it. -/
theorem legal_take {chunk : List Byte} {cap : ℕ} (h : cap < chunk.length) :
    ReadResult.Legal ⟨cap, chunk.take cap, none⟩ cap := by
  simp only [ReadResult.Legal, List.length_take]
  omega

/-- One read of a stream is legal. Either it reports no error, takes its bytes off
the front and leaves less to read, or it reports the end with all that was left. -/
theorem read_spec (st : Stream) {cap : ℕ} (hcap : 1 ≤ cap) :
    (st.read cap).1.Legal cap ∧
    (((st.read cap).1.err = none ∧ st.bytes = (st.read cap).1.p ++ (st.read cap).2.bytes ∧
        (st.read cap).2.ending = st.ending ∧ (st.read cap).2.lastChunk <:+ st.lastChunk ∧
        (st.lastChunk ≠ [] → (st.read cap).2.lastChunk ≠ []) ∧
        (st.read cap).2.weight < st.weight) ∨
      ((st.read cap).1.err = some st.ending ∧ st.bytes = (st.read cap).1.p ∧
        (st.read cap).1.p = st.lastChunk)) := by
  cases st with
  | more chunk rest =>
    obtain ⟨h, heq⟩ | ⟨h, heq⟩ := serve_cases chunk cap none rest (more · rest)
    · simp only [read, heq, bytes, ending, lastChunk, weight, ReadResult.Legal]
      exact ⟨⟨trivial, h⟩, Or.inl ⟨trivial, trivial, trivial, List.suffix_rfl, id, by omega⟩⟩
    · simp only [read, heq, bytes, ending, lastChunk, weight]
      refine ⟨legal_take h, Or.inl ⟨trivial, ?_, trivial, List.suffix_rfl, id, ?_⟩⟩
      · rw [← List.append_assoc, List.take_append_drop]
      · rw [List.length_drop]
        omega
  | eof last =>
    obtain ⟨h, heq⟩ | ⟨h, heq⟩ := serve_cases last cap (some .eof) (eof []) eof
    · simp only [read, heq, bytes, ending, lastChunk, ReadResult.Legal]
      exact ⟨⟨trivial, h⟩, Or.inr ⟨trivial, trivial, trivial⟩⟩
    · simp only [read, heq, bytes, ending, lastChunk, weight]
      refine ⟨legal_take h, Or.inl ⟨trivial, (List.take_append_drop _ _).symm, trivial,
        List.drop_suffix _ _, fun _ => ?_, ?_⟩⟩
      · simpa using h
      · rw [List.length_drop]
        omega
  | fail last text =>
    obtain ⟨h, heq⟩ | ⟨h, heq⟩ :=
      serve_cases last cap (some (.other text)) (fail [] text) (fail · text)
    · simp only [read, heq, bytes, ending, lastChunk, ReadResult.Legal]
      exact ⟨⟨trivial, h⟩, Or.inr ⟨trivial, trivial, trivial⟩⟩
    · simp only [read, heq, bytes, ending, lastChunk, weight]
      refine ⟨legal_take h, Or.inl ⟨trivial, (List.take_append_drop _ _).symm, trivial,
        List.drop_suffix _ _, fun _ => ?_, ?_⟩⟩
      · simpa using h
      · rw [List.length_drop]
        omega

/-- Whatever non-empty buffers the caller uses, a stream reaches its end after
finitely many reads, has then delivered exactly its bytes, and the end comes with
data exactly when the last chunk is not empty. -/
theorem run_ends (st : Stream) (caps : ℕ → ℕ) (hcaps : ∀ k, 1 ≤ caps k) :
    ∃ last, RunEnds st caps last st.ending ∧ takenUpTo (resultAt st caps) (last + 1) = st.bytes ∧
      ((resultAt st caps last).p = [] ↔ st.lastChunk = []) := by
  induction hw : st.weight using Nat.strongRecOn generalizing st caps with
  | ind w ih =>
    obtain ⟨hlegal, ⟨hnone, hbytes, hending, hsuffix, hne, hless⟩ | ⟨hend, hbytes, hlast⟩⟩ :=
      st.read_spec (hcaps 0)
    · obtain ⟨last, hrun, htaken, hdata⟩ := ih _ (by omega) (st.read (caps 0)).2
        (fun i => caps (i + 1)) (fun k => hcaps (k + 1)) rfl
      have herr : (resultAt st caps 0).err ≠ some st.ending := by
        change (st.read (caps 0)).1.err ≠ _
        simp [hnone]
      rw [hending] at hrun
      refine ⟨last + 1, hrun.of_next hlegal herr, ?_, ?_⟩
      · rw [takenUpTo_succ_left, hbytes]
        refine congrArg₂ (· ++ ·) hlegal.taken_eq ?_
        rw [← htaken]
        exact takenUpTo_congr fun k _ => resultAt_succ_left st caps k
      · rw [resultAt_succ_left]
        refine hdata.trans ⟨fun h => ?_, fun h => ?_⟩
        · by_contra hcon
          exact hne hcon h
        · simpa [h] using hsuffix
    · refine ⟨0, ⟨fun k hk => ?_, hend, fun k hk => absurd hk (Nat.not_lt_zero k)⟩, ?_, ?_⟩
      · obtain rfl : k = 0 := by omega
        exact hlegal
      · rw [takenUpTo_succ, takenUpTo_zero, hbytes]
        exact hlegal.taken_eq
      · change (st.read (caps 0)).1.p = [] ↔ _
        rw [hlast]

/-- `ioutil.ReadAll`: read until an error and return what was read; end-of-file
is not an error. -/
def readAll : Stream → List Byte × Option Err
  | more chunk rest => (chunk ++ rest.readAll.1, rest.readAll.2)
  | eof last => (last, none)
  | fail last text => (last, some (.other text))

/-- The error `ReadAll` reports for the end of a stream. -/
def readAllErr : Err → Option Err
  | .eof => none
  | .other text => some (.other text)

/-- `ReadAll` returns all bytes, and the error unless the stream ends cleanly. -/
theorem readAll_eq (st : Stream) : st.readAll = (st.bytes, readAllErr st.ending) := by
  induction st with
  | more chunk rest ih => simp [readAll, bytes, ending, ih]
  | eof last => rfl
  | fail last text => rfl

/-- This is what a loop of reads through any buffers collects. -/
example (st : Stream) (caps : ℕ → ℕ) (hcaps : ∀ k, 1 ≤ caps k) :
    ∃ last, RunEnds st caps last st.ending ∧
      st.readAll = (takenUpTo (resultAt st caps) (last + 1), readAllErr st.ending) := by
  obtain ⟨last, hrun, htaken, -⟩ := st.run_ends caps hcaps
  exact ⟨last, hrun, by rw [readAll_eq, htaken]⟩

end Stream

end Go
