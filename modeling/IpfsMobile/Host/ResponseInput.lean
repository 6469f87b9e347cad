import IpfsMobile.Core.ResponseRead
import IpfsMobile.Host.InputStream

/-!
# `ResponseInput`

The class wraps an open response as an input stream. It keeps one buffer with two
counters: `readCount`, the length of the chunk in the buffer or -1 at the end, and
`readIndex`, the position of the next byte. The same class stands in the test sources
and in the demo.
-/

namespace Host

open Go (Byte)

/-- What `response.read(buf)` does: fill the front of the buffer with a chunk that
fits and return its length, return -1, or throw. -/
inductive ReadAnswer where
  | chunk (data : List Byte)
  | eof
  | throws
  deriving DecidableEq, Repr

/-- A response as the host language sees it, on an explicit state. -/
class HostResponse (ρ : Type) where
  /-- `response.read(buf)` with a buffer of the given size. -/
  read : ρ → ℕ → ReadAnswer × ρ

/-- A response that gives the listed answers, and -1 after them. -/
instance : HostResponse (List ReadAnswer) where
  read answers _ := (answers.head?.getD .eof, answers.tail)

/-- `ResponseInput`: the response and the three private fields. -/
structure ResponseInput (ρ : Type) where
  response : ρ
  buf : List Byte
  readCount : ℤ
  readIndex : ℕ

namespace ResponseInput

variable {ρ : Type}

/-- The value of `bufSize` unless another one is given. -/
def defaultBufSize : ℕ := 1024

/-- The constructor, with `bufSize` as in `ByteArray(bufSize)`. -/
def new (response : ρ) (bufSize : ℕ) : ResponseInput ρ where
  response := response
  buf := List.replicate bufSize 0
  readCount := 0
  readIndex := 0

/-- `return buf[readIndex++].toInt()`. The byte is signed in the host language, and an
index outside the buffer throws. -/
def handOut (inp : ResponseInput ρ) : ReadValue × ResponseInput ρ :=
  let inp' := { inp with readIndex := inp.readIndex + 1 }
  match inp.buf[inp.readIndex]? with
  | some b => (.int b.toInt, inp')
  | none => (.exception, inp')

/-- The reset of both counters when the chunk is used up. -/
def resetIfUsed (inp : ResponseInput ρ) : ResponseInput ρ :=
  if inp.readCount > 0 ∧ (inp.readIndex : ℤ) = inp.readCount then
    { inp with readCount := 0, readIndex := 0 }
  else inp

/-- The branch for `readCount == 0`: ask the response. When it throws, the counters
stay as the reset left them. -/
def refill [HostResponse ρ] (inp : ResponseInput ρ) : ReadValue × ResponseInput ρ :=
  let x := HostResponse.read inp.response inp.buf.length
  match x.1 with
  | .throws => (.exception, { inp with response := x.2 })
  | .eof => (.int (-1), { inp with response := x.2, readCount := -1 })
  | .chunk data =>
    handOut
      { response := x.2
        buf := data ++ inp.buf.drop data.length
        readCount := data.length
        readIndex := 0 }

/-- `read()`. -/
def read [HostResponse ρ] (inp : ResponseInput ρ) : ReadValue × ResponseInput ρ :=
  if inp.readCount = -1 then (.int (-1), inp)
  else
    let inp := inp.resetIfUsed
    if inp.readCount = 0 then inp.refill else inp.handOut

instance [HostResponse ρ] : InputStream (ResponseInput ρ) := ⟨ResponseInput.read⟩

/-- The buffer holds a chunk of which `pending` has not been handed out; without a
pending byte the next `read()` asks the response. -/
structure Holds (inp : ResponseInput ρ) (pending : List Byte) : Prop where
  /-- The chunk has a length, so the end was not seen. -/
  count : ∃ n : ℕ, inp.readCount = n ∧ n ≤ inp.buf.length ∧
    (n = 0 → pending = []) ∧
    (0 < n → inp.readIndex ≤ n ∧ pending = (inp.buf.take n).drop inp.readIndex)

/-- A new input holds nothing yet. -/
theorem holds_new (response : ρ) (bufSize : ℕ) : (new response bufSize).Holds [] :=
  ⟨⟨0, rfl, Nat.zero_le _, fun _ => rfl, fun h => absurd h (Nat.lt_irrefl 0)⟩⟩

/-- A pending byte is at the position of the next one. -/
theorem Holds.getElem? {inp : ResponseInput ρ} {b : Byte} {pending : List Byte}
    (h : inp.Holds (b :: pending)) : ∃ n : ℕ, inp.readCount = n ∧ 0 < n ∧ n ≤ inp.buf.length ∧
      inp.readIndex < n ∧ inp.buf[inp.readIndex]? = some b ∧
      pending = (inp.buf.take n).drop (inp.readIndex + 1) := by
  obtain ⟨n, hn, hle, hzero, hpos⟩ := h.count
  have hn0 : 0 < n := by
    by_contra hcon
    exact List.cons_ne_nil _ _ (hzero (by omega))
  obtain ⟨hindex, hpending⟩ := hpos hn0
  have hlt : inp.readIndex < (inp.buf.take n).length := by
    by_contra hcon
    rw [List.drop_eq_nil_of_le (by omega)] at hpending
    exact List.cons_ne_nil _ _ hpending
  rw [List.drop_eq_getElem_cons hlt] at hpending
  obtain ⟨hb, hrest⟩ := List.cons.inj hpending
  rw [List.length_take] at hlt
  refine ⟨n, hn, hn0, hle, by omega, ?_, hrest⟩
  rw [hb, List.getElem_take, List.getElem?_eq_getElem]

/-- A pending byte is handed out with its signed value, without asking the response. -/
theorem read_of_pending [HostResponse ρ] {inp : ResponseInput ρ} {b : Byte} {pending : List Byte}
    (h : inp.Holds (b :: pending)) : ∃ inp', inp.read = (.int b.toInt, inp') ∧ inp'.Holds pending ∧
      inp'.response = inp.response ∧ inp'.buf = inp.buf := by
  obtain ⟨n, hn, hn0, hle, hindex, hget, hpending⟩ := h.getElem?
  have hkeep : inp.resetIfUsed = inp := if_neg (by omega)
  refine ⟨{ inp with readIndex := inp.readIndex + 1 }, ?_, ⟨⟨n, hn, hle, ?_, ?_⟩⟩, rfl, rfl⟩
  · simp only [read, hkeep, hn, handOut, hget]
    rw [if_neg (by omega), if_neg (by omega)]
  · intro hzero
    omega
  · intro _
    exact ⟨hindex, hpending⟩

/-- Without a pending byte, `read()` is what the response's next answer makes of it. -/
theorem read_of_holds_nil [HostResponse ρ] {inp : ResponseInput ρ} (h : inp.Holds []) :
    ∃ index, inp.read = refill { inp with readCount := 0, readIndex := index } := by
  obtain ⟨n, hn, hle, -, hpos⟩ := h.count
  by_cases hn0 : n = 0
  · have hzero : inp.readCount = 0 := by omega
    have hkeep : inp.resetIfUsed = inp := if_neg (by omega)
    refine ⟨inp.readIndex, ?_⟩
    have hself : { inp with readCount := 0, readIndex := inp.readIndex } = inp := by
      rw [← hzero]
    rw [read, if_neg (by omega), hkeep, if_pos hzero, hself]
  · obtain ⟨hindex, hpending⟩ := hpos (by omega)
    have hlen := List.drop_eq_nil_iff.mp hpending.symm
    rw [List.length_take] at hlen
    have hreset : inp.resetIfUsed = { inp with readCount := 0, readIndex := 0 } :=
      if_pos (by omega)
    refine ⟨0, ?_⟩
    rw [read, if_neg (by omega), hreset]
    rfl

/-- A non-empty chunk that fits replaces the buffer's front, and its first byte is
handed out. -/
theorem read_of_chunk [HostResponse ρ] {inp : ResponseInput ρ} (h : inp.Holds []) {b : Byte}
    {data : List Byte}
    (hanswer : (HostResponse.read inp.response inp.buf.length).1 = .chunk (b :: data)) :
    ∃ inp', inp.read = (.int b.toInt, inp') ∧ inp'.Holds data ∧
      inp'.response = (HostResponse.read inp.response inp.buf.length).2 ∧
      inp'.buf = b :: data ++ inp.buf.drop (b :: data).length := by
  obtain ⟨index, hread⟩ := read_of_holds_nil h
  rw [hread]
  simp only [refill, hanswer]
  refine ⟨_, rfl, ⟨⟨(b :: data).length, rfl, ?_, ?_, ?_⟩⟩, rfl, rfl⟩
  · simp only [List.length_append]
    omega
  · intro hzero
    simp at hzero
  · intro _
    refine ⟨by simp, ?_⟩
    rw [List.take_left']
    · rfl
    · rfl

/-- An empty chunk makes `read()` hand out whatever stands first in the buffer. -/
theorem read_of_empty_chunk [HostResponse ρ] {inp : ResponseInput ρ} (h : inp.Holds [])
    {b : Byte} {old : List Byte} (hbuf : inp.buf = b :: old)
    (hanswer : (HostResponse.read inp.response inp.buf.length).1 = .chunk []) :
    ∃ inp', inp.read = (.int b.toInt, inp') ∧ inp'.Holds [] ∧
      inp'.response = (HostResponse.read inp.response inp.buf.length).2 ∧
      inp'.buf = inp.buf := by
  obtain ⟨index, hread⟩ := read_of_holds_nil h
  obtain ⟨response, buf, count, position⟩ := inp
  obtain rfl : buf = b :: old := hbuf
  rw [hread]
  simp only [refill, hanswer]
  exact ⟨_, rfl, ⟨⟨0, rfl, Nat.zero_le _, fun _ => rfl, fun h => absurd h (Nat.lt_irrefl 0)⟩⟩,
    rfl, rfl⟩

/-- After -1 from the response, `read()` returns -1 and never asks again. -/
theorem read_of_eof [HostResponse ρ] {inp : ResponseInput ρ} (h : inp.Holds [])
    (hanswer : (HostResponse.read inp.response inp.buf.length).1 = .eof) :
    inp.read.1 = .int (-1) ∧ Delivers inp.read.2 [] := by
  obtain ⟨index, hread⟩ := read_of_holds_nil h
  rw [hread]
  simp only [refill, hanswer, true_and]
  refine delivers_nil_of_stuck ?_
  change read _ = _
  rw [read, if_pos rfl]

end ResponseInput

end Host
