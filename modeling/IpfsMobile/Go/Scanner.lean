import IpfsMobile.Go.Lines
import IpfsMobile.Go.Reader

/-!
# A scanner for lines

`bufio.Scanner` with its default split function and its default limit of 64 KiB. It
keeps the bytes read and not yet given out in a buffer that is shifted and grown as
needed, gives up when a line does not fit in the largest buffer or when a reader
returns nothing too often, and after any error hands out what it still holds.
-/

namespace Go

/-- `startBufSize`: the size of the first buffer. -/
def startBufSize : ℕ := 4096

/-- `MaxScanTokenSize`: the size of the largest buffer. -/
def maxScanTokenSize : ℕ := 64 * 1024

/-- `maxConsecutiveEmptyReads`. -/
def maxConsecutiveEmptyReads : ℕ := 100

/-- `io.ErrNoProgress`. -/
def errNoProgress : Err := .other (str "multiple Read calls return no data or error")

/-- `bufio.ErrBadReadCount`. -/
def errBadReadCount : Err := .other (str "bufio.Scanner: Read returned impossible count")

/-- `bufio.ScanLines`: how far to advance and the token, unless more data is needed. -/
def scanLines (data : List Byte) (atEOF : Bool) : Option (ℕ × List Byte) :=
  if newline ∈ data then
    some ((data.takeWhile (· ≠ newline)).length + 1, dropCR (data.takeWhile (· ≠ newline)))
  else if atEOF ∧ data ≠ [] then some (data.length, dropCR data)
  else none

/-- The inner loop of `Scan`: read until there is data or an error, and give up when no
try is left. -/
def readSome : ℕ → Stream → ℕ → List Byte × Option Err × Stream
  | 0, input, _ => ([], some errNoProgress, input)
  | tries + 1, input, cap =>
    let x := input.read cap
    if x.1.n < 0 ∨ cap < x.1.n then ([], some errBadReadCount, x.2)
    else
      match x.1.err with
      | some e => (x.1.taken, some e, x.2)
      | none => if 0 < x.1.n then (x.1.taken, none, x.2) else readSome tries x.2 cap

/-- The fields of a scanner: the input, the bytes `buf[start:end]` it holds, their
position in a buffer of `size` bytes, and the error it has met. -/
structure Scanner where
  input : Stream
  held : List Byte := []
  start : ℕ := 0
  size : ℕ := 0
  err : Option Err := none

namespace Scanner

/-- `bufio.NewScanner`. -/
def new (input : Stream) : Scanner := { input := input }

/-- A token out of what is held. -/
def token (s : Scanner) : Option (List Byte × Scanner) :=
  match scanLines s.held s.err.isSome with
  | none => none
  | some (advance, token) =>
    some (token, { s with held := s.held.drop advance, start := s.start + advance })

/-- Move the bytes to the front if there is much room there or the room is needed. -/
def shift (s : Scanner) : Scanner :=
  if 0 < s.start ∧ (s.start + s.held.length = s.size ∨ s.size / 2 < s.start) then
    { s with start := 0 }
  else s

/-- A larger buffer if this one is full; none if it is the largest. -/
def grow (s : Scanner) : Option Scanner :=
  if s.start + s.held.length = s.size then
    if maxScanTokenSize ≤ s.size then none
    else
      some { s with
        start := 0
        size := min (if s.size = 0 then startBufSize else 2 * s.size) maxScanTokenSize }
  else some s

/-- Read into the room behind the bytes held. -/
def fill (s : Scanner) : Scanner :=
  let x := readSome (maxConsecutiveEmptyReads + 1) s.input (s.size - (s.start + s.held.length))
  { s with held := s.held ++ x.1, err := x.2.1, input := x.2.2 }

end Scanner

/-- A read takes from what is left, and data without an error makes it less. -/
theorem Stream.weight_read (st : Stream) (cap : ℕ) :
    (st.read cap).2.weight ≤ st.weight ∧
      ((st.read cap).1.err = none → 0 < (st.read cap).1.n →
        (st.read cap).2.weight < st.weight) := by
  cases st with
  | more chunk rest =>
    obtain ⟨h, heq⟩ | ⟨h, heq⟩ := serve_cases chunk cap none rest (more · rest)
    · simp only [read, heq, weight]
      omega
    · simp only [read, heq, weight, List.length_drop]
      omega
  | eof last =>
    obtain ⟨h, heq⟩ | ⟨h, heq⟩ := serve_cases last cap (some .eof) (eof []) eof
    · simp [read, heq, weight]
    · simp only [read, heq, weight, List.length_drop]
      omega
  | fail last text =>
    obtain ⟨h, heq⟩ | ⟨h, heq⟩ :=
      serve_cases last cap (some (.other text)) (fail [] text) (fail · text)
    · simp [read, heq, weight]
    · simp only [read, heq, weight, List.length_drop]
      omega

/-- The inner loop takes from what is left, and less is left unless it meets an error. -/
theorem weight_readSome (tries : ℕ) (input : Stream) (cap : ℕ) :
    (readSome tries input cap).2.2.weight ≤ input.weight ∧
      ((readSome tries input cap).2.1 = none →
        (readSome tries input cap).2.2.weight < input.weight) := by
  induction tries generalizing input with
  | zero => simp [readSome]
  | succ tries ih =>
    obtain ⟨hle, hlt⟩ := input.weight_read cap
    simp only [readSome]
    split
    · exact ⟨hle, fun h => by cases h⟩
    · split
      · exact ⟨hle, fun h => by cases h⟩
      · rename_i herr
        split
        · rename_i hn
          exact ⟨hle, fun _ => hlt herr hn⟩
        · obtain ⟨hle', hlt'⟩ := ih (input.read cap).2
          exact ⟨hle'.trans hle, fun h => (hlt' h).trans_le hle⟩

namespace Scanner

/-- A token is a line off the front, or all that is held after an error. -/
theorem token_some {s s' : Scanner} {tok : List Byte} (h : s.token = some (tok, s')) :
    (∃ line rest, newline ∉ line ∧ s.held = line ++ newline :: rest ∧ tok = dropCR line ∧
      s' = { s with held := rest, start := s.start + (line.length + 1) }) ∨
    (newline ∉ s.held ∧ s.held ≠ [] ∧ s.err.isSome = true ∧ tok = dropCR s.held ∧
      s' = { s with held := [], start := s.start + s.held.length }) := by
  unfold token scanLines at h
  by_cases hmem : newline ∈ s.held
  · obtain ⟨line, rest, hheld, hline⟩ := List.eq_append_cons_of_mem hmem
    have htake : s.held.takeWhile (· ≠ newline) = line := by
      rw [hheld, List.takeWhile_append_of_pos]
      · simp
      · intro b hb
        have hne : b ≠ newline := by
          rintro rfl
          exact hline hb
        simpa using hne
    have hdrop : s.held.drop (line.length + 1) = rest := by
      simp [hheld]
    simp only [if_pos hmem, htake, hdrop] at h
    obtain ⟨rfl, rfl⟩ := Prod.mk.inj (Option.some.inj h)
    exact Or.inl ⟨line, rest, hline, hheld, rfl, rfl⟩
  · rw [if_neg hmem] at h
    by_cases hend : s.err.isSome = true ∧ s.held ≠ []
    · simp only [if_pos hend, List.drop_length] at h
      obtain ⟨rfl, rfl⟩ := Prod.mk.inj (Option.some.inj h)
      exact Or.inr ⟨hmem, hend.2, hend.1, rfl, rfl⟩
    · simp [if_neg hend] at h

/-- Without a token there is no newline, and nothing is held after an error. -/
theorem token_none {s : Scanner} (h : s.token = none) :
    newline ∉ s.held ∧ (s.err.isSome = true → s.held = []) := by
  unfold token scanLines at h
  by_cases hmem : newline ∈ s.held
  · simp [if_pos hmem] at h
  · refine ⟨hmem, fun herr => ?_⟩
    by_contra hne
    simp [if_neg hmem, herr, hne] at h

/-- The calls of `Scan` that are still possible, as a measure. -/
def left (s : Scanner) : ℕ := s.input.weight + if s.err.isNone then 1 else 0

/-- A token leaves less to hand out. -/
theorem length_held_of_token {s s' : Scanner} {tok : List Byte} (h : s.token = some (tok, s')) :
    s'.left = s.left ∧ s'.held.length < s.held.length := by
  rcases token_some h with ⟨line, rest, -, hheld, -, rfl⟩ | ⟨-, hne, -, -, rfl⟩
  · refine ⟨rfl, ?_⟩
    simp only [hheld, List.length_append, List.length_cons]
    omega
  · exact ⟨rfl, List.length_pos_iff.mpr hne⟩

@[simp] theorem shift_input (s : Scanner) : s.shift.input = s.input := by
  unfold shift
  split <;> rfl

@[simp] theorem shift_held (s : Scanner) : s.shift.held = s.held := by
  unfold shift
  split <;> rfl

@[simp] theorem shift_size (s : Scanner) : s.shift.size = s.size := by
  unfold shift
  split <;> rfl

@[simp] theorem shift_err (s : Scanner) : s.shift.err = s.err := by
  unfold shift
  split <;> rfl

/-- A buffer with room, possibly a new one, has the same input, bytes and error. -/
theorem grow_some {s s' : Scanner} (h : s.grow = some s') :
    s'.input = s.input ∧ s'.held = s.held ∧ s'.err = s.err := by
  unfold grow at h
  split at h
  · split at h <;> cases h
    exact ⟨rfl, rfl, rfl⟩
  · cases h
    exact ⟨rfl, rfl, rfl⟩

/-- Reading leaves less to read, or there is an error now. -/
theorem left_fill {s s' : Scanner} (herr : s.err = none) (h : s.shift.grow = some s') :
    s'.fill.left < s.left := by
  obtain ⟨hinput, -, -⟩ := grow_some h
  rw [shift_input] at hinput
  obtain ⟨hle, hlt⟩ := weight_readSome (maxConsecutiveEmptyReads + 1) s'.input
    (s'.size - (s'.start + s'.held.length))
  rw [hinput] at hle hlt
  simp only [left, fill, herr, hinput, Option.isNone_none, if_true]
  cases hres : (readSome (maxConsecutiveEmptyReads + 1) s.input
      (s'.size - (s'.start + s'.held.length))).2.1 with
  | none =>
    have := hlt hres
    simp only [Option.isNone_none, if_true]
    omega
  | some e =>
    simp only [Option.isNone_some, Bool.false_eq_true, if_false]
    omega

/-- The texts that `for scanner.Scan() { scanner.Text() }` goes through. -/
def tokens (s : Scanner) : List (List Byte) :=
  match _htoken : s.token with
  | some (token, s') => token :: tokens s'
  | none =>
    match _herr : s.err with
    | some _ => []
    | none =>
      match _hgrow : s.shift.grow with
      | none => []
      | some s' => tokens s'.fill
termination_by (s.left, s.held.length)
decreasing_by
  · obtain ⟨hleft, hheld⟩ := length_held_of_token _htoken
    rw [hleft]
    exact Prod.Lex.right _ hheld
  · exact Prod.Lex.left _ _ (left_fill _herr _hgrow)

end Scanner

end Go
