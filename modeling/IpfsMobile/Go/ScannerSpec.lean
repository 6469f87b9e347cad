import IpfsMobile.Go.Scanner
import Mathlib.Data.List.TakeWhile

/-!
# What a scanner hands out

Whatever the chunks and the buffer's size on the way, a scanner hands out the lines of
the bytes that it gets to see, up to the first line that does not fit in the largest
buffer; an unfinished line comes last, if it fits. It sees all bytes up to the first
place where the reader returns nothing too many times in a row.
-/

namespace Go

/-- What of a stream a scanner can get to see. -/
structure View where
  /-- The bytes before the scanner gives up or the stream ends. -/
  seen : List Byte
  /-- The bytes after the place where it gives up. -/
  rest : List Byte
  /-- The end of the stream comes together with bytes. -/
  dataWithEnd : Bool
  deriving DecidableEq, Repr

/-- The view of a stream with so many empty reads left to accept in a row. -/
def view : ℕ → Stream → View
  | 0, st => ⟨[], st.bytes, false⟩
  | tries + 1, .more [] rest => view tries rest
  | _ + 1, .more (b :: chunk) rest =>
    let v := view (maxConsecutiveEmptyReads + 1) rest
    { v with seen := b :: chunk ++ v.seen }
  | _ + 1, .eof last => ⟨last, [], last ≠ []⟩
  | _ + 1, .fail last _ => ⟨last, [], last ≠ []⟩

/-- The view of a stream by a new scanner. -/
def Stream.view (st : Stream) : View := Go.view (maxConsecutiveEmptyReads + 1) st

/-- Without a try left nothing is seen. -/
theorem view_zero (st : Stream) : view 0 st = ⟨[], st.bytes, false⟩ := by
  unfold view
  rfl

/-- A chunk that is not empty is seen. -/
theorem view_more {chunk : List Byte} (h : chunk ≠ []) (tries : ℕ) (rest : Stream) :
    view (tries + 1) (.more chunk rest) =
      { rest.view with seen := chunk ++ rest.view.seen } := by
  cases chunk with
  | nil => exact absurd rfl h
  | cons b chunk => rfl

/-- What is seen and what is not are the bytes of the stream. -/
theorem bytes_eq_view (tries : ℕ) (st : Stream) :
    st.bytes = (view tries st).seen ++ (view tries st).rest := by
  induction st generalizing tries with
  | more chunk rest ih =>
    cases tries with
    | zero => simp [view_zero]
    | succ tries =>
      cases chunk with
      | nil => exact ih tries
      | cons b chunk =>
        rw [Stream.bytes, ih (maxConsecutiveEmptyReads + 1), ← List.append_assoc]
        rfl
  | eof last => cases tries <;> simp [view, Stream.bytes]
  | fail last text => cases tries <;> simp [view, Stream.bytes]

/-- Bytes that come with the end are seen. -/
theorem seen_ne_nil {tries : ℕ} {st : Stream} (h : (view tries st).dataWithEnd = true) :
    (view tries st).seen ≠ [] := by
  induction st generalizing tries with
  | more chunk rest ih =>
    cases tries with
    | zero => simp [view_zero] at h
    | succ tries =>
      cases chunk with
      | nil => exact ih h
      | cons b chunk => simp [view]
  | eof last =>
    cases tries with
    | zero => simp [view_zero] at h
    | succ tries => exact of_decide_eq_true h
  | fail last text =>
    cases tries with
    | zero => simp [view_zero] at h
    | succ tries => exact of_decide_eq_true h

/-- How long an unfinished line may be. One that fills the largest buffer is handed out
only if the end comes together with its last bytes. -/
def View.limit (v : View) : ℕ := if v.dataWithEnd then maxScanTokenSize else maxScanTokenSize - 1

/-- The texts a scanner hands out for the bytes it sees. -/
def deliver (text : List Byte) (limit : ℕ) : List (List Byte) :=
  ((rawLines text).takeWhile (·.length < maxScanTokenSize)).map dropCR ++
    if (∀ line ∈ rawLines text, line.length < maxScanTokenSize) ∧ unfinished text ≠ [] ∧
        (unfinished text).length ≤ limit then
      [dropCR (unfinished text)]
    else []

/-- If every line fits, the terminated lines are handed out, and the unfinished one if it
is not too long. -/
theorem deliver_of_fits {text : List Byte}
    (h : ∀ line ∈ rawLines text, line.length < maxScanTokenSize) (limit : ℕ) :
    deliver text limit = terminatedLines text ++
      if unfinished text ≠ [] ∧ (unfinished text).length ≤ limit then
        [dropCR (unfinished text)]
      else [] := by
  have hall : (rawLines text).takeWhile (·.length < maxScanTokenSize) = rawLines text :=
    List.takeWhile_eq_self_iff.mpr fun line hline => decide_eq_true (h line hline)
  simp only [deliver, hall, terminatedLines, eq_true h, true_and]

/-- If a line does not fit, fewer lines are handed out than the text has. -/
theorem length_deliver_lt {text : List Byte}
    (h : ¬∀ line ∈ rawLines text, line.length < maxScanTokenSize) (limit : ℕ) :
    (deliver text limit).length < (terminatedLines text).length := by
  have hfront : (rawLines text).takeWhile (·.length < maxScanTokenSize) <+: rawLines text :=
    List.takeWhile_prefix _
  have hne : ((rawLines text).takeWhile (·.length < maxScanTokenSize)).length ≠
      (rawLines text).length := by
    intro hlen
    refine h fun line hline => ?_
    exact of_decide_eq_true (List.takeWhile_eq_self_iff.mp (hfront.eq_of_length hlen) line hline)
  have hle := hfront.length_le
  simp only [deliver, h, false_and, if_false, List.append_nil, List.length_map, terminatedLines]
  omega

/-- A line that fits comes first. -/
theorem deliver_line {line text : List Byte} (h : newline ∉ line)
    (hfits : line.length < maxScanTokenSize) (limit : ℕ) :
    deliver (line ++ newline :: text) limit = dropCR line :: deliver text limit := by
  obtain ⟨hraw, hunfinished⟩ := lines_of_line h text
  simp [deliver, hraw, hunfinished, hfits]

/-- A line too long for the buffer, or an unfinished one, ends the delivery. -/
theorem deliver_long {front more : List Byte} (h : newline ∉ front)
    (hlong : maxScanTokenSize ≤ front.length) {limit : ℕ}
    (hlimit : limit < (front ++ more).length) : deliver (front ++ more) limit = [] := by
  by_cases hmem : newline ∈ more
  · obtain ⟨line, rest, rfl, hline⟩ := List.eq_append_cons_of_mem hmem
    have hfirst : newline ∉ front ++ line := List.not_mem_append h hline
    have hnot : ¬(front ++ line).length < maxScanTokenSize := by
      rw [List.length_append]
      omega
    rw [← List.append_assoc]
    obtain ⟨hraw, -⟩ := lines_of_line hfirst rest
    simp only [deliver, hraw, List.takeWhile_cons, List.forall_mem_cons, hnot, decide_false,
      false_and, if_false]
    rfl
  · have hall : newline ∉ front ++ more := List.not_mem_append h hmem
    obtain ⟨hraw, hunfinished⟩ := lines_of_not_mem hall
    have hnot : ¬(front ++ more).length ≤ limit := by omega
    simp only [deliver, hraw, hunfinished, hnot, and_false, if_false]
    rfl

/-- Without a newline there is at most the unfinished line. -/
theorem deliver_of_not_mem {text : List Byte} (h : newline ∉ text) (limit : ℕ) :
    deliver text limit = if text ≠ [] ∧ text.length ≤ limit then [dropCR text] else [] := by
  obtain ⟨hraw, hunfinished⟩ := lines_of_not_mem h
  simp [deliver, hraw, hunfinished]

/-- For a short text the limit does not matter. -/
theorem deliver_limit {text : List Byte} {limit limit' : ℕ} (h : text.length ≤ limit)
    (h' : text.length ≤ limit') : deliver text limit = deliver text limit' := by
  have hle : (unfinished text).length ≤ text.length := (unfinished_suffix text).length_le
  simp only [deliver, hle.trans h, hle.trans h']

/-- The inner loop ends with a read that returns data. -/
theorem readSome_of_data {tries cap : ℕ} {input rest : Stream} {p : List Byte} (hne : p ≠ [])
    (hcap : p.length ≤ cap) (h : input.read cap = (⟨p.length, p, none⟩, rest)) :
    readSome (tries + 1) input cap = (p, none, rest) := by
  have hcount : ¬((p.length : ℤ) < 0 ∨ (cap : ℤ) < p.length) := by omega
  simp only [readSome, h, if_neg hcount]
  simp [ReadResult.taken, hne]

/-- The inner loop ends with a read that returns an error, with what it returns. -/
theorem readSome_of_err {tries cap : ℕ} {input rest : Stream} {p : List Byte} {e : Err}
    (hcap : p.length ≤ cap) (h : input.read cap = (⟨p.length, p, some e⟩, rest)) :
    readSome (tries + 1) input cap = (p, some e, rest) := by
  have hcount : ¬((p.length : ℤ) < 0 ∨ (cap : ℤ) < p.length) := by omega
  simp only [readSome, h, if_neg hcount]
  simp [ReadResult.taken]

/-- The inner loop goes on after a read that returns nothing. -/
theorem readSome_of_empty (tries : ℕ) (rest : Stream) (cap : ℕ) :
    readSome (tries + 1) (.more [] rest) cap = readSome tries rest cap := by
  simp [readSome, Stream.read, Stream.serve]

/-- What the inner loop of `Scan` does with the view: it takes bytes off the front, or
it takes all there is and meets an error. -/
def ReadsView (v : View) (cap : ℕ) (x : List Byte × Option Err × Stream) : Prop :=
  x.1.length ≤ cap ∧
    (x.2.1 = none ∧ x.1 ≠ [] ∧ v = { x.2.2.view with seen := x.1 ++ x.2.2.view.seen } ∨
      x.2.1.isSome = true ∧ v.seen = x.1 ∧ (x.1 ≠ [] → v.dataWithEnd = true))

/-- A chunk that is cut is read on without an error. -/
theorem readsView_cut {v : View} {cap : ℕ} {chunk : List Byte} {st : Stream} (hcap : 1 ≤ cap)
    (h : cap < chunk.length)
    (hst : v = { st.view with seen := chunk.take cap ++ st.view.seen }) :
    ReadsView v cap (chunk.take cap, none, st) := by
  refine ⟨List.length_take_le _ _, Or.inl ⟨rfl, ?_, hst⟩⟩
  rw [ne_eq, List.take_eq_nil_iff]
  rintro (hzero | rfl)
  · omega
  · simp at h

/-- The inner loop reads the view, through any room there is. -/
theorem readSome_readsView (tries : ℕ) (input : Stream) {cap : ℕ} (hcap : 1 ≤ cap) :
    ReadsView (view tries input) cap (readSome tries input cap) := by
  have hlast {last : List Byte} {e : Err} {st : Stream} {v : View}
      (hv : v = ⟨last, [], last ≠ []⟩) (h : last.length ≤ cap) :
      ReadsView v cap (last, some e, st) := by
    subst hv
    exact ⟨h, Or.inr ⟨rfl, rfl, fun hne => decide_eq_true hne⟩⟩
  have hne {chunk : List Byte} (h : cap < chunk.length) : chunk.drop cap ≠ [] ∧ chunk ≠ [] := by
    rw [ne_eq, List.drop_eq_nil_iff, ← List.length_pos_iff]
    omega
  have hcut {chunk : List Byte} (h : cap < chunk.length) :
      chunk.take cap ≠ [] ∧ (chunk.take cap).length ≤ cap ∧
        ((cap : ℕ) : ℤ) = ((chunk.take cap).length : ℕ) := by
    rw [← List.length_pos_iff, List.length_take]
    omega
  induction tries generalizing input with
  | zero =>
    rw [view_zero]
    exact ⟨Nat.zero_le _, Or.inr ⟨rfl, rfl, fun h => absurd rfl h⟩⟩
  | succ tries ih =>
    cases input with
    | more chunk rest =>
      cases chunk with
      | nil =>
        rw [readSome_of_empty, view]
        exact ih rest
      | cons b chunk =>
        obtain ⟨h, heq⟩ | ⟨h, heq⟩ :=
          Stream.serve_cases (b :: chunk) cap none rest (Stream.more · rest)
        · change (Stream.more (b :: chunk) rest).read cap = _ at heq
          rw [readSome_of_data (List.cons_ne_nil b chunk) h heq]
          exact ⟨h, Or.inl ⟨rfl, List.cons_ne_nil b chunk, rfl⟩⟩
        · obtain ⟨hne', hle, hcast⟩ := hcut h
          change (Stream.more (b :: chunk) rest).read cap = _ at heq
          rw [hcast] at heq
          rw [readSome_of_data hne' hle heq]
          refine readsView_cut hcap h ?_
          rw [Stream.view, view_more (hne h).1, view_more (hne h).2]
          simp [← List.append_assoc]
    | eof last =>
      obtain ⟨h, heq⟩ | ⟨h, heq⟩ :=
        Stream.serve_cases last cap (some .eof) (Stream.eof []) Stream.eof
      · change (Stream.eof last).read cap = _ at heq
        rw [readSome_of_err h heq]
        exact hlast rfl h
      · obtain ⟨hne', hle, hcast⟩ := hcut h
        change (Stream.eof last).read cap = _ at heq
        rw [hcast] at heq
        rw [readSome_of_data hne' hle heq]
        refine readsView_cut hcap h ?_
        simp [Stream.view, view, hne h]
    | fail last text =>
      obtain ⟨h, heq⟩ | ⟨h, heq⟩ :=
        Stream.serve_cases last cap (some (.other text)) (Stream.fail [] text) (Stream.fail · text)
      · change (Stream.fail last text).read cap = _ at heq
        rw [readSome_of_err h heq]
        exact hlast rfl h
      · obtain ⟨hne', hle, hcast⟩ := hcut h
        change (Stream.fail last text).read cap = _ at heq
        rw [hcast] at heq
        rw [readSome_of_data hne' hle heq]
        refine readsView_cut hcap h ?_
        simp [Stream.view, view, hne h]

namespace Scanner

/-- One turn of the loop: a token, or the end, or more to read. -/
theorem tokens_eq (s : Scanner) :
    s.tokens =
      match s.token with
      | some (token, s') => token :: s'.tokens
      | none =>
        match s.err, s.shift.grow with
        | none, some s' => s'.fill.tokens
        | _, _ => [] := by
  rw [tokens]
  split
  · rename_i htoken
    rw [htoken]
  · rename_i htoken
    rw [htoken]
    split
    · rename_i herr
      simp [herr]
    · rename_i herr
      split <;> rename_i hgrow <;> simp [herr, hgrow]

/-- The bytes held lie in the buffer, which is not too large. -/
structure Fits (s : Scanner) : Prop where
  in_buffer : s.start + s.held.length ≤ s.size
  size_le : s.size ≤ maxScanTokenSize

/-- A new scanner has no buffer. -/
theorem fits_new (input : Stream) : (new input).Fits := ⟨Nat.zero_le _, Nat.zero_le _⟩

/-- A token is taken out of the buffer. -/
theorem Fits.token {s s' : Scanner} {tok : List Byte} (h : s.Fits)
    (htoken : s.token = some (tok, s')) : s'.Fits := by
  obtain ⟨hin, hsize⟩ := h
  rcases token_some htoken with ⟨line, rest, -, hheld, -, rfl⟩ | ⟨-, -, -, -, rfl⟩
  · refine ⟨?_, hsize⟩
    simp only [hheld, List.length_append, List.length_cons] at hin
    simp only
    omega
  · exact ⟨by simpa using hin, hsize⟩

/-- Moving the bytes to the front keeps them in the buffer, and a buffer that is full
then is full from the start. -/
theorem Fits.shift {s : Scanner} (h : s.Fits) : s.shift.Fits ∧
    (s.shift.start + s.held.length = s.size → s.held.length = s.size) := by
  obtain ⟨hin, hsize⟩ := h
  unfold Scanner.shift
  split
  · exact ⟨⟨by simp only; omega, hsize⟩, fun h => by simpa using h⟩
  · exact ⟨⟨hin, hsize⟩, fun h => by omega⟩

/-- Making room leaves room, unless the largest buffer is full. -/
theorem Fits.grow {s : Scanner} (h : s.Fits) :
    (s.shift.grow = none ∧ maxScanTokenSize ≤ s.held.length) ∨
      ∃ s', s.shift.grow = some s' ∧ s'.Fits ∧ s'.start + s'.held.length < s'.size := by
  obtain ⟨⟨hin, hsize⟩, hfull⟩ := h.shift
  unfold Scanner.grow
  simp only [shift_held, shift_size] at hin hsize hfull ⊢
  split
  · rename_i heq
    split
    · rename_i hmax
      rw [hfull heq]
      exact Or.inl ⟨rfl, hmax⟩
    · rename_i hmax
      refine Or.inr ⟨_, rfl, ⟨?_, Nat.min_le_right _ _⟩, ?_⟩
      · have := hfull heq
        have hstart : startBufSize = 4096 := rfl
        simp only
        split <;> omega
      · have := hfull heq
        have hstart : startBufSize = 4096 := rfl
        simp only
        split <;> omega
  · refine Or.inr ⟨_, rfl, ⟨?_, ?_⟩, ?_⟩
    · simpa using hin
    · simpa using hsize
    · simp only [shift_held, shift_size]
      omega

/-- What a scanner is going to hand out: lines of what it holds and sees, or of what it
holds after an error. -/
def outlook (s : Scanner) : List (List Byte) :=
  match s.err with
  | none => deliver (s.held ++ s.input.view.seen) s.input.view.limit
  | some _ => deliver s.held maxScanTokenSize

/-- A token is the first of what a scanner is going to hand out. -/
theorem outlook_of_token {s s' : Scanner} {tok : List Byte} (h : s.Fits)
    (htoken : s.token = some (tok, s')) : s.outlook = tok :: s'.outlook := by
  obtain ⟨hin, hsize⟩ := h
  rcases token_some htoken with ⟨line, rest, hline, hheld, rfl, rfl⟩ | ⟨hmem, hne, herr, rfl, rfl⟩
  · have hfits : line.length < maxScanTokenSize := by
      rw [hheld, List.length_append, List.length_cons] at hin
      omega
    unfold outlook
    cases s.err with
    | none =>
      simp only [hheld, List.append_assoc, List.cons_append]
      exact deliver_line hline hfits _
    | some e =>
      simp only [hheld]
      exact deliver_line hline hfits _
  · obtain ⟨e, he⟩ := Option.isSome_iff_exists.mp herr
    simp only [outlook, he]
    rw [deliver_of_not_mem hmem, if_pos ⟨hne, by omega⟩]
    rfl

/-- What a scanner fills in does not change what it is going to hand out. -/
theorem outlook_fill {s : Scanner} (h : s.Fits) (herr : s.err = none)
    (hroom : s.start + s.held.length < s.size) : s.fill.Fits ∧ s.fill.outlook = s.outlook := by
  obtain ⟨hin, hsize⟩ := h
  obtain ⟨hlen, hreads⟩ := readSome_readsView (maxConsecutiveEmptyReads + 1) s.input
    (show 1 ≤ s.size - (s.start + s.held.length) by omega)
  refine ⟨⟨?_, hsize⟩, ?_⟩
  · simp only [fill, List.length_append]
    omega
  · rcases hreads with ⟨hnone, hne, hview⟩ | ⟨hsome, hseen, hdata⟩
    · simp only [outlook, fill, hnone, herr]
      rw [← Stream.view] at hview
      rw [hview]
      simp [View.limit]
    · obtain ⟨e, he⟩ := Option.isSome_iff_exists.mp hsome
      simp only [outlook, fill, he, herr]
      rw [← Stream.view] at hseen hdata
      rw [hseen]
      refine deliver_limit ?_ ?_
      · simp only [List.length_append]
        omega
      · by_cases hne : (readSome (maxConsecutiveEmptyReads + 1) s.input
            (s.size - (s.start + s.held.length))).1 = []
        · simp only [hne, List.append_nil, View.limit]
          split <;> omega
        · simp only [View.limit, hdata hne, if_true, List.length_append]
          omega

/-- A scanner without a token whose buffer is full and the largest has nothing to hand out. -/
theorem outlook_of_full {s : Scanner} (htoken : s.token = none) (herr : s.err = none)
    (hlong : maxScanTokenSize ≤ s.held.length) : s.outlook = [] := by
  simp only [outlook, herr]
  apply deliver_long (token_none htoken).1 hlong
  rw [List.length_append]
  by_cases hdata : s.input.view.dataWithEnd = true
  · have hpos : 0 < s.input.view.seen.length := List.length_pos_iff.mpr (seen_ne_nil hdata)
    simp only [View.limit, hdata, if_true]
    omega
  · have hmax : maxScanTokenSize = 65536 := rfl
    simp only [View.limit, if_neg hdata]
    omega

/-- A larger buffer does not change what a scanner is going to hand out. -/
theorem outlook_of_grow {s s' : Scanner} (hgrow : s.shift.grow = some s') :
    s'.outlook = s.outlook := by
  obtain ⟨hinput, hheld, herr⟩ := grow_some hgrow
  rw [shift_input] at hinput
  rw [shift_held] at hheld
  rw [shift_err] at herr
  rw [outlook, outlook, hinput, hheld, herr]

/-- A scanner hands out what its outlook is. -/
theorem tokens_eq_outlook (s : Scanner) (h : s.Fits) : s.tokens = s.outlook := by
  induction s using tokens.induct with
  | case1 s tok s' htoken ih =>
    rw [tokens_eq, htoken, outlook_of_token h htoken]
    exact congrArg _ (ih (h.token htoken))
  | case2 s htoken e herr =>
    have hnil : s.held = [] := (token_none htoken).2 (by rw [herr, Option.isSome_some])
    rw [tokens_eq, htoken, herr]
    simp [outlook, herr, hnil, deliver_of_not_mem]
  | case3 s htoken herr hgrow =>
    obtain ⟨-, hlong⟩ | ⟨s', hsome, -⟩ := h.grow
    · rw [tokens_eq, htoken, herr, hgrow, outlook_of_full htoken herr hlong]
    · rw [hgrow] at hsome
      cases hsome
  | case4 s htoken herr s' hgrow ih =>
    obtain ⟨hnone, -⟩ | ⟨s'', hsome, hfits, hroom⟩ := h.grow
    · rw [hgrow] at hnone
      cases hnone
    · rw [hgrow] at hsome
      have hsame : s'' = s' := (Option.some.inj hsome).symm
      subst hsame
      have herr' : s''.err = none := by
        rw [(grow_some hgrow).2.2, shift_err, herr]
      obtain ⟨hfill, hkept⟩ := outlook_fill hfits herr' hroom
      rw [tokens_eq, htoken, herr, hgrow]
      simp only
      rw [ih hfill, hkept, outlook_of_grow hgrow]

/-- A new scanner hands out the lines of what it sees, as far as they fit. -/
theorem tokens_new (input : Stream) :
    (new input).tokens = deliver input.view.seen input.view.limit :=
  tokens_eq_outlook (new input) (fits_new input)

end Scanner

end Go
