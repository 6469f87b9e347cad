import IpfsMobile.Host.FaithfulInput

/-!
# A body on its way to the host

The body of a reply is read in Go through `Response.Read`, with the buffer of a
`ResponseInput`, and handed out byte by byte. What every call of `read()` does is determined
by the chunks in which the body arrives and by how it ends.
-/

namespace Host

open Go IpfsMobile.Core

/-- `response.read(buf)` on an open response. An error is thrown as an exception. -/
instance : HostResponse (OpenResponse Stream) where
  read r cap :=
    let x := Reader.read r cap
    match x.1.err with
    | some _ => (.throws, x.2)
    | none => (if x.1.n = -1 then .eof else .chunk x.1.p, x.2)

/-- The reads in which a chunk is delivered, with a buffer of `cap` bytes. -/
def cut (cap : ℕ) (chunk : List Byte) : List (List Byte) :=
  if 0 < cap ∧ cap < chunk.length then chunk.take cap :: cut cap (chunk.drop cap) else [chunk]
termination_by chunk.length
decreasing_by
  rw [List.length_drop]
  omega

/-- The reads of a body before the one that reports its end. -/
def pieces (cap : ℕ) : Stream → List (List Byte)
  | .more chunk rest => cut cap chunk ++ pieces cap rest
  | .eof last => (cut cap last).dropLast
  | .fail last _ => (cut cap last).dropLast

/-- The bytes that are handed out for the pieces. For an empty one it is the first byte of the
buffer, which is that of the last piece that was not empty. -/
def handedOut (first : Byte) : List (List Byte) → List Byte
  | [] => []
  | [] :: pieces => first :: handedOut first pieces
  | (b :: data) :: pieces => b :: data ++ handedOut b pieces

/-- What `read()` does when it has handed out some bytes and then meets the end. -/
def valueAfter (bytes : List Byte) (ending : Err) (k : ℕ) : ReadValue :=
  match bytes[k]? with
  | some b => .int b.toInt
  | none => if ending = .eof then .int (-1) else .exception

/-- A chunk that is longer than the buffer. -/
theorem cut_of_lt {cap : ℕ} {chunk : List Byte} (hcap : 1 ≤ cap) (h : cap < chunk.length) :
    cut cap chunk = chunk.take cap :: cut cap (chunk.drop cap) := by
  rw [cut, if_pos ⟨hcap, h⟩]

/-- A chunk that fits in the buffer. -/
theorem cut_of_le {cap : ℕ} {chunk : List Byte} (h : chunk.length ≤ cap) :
    cut cap chunk = [chunk] := by
  rw [cut, if_neg (by omega)]

/-- A chunk is delivered in at least one read. -/
theorem cut_ne_nil (cap : ℕ) (chunk : List Byte) : cut cap chunk ≠ [] := by
  rw [cut]
  split <;> simp

/-- What one read of a body gives the host. -/
inductive Answers (cap : ℕ) (st : Stream) : Prop
  | piece {piece : List Byte} {st' : Stream} : piece.length ≤ cap →
      HostResponse.read (OpenResponse.ofOutput st) cap =
        (.chunk piece, OpenResponse.ofOutput st') →
      pieces cap st = piece :: pieces cap st' → st'.ending = st.ending → Answers cap st
  | ended : (HostResponse.read (OpenResponse.ofOutput st) cap).1 = .eof → pieces cap st = [] →
      st.ending = .eof → Answers cap st
  | failed {t : Stream} :
      HostResponse.read (OpenResponse.ofOutput st) cap = (.throws, OpenResponse.ofOutput t) →
      pieces cap st = [] → pieces cap t = [] → st.ending ≠ .eof → t.ending = st.ending →
      Answers cap st

/-- A read that reports no error gives the host its bytes. -/
theorem hostRead_eq {st st' : Stream} {cap n : ℕ} {p : List Byte}
    (h : st.read cap = (⟨n, p, none⟩, st')) :
    HostResponse.read (OpenResponse.ofOutput st) cap = (.chunk p, OpenResponse.ofOutput st') := by
  have hread : Reader.read (OpenResponse.ofOutput st) cap =
      (markEnd (st.read cap).1, OpenResponse.ofOutput (st.read cap).2) := rfl
  have hn : ¬(n : ℤ) = -1 := by omega
  simp only [HostResponse.read, hread, h, markEnd]
  rw [if_neg (by simp)]
  simp only [if_neg hn]

/-- Every read of a body is one of these. -/
theorem answers_of_body {cap : ℕ} (hcap : 1 ≤ cap) (st : Stream) : Answers cap st := by
  -- A buffer that is smaller than what is there is filled.
  have hfull : ∀ (left : List Byte → Stream) {last : List Byte}, cap < last.length →
      (∀ data, pieces cap (left data) = (cut cap data).dropLast) →
      pieces cap (left last) = last.take cap :: pieces cap (left (last.drop cap)) := by
    intro left last h hleft
    rw [hleft, hleft, cut_of_lt hcap h, List.dropLast_cons_of_ne_nil (cut_ne_nil _ _)]
  cases st with
  | more chunk rest =>
    obtain ⟨h, hserve⟩ | ⟨h, hserve⟩ := Stream.serve_cases chunk cap none rest (.more · rest)
    · refine .piece h (hostRead_eq hserve) ?_ rfl
      rw [pieces, cut_of_le h]
      rfl
    · refine .piece (List.length_take_le _ _) (hostRead_eq hserve) ?_ rfl
      rw [pieces, cut_of_lt hcap h]
      rfl
  | eof last =>
    obtain ⟨h, hserve⟩ | ⟨h, hserve⟩ :=
      Stream.serve_cases last cap (some .eof) (.eof []) Stream.eof
    · refine .ended ?_ ?_ rfl
      · have hread : Reader.read (OpenResponse.ofOutput (Stream.eof last)) cap =
            (markEnd ((Stream.eof last).read cap).1, _) := rfl
        have hstream : (Stream.eof last).read cap = _ := hserve
        simp only [HostResponse.read, hread, hstream, markEnd, if_true]
      · rw [pieces, cut_of_le h]
        rfl
    · exact .piece (List.length_take_le _ _) (hostRead_eq hserve)
        (hfull Stream.eof h fun _ => rfl) rfl
  | fail last text =>
    obtain ⟨h, hserve⟩ | ⟨h, hserve⟩ :=
      Stream.serve_cases last cap (some (.other text)) (.fail [] text) (.fail · text)
    · refine .failed (t := .fail [] text) ?_ ?_ ?_ (by simp [Stream.ending]) rfl
      · have hread : Reader.read (OpenResponse.ofOutput (Stream.fail last text)) cap =
            (markEnd ((Stream.fail last text).read cap).1,
              OpenResponse.ofOutput ((Stream.fail last text).read cap).2) := rfl
        have hstream : (Stream.fail last text).read cap = _ := hserve
        simp only [HostResponse.read, hread, hstream, markEnd]
        rw [if_neg (by simp)]
      · rw [pieces, cut_of_le h]
        rfl
      · rw [pieces, cut_of_le (Nat.zero_le cap)]
        rfl
    · exact .piece (List.length_take_le _ _) (hostRead_eq hserve)
        (hfull (.fail · text) h fun _ => rfl) rfl

namespace ResponseInput

/-- When the response throws, `read()` throws, and nothing is pending. -/
theorem read_of_throws {ρ : Type} [HostResponse ρ] {inp : ResponseInput ρ} (h : inp.Holds [])
    (hanswer : (HostResponse.read inp.response inp.buf.length).1 = .throws) :
    ∃ inp', inp.read = (.exception, inp') ∧ inp'.Holds [] ∧
      inp'.response = (HostResponse.read inp.response inp.buf.length).2 ∧ inp'.buf = inp.buf := by
  obtain ⟨index, hread⟩ := read_of_holds_nil h
  rw [hread]
  simp only [refill, hanswer]
  exact ⟨_, rfl, ⟨⟨0, rfl, Nat.zero_le _, fun _ => rfl, fun h => absurd h (Nat.lt_irrefl 0)⟩⟩,
    rfl, rfl⟩

/-- An input in a body: some bytes of the last piece are pending, and the first byte in the
buffer is known. -/
structure Inside (cap : ℕ) (inp : ResponseInput (OpenResponse Stream)) (pending : List Byte)
    (first : Byte) (st : Stream) : Prop where
  holds : inp.Holds pending
  response : inp.response = OpenResponse.ofOutput st
  size : inp.buf.length = cap
  first : ∃ old, inp.buf = first :: old

/-- Every call of `read()` in a body hands out the next byte, or is at the end. -/
theorem Inside.valueAt_eq {cap : ℕ} (hcap : 1 ≤ cap) {inp : ResponseInput (OpenResponse Stream)}
    {pending : List Byte} {first : Byte} {st : Stream} (h : Inside cap inp pending first st)
    (k : ℕ) : valueAt inp k =
      valueAfter (pending ++ handedOut first (pieces cap st)) st.ending k := by
  -- What the first call returns, and that the others go on from its next state.
  have hsplit : ∀ {inp inp' : ResponseInput (OpenResponse Stream)} {v : ReadValue},
      inp.read = (v, inp') → valueAt inp 0 = v ∧ ∀ k, valueAt inp (k + 1) = valueAt inp' k := by
    intro inp inp' v hread
    have hstream : InputStream.read inp = (v, inp') := hread
    refine ⟨by rw [valueAt, afterReads, hstream], fun k => ?_⟩
    rw [valueAt_succ_left, hstream]
  induction k generalizing inp pending first st with
  | zero =>
    cases pending with
    | cons b pending =>
      obtain ⟨inp', hread, -⟩ := read_of_pending h.holds
      rw [(hsplit hread).1]
      rfl
    | nil =>
      cases answers_of_body hcap st with
      | piece hlen hanswer hpieces hending =>
        rename_i piece st'
        rw [← h.size, ← h.response] at hanswer
        rw [hpieces]
        cases piece with
        | nil =>
          obtain ⟨old, hbuf⟩ := h.first
          obtain ⟨inp', hread, -⟩ :=
            read_of_empty_chunk h.holds hbuf (congrArg Prod.fst hanswer)
          rw [(hsplit hread).1]
          rfl
        | cons b data =>
          obtain ⟨inp', hread, -⟩ := read_of_chunk h.holds (congrArg Prod.fst hanswer)
          rw [(hsplit hread).1]
          rfl
      | ended hanswer hpieces hending =>
        rw [← h.size, ← h.response] at hanswer
        obtain ⟨hread, -⟩ := read_of_eof h.holds hanswer
        rw [hpieces, hending]
        exact hread
      | failed hanswer hpieces hpieces' hending hending' =>
        rw [← h.size, ← h.response] at hanswer
        obtain ⟨inp', hread, -⟩ := read_of_throws h.holds (congrArg Prod.fst hanswer)
        rw [(hsplit hread).1, hpieces]
        exact (if_neg hending).symm
  | succ k ih =>
    cases pending with
    | cons b pending =>
      obtain ⟨inp', hread, hholds, hresponse, hbuf⟩ := read_of_pending h.holds
      rw [(hsplit hread).2, ih ⟨hholds, hresponse.trans h.response, hbuf ▸ h.size, hbuf ▸ h.first⟩]
      rfl
    | nil =>
      cases answers_of_body hcap st with
      | piece hlen hanswer hpieces hending =>
        rename_i piece st'
        rw [← h.size, ← h.response] at hanswer
        rw [hpieces]
        cases piece with
        | nil =>
          obtain ⟨old, hfirst⟩ := h.first
          obtain ⟨inp', hread, hholds, hresponse, hbuf⟩ :=
            read_of_empty_chunk h.holds hfirst (congrArg Prod.fst hanswer)
          rw [hanswer] at hresponse
          rw [(hsplit hread).2, ih ⟨hholds, hresponse, hbuf ▸ h.size, hbuf ▸ h.first⟩, hending]
          rfl
        | cons b data =>
          obtain ⟨inp', hread, hholds, hresponse, hbuf⟩ :=
            read_of_chunk h.holds (congrArg Prod.fst hanswer)
          rw [hanswer] at hresponse
          have hsize : inp'.buf.length = cap := by
            have hold := h.size
            rw [hbuf, List.length_append, List.length_drop]
            omega
          rw [(hsplit hread).2, ih ⟨hholds, hresponse, hsize, _, hbuf⟩, hending]
          rfl
      | ended hanswer hpieces hending =>
        rw [← h.size, ← h.response] at hanswer
        obtain ⟨-, hrest⟩ := read_of_eof h.holds hanswer
        rw [valueAt_succ_left]
        rw [hpieces, hending]
        exact hrest k
      | failed hanswer hpieces hpieces' hending hending' =>
        rename_i st'
        rw [← h.size, ← h.response] at hanswer
        obtain ⟨inp', hread, hholds, hresponse, hbuf⟩ :=
          read_of_throws h.holds (congrArg Prod.fst hanswer)
        rw [hanswer] at hresponse
        rw [(hsplit hread).2, ih ⟨hholds, hresponse, hbuf ▸ h.size, hbuf ▸ h.first⟩, hpieces,
          hpieces', hending']
        rfl

/-- A new input has the whole body before it and zeros in its buffer. -/
theorem inside_new {bufSize : ℕ} (hbuf : 1 ≤ bufSize) (body : Stream) :
    Inside bufSize (new (OpenResponse.ofOutput body) bufSize) [] 0 body := by
  obtain ⟨n, rfl⟩ := Nat.exists_eq_succ_of_ne_zero (by omega : bufSize ≠ 0)
  exact ⟨holds_new _ _, rfl, List.length_replicate, List.replicate n 0, List.replicate_succ⟩

end ResponseInput

/-- What every call of `read()` does on a body, in whatever chunks it arrives and however it
ends. -/
theorem valueAt_body {bufSize : ℕ} (hbuf : 1 ≤ bufSize) (body : Stream) (k : ℕ) :
    valueAt (ResponseInput.new (OpenResponse.ofOutput body) bufSize) k =
      valueAfter (handedOut 0 (pieces bufSize body)) body.ending k :=
  (ResponseInput.inside_new hbuf body).valueAt_eq hbuf k

/-- A body that fails after an empty chunk and one of two bytes. -/
def failingBody : Stream := .more [] (.more (str "Hi") (.fail [] (str "unexpected EOF")))

/-- Through a buffer of one byte come a zero, the two bytes and an exception. -/
theorem valueAt_body_failing :
    valueAt (ResponseInput.new (OpenResponse.ofOutput failingBody) 1) 3 = .exception :=
  (valueAt_body (by decide) failingBody 3).trans (by
    simp [failingBody, pieces, cut, handedOut, valueAfter, str, Stream.ending])

/-- No read of a body before the last one comes back without bytes. -/
def NeverEmpty : Stream → Prop
  | .more chunk rest => chunk ≠ [] ∧ NeverEmpty rest
  | .eof _ | .fail _ _ => True

/-- The reads of a chunk deliver it, the last one something unless the chunk is empty. -/
theorem cut_spec {cap : ℕ} (hcap : 1 ≤ cap) (chunk : List Byte) :
    ∃ front last, cut cap chunk = front ++ [last] ∧ front.flatten ++ last = chunk ∧
      (last = [] ↔ chunk = []) ∧ ∀ p ∈ front, p ≠ [] := by
  induction hlen : chunk.length using Nat.strongRecOn generalizing chunk with
  | ind n ih =>
    by_cases h : cap < chunk.length
    · obtain ⟨front, last, hcut, hflat, hlast, hfront⟩ :=
        ih (chunk.drop cap).length (by rw [List.length_drop]; omega) (chunk.drop cap) rfl
      have htake : chunk.take cap ≠ [] := by
        rw [← List.length_pos_iff, List.length_take]
        omega
      have hdrop : chunk.drop cap ≠ [] := by
        rw [← List.length_pos_iff, List.length_drop]
        omega
      have hchunk : chunk ≠ [] := by
        rintro rfl
        exact hdrop List.drop_nil
      refine ⟨chunk.take cap :: front, last, ?_, ?_, ?_, ?_⟩
      · rw [cut_of_lt hcap h, hcut]
        rfl
      · rw [List.flatten_cons, List.append_assoc, hflat, List.take_append_drop]
      · exact iff_of_false (fun heq => hdrop (hlast.mp heq)) hchunk
      · exact List.forall_mem_cons.mpr ⟨htake, hfront⟩
    · exact ⟨[], chunk, cut_of_le (by omega), rfl, Iff.rfl, by simp⟩

/-- The pieces of a body are all of it, but for what comes together with its end. -/
theorem pieces_spec {cap : ℕ} (hcap : 1 ≤ cap) (body : Stream) :
    (∃ lost, (pieces cap body).flatten ++ lost = body.bytes ∧
      (lost = [] ↔ body.lastChunk = [])) ∧
      (NeverEmpty body → ∀ p ∈ pieces cap body, p ≠ []) := by
  induction body with
  | more chunk rest ih =>
    obtain ⟨⟨lost, hrest, hlost⟩, hne⟩ := ih
    obtain ⟨front, last, hcut, hflat, hlast, hfront⟩ := cut_spec hcap chunk
    refine ⟨⟨lost, ?_, hlost⟩, fun hempty p hp => ?_⟩
    · rw [pieces, hcut, List.flatten_append, List.append_assoc, hrest, List.flatten_concat, hflat]
      rfl
    · rw [pieces, hcut, List.mem_append, List.mem_append] at hp
      rcases hp with (hp | hp) | hp
      · exact hfront p hp
      · obtain rfl := List.mem_singleton.mp hp
        exact fun heq => hempty.1 (hlast.mp heq)
      · exact hne hempty.2 p hp
  | eof chunk | fail chunk text =>
    obtain ⟨front, last, hcut, hflat, hlast, hfront⟩ := cut_spec hcap chunk
    have hpieces : (cut cap chunk).dropLast = front := by rw [hcut, List.dropLast_concat]
    rw [pieces, hpieces]
    exact ⟨⟨last, hflat, hlast⟩, fun _ => hfront⟩

/-- Pieces that are not empty are handed out as they are. -/
theorem handedOut_of_ne_nil {pieces : List (List Byte)} (h : ∀ p ∈ pieces, p ≠ []) (first : Byte) :
    handedOut first pieces = pieces.flatten := by
  induction pieces generalizing first with
  | nil => rfl
  | cons p pieces ih =>
    have hrest := ih fun q hq => h q (List.mem_cons_of_mem _ hq)
    cases p with
    | nil => exact absurd rfl (h [] List.mem_cons_self)
    | cons b data =>
      rw [handedOut, hrest]
      rfl

/-- On a body without empty reads the calls of `read()` hand out the pieces as they are. -/
theorem valueAt_of_neverEmpty {bufSize : ℕ} (hbuf : 1 ≤ bufSize) {body : Stream}
    (hempty : NeverEmpty body) (k : ℕ) :
    valueAt (ResponseInput.new (OpenResponse.ofOutput body) bufSize) k =
      valueAfter (pieces bufSize body).flatten body.ending k := by
  have hne := (pieces_spec hbuf body).2 hempty
  rw [(ResponseInput.inside_new hbuf body).valueAt_eq hbuf, List.nil_append,
    handedOut_of_ne_nil hne]

/-- A body without empty reads comes through to the host exactly if it ends without an error
and without bytes, and is ASCII. -/
theorem input_faithful_iff {bufSize : ℕ} (hbuf : 1 ≤ bufSize) {body : Stream}
    (hempty : NeverEmpty body) :
    Faithful (ResponseInput.new (OpenResponse.ofOutput body) bufSize) body.bytes ↔
      body.ending = .eof ∧ body.lastChunk = [] ∧ ∀ b ∈ body.bytes, b.toNat < 128 := by
  obtain ⟨⟨lost, hbytes, hlost⟩, -⟩ := pieces_spec hbuf body
  have hvalues := valueAt_of_neverEmpty hbuf hempty
  constructor
  · intro h
    have hascii := ResponseInput.ascii_of_delivers h.delivers
    -- After the pieces comes the end of the body, if there is no error.
    have hend := (hvalues (pieces bufSize body).flatten.length).symm.trans (h.delivers _)
    rw [valueAfter, List.getElem?_eq_none le_rfl] at hend
    by_cases hending : body.ending = .eof
    · refine ⟨hending, hlost.mp ?_, hascii⟩
      simp only [if_pos hending, ReadValue.int.injEq] at hend
      rw [expectedValue, ← hbytes, List.getElem?_append_right le_rfl, Nat.sub_self] at hend
      cases lost with
      | nil => rfl
      | cons b lost =>
        have hvalue : (-1 : ℤ) = b.toNat := hend
        omega
    · simp only [if_neg hending] at hend
      cases hend
  · rintro ⟨hending, hlast, hascii⟩
    rw [hlost.mpr hlast, List.append_nil] at hbytes
    have hdelivers : Delivers (ResponseInput.new (OpenResponse.ofOutput body) bufSize)
        body.bytes := by
      intro k
      rw [hvalues k, hbytes, valueAfter, expectedValue]
      cases hk : body.bytes[k]? with
      | none => exact if_pos hending
      | some b =>
        have hb : Ascii b := hascii b (List.mem_of_getElem? hk)
        exact congrArg ReadValue.int hb.toInt_eq
    exact ⟨hdelivers, fun fuel hfuel => hdelivers.readAllBytes_eq hfuel⟩

/-- Through what chunks and what buffer a body comes makes no difference, as long as it ends
cleanly. -/
theorem valueAt_congr {bufSize bufSize' : ℕ} (hbuf : 1 ≤ bufSize) (hbuf' : 1 ≤ bufSize')
    {body body' : Stream} (hempty : NeverEmpty body) (hempty' : NeverEmpty body')
    (hlast : body.lastChunk = []) (hlast' : body'.lastChunk = [])
    (hbytes : body.bytes = body'.bytes) (hending : body.ending = body'.ending) (k : ℕ) :
    valueAt (ResponseInput.new (OpenResponse.ofOutput body) bufSize) k =
      valueAt (ResponseInput.new (OpenResponse.ofOutput body') bufSize') k := by
  have hall : ∀ {cap : ℕ} {st : Stream}, 1 ≤ cap → st.lastChunk = [] →
      (pieces cap st).flatten = st.bytes := by
    intro cap st hcap hnil
    obtain ⟨⟨lost, hflat, hlost⟩, -⟩ := pieces_spec hcap st
    rwa [hlost.mpr hnil, List.append_nil] at hflat
  rw [valueAt_of_neverEmpty hbuf hempty, valueAt_of_neverEmpty hbuf' hempty', hall hbuf hlast,
    hall hbuf' hlast', hbytes, hending]

/-- A body in two chunks. -/
def bodyInTwo : Stream := .more (str "Hello") (.more (str ", World") (.eof []))

/-- It comes through a buffer that is shorter than the second chunk. -/
theorem input_faithful_iff_two :
    Faithful (ResponseInput.new (OpenResponse.ofOutput bodyInTwo) 5) bodyInTwo.bytes := by
  have hempty : NeverEmpty bodyInTwo := ⟨by decide, by decide, trivial⟩
  exact (input_faithful_iff (by decide) hempty).mpr ⟨rfl, rfl, by decide⟩

/-- The same body in one chunk. -/
def bodyInOne : Stream := .more (str "Hello, World") (.eof [])

/-- The two give the same values, the first one through the shorter buffer. -/
theorem valueAt_congr_two :
    valueAt (ResponseInput.new (OpenResponse.ofOutput bodyInTwo) 5) 7 =
      valueAt (ResponseInput.new (OpenResponse.ofOutput bodyInOne) 1024) 7 := by
  have hempty : NeverEmpty bodyInTwo := ⟨by decide, by decide, trivial⟩
  have hempty' : NeverEmpty bodyInOne := ⟨by decide, trivial⟩
  exact valueAt_congr (by decide) (by decide) hempty hempty' rfl rfl rfl rfl 7

end Host
