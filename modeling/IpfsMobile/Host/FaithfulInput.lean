import IpfsMobile.Host.ResponseInput

/-!
# When `ResponseInput` is a faithful stream

The bytes of the chunks come out of `read()` in order, but with their signed value,
and an empty chunk makes `read()` hand out a byte that is not there. So the class is
a faithful stream exactly for chunks that are not empty and hold ASCII bytes only.
-/

namespace Host

open Go (Byte)

/-- The answers of a response that delivers the chunks and then -1. -/
def answers (chunks : List (List Byte)) : List ReadAnswer := chunks.map .chunk ++ [.eof]

/-- A byte whose signed and unsigned values agree. -/
def Ascii (b : Byte) : Prop := b.toNat < 128

instance (b : Byte) : Decidable (Ascii b) := inferInstanceAs (Decidable (_ < _))

/-- The stream yields the body and `readAllBytes`, which loops on `read()` until -1,
returns it. -/
structure Faithful {σ : Type} [InputStream σ] (s : σ) (body : List Byte) : Prop where
  /-- The values of `read()` are the bytes of the body and then -1. -/
  delivers : Delivers s body
  /-- The loop of `readAllBytes` ends and returns the body. -/
  readAll : ∀ fuel > body.length, readAllBytes fuel s = some body

/-- The signed value of an ASCII byte is its unsigned value. -/
theorem Ascii.toInt_eq {b : Byte} (h : Ascii b) : b.toInt = b.toNat := by
  have hlt : b.toNat < 128 := h
  simp only [BitVec.toInt]
  omega

/-- No byte has a signed value above 127. -/
theorem toInt_le (b : Byte) : b.toInt ≤ 127 := by
  have hlt := b.isLt
  simp only [BitVec.toInt]
  omega

namespace ResponseInput

variable {ρ : Type} [HostResponse ρ]

/-- Handing out a byte never returns more than 127. -/
theorem handOut_le {ρ : Type} {inp : ResponseInput ρ} {v : ℤ} (h : inp.handOut.1 = .int v) :
    v ≤ 127 := by
  unfold handOut at h
  cases hget : inp.buf[inp.readIndex]? with
  | none => simp [hget] at h
  | some b =>
    obtain rfl : b.toInt = v := by simpa [hget] using h
    exact toInt_le b

/-- No call of `read()` returns more than 127. -/
theorem read_le {inp : ResponseInput ρ} {v : ℤ} (h : inp.read.1 = .int v) : v ≤ 127 := by
  have hend : ∀ {w : ℤ}, ReadValue.int (-1) = .int w → w ≤ 127 := by
    intro w hw
    obtain rfl := ReadValue.int.inj hw
    decide
  unfold read at h
  split at h
  · exact hend h
  · simp only at h
    split at h
    · unfold refill at h
      cases hanswer : (HostResponse.read inp.resetIfUsed.response
          inp.resetIfUsed.buf.length).1 with
      | chunk data =>
        simp only [hanswer] at h
        exact handOut_le h
      | eof =>
        simp only [hanswer] at h
        exact hend h
      | throws => simp [hanswer] at h
    · exact handOut_le h

/-- Whatever body a `ResponseInput` delivers is ASCII. -/
theorem ascii_of_delivers {inp : ResponseInput ρ} {body : List Byte} (h : Delivers inp body) :
    ∀ b ∈ body, Ascii b := by
  intro b hb
  obtain ⟨k, hk⟩ := List.mem_iff_getElem?.mp hb
  have hvalue := h k
  simp only [expectedValue, hk] at hvalue
  have hle := @read_le ρ _ (afterReads inp k) _ hvalue
  simp only [Ascii]
  omega

/-- Pending ASCII bytes come out first. What follows is what the input delivers once
it holds nothing. -/
theorem delivers_pending {inp : ResponseInput ρ} {pending body : List Byte}
    (h : inp.Holds pending) (hascii : ∀ b ∈ pending, Ascii b)
    (hnext : ∀ inp' : ResponseInput ρ, inp'.Holds [] → inp'.response = inp.response →
      Delivers inp' body) : Delivers inp (pending ++ body) := by
  induction pending generalizing inp with
  | nil => exact hnext inp h rfl
  | cons b pending ih =>
    obtain ⟨inp', hread, hholds, hresponse, -⟩ := read_of_pending h
    rw [List.cons_append, delivers_cons_iff]
    change inp.read.1 = _ ∧ Delivers inp.read.2 _
    rw [hread]
    refine ⟨congrArg _ (hascii b (by simp)).toInt_eq,
      ih hholds (fun c hc => hascii c (by simp [hc])) fun inp'' hin hresp => ?_⟩
    exact hnext inp'' hin (hresp.trans hresponse)

/-- Non-empty ASCII chunks are delivered in order, followed by -1 for ever. -/
theorem delivers_chunks {chunks : List (List Byte)} {inp : ResponseInput (List ReadAnswer)}
    (h : inp.Holds []) (hresponse : inp.response = answers chunks)
    (hne : ∀ c ∈ chunks, c ≠ []) (hascii : ∀ c ∈ chunks, ∀ b ∈ c, Ascii b) :
    Delivers inp chunks.flatten := by
  induction chunks generalizing inp with
  | nil =>
    have hanswer : (HostResponse.read inp.response inp.buf.length).1 = .eof := by
      rw [hresponse]
      rfl
    exact (delivers_nil_iff inp).mpr (read_of_eof h hanswer)
  | cons c chunks ih =>
    cases c with
    | nil => exact absurd rfl (hne [] (by simp))
    | cons b data =>
      have hb : ∀ d ∈ b :: data, Ascii d := hascii _ (by simp)
      have hanswer : (HostResponse.read inp.response inp.buf.length).1 = .chunk (b :: data) := by
        rw [hresponse]
        rfl
      obtain ⟨inp', hread, hholds, hnext, -⟩ := read_of_chunk h hanswer
      rw [List.flatten_cons, List.cons_append, delivers_cons_iff]
      change inp.read.1 = _ ∧ Delivers inp.read.2 _
      rw [hread]
      refine ⟨congrArg _ (hb b (by simp)).toInt_eq,
        delivers_pending hholds (fun d hd => hb d (by simp [hd])) fun inp'' hin hresp => ?_⟩
      refine ih hin ?_ (fun d hd => hne d (by simp [hd])) fun d hd => hascii d (by simp [hd])
      rw [hresp, hnext, hresponse]
      rfl

/-- The number of `read()` calls that hand out a byte: an empty chunk costs one too. -/
def handOuts : List (List Byte) → ℕ
  | [] => 0
  | c :: chunks => max 1 c.length + handOuts chunks

/-- A read that hands out an ASCII byte takes one byte off the delivered body. -/
theorem delivers_of_handed_out {inp inp' : ResponseInput ρ} {b : Byte} {body : List Byte}
    (hread : inp.read = (.int b.toInt, inp')) (hb : Ascii b) (hbody : Delivers inp body) :
    ∃ body', Delivers inp' body' ∧ body.length = body'.length + 1 := by
  cases body with
  | nil =>
    have hend : inp.read.1 = .int (-1) := hbody 0
    rw [hread, hb.toInt_eq] at hend
    have := ReadValue.int.inj hend
    omega
  | cons d body =>
    have hrest := ((delivers_cons_iff inp d body).mp hbody).2
    change Delivers inp.read.2 body at hrest
    rw [hread] at hrest
    exact ⟨body, hrest, rfl⟩

/-- Pending ASCII bytes are bytes of the delivered body. -/
theorem delivers_after_pending {inp : ResponseInput ρ} {pending body : List Byte}
    (h : inp.Holds pending) (hascii : ∀ b ∈ pending, Ascii b) (hbody : Delivers inp body) :
    ∃ (inp' : ResponseInput ρ) (body' : List Byte), inp'.Holds [] ∧ Delivers inp' body' ∧
      inp'.response = inp.response ∧ inp'.buf = inp.buf ∧
      body.length = body'.length + pending.length := by
  induction pending generalizing inp body with
  | nil => exact ⟨inp, body, h, hbody, rfl, rfl, rfl⟩
  | cons b pending ih =>
    obtain ⟨inp₁, hread, hholds, hresp, hbuf⟩ := read_of_pending h
    obtain ⟨body₁, hbody₁, hlen⟩ := delivers_of_handed_out hread (hascii b (by simp)) hbody
    obtain ⟨inp', body', hnil, hbody', hresp', hbuf', hlen'⟩ :=
      ih hholds (fun c hc => hascii c (by simp [hc])) hbody₁
    refine ⟨inp', body', hnil, hbody', hresp'.trans hresp, hbuf'.trans hbuf, ?_⟩
    simp only [List.length_cons]
    omega

/-- While there are ASCII bytes only, every hand-out is a byte of the delivered body. -/
theorem handOuts_le_of_delivers {chunks : List (List Byte)} {body : List Byte}
    {inp : ResponseInput (List ReadAnswer)} (h : inp.Holds [])
    (hresponse : inp.response = answers chunks) (hascii : ∀ c ∈ chunks, ∀ b ∈ c, Ascii b)
    (hbuf : inp.buf ≠ []) (hold : ∀ b ∈ inp.buf, Ascii b) (hbody : Delivers inp body) :
    handOuts chunks ≤ body.length := by
  induction chunks generalizing inp body with
  | nil => exact Nat.zero_le _
  | cons c chunks ih =>
    have hrest : ∀ d ∈ chunks, ∀ b ∈ d, Ascii b := fun d hd => hascii d (by simp [hd])
    have hanswer : (HostResponse.read inp.response inp.buf.length).1 = .chunk c := by
      rw [hresponse]
      rfl
    have hnext : (HostResponse.read inp.response inp.buf.length).2 = answers chunks := by
      rw [hresponse]
      rfl
    have hsum : handOuts (c :: chunks) = max 1 c.length + handOuts chunks := rfl
    cases c with
    | nil =>
      -- The hand-out for an empty chunk is the first byte of the old buffer.
      obtain ⟨d, old, hd⟩ := List.exists_cons_of_ne_nil hbuf
      obtain ⟨inp', hread, hholds, hresp, hsame⟩ := read_of_empty_chunk h hd hanswer
      obtain ⟨body', hbody', hlen⟩ := delivers_of_handed_out hread (hold d (by simp [hd])) hbody
      have := ih hholds (hresp.trans hnext) hrest (by rwa [hsame]) (by rwa [hsame]) hbody'
      simp only [List.length_nil] at hsum
      omega
    | cons b data =>
      have hb : ∀ d ∈ b :: data, Ascii d := hascii _ (by simp)
      obtain ⟨inp₁, hread, hholds, hresp, hsame⟩ := read_of_chunk h hanswer
      obtain ⟨body₁, hbody₁, hlen⟩ := delivers_of_handed_out hread (hb b (by simp)) hbody
      obtain ⟨inp', body', hnil, hbody', hresp', hbuf', hlen'⟩ :=
        delivers_after_pending hholds (fun d hd => hb d (by simp [hd])) hbody₁
      have hold' : ∀ d ∈ inp'.buf, Ascii d := by
        intro d hd
        rw [hbuf', hsame, List.mem_append] at hd
        rcases hd with hd | hd
        · exact hb d hd
        · exact hold d (List.mem_of_mem_drop hd)
      have := ih hnil (hresp'.trans (hresp.trans hnext)) hrest (by simp [hbuf', hsame]) hold' hbody'
      simp only [List.length_cons] at hsum
      omega

/-- If the chunks need no more hand-outs than they have bytes, none of them is empty. -/
theorem ne_nil_of_handOuts_le {chunks : List (List Byte)}
    (h : handOuts chunks ≤ chunks.flatten.length) : ∀ c ∈ chunks, c ≠ [] := by
  have hge (chunks : List (List Byte)) : chunks.flatten.length ≤ handOuts chunks := by
    induction chunks with
    | nil => exact Nat.zero_le _
    | cons c chunks ih =>
      simp only [List.flatten_cons, List.length_append, handOuts] at ih ⊢
      omega
  induction chunks with
  | nil => simp
  | cons c chunks ih =>
    have hrest := hge chunks
    simp only [List.flatten_cons, List.length_append, handOuts]
      at h hrest ih
    refine List.forall_mem_cons.mpr ⟨?_, ih (by omega)⟩
    rintro rfl
    simp only [List.length_nil] at h
    omega

end ResponseInput

/-- A `ResponseInput` over a response that delivers the chunks is a faithful stream of
their bytes exactly when no chunk is empty and every byte is below 128. -/
theorem responseInput_faithful_iff {bufSize : ℕ} (hbuf : 1 ≤ bufSize)
    (chunks : List (List Byte)) :
    Faithful (ResponseInput.new (answers chunks) bufSize) chunks.flatten ↔
      (∀ c ∈ chunks, c ≠ []) ∧ ∀ c ∈ chunks, ∀ b ∈ c, b.toNat < 128 := by
  have hnew := ResponseInput.holds_new (answers chunks) bufSize
  constructor
  · intro h
    have hbody := ResponseInput.ascii_of_delivers h.delivers
    have hascii : ∀ c ∈ chunks, ∀ b ∈ c, Ascii b := fun c hc b hb =>
      hbody b (List.mem_flatten.mpr ⟨c, hc, hb⟩)
    have hzero : ∀ b ∈ (ResponseInput.new (answers chunks) bufSize).buf, Ascii b := by
      intro b hb
      obtain rfl := List.eq_of_mem_replicate hb
      decide
    have hne : (ResponseInput.new (answers chunks) bufSize).buf ≠ [] := by
      simp only [ResponseInput.new, ne_eq, List.replicate_eq_nil_iff]
      omega
    exact ⟨ResponseInput.ne_nil_of_handOuts_le
      (ResponseInput.handOuts_le_of_delivers hnew rfl hascii hne hzero h.delivers), hascii⟩
  · rintro ⟨hne, hascii⟩
    have hdelivers := ResponseInput.delivers_chunks hnew rfl hne hascii
    exact ⟨hdelivers, fun fuel hfuel => hdelivers.readAllBytes_eq hfuel⟩

/-- The condition on two chunks, one of which fills the buffer. -/
theorem responseInput_faithful_iff_two_chunks :
    Faithful (ResponseInput.new (answers [Go.str "Hell", Go.str "o"]) 4) (Go.str "Hello") ↔
      (∀ c ∈ [Go.str "Hell", Go.str "o"], c ≠ []) ∧
        ∀ c ∈ [Go.str "Hell", Go.str "o"], ∀ b ∈ c, b.toNat < 128 :=
  responseInput_faithful_iff (by decide) [Go.str "Hell", Go.str "o"]

/-- The byte 255 comes out of `read()` as -1, so a body of one such byte looks empty. -/
theorem not_faithful_byte_255 :
    ¬Faithful (ResponseInput.new (answers [[0xff]]) ResponseInput.defaultBufSize)
      [[0xff]].flatten := by
  intro h
  exact absurd (h.delivers 0) (by decide)

end Host
