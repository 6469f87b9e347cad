import IpfsMobile.Host.ResponseInput
import Mathlib.Data.List.Range

/-!
# The buffer accesses of `ResponseInput`

A call of `read()` asks the response, accesses a position of the buffer, does both or
neither, and what it returns is what these events stand for. The file follows the events
through any number of calls. Neither counter is bounded by the other: after an empty chunk
`readIndex` is 1 and `readCount` is 0, and a response that throws leaves them so. What is
kept is that a chunk in the buffer has been handed out up to `readIndex`, and that the
response is asked when it is used up.
-/

namespace Host

/-- What `read()` does with the response and the buffer. -/
inductive InputEvent where
  /-- `response.read(buf)` was called, with its outcome. -/
  | asked (answer : ReadAnswer)
  /-- `buf[position]` was accessed. -/
  | accessed (position : ℕ)
  deriving DecidableEq, Repr

/-- The accesses to the first positions of the buffer, in order. -/
def accesses (n : ℕ) : List InputEvent := (List.range n).map .accessed

/-- No event is a request to the response. -/
def NoRequest (events : List InputEvent) : Prop := ∀ a, .asked a ∉ events

/-- The latest request of a log had this answer, and these accesses followed it. -/
def Since (log : List InputEvent) (answer : ReadAnswer) (events : List InputEvent) : Prop :=
  NoRequest events ∧ ∃ before, log = before ++ .asked answer :: events

/-- After this log the response may be asked: it has not returned -1, and all positions
of its latest chunk have been handed out in order. -/
def MayAsk (log : List InputEvent) : Prop :=
  ∀ answer events, Since log answer events →
    answer ≠ .eof ∧ ∀ data, answer = .chunk data → data ≠ [] → events = accesses data.length

/-- Every request of a log was made when the response could be asked. -/
def Orderly (log : List InputEvent) : Prop :=
  ∀ before a after, log = before ++ .asked a :: after → MayAsk before

/-- One more position in order. -/
theorem accesses_succ (n : ℕ) : accesses (n + 1) = accesses n ++ [.accessed n] := by
  simp [accesses, List.range_succ]

/-- A log has one latest request. -/
theorem Since.unique {log events events' : List InputEvent} {answer answer' : ReadAnswer}
    (h : Since log answer events) (h' : Since log answer' events') :
    answer = answer' ∧ events = events' := by
  obtain ⟨hno, before, rfl⟩ := h
  obtain ⟨hno', before', heq⟩ := h'
  rcases List.append_eq_append_iff.mp heq with ⟨more, -, htail⟩ | ⟨more, -, htail⟩
  · cases more with
    | nil =>
      obtain ⟨hanswer, hevents⟩ := List.cons.inj htail
      exact ⟨InputEvent.asked.inj hanswer, hevents⟩
    | cons e more =>
      -- The other request would stand among the events after this one.
      obtain ⟨-, hevents⟩ := List.cons.inj htail
      exact absurd (by simp [hevents]) (hno answer')
  · cases more with
    | nil =>
      obtain ⟨hanswer, hevents⟩ := List.cons.inj htail
      exact ⟨(InputEvent.asked.inj hanswer).symm, hevents.symm⟩
    | cons e more =>
      obtain ⟨-, hevents⟩ := List.cons.inj htail
      exact absurd (by simp [hevents]) (hno' answer)

/-- One more access belongs to the latest request. -/
theorem Since.snoc {log events : List InputEvent} {answer : ReadAnswer}
    (h : Since log answer events) (i : ℕ) :
    Since (log ++ [.accessed i]) answer (events ++ [.accessed i]) := by
  obtain ⟨hno, before, rfl⟩ := h
  refine ⟨fun a ha => ?_, before, by simp⟩
  rcases List.mem_append.mp ha with hevents | hlast
  · exact hno a hevents
  · simp at hlast

/-- A request is the latest one right after it was made. -/
theorem since_asked (log : List InputEvent) (answer : ReadAnswer) :
    Since (log ++ [.asked answer]) answer [] :=
  ⟨fun a ha => by simp at ha, log, rfl⟩

/-- The response may be asked if its latest chunk is used up. -/
theorem Since.mayAsk {log events : List InputEvent} {answer : ReadAnswer}
    (h : Since log answer events) (hend : answer ≠ .eof)
    (hall : ∀ data, answer = .chunk data → data ≠ [] → events = accesses data.length) :
    MayAsk log := by
  intro answer' events' h'
  obtain ⟨rfl, rfl⟩ := h.unique h'
  exact ⟨hend, hall⟩

/-- At first the response may be asked. -/
theorem mayAsk_nil : MayAsk [] := by
  rintro answer events ⟨-, before, h⟩
  simp at h

/-- The empty log is orderly. -/
theorem orderly_nil : Orderly [] := by
  intro before a after h
  simp at h

/-- One more event keeps a log orderly, a request only if the response may be asked. -/
theorem Orderly.snoc {log : List InputEvent} (h : Orderly log) {e : InputEvent}
    (hmay : ∀ a, e = .asked a → MayAsk log) : Orderly (log ++ [e]) := by
  intro before a after heq
  rcases List.eq_nil_or_concat after with rfl | ⟨after, e', rfl⟩
  · obtain ⟨rfl, hlast⟩ := List.append_inj' heq rfl
    exact hmay a (List.cons.inj hlast).1
  · have hfront : log ++ [e] = (before ++ .asked a :: after) ++ [e'] := by simpa using heq
    exact h before a after (List.append_inj' hfront rfl).1

/-- Events with a request have a first one. -/
theorem exists_first_request {events : List InputEvent} {a : ReadAnswer}
    (h : .asked a ∈ events) :
    ∃ front b rest, NoRequest front ∧ events = front ++ .asked b :: rest := by
  induction events with
  | nil => simp at h
  | cons e events ih =>
    cases e with
    | asked b => exact ⟨[], b, events, fun a ha => by simp at ha, rfl⟩
    | accessed i =>
      have hmem : .asked a ∈ events := by simpa using h
      obtain ⟨front, b, rest, hno, rfl⟩ := ih hmem
      refine ⟨.accessed i :: front, b, rest, fun a ha => ?_, rfl⟩
      have hfront : .asked a ∈ front := by simpa using ha
      exact hno a hfront

namespace ResponseInput

variable {ρ : Type} [HostResponse ρ]

/-- The events of the branch for `readCount == 0`: a chunk is handed out from position 0. -/
def refillEvents (inp : ResponseInput ρ) : List InputEvent :=
  match (HostResponse.read inp.response inp.buf.length).1 with
  | .throws => [.asked .throws]
  | .eof => [.asked .eof]
  | .chunk data => [.asked (.chunk data), .accessed 0]

/-- The events of `read()`. -/
def readEvents (inp : ResponseInput ρ) : List InputEvent :=
  if inp.readCount = -1 then []
  else
    let inp := inp.resetIfUsed
    if inp.readCount = 0 then inp.refillEvents else [.accessed inp.readIndex]

/-- The value that the events of a call stand for, with the buffer as the call leaves it. -/
def outcome (buf : List Go.Byte) (events : List InputEvent) : ReadValue :=
  match events.getLast? with
  | some (.accessed i) =>
    match buf[i]? with
    | some b => .int b.toInt
    | none => .exception
  | some (.asked .throws) => .exception
  | some (.asked _) | none => .int (-1)

/-- The events of the first calls of `read()`. -/
def log (inp : ResponseInput ρ) (calls : ℕ) : List InputEvent :=
  (List.range calls).flatMap fun k => (afterReads inp k).readEvents

/-- One more call appends its events. -/
theorem log_succ (inp : ResponseInput ρ) (calls : ℕ) :
    inp.log (calls + 1) = inp.log calls ++ (afterReads inp calls).readEvents := by
  simp [log, List.range_succ]

/-- Earlier events stay in the log. -/
theorem log_mono (inp : ResponseInput ρ) {k calls : ℕ} (h : k ≤ calls) {e : InputEvent}
    (he : e ∈ inp.log k) : e ∈ inp.log calls := by
  obtain ⟨i, hi, hmem⟩ := List.mem_flatMap.mp he
  have hlt := List.mem_range.mp hi
  exact List.mem_flatMap.mpr ⟨i, List.mem_range.mpr (by omega), hmem⟩

/-- What the counters say about the events so far. -/
inductive Tracks (bufSize : ℕ) (log : List InputEvent) (inp : ResponseInput ρ) : Prop
  /-- The next call asks the response. -/
  | asks : inp.readCount = 0 → MayAsk log → Tracks bufSize log inp
  /-- A chunk has been handed out up to `readIndex`. -/
  | holds (data : List Go.Byte) : inp.readCount = data.length → data ≠ [] →
      data.length ≤ bufSize → inp.readIndex ≤ data.length →
      Since log (.chunk data) (accesses inp.readIndex) → Tracks bufSize log inp
  /-- The end was seen. -/
  | ended : inp.readCount = -1 → Tracks bufSize log inp

/-- The events so far are orderly and in bounds, and the counters agree with them. -/
structure Follows (bufSize : ℕ) (log : List InputEvent) (inp : ResponseInput ρ) : Prop where
  /-- The buffer keeps its size. -/
  size : inp.buf.length = bufSize
  /-- Every position is in the buffer. -/
  inBounds : ∀ i, .accessed i ∈ log → i < bufSize
  /-- Every request was made when the response could be asked. -/
  orderly : Orderly log
  /-- The counters agree with the events. -/
  tracks : Tracks bufSize log inp
  /-- The latest chunk is in front of the buffer, and its first positions were handed out. -/
  latest : ∀ data events, Since log (.chunk data) events →
    data <+: inp.buf ∧ (data ≠ [] → ∃ n ≤ data.length, events = accesses n)

/-- What a call of `read()` does in a state that follows a log. -/
inductive Calls (bufSize : ℕ) (log : List InputEvent) (inp : ResponseInput ρ) : Prop
  /-- The end was seen before. -/
  | ended : inp.readEvents = [] → inp.read = (.int (-1), inp) → inp.readCount = -1 →
      Calls bufSize log inp
  /-- The response is asked, with both counters as the reset leaves them. -/
  | asks (index : ℕ) : MayAsk log →
      inp.readEvents = refillEvents { inp with readCount := 0, readIndex := index } →
      inp.read = refill { inp with readCount := 0, readIndex := index } →
      Calls bufSize log inp
  /-- The next position of the chunk is handed out. -/
  | handsOut (data : List Go.Byte) : inp.readCount = data.length → data.length ≤ bufSize →
      inp.readIndex < data.length → Since log (.chunk data) (accesses inp.readIndex) →
      inp.readEvents = [.accessed inp.readIndex] → inp.read = inp.handOut →
      Calls bufSize log inp

/-- A state that follows a log decides what the next call does. -/
theorem Tracks.calls {bufSize : ℕ} {log : List InputEvent} {inp : ResponseInput ρ}
    (h : Tracks bufSize log inp) : Calls bufSize log inp := by
  cases h with
  | asks hcount hmay =>
    have hkeep : inp.resetIfUsed = inp := if_neg (by omega)
    have hself : { inp with readCount := 0, readIndex := inp.readIndex } = inp := by
      rw [← hcount]
    refine .asks inp.readIndex hmay ?_ ?_
    · rw [readEvents, if_neg (by omega), hkeep, if_pos hcount, hself]
    · rw [read, if_neg (by omega), hkeep, if_pos hcount, hself]
  | holds data hcount hne hfits hindex hsince =>
    have hpos : 0 < data.length := List.length_pos_iff.mpr hne
    by_cases hused : inp.readIndex = data.length
    · have hreset : inp.resetIfUsed = { inp with readCount := 0, readIndex := 0 } :=
        if_pos (by omega)
      refine .asks 0 (hsince.mayAsk (by simp) ?_) ?_ ?_
      · intro data' hdata _
        obtain rfl := ReadAnswer.chunk.inj hdata
        rw [hused]
      · rw [readEvents, if_neg (by omega), hreset]
        rfl
      · rw [read, if_neg (by omega), hreset]
        rfl
    · have hkeep : inp.resetIfUsed = inp := if_neg (by omega)
      refine .handsOut data hcount hfits (by omega) hsince ?_ ?_
      · rw [readEvents, if_neg (by omega), hkeep, if_neg (by omega)]
      · rw [read, if_neg (by omega), hkeep, if_neg (by omega)]
  | ended hcount =>
    refine .ended ?_ ?_ hcount
    · rw [readEvents, if_pos hcount]
    · rw [read, if_pos hcount]

omit [HostResponse ρ] in
/-- A new input follows the empty log. -/
theorem follows_new (response : ρ) (bufSize : ℕ) : Follows bufSize [] (new response bufSize) where
  size := List.length_replicate
  inBounds := fun i hi => by simp at hi
  orderly := orderly_nil
  tracks := .asks rfl mayAsk_nil
  latest := by
    rintro data events ⟨-, before, h⟩
    simp at h

omit [HostResponse ρ] in
/-- Handing out a byte moves the index on. -/
theorem handOut_snd (inp : ResponseInput ρ) :
    inp.handOut.2 = { inp with readIndex := inp.readIndex + 1 } := by
  unfold handOut
  cases inp.buf[inp.readIndex]? <;> rfl

omit [HostResponse ρ] in
/-- Handing out a byte is an access to its position. -/
theorem handOut_outcome (inp : ResponseInput ρ) {events : List InputEvent}
    (h : events.getLast? = some (.accessed inp.readIndex)) :
    inp.handOut.1 = outcome inp.handOut.2.buf events := by
  rw [handOut_snd, ResponseInput.handOut, outcome, h]
  cases hget : inp.buf[inp.readIndex]? <;> simp only [hget]

/-- What a call of `read()` returns, and the position after it, are what its events stand for. -/
theorem read_outcome (inp : ResponseInput ρ) :
    inp.read.1 = outcome inp.read.2.buf inp.readEvents ∧
      ∀ i, .accessed i ∈ inp.readEvents → inp.read.2.readIndex = i + 1 := by
  unfold ResponseInput.read readEvents
  by_cases hend : inp.readCount = -1
  · simp only [if_pos hend]
    exact ⟨rfl, by simp⟩
  · simp only [if_neg hend]
    generalize inp.resetIfUsed = inp
    by_cases hzero : inp.readCount = 0
    · simp only [if_pos hzero]
      unfold ResponseInput.refill refillEvents
      cases hanswer : (HostResponse.read inp.response inp.buf.length).1 with
      | throws | eof =>
        simp only [hanswer]
        exact ⟨rfl, by simp⟩
      | chunk data =>
        simp only [hanswer]
        refine ⟨handOut_outcome _ rfl, fun i hi => ?_⟩
        obtain rfl : i = 0 := by simpa using hi
        rw [handOut_snd]
    · simp only [if_neg hzero]
      refine ⟨handOut_outcome inp rfl, fun i hi => ?_⟩
      obtain rfl : i = inp.readIndex := by simpa using hi
      rw [handOut_snd]

omit [HostResponse ρ] in
/-- A call that hands out the next position of a chunk is followed. -/
theorem Follows.handOut {bufSize : ℕ} {log : List InputEvent} {inp : ResponseInput ρ}
    (h : Follows bufSize log inp) {data : List Go.Byte} (hcount : inp.readCount = data.length)
    (hfits : data.length ≤ bufSize) (hindex : inp.readIndex < data.length)
    (hsince : Since log (.chunk data) (accesses inp.readIndex)) :
    Follows bufSize (log ++ [.accessed inp.readIndex]) inp.handOut.2 := by
  have hnext := hsince.snoc inp.readIndex
  rw [← accesses_succ] at hnext
  rw [handOut_snd]
  refine ⟨h.size, fun i hi => ?_, h.orderly.snoc (by simp), ?_, fun data' events hlatest => ?_⟩
  · rcases List.mem_append.mp hi with hold | hnew
    · exact h.inBounds i hold
    · obtain rfl : i = inp.readIndex := by simpa using hnew
      omega
  · refine .holds data hcount ?_ hfits hindex hnext
    rintro rfl
    simp at hindex
  · obtain ⟨hdata, rfl⟩ := hlatest.unique hnext
    obtain rfl := ReadAnswer.chunk.inj hdata
    exact ⟨(h.latest _ _ hsince).1, fun _ => ⟨_, hindex, rfl⟩⟩

omit [HostResponse ρ] in
/-- A chunk that is put in front of the buffer is followed, with its first byte to be handed
out. -/
theorem Follows.store {bufSize : ℕ} {log : List InputEvent} {inp : ResponseInput ρ}
    (h : Follows bufSize log inp) (hmay : MayAsk log) {data : List Go.Byte} (hne : data ≠ [])
    (hlen : data.length ≤ bufSize) (response : ρ) :
    Follows bufSize (log ++ [.asked (.chunk data)])
      { response := response
        buf := data ++ inp.buf.drop data.length
        readCount := data.length
        readIndex := 0 } := by
  have hsince := since_asked log (.chunk data)
  refine ⟨?_, fun i hi => h.inBounds i (by simpa using hi), h.orderly.snoc fun _ _ => hmay,
    .holds data rfl hne hlen (Nat.zero_le _) hsince, fun data' events hlatest => ?_⟩
  · have hsize := h.size
    simp only [List.length_append, List.length_drop]
    omega
  · obtain ⟨hdata, rfl⟩ := hlatest.unique hsince
    obtain rfl := ReadAnswer.chunk.inj hdata
    exact ⟨List.prefix_append _ _, fun _ => ⟨0, Nat.zero_le _, rfl⟩⟩

omit [HostResponse ρ] in
/-- After an empty chunk the first position is handed out all the same, and the response may be
asked again. -/
theorem Follows.handOut_empty {bufSize : ℕ} {log : List InputEvent} {inp : ResponseInput ρ}
    (h : Follows bufSize log inp) (hpos : 1 ≤ bufSize) (hmay : MayAsk log) (response : ρ) :
    Follows bufSize (log ++ [.asked (.chunk [])] ++ [.accessed 0])
      { response := response, buf := inp.buf, readCount := 0, readIndex := 1 } := by
  have hsince : Since (log ++ [.asked (.chunk [])] ++ [.accessed 0]) (.chunk []) (accesses 1) :=
    (since_asked log (.chunk [])).snoc 0
  have horderly : Orderly (log ++ [.asked (.chunk [])]) := h.orderly.snoc fun _ _ => hmay
  refine ⟨h.size, fun i hi => ?_, horderly.snoc (by simp), .asks rfl (hsince.mayAsk (by simp) ?_),
    fun data events hlatest => ?_⟩
  · rcases List.mem_append.mp hi with hlt | hnew
    · exact h.inBounds i (by simpa using hlt)
    · obtain rfl : i = 0 := by simpa using hnew
      omega
  · intro data hdata hne
    exact absurd (ReadAnswer.chunk.inj hdata).symm hne
  · obtain rfl := ReadAnswer.chunk.inj (hlatest.unique hsince).1
    exact ⟨List.nil_prefix, fun hne => absurd rfl hne⟩

/-- A call that asks the response is followed, if the chunk fits in the buffer. -/
theorem Follows.refill {bufSize : ℕ} {log : List InputEvent} {inp : ResponseInput ρ}
    (h : Follows bufSize log inp) (hpos : 1 ≤ bufSize) (hzero : inp.readCount = 0)
    (hmay : MayAsk log)
    (hfits : ∀ data, .asked (.chunk data) ∈ inp.refillEvents → data.length ≤ bufSize) :
    Follows bufSize (log ++ inp.refillEvents) inp.refill.2 := by
  have hasked (answer : ReadAnswer) : Orderly (log ++ [.asked answer]) :=
    h.orderly.snoc fun _ _ => hmay
  have hold (answer : ReadAnswer) : ∀ i, .accessed i ∈ log ++ [.asked answer] → i < bufSize :=
    fun i hi => h.inBounds i (by simpa using hi)
  -- Another answer than a chunk leaves no chunk to be the latest.
  have hother (answer : ReadAnswer) (hne : ∀ data, .chunk data ≠ answer) (buf : List Go.Byte) :
      ∀ data events, Since (log ++ [.asked answer]) (.chunk data) events →
        data <+: buf ∧ (data ≠ [] → ∃ n ≤ data.length, events = accesses n) :=
    fun data events hlatest => absurd (hlatest.unique (since_asked log answer)).1 (hne data)
  unfold refillEvents at hfits ⊢
  unfold ResponseInput.refill
  cases hanswer : (HostResponse.read inp.response inp.buf.length).1 with
  | throws =>
    simp only [hanswer]
    refine ⟨h.size, hold _, hasked _, .asks hzero ?_, hother .throws (by simp) _⟩
    exact (since_asked log _).mayAsk (by simp) (by simp)
  | eof =>
    simp only [hanswer]
    exact ⟨h.size, hold _, hasked _, .ended rfl, hother .eof (by simp) _⟩
  | chunk data =>
    have hlen : data.length ≤ bufSize := hfits data (by simp [hanswer])
    have hlog : log ++ [.asked (.chunk data), .accessed 0] =
        log ++ [.asked (.chunk data)] ++ [.accessed 0] := by simp
    simp only [hanswer, hlog]
    by_cases hne : data = []
    · subst hne
      rw [handOut_snd]
      exact h.handOut_empty hpos hmay _
    · have hstored := h.store hmay hne hlen (HostResponse.read inp.response inp.buf.length).2
      exact hstored.handOut rfl hlen (List.length_pos_iff.mpr hne) (since_asked log (.chunk data))

/-- Every call of `read()` is followed, if the chunk it asks for fits in the buffer. -/
theorem Follows.read {bufSize : ℕ} {log : List InputEvent} {inp : ResponseInput ρ}
    (h : Follows bufSize log inp) (hpos : 1 ≤ bufSize)
    (hfits : ∀ data, .asked (.chunk data) ∈ inp.readEvents → data.length ≤ bufSize) :
    Follows bufSize (log ++ inp.readEvents) inp.read.2 := by
  cases h.tracks.calls with
  | ended hevents hread hcount =>
    rw [hevents, hread, List.append_nil]
    exact h
  | asks index hmay hevents hread =>
    rw [hevents] at hfits ⊢
    rw [hread]
    have hreset : Follows bufSize log { inp with readCount := 0, readIndex := index } :=
      ⟨h.size, h.inBounds, h.orderly, .asks rfl hmay, h.latest⟩
    exact hreset.refill hpos rfl hmay hfits
  | handsOut data hcount hlen hindex hsince hevents hread =>
    rw [hevents, hread]
    exact h.handOut hcount hlen hindex hsince

/-- Any number of calls on a new input is followed, if the chunks fit in the buffer. -/
theorem follows_log (response : ρ) {bufSize : ℕ} (hpos : 1 ≤ bufSize) (calls : ℕ)
    (hfits : ∀ data, .asked (.chunk data) ∈ (new response bufSize).log calls →
      data.length ≤ bufSize) :
    Follows bufSize ((new response bufSize).log calls)
      (afterReads (new response bufSize) calls) := by
  induction calls with
  | zero => exact follows_new response bufSize
  | succ calls ih =>
    rw [log_succ] at hfits ⊢
    have hprev := ih fun data hdata => hfits data (List.mem_append_left _ hdata)
    exact hprev.read hpos fun data hdata => hfits data (List.mem_append_right _ hdata)

omit [HostResponse ρ] in
/-- A byte in the buffer is handed out without an exception. -/
theorem handOut_ne_exception {inp : ResponseInput ρ} (h : inp.readIndex < inp.buf.length) :
    inp.handOut.1 ≠ .exception := by
  unfold ResponseInput.handOut
  simp [List.getElem?_eq_getElem h]

/-- A request is the first event of the branch that asks. -/
theorem exists_refillEvents (inp : ResponseInput ρ) :
    ∃ a rest, inp.refillEvents = .asked a :: rest := by
  unfold refillEvents
  cases (HostResponse.read inp.response inp.buf.length).1 with
  | throws => exact ⟨.throws, [], rfl⟩
  | eof => exact ⟨.eof, [], rfl⟩
  | chunk data => exact ⟨.chunk data, [.accessed 0], rfl⟩

/-- The branch that asks throws only if the response does, and leaves `readCount` at 0. -/
theorem refill_exception {inp : ResponseInput ρ} (hpos : 1 ≤ inp.buf.length)
    (hzero : inp.readCount = 0) (h : inp.refill.1 = .exception) :
    inp.refillEvents = [.asked .throws] ∧ inp.refill.2.readCount = 0 := by
  unfold ResponseInput.refill at h ⊢
  unfold refillEvents
  cases hanswer : (HostResponse.read inp.response inp.buf.length).1 with
  | throws => simpa [hanswer] using hzero
  | eof => simp [hanswer] at h
  | chunk data =>
    simp only [hanswer] at h
    refine absurd h (handOut_ne_exception ?_)
    simp only [List.length_append, List.length_drop]
    omega

/-- A followed call throws only if the response does, and leaves `readCount` at 0. -/
theorem Follows.exception {bufSize : ℕ} {log : List InputEvent} {inp : ResponseInput ρ}
    (h : Follows bufSize log inp) (hpos : 1 ≤ bufSize) (hthrow : inp.read.1 = .exception) :
    inp.readEvents = [.asked .throws] ∧ inp.read.2.readCount = 0 := by
  have hsize := h.size
  cases h.tracks.calls with
  | ended hevents hread hcount =>
    rw [hread] at hthrow
    cases hthrow
  | asks index hmay hevents hread =>
    rw [hread] at hthrow ⊢
    rw [hevents]
    exact refill_exception (by simp only; omega) rfl hthrow
  | handsOut data hcount hlen hindex hsince hevents hread =>
    rw [hread] at hthrow
    exact absurd hthrow (handOut_ne_exception (by omega))

/-- With `readCount` at 0 the next call asks the response first. -/
theorem exists_readEvents_of_zero {inp : ResponseInput ρ} (hzero : inp.readCount = 0) :
    ∃ a rest, inp.readEvents = .asked a :: rest := by
  have hkeep : inp.resetIfUsed = inp := if_neg (by omega)
  rw [readEvents, if_neg (by omega), hkeep, if_pos hzero]
  exact exists_refillEvents inp

end ResponseInput

/-- What is promised of the buffer accesses and the requests of the first calls of
`read()` on a new input. -/
structure SafeAccess {ρ : Type} [HostResponse ρ] (bufSize : ℕ) (inp : ResponseInput ρ)
    (calls : ℕ) : Prop where
  /-- Every position is in the buffer. -/
  inBounds : ∀ i, .accessed i ∈ inp.log calls → i < bufSize
  /-- A call throws only because the response did. -/
  throws : ∀ k < calls, valueAt inp k = .exception →
    (afterReads inp k).readEvents = [.asked .throws]
  /-- A call after one that throws asks the response before it hands out any byte. -/
  recovers : ∀ k, k + 1 < calls → valueAt inp k = .exception →
    ∃ a rest, (afterReads inp (k + 1)).readEvents = .asked a :: rest
  /-- Between a chunk that is not empty and the next request exactly the positions of the
  chunk are handed out, each once and in order. -/
  inOrder : ∀ before data between a after,
    inp.log calls = before ++ .asked (.chunk data) :: (between ++ .asked a :: after) →
      data ≠ [] → NoRequest between → between = accesses data.length
  /-- After -1 the response is not asked again. -/
  ended : ∀ before after, inp.log calls = before ++ .asked .eof :: after → NoRequest after
  /-- A call returns the byte at the position that it accesses. If it accesses none it returns -1,
  unless the response has thrown. -/
  value : ∀ k < calls, valueAt inp k =
    ResponseInput.outcome (afterReads inp (k + 1)).buf (afterReads inp k).readEvents
  /-- After an access `readIndex` is the position behind it. -/
  index : ∀ k < calls, ∀ i, .accessed i ∈ (afterReads inp k).readEvents →
    (afterReads inp (k + 1)).readIndex = i + 1
  /-- At any time the latest chunk is in front of the buffer, and if it is not empty, its first
  positions have been handed out, each once and in order. -/
  latest : ∀ k ≤ calls, ∀ data events, Since (inp.log k) (.chunk data) events →
    data <+: (afterReads inp k).buf ∧ (data ≠ [] → ∃ n ≤ data.length, events = accesses n)

/-- The buffer accesses of `read()` are safe for every size of the buffer and every
response, whatever it answers, as long as its chunks fit in the buffer. -/
theorem safeAccess {ρ : Type} [HostResponse ρ] (response : ρ) {bufSize : ℕ} (hpos : 1 ≤ bufSize)
    (calls : ℕ)
    (hfits : ∀ data, .asked (.chunk data) ∈ (ResponseInput.new response bufSize).log calls →
      data.length ≤ bufSize) :
    SafeAccess bufSize (ResponseInput.new response bufSize) calls := by
  have hfollows : ∀ k ≤ calls, ResponseInput.Follows bufSize
      ((ResponseInput.new response bufSize).log k)
      (afterReads (ResponseInput.new response bufSize) k) := by
    intro k hk
    refine ResponseInput.follows_log response hpos k fun data hdata => hfits data ?_
    exact ResponseInput.log_mono _ hk hdata
  have hall := hfollows calls le_rfl
  refine ⟨hall.inBounds, ?_, ?_, ?_, ?_, ?_, ?_, ?_⟩
  · intro k hk hthrow
    exact ((hfollows k (by omega)).exception hpos hthrow).1
  · intro k hk hthrow
    have hzero := ((hfollows k (by omega)).exception hpos hthrow).2
    exact ResponseInput.exists_readEvents_of_zero hzero
  · intro before data between a after hlog hne hno
    rw [← List.cons_append, ← List.append_assoc] at hlog
    have hmay := hall.orderly _ a after hlog
    exact (hmay (.chunk data) between ⟨hno, before, rfl⟩).2 data rfl hne
  · intro before after hlog a ha
    -- The first request after -1 would be one that may not be made.
    obtain ⟨front, b, rest, hno, rfl⟩ := exists_first_request ha
    rw [← List.cons_append, ← List.append_assoc] at hlog
    have hmay := hall.orderly _ b rest hlog
    exact (hmay .eof front ⟨hno, before, rfl⟩).1 rfl
  · intro k _
    exact (ResponseInput.read_outcome _).1
  · intro k _
    exact (ResponseInput.read_outcome _).2
  · intro k hk
    exact (hfollows k hk).latest

/-- A response with an empty chunk and an exception between two chunks. -/
def brokenAnswers : List ReadAnswer :=
  [.chunk (Go.str "Hell"), .chunk [], .throws, .chunk (Go.str "o"), .eof]

/-- Nine calls on such a response: four positions of the first chunk, the first position
again for the empty chunk, an exception, one position, and the end. -/
theorem safeAccess_brokenAnswers : SafeAccess 4 (ResponseInput.new brokenAnswers 4) 9 := by
  refine safeAccess brokenAnswers (by decide) 9 fun data hdata => ?_
  have hlog : (ResponseInput.new brokenAnswers 4).log 9 =
      [.asked (.chunk (Go.str "Hell")), .accessed 0, .accessed 1, .accessed 2, .accessed 3,
        .asked (.chunk []), .accessed 0, .asked .throws, .asked (.chunk (Go.str "o")), .accessed 0,
        .asked .eof] := by
    decide
  rw [hlog] at hdata
  have hmem : data = Go.str "Hell" ∨ data = [] ∨ data = Go.str "o" := by simpa using hdata
  rcases hmem with rfl | rfl | rfl <;> decide

end Host
