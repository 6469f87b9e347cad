import IpfsMobile.Core.Shell
import IpfsMobile.Go.ScannerSpec

/-!
# Subscribing to a topic

`Subscribe` reads the reply of `pubsub/sub` line by line and gives each line to the
listener. A line that does not fit in the scanner's buffer stops it, and the tail of a
reply that is cut off by an error is given to the listener like a line. The file
determines the streams for which the listener gets exactly the lines.
-/

namespace IpfsMobile.Pubsub

open Go IpfsMobile.Core

/-- `listener.OnMessage` on each text in turn. -/
def onMessages : List Str → Call Event Unit
  | [] => pure ()
  | data :: rest => do
    Call.emit (.onMessage data)
    onMessages rest

/-- The loop over the scanner's texts. -/
def readMessages (response : ApiResponse Stream) : Call Event Unit :=
  match response.output with
  | none => Call.panicWith .nilDereference
  | some body => onMessages (Scanner.new body).tokens

/-- `Subscribe`. The error that ends the loop is only logged. -/
def subscribe (rbSend : RequestBuilder → SendOutcome) (shell : Shell) (topic : Str) :
    Call Event Unit := do
  let response ← ((shell.newRequest (str "pubsub/sub")).argument topic).send2 rbSend
  match response with
  | .error e => Call.panicWith (.value e.error)
  | .ok response => Call.deferring response.close (readMessages response)

/-- The arguments of `listener.OnMessage` among the events of a call. -/
def messages (events : List Event) : List Str :=
  events.filterMap fun
    | .onMessage data => some data
    | _ => none

/-- The lines of a stream: all of them if it ends cleanly, and the terminated ones if
it is cut off. -/
structure DeliversLines (body : Stream) (messages : List Str) : Prop where
  clean : body.ending = .eof → messages = textLines body.bytes
  failed : body.ending ≠ .eof → messages = terminatedLines body.bytes

/-- The listener gets each text once, in order. -/
theorem events_onMessages (texts : List Str) :
    onMessages texts = ⟨texts.map .onMessage, .ok ()⟩ := by
  induction texts with
  | nil => rfl
  | cons data rest ih =>
    rw [onMessages, ih]
    rfl

/-- On a reply with a body, `Subscribe` goes through the scanner's texts and closes it. -/
theorem subscribe_success (body : Stream) (shell : Shell) (topic : Str) :
    subscribe (fun _ => .success body) shell topic =
      ⟨(Scanner.new body).tokens.map .onMessage ++ [.closed], .ok ()⟩ := by
  simp only [subscribe, RequestBuilder.send2, SendOutcome.result, Call.pure_bind, readMessages,
    events_onMessages]
  rfl

/-- The messages of `Subscribe` are the lines of what its scanner sees, as far as they fit. -/
theorem messages_subscribe (body : Stream) (shell : Shell) (topic : Str) :
    messages (subscribe (fun _ => .success body) shell topic).events =
      deliver body.view.seen body.view.limit := by
  rw [subscribe_success, Scanner.tokens_new, messages, List.filterMap_append, List.filterMap_map]
  simp

/-- What is handed out of a text: its terminated lines, and the unfinished one. -/
def handed (text : List Byte) : List Str :=
  terminatedLines text ++ if unfinished text = [] then [] else [dropCR (unfinished text)]

/-- A text begins with a line that does not fit in the scanner's buffer, or is an unfinished one
beyond the limit. -/
def BeginsTooLong (limit : ℕ) (text : List Byte) : Prop :=
  (∃ line more, text = line ++ newline :: more ∧ newline ∉ line ∧
      maxScanTokenSize ≤ line.length) ∨
    newline ∉ text ∧ limit < text.length

/-- A first line, and what is handed out after it. -/
theorem handed_line {line : List Byte} (h : newline ∉ line) (text : List Byte) :
    handed (line ++ newline :: text) = dropCR line :: handed text := by
  rw [handed, terminatedLines_line h, (lines_of_line h text).2]
  rfl

/-- A scanner hands out what it sees up to a line that is too long. -/
theorem exists_handed_of_deliver (text : List Byte) (limit : ℕ) :
    ∃ front rest, text = front ++ rest ∧ deliver text limit = handed front ∧
      (rest = [] ∨ BeginsTooLong limit rest ∧ unfinished front = []) := by
  induction text using line_induction with
  | unfinished text h =>
    obtain ⟨hraw, hunfinished⟩ := lines_of_not_mem h
    rw [deliver_of_not_mem h]
    by_cases hlong : limit < text.length
    · refine ⟨[], text, rfl, ?_, Or.inr ⟨Or.inr ⟨h, hlong⟩, rfl⟩⟩
      rw [if_neg fun hout => absurd hout.2 (by omega)]
      rfl
    · refine ⟨text, [], (List.append_nil text).symm, ?_, Or.inl rfl⟩
      rw [handed, terminatedLines, hraw, hunfinished]
      by_cases hnil : text = []
      · rw [if_neg fun hout => hout.1 hnil, if_pos hnil]
        rfl
      · rw [if_pos ⟨hnil, by omega⟩, if_neg hnil]
        rfl
  | line line text h ih =>
    by_cases hfits : line.length < maxScanTokenSize
    · obtain ⟨front, rest, rfl, hhanded, hstop⟩ := ih
      refine ⟨line ++ newline :: front, rest, by simp, ?_, ?_⟩
      · rw [deliver_line h hfits, handed_line h, hhanded]
      · rwa [(lines_of_line h front).2]
    · refine ⟨[], _, rfl, ?_, Or.inr ⟨Or.inl ⟨line, text, rfl, h, by omega⟩, rfl⟩⟩
      obtain ⟨hraw, -⟩ := lines_of_line h text
      have hnone : deliver (line ++ newline :: text) limit = [] := by
        simp [deliver, hraw, hfits]
      rw [hnone]
      rfl

/-- Whatever the reply is and however reading it ends, the listener gets the lines of a first part
of it, in order and each once, the last of them perhaps unfinished. This part is all that a scanner
gets to see of the reply, or ends before a line that is too long for it. Then the reply is closed
once, and the call returns. -/
theorem subscribe_prefix (body : Stream) (shell : Shell) (topic : Str) :
    ∃ front rest, body.view.seen = front ++ rest ∧ front <+: body.bytes ∧
      (rest = [] ∨ BeginsTooLong body.view.limit rest ∧ unfinished front = []) ∧
        subscribe (fun _ => .success body) shell topic =
          ⟨(handed front).map .onMessage ++ [.closed], .ok ()⟩ := by
  obtain ⟨front, rest, hseen, hhanded, hstop⟩ :=
    exists_handed_of_deliver body.view.seen body.view.limit
  have hbytes : body.bytes = body.view.seen ++ body.view.rest := bytes_eq_view _ body
  refine ⟨front, rest, hseen, ?_, hstop, ?_⟩
  · rw [hbytes, hseen, List.append_assoc]
    exact List.prefix_append _ _
  · rw [subscribe_success, Scanner.tokens_new, hhanded]

/-- The unfinished line `tail` of what is seen of a clean stream is all there is, or the
`rest` of the stream is its end of line. -/
def CleanTail (limit : ℕ) (tail rest : List Byte) : Prop :=
  tail = [] ∧ rest = [] ∨
    tail ≠ [] ∧ tail.length ≤ limit ∧
      (rest = [] ∧ ¬EndsInCR tail ∨ ∃ r, AddsCROnly tail r ∧ rest = r ++ [newline])

/-- The unfinished line `tail` of what is seen of a stream that is cut off is not handed
out and is never finished, or it is handed out and the `rest` begins with its end of
line and has no other. -/
def CutTail (limit : ℕ) (tail rest : List Byte) : Prop :=
  (tail = [] ∨ limit < tail.length) ∧ newline ∉ rest ∨
    tail ≠ [] ∧ tail.length ≤ limit ∧
      ∃ r more, AddsCROnly tail r ∧ rest = r ++ newline :: more ∧ newline ∉ more

/-- Every line fits in the scanner's buffer, and the end of the stream is such that the
unfinished line is handed out exactly if it is a line. -/
structure Deliverable (body : Stream) : Prop where
  fits : ∀ line ∈ rawLines body.view.seen, line.length < maxScanTokenSize
  clean : body.ending = .eof →
    CleanTail body.view.limit (unfinished body.view.seen) body.view.rest
  failed : body.ending ≠ .eof →
    CutTail body.view.limit (unfinished body.view.seen) body.view.rest

/-- What adds at most a carriage return has no newline. -/
theorem newline_not_mem_of_addsCROnly {bytes r : List Byte} (h : AddsCROnly bytes r) :
    newline ∉ r := by
  rcases h with rfl | ⟨rfl, -⟩ <;> decide

/-- An unfinished line and what comes after it are one line that is handed out. -/
theorem textLines_eq_singleton_iff {tail : List Byte} (htail : newline ∉ tail) (hne : tail ≠ [])
    (rest : List Byte) : textLines (tail ++ rest) = [dropCR tail] ↔
      rest = [] ∧ ¬EndsInCR tail ∨ ∃ r, AddsCROnly tail r ∧ rest = r ++ [newline] := by
  constructor
  · intro h
    by_cases hmem : newline ∈ rest
    · obtain ⟨r, more, rfl, hr⟩ := List.eq_append_cons_of_mem hmem
      have hline : newline ∉ tail ++ r := List.not_mem_append htail hr
      rw [← List.append_assoc, textLines_line hline] at h
      obtain ⟨hdrop, hmore⟩ := List.cons.inj h
      rw [textLines_eq_nil_iff] at hmore
      subst hmore
      exact Or.inr ⟨r, (dropCR_append_eq_iff tail r).mp hdrop, rfl⟩
    · have hall : newline ∉ tail ++ rest := List.not_mem_append htail hmem
      rw [textLines_of_not_mem hall, if_neg (by simp [hne])] at h
      obtain ⟨heq, -⟩ := List.cons.inj h
      rcases dropCR_cases tail with ⟨-, htail'⟩ | ⟨hends, hdrop⟩
      · have hlen := congrArg List.length heq
        have hlen' := congrArg List.length htail'
        simp only [List.length_append, List.length_singleton] at hlen hlen'
        omega
      · rw [hdrop] at heq
        exact Or.inl ⟨List.append_right_eq_self.mp heq, hends⟩
  · rintro (⟨rfl, hends⟩ | ⟨r, hr, rfl⟩)
    · rw [List.append_nil, textLines_of_not_mem htail, if_neg hne, dropCR, if_neg hends]
    · have hline : newline ∉ tail ++ r :=
        List.not_mem_append htail (newline_not_mem_of_addsCROnly hr)
      rw [← List.append_assoc, textLines_line hline, (dropCR_append_eq_iff tail r).mpr hr]
      rfl

/-- An unfinished line and what comes after it have one terminated line that is handed out. -/
theorem terminatedLines_eq_singleton_iff {tail : List Byte} (htail : newline ∉ tail)
    (rest : List Byte) : terminatedLines (tail ++ rest) = [dropCR tail] ↔
      ∃ r more, AddsCROnly tail r ∧ rest = r ++ newline :: more ∧ newline ∉ more := by
  constructor
  · intro h
    by_cases hmem : newline ∈ rest
    · obtain ⟨r, more, rfl, hr⟩ := List.eq_append_cons_of_mem hmem
      have hline : newline ∉ tail ++ r := List.not_mem_append htail hr
      rw [← List.append_assoc, terminatedLines_line hline] at h
      obtain ⟨hdrop, hmore⟩ := List.cons.inj h
      exact ⟨r, more, (dropCR_append_eq_iff tail r).mp hdrop, rfl,
        (terminatedLines_eq_nil_iff more).mp hmore⟩
    · have hall : newline ∉ tail ++ rest := List.not_mem_append htail hmem
      rw [(terminatedLines_eq_nil_iff _).mpr hall] at h
      cases h
  · rintro ⟨r, more, hr, rfl, hmore⟩
    have hline : newline ∉ tail ++ r := List.not_mem_append htail (newline_not_mem_of_addsCROnly hr)
    rw [← List.append_assoc, terminatedLines_line hline, (dropCR_append_eq_iff tail r).mpr hr,
      (terminatedLines_eq_nil_iff more).mpr hmore]

/-- The scanner's last text is the rest of a clean stream's lines. -/
theorem cleanTail_iff {limit : ℕ} {tail : List Byte} (htail : newline ∉ tail) (rest : List Byte) :
    (if tail ≠ [] ∧ tail.length ≤ limit then [dropCR tail] else []) = textLines (tail ++ rest) ↔
      CleanTail limit tail rest := by
  by_cases hout : tail ≠ [] ∧ tail.length ≤ limit
  · rw [if_pos hout, eq_comm, textLines_eq_singleton_iff htail hout.1]
    simp [CleanTail, hout.1, hout.2]
  · rw [if_neg hout, eq_comm, textLines_eq_nil_iff, List.append_eq_nil_iff]
    simp only [CleanTail]
    tauto

/-- The scanner's last text is the rest of a cut stream's terminated lines. -/
theorem cutTail_iff {limit : ℕ} {tail : List Byte} (htail : newline ∉ tail) (rest : List Byte) :
    (if tail ≠ [] ∧ tail.length ≤ limit then [dropCR tail] else []) =
      terminatedLines (tail ++ rest) ↔ CutTail limit tail rest := by
  by_cases hout : tail ≠ [] ∧ tail.length ≤ limit
  · rw [if_pos hout, eq_comm, terminatedLines_eq_singleton_iff htail]
    simp [CutTail, hout.1, hout.2]
  · rw [if_neg hout, eq_comm, terminatedLines_eq_nil_iff, List.mem_append, not_or]
    simp only [CutTail, ← not_le]
    tauto

/-- `Subscribe` gives the listener the lines of a stream exactly when they fit in the
scanner's buffer and the stream ends with a line, or, if it is cut off, between lines. -/
theorem subscribe_delivers_iff (body : Stream) (shell : Shell) (topic : Str) :
    DeliversLines body (messages (subscribe (fun _ => .success body) shell topic).events) ↔
      Deliverable body := by
  have hbytes : body.bytes = body.view.seen ++ body.view.rest := bytes_eq_view _ body
  have htail := newline_not_mem_unfinished body.view.seen
  rw [messages_subscribe]
  by_cases hfits : ∀ line ∈ rawLines body.view.seen, line.length < maxScanTokenSize
  · rw [deliver_of_fits hfits]
    constructor
    · rintro ⟨hclean, hfailed⟩
      refine ⟨hfits, fun hend => ?_, fun hend => ?_⟩
      · have h := hclean hend
        rw [hbytes, textLines_append] at h
        exact (cleanTail_iff htail _).mp (List.append_cancel_left h)
      · have h := hfailed hend
        rw [hbytes, terminatedLines_append] at h
        exact (cutTail_iff htail _).mp (List.append_cancel_left h)
    · rintro ⟨-, hclean, hfailed⟩
      refine ⟨fun hend => ?_, fun hend => ?_⟩
      · rw [hbytes, textLines_append, (cleanTail_iff htail _).mpr (hclean hend)]
      · rw [hbytes, terminatedLines_append, (cutTail_iff htail _).mpr (hfailed hend)]
  · -- After a line that does not fit the listener gets too few.
    refine iff_of_false ?_ fun h => hfits h.fits
    rintro ⟨hclean, hfailed⟩
    have hlt := length_deliver_lt hfits body.view.limit
    by_cases hend : body.ending = .eof
    · rw [hclean hend, hbytes, textLines_append, List.length_append] at hlt
      omega
    · rw [hfailed hend, hbytes, terminatedLines_append, List.length_append] at hlt
      omega

/-- A message that is cut off after `abc` by a broken connection. -/
def cutMessage : Stream := .fail (str "abc") (str "unexpected EOF")

/-- A message that is cut off is given to the listener as if it were whole. -/
theorem not_deliversLines_cutMessage :
    ¬DeliversLines cutMessage
      (messages
        (subscribe (fun _ => .success cutMessage) ⟨str "/unix/sock"⟩ (str "topic")).events) := by
  intro h
  have hfailed := h.failed (by decide)
  rw [messages_subscribe] at hfailed
  exact absurd hfailed (by decide)

end IpfsMobile.Pubsub
