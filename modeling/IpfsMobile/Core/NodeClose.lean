import IpfsMobile.Core.Node
import Mathlib.Data.List.Nodup

/-!
# What `Close` closes

In every run the list of listeners holds each opened listener once, as soon as no
call is on its way. `Close` closes what is in the list when its loop starts, and
nothing else: a listener that is registered after the last loop stays open.
-/

namespace IpfsMobile.Core.Node

open Go Concurrent

variable {C Maddr : Type}

/-- The mutex keeps the appends apart, and every opened listener is in the list once or
with the one call that is going to add it. -/
structure Registered (s : State C Maddr) : Prop where
  /-- The phases agree with the holder of the mutex. -/
  mutex : Excludes Phase.Held s.muListeners s.phase
  /-- An append under way has read the list as it still is. -/
  snapshot : ∀ c ls, (s.phase c).snapshot = some ls → ls = s.listeners
  /-- No listener is in the list twice. -/
  nodup : s.listeners.Nodup
  /-- The list has opened listeners only. -/
  mem_lt : ∀ l ∈ s.listeners, l < s.opened
  /-- A listener that waits to be added is opened and not in the list. -/
  pending_new : ∀ c l, (s.phase c).pending = some l → l < s.opened ∧ l ∉ s.listeners
  /-- It waits with one call only. -/
  pending_unique : ∀ c c' l, (s.phase c).pending = some l → (s.phase c').pending = some l → c = c'
  /-- An opened listener is in the list or waits to be added. -/
  accounted : ∀ l < s.opened, l ∈ s.listeners ∨ ∃ c, (s.phase c).pending = some l
  /-- A call that has stored the longer list finds its listener there. -/
  written_mem : ∀ c l, (s.phase c).written = some l → l ∈ s.listeners
  /-- Reported listeners are in the list. -/
  reported_mem : ∀ l ∈ s.reported, l ∈ s.listeners

/-- Before any call nothing is opened. -/
theorem registered_init : Registered ({} : State C Maddr) where
  mutex := fun c => by simp [Phase.Held]
  snapshot := fun c ls h => by cases h
  nodup := List.nodup_nil
  mem_lt := by simp
  pending_new := fun c l h => by cases h
  pending_unique := fun c c' l h => by cases h
  accounted := fun l h => absurd h (Nat.not_lt_zero l)
  written_mem := fun c l h => by cases h
  reported_mem := by simp

variable [DecidableEq C]

namespace Registered

variable {s : State C Maddr} {c : C}

/-- A step that leaves the list and the call's pending listener alone keeps the books,
if the mutex still works and what the call has read and written is right. -/
theorem move (h : Registered s) {q : Phase Maddr} {holder : Option C}
    {reported closed : List Listener}
    (hmutex : Excludes Phase.Held holder (Function.update s.phase c q))
    (hpending : q.pending = (s.phase c).pending)
    (hsnapshot : ∀ ls, q.snapshot = some ls → ls = s.listeners)
    (hwritten : ∀ l, q.written = some l → l ∈ s.listeners)
    (hreported : ∀ l ∈ reported, l ∈ s.listeners) :
    Registered { s with muListeners := holder, reported := reported, closed := closed,
                        phase := Function.update s.phase c q } := by
  have hsame : ∀ d, (Function.update s.phase c q d).pending = (s.phase d).pending := by
    refine (Function.forall_update_iff s.phase fun d p => p.pending = (s.phase d).pending).mpr ?_
    exact ⟨hpending, fun _ _ => rfl⟩
  refine ⟨hmutex, ?_, h.nodup, h.mem_lt, ?_, ?_, ?_, ?_, hreported⟩
  · refine (Function.forall_update_iff s.phase fun _ p =>
      ∀ ls, p.snapshot = some ls → ls = s.listeners).mpr ?_
    exact ⟨hsnapshot, fun d _ => h.snapshot d⟩
  · intro d l hl
    exact h.pending_new d l ((hsame d).symm.trans hl)
  · intro d d' l hl hl'
    exact h.pending_unique d d' l ((hsame d).symm.trans hl) ((hsame d').symm.trans hl')
  · intro l hl
    refine (h.accounted l hl).imp_right ?_
    rintro ⟨d, hd⟩
    exact ⟨d, (hsame d).trans hd⟩
  · refine (Function.forall_update_iff s.phase fun _ p =>
      ∀ l, p.written = some l → l ∈ s.listeners).mpr ?_
    exact ⟨hwritten, fun d _ => h.written_mem d⟩

/-- A new listener waits with the call that has opened it. -/
theorem listen (h : Registered s) {maddr : Maddr} {todo : List Str}
    (hphase : s.phase c = .parsed maddr todo) :
    Registered { s.goto c (.opened s.opened todo) with opened := s.opened + 1 } := by
  have hpending : ∀ d l, (Function.update s.phase c (.opened s.opened todo) d).pending = some l ↔
      (d = c ∧ l = s.opened) ∨ (s.phase d).pending = some l := by
    refine (Function.forall_update_iff s.phase fun d p => ∀ l, p.pending = some l ↔
      (d = c ∧ l = s.opened) ∨ (s.phase d).pending = some l).mpr ⟨fun l => ?_, fun d hd l => ?_⟩
    · simp [Phase.pending, hphase, eq_comm]
    · simp [hd]
  refine ⟨?_, ?_, h.nodup, ?_, ?_, ?_, ?_, ?_, h.reported_mem⟩
  · exact h.mutex.update (by simp [hphase, Phase.Held])
  · refine (Function.forall_update_iff s.phase fun _ p =>
      ∀ ls, p.snapshot = some ls → ls = s.listeners).mpr ?_
    exact ⟨fun ls hls => (by cases hls), fun d _ => h.snapshot d⟩
  · intro l hl
    exact Nat.lt_succ_of_lt (h.mem_lt l hl)
  · intro d l hl
    rcases (hpending d l).mp hl with ⟨-, hnew⟩ | hold
    · subst hnew
      exact ⟨Nat.lt_succ_self _, fun hmem => absurd (h.mem_lt _ hmem) (Nat.lt_irrefl _)⟩
    · obtain ⟨hlt, hnew⟩ := h.pending_new d l hold
      exact ⟨Nat.lt_succ_of_lt hlt, hnew⟩
  · intro d d' l hl hl'
    -- The new number is above all others, so it waits with one call only.
    rcases (hpending d l).mp hl with ⟨he, hnew⟩ | hold <;>
      rcases (hpending d' l).mp hl' with ⟨he', hnew'⟩ | hold'
    · exact he.trans he'.symm
    · exact absurd hnew (Nat.ne_of_lt (h.pending_new d' l hold').1)
    · exact absurd hnew' (Nat.ne_of_lt (h.pending_new d l hold).1)
    · exact h.pending_unique d d' l hold hold'
  · intro l hl
    rcases Nat.lt_succ_iff_lt_or_eq.mp hl with hlt | rfl
    · refine (h.accounted l hlt).imp_right ?_
      rintro ⟨d, hd⟩
      exact ⟨d, (hpending d l).mpr (Or.inr hd)⟩
    · exact Or.inr ⟨c, (hpending c _).mpr (Or.inl ⟨rfl, rfl⟩)⟩
  · refine (Function.forall_update_iff s.phase fun _ p =>
      ∀ l, p.written = some l → l ∈ s.listeners).mpr ?_
    exact ⟨fun l hl => (by cases hl), fun d _ => h.written_mem d⟩

/-- The locked write moves the waiting listener to the end of the list. No other append
is under way, so the list that is written is longer by this listener only. -/
theorem store (h : Registered s) {ml : Listener} {ls : List Listener} {todo : List Str}
    (hphase : s.phase c = .loaded ml ls todo) :
    Registered { s.goto c (.stored ml todo) with listeners := ls ++ [ml] } := by
  have hread : ls = s.listeners := h.snapshot c ls (by rw [hphase, Phase.snapshot])
  subst hread
  have hml : (s.phase c).pending = some ml := by
    rw [hphase, Phase.pending]
  have hheld : (s.phase c).Held := by
    rw [hphase]
    trivial
  obtain ⟨hlt, hnew⟩ := h.pending_new c ml hml
  have hpending : ∀ d l, (Function.update s.phase c (.stored ml todo) d).pending = some l ↔
      d ≠ c ∧ (s.phase d).pending = some l := by
    refine (Function.forall_update_iff s.phase fun d p => ∀ l, p.pending = some l ↔
      d ≠ c ∧ (s.phase d).pending = some l).mpr ⟨fun l => ?_, fun d hd l => ?_⟩
    · simp [Phase.pending]
    · simp [hd]
  refine ⟨?_, ?_, ?_, ?_, ?_, ?_, ?_, ?_, ?_⟩
  · exact h.mutex.update (by simp [hphase, Phase.Held])
  · refine (Function.forall_update_iff s.phase fun _ p =>
      ∀ ls, p.snapshot = some ls → ls = s.listeners ++ [ml]).mpr ?_
    refine ⟨fun ls hls => (by cases hls), fun d hd ls hls => absurd ?_ hd⟩
    refine h.mutex.unique ?_ hheld
    cases hdphase : s.phase d <;> simp_all [Phase.snapshot, Phase.Held]
  · rw [← List.concat_eq_append]
    exact h.nodup.concat hnew
  · refine List.forall_mem_append.mpr ⟨h.mem_lt, fun l hl => ?_⟩
    obtain rfl := List.mem_singleton.mp hl
    exact hlt
  · intro d l hl
    obtain ⟨hd, hold⟩ := (hpending d l).mp hl
    obtain ⟨hlt', hnew'⟩ := h.pending_new d l hold
    refine ⟨hlt', ?_⟩
    rw [List.mem_append, List.mem_singleton]
    rintro (hmem | rfl)
    · exact hnew' hmem
    · exact hd (h.pending_unique d c l hold hml)
  · intro d d' l hl hl'
    exact h.pending_unique d d' l ((hpending d l).mp hl).2 ((hpending d' l).mp hl').2
  · intro l hl
    rcases h.accounted l hl with hmem | ⟨d, hd⟩
    · exact Or.inl (List.mem_append_left _ hmem)
    · by_cases hdc : d = c
      · subst hdc
        obtain rfl : ml = l := Option.some.inj (hml.symm.trans hd)
        exact Or.inl (by simp)
      · exact Or.inr ⟨d, (hpending d l).mpr ⟨hdc, hd⟩⟩
  · refine (Function.forall_update_iff s.phase fun _ p =>
      ∀ l, p.written = some l → l ∈ s.listeners ++ [ml]).mpr ?_
    refine ⟨fun l hl => ?_, fun d _ l hl => List.mem_append_left _ (h.written_mem d l hl)⟩
    obtain rfl := Option.some.inj hl
    simp
  · intro l hl
    exact List.mem_append_left _ (h.reported_mem l hl)

/-- A step that leaves the list, the call's pending listener and the reports alone and
leads to a phase without a listener of its own. -/
theorem move_plain (h : Registered s) {q : Phase Maddr} {holder : Option C} {closed : List Listener}
    (hmutex : Excludes Phase.Held holder (Function.update s.phase c q))
    (hpending : q.pending = (s.phase c).pending) (hq : q.snapshot = none ∧ q.written = none) :
    Registered { s with muListeners := holder, closed := closed,
                        phase := Function.update s.phase c q } := by
  apply h.move hmutex hpending
  · intro ls hls
    rw [hq.1] at hls
    cases hls
  · intro l hl
    rw [hq.2] at hl
    cases hl
  · exact h.reported_mem

/-- Every step keeps the books. -/
theorem of_moves (h : Registered s) {op : Op} {s' : State C Maddr} (hmove : Moves s c op s') :
    Registered s' := by
  have hmutex := h.mutex
  have hwritten := h.written_mem c
  cases hmove with
  | free hp hq hop =>
    obtain ⟨hheld, hpending, -⟩ := hp.fields
    obtain ⟨hheld', hpending', hwritten', hsnapshot, -⟩ := hq.fields
    apply h.move_plain (hmutex.update (iff_of_false hheld' hheld)) _ ⟨hsnapshot, hwritten'⟩
    rw [hpending', hpending]
  | listen hphase => exact h.listen hphase
  | store hphase => exact h.store hphase
  | lock hphase hnone =>
    rw [hnone] at hmutex
    apply h.move_plain (hmutex.acquire _) _ ⟨rfl, rfl⟩
    · simp [Phase.Held]
    · simp [hphase, Phase.pending]
  | closeLock hphase hnone =>
    rw [hnone] at hmutex
    apply h.move_plain (hmutex.acquire _) _ ⟨rfl, rfl⟩
    · simp [Phase.Held]
    · simp [hphase, Phase.pending]
  | load hphase =>
    apply h.move (hmutex.update _) _ _ _ h.reported_mem
    · simp [hphase, Phase.Held]
    · simp [hphase, Phase.pending]
    · simp [Phase.snapshot]
    · simp [Phase.written]
  | range hphase =>
    apply h.move_plain (hmutex.update _) _ ⟨rfl, rfl⟩
    · simp [hphase, Phase.Held]
    · simp [hphase, Phase.pending]
  | closeNext hphase =>
    apply h.move_plain (hmutex.update _) _ ⟨rfl, rfl⟩
    · simp [hphase, Phase.Held]
    · simp [hphase, Phase.pending]
  | closeUnlock hphase =>
    apply h.move_plain (hmutex.release _ _) _ ⟨rfl, rfl⟩
    · simp [hphase, Phase.Held]
    · simp [Phase.Held]
    · simp [hphase, Phase.pending]
  | unlock hphase =>
    apply h.move (hmutex.release _ _) _ _ _ h.reported_mem
    · simp [hphase, Phase.Held]
    · simp [Phase.Held]
    · simp [hphase, Phase.pending]
    · simp [Phase.snapshot]
    · simpa [hphase, Phase.written] using hwritten
  | report hphase =>
    have hmem := hwritten _ (by rw [hphase, Phase.written])
    apply h.move (hmutex.update _) _ _ _ _
    · simp [hphase, Phase.Held]
    · simp [hphase, Phase.pending]
    · simp [Phase.snapshot]
    · simp [Phase.written]
    · exact List.forall_mem_append.mpr ⟨h.reported_mem, by simpa using hmem⟩

end Registered

variable {newMultiaddr : Str → Except Err Maddr} {as : List (Action C)} {s : State C Maddr}

/-- The books are right in every state a node reaches. -/
theorem registered_of_trace (h : (system C newMultiaddr).Trace as s) : Registered s :=
  h.invariant registered_init fun _ _ _ _ _ hreg hstep => hreg.of_moves (moves_of_step hstep)

/-- The listener `l` was in the list when the loop of some `Close` started. -/
def SeenByClose (newMultiaddr : Str → Except Err Maddr) (as : List (Action C)) (l : Listener) :
    Prop :=
  ∃ as₁ s₁ c as₂, as = as₁ ++ ⟨c, .range⟩ :: as₂ ∧ (system C newMultiaddr).Trace as₁ s₁ ∧
    l ∈ s₁.listeners

/-- One more step adds what is in the list, if the step starts a loop. -/
theorem seenByClose_append (h : (system C newMultiaddr).Trace as s) (a : Action C) (l : Listener) :
    SeenByClose newMultiaddr (as ++ [a]) l ↔
      SeenByClose newMultiaddr as l ∨ a.op = .range ∧ l ∈ s.listeners := by
  constructor
  · rintro ⟨as₁, s₁, c, as₂, heq, htrace, hl⟩
    rcases List.eq_nil_or_concat as₂ with rfl | ⟨bs, b, rfl⟩
    · obtain ⟨rfl, ha⟩ := List.append_inj' heq rfl
      obtain rfl : a = ⟨c, .range⟩ := by simpa using ha
      obtain rfl : s₁ = s := htrace.unique h
      exact Or.inr ⟨rfl, hl⟩
    · rw [List.concat_eq_append, ← List.cons_append, ← List.append_assoc] at heq
      obtain ⟨rfl, -⟩ := List.append_inj' heq rfl
      exact Or.inl ⟨as₁, s₁, c, bs, rfl, htrace, hl⟩
  · rintro (⟨as₁, s₁, c, as₂, rfl, htrace, hl⟩ | ⟨hop, hl⟩)
    · exact ⟨as₁, s₁, c, as₂ ++ [a], by simp, htrace, hl⟩
    · obtain ⟨c, op⟩ := a
      obtain rfl : op = .range := hop
      exact ⟨as, s, c, [], rfl, h, hl⟩

/-- What the loops of `Close` have done and have still to do is what they have seen. -/
def Closing (newMultiaddr : Str → Except Err Maddr) (as : List (Action C)) (s : State C Maddr) :
    Prop :=
  ∀ l, SeenByClose newMultiaddr as l ↔ l ∈ s.closed ∨ ∃ c, l ∈ (s.phase c).toClose

namespace Closing

variable {c : C} {op : Op}

/-- A step that neither starts a loop nor closes a listener. -/
theorem move (h : Closing newMultiaddr as s) (htrace : (system C newMultiaddr).Trace as s)
    {s' : State C Maddr} {q : Phase Maddr} (hop : op ≠ .range)
    (hphase : s'.phase = Function.update s.phase c q) (hclosed : s'.closed = s.closed)
    (hq : q.toClose = (s.phase c).toClose) : Closing newMultiaddr (as ++ [⟨c, op⟩]) s' := by
  intro l
  have hsame : ∀ d, (s'.phase d).toClose = (s.phase d).toClose := by
    rw [hphase]
    refine (Function.forall_update_iff s.phase fun d p => p.toClose = (s.phase d).toClose).mpr ?_
    exact ⟨hq, fun _ _ => rfl⟩
  simp only [seenByClose_append htrace, hop, false_and, or_false, hclosed, hsame]
  exact h l

/-- A loop starts with everything in the list. -/
theorem range (h : Closing newMultiaddr as s) (htrace : (system C newMultiaddr).Trace as s)
    (hphase : s.phase c = .closeLocked) :
    Closing newMultiaddr (as ++ [⟨c, .range⟩]) (s.goto c (.closeLoop s.listeners)) := by
  intro l
  have hloop : (∃ d, l ∈ (Function.update s.phase c (.closeLoop s.listeners) d).toClose) ↔
      l ∈ s.listeners ∨ ∃ d, l ∈ (s.phase d).toClose := by
    rw [Function.exists_update_iff s.phase fun _ p => l ∈ p.toClose]
    refine or_congr_right ⟨fun ⟨d, _, hd⟩ => ⟨d, hd⟩, fun ⟨d, hd⟩ => ⟨d, ?_, hd⟩⟩
    rintro rfl
    simp [hphase, Phase.toClose] at hd
  rw [seenByClose_append htrace, h l]
  simp only [State.goto, hloop, true_and]
  tauto

/-- A loop closes the next listener. -/
theorem closeNext (h : Closing newMultiaddr as s) (htrace : (system C newMultiaddr).Trace as s)
    {l : Listener} {rest : List Listener} (hphase : s.phase c = .closeLoop (l :: rest)) :
    Closing newMultiaddr (as ++ [⟨c, .closeNext⟩])
      { s.goto c (.closeLoop rest) with closed := s.closed ++ [l] } := by
  intro l'
  have hloop : (∃ d, l' ∈ (s.phase d).toClose) ↔ l' = l ∨
      ∃ d, l' ∈ (Function.update s.phase c (.closeLoop rest) d).toClose := by
    rw [Function.exists_update_iff s.phase fun _ p => l' ∈ p.toClose]
    constructor
    · rintro ⟨d, hd⟩
      by_cases hdc : d = c
      · subst hdc
        rw [hphase] at hd
        exact (List.mem_cons.mp hd).imp_right Or.inl
      · exact Or.inr (Or.inr ⟨d, hdc, hd⟩)
    · rintro (rfl | hrest | ⟨d, -, hd⟩)
      · exact ⟨c, by simp [hphase, Phase.toClose]⟩
      · refine ⟨c, ?_⟩
        rw [hphase]
        exact List.mem_cons_of_mem _ hrest
      · exact ⟨d, hd⟩
  rw [seenByClose_append htrace, h l', hloop]
  simp only [State.goto, List.mem_append, List.mem_singleton, reduceCtorEq, false_and, or_false]
  tauto

/-- Every step keeps account of the loops. -/
theorem of_moves (h : Closing newMultiaddr as s) (htrace : (system C newMultiaddr).Trace as s)
    {s' : State C Maddr} (hmove : Moves s c op s') : Closing newMultiaddr (as ++ [⟨c, op⟩]) s' := by
  cases hmove with
  | free hp hq hop =>
    exact h.move htrace hop rfl rfl (hq.fields.2.2.2.2.trans hp.fields.2.2.2.2.symm)
  | range hphase => exact h.range htrace hphase
  | closeNext hphase => exact h.closeNext htrace hphase
  | _ hphase => exact h.move htrace (by simp) rfl rfl (by simp [hphase, Phase.toClose])

end Closing

/-- The account of the loops is right in every run. -/
theorem closing_of_trace (h : (system C newMultiaddr).Trace as s) : Closing newMultiaddr as s := by
  unfold System.Trace at h
  induction h with
  | refl =>
    intro l
    refine iff_of_false ?_ ?_
    · rintro ⟨as₁, s₁, c, as₂, heq, -⟩
      simp at heq
    · rintro (hl | ⟨c, hl⟩)
      · cases hl
      · cases hl
  | snoc hprev hnext ih => exact ih.of_moves hprev (moves_of_step hnext)

/-- No call is in progress. -/
def State.Quiet (s : State C Maddr) : Prop :=
  ∀ c, s.phase c = .idle ∨ s.phase c = .served ∨ s.phase c = .closed

/-- Once no call is in progress, the list has each opened listener exactly once, and
the closed ones are those that were in the list when the loop of some `Close` started. -/
theorem closed_iff_seenByClose (hrun : (system C newMultiaddr).Trace as s) (hquiet : s.Quiet) :
    (∀ l ∈ s.reported, l < s.opened) ∧
      ∀ l < s.opened, s.listeners.count l = 1 ∧
        (l ∈ s.closed ↔ SeenByClose newMultiaddr as l) := by
  have hreg := registered_of_trace hrun
  have hfree : ∀ c, (s.phase c).Free := by
    intro c
    rcases hquiet c with h | h | h <;> rw [h] <;> trivial
  refine ⟨fun l hl => hreg.mem_lt l (hreg.reported_mem l hl), fun l hl => ⟨?_, ?_⟩⟩
  · refine List.count_eq_one_of_mem hreg.nodup ((hreg.accounted l hl).resolve_right ?_)
    rintro ⟨c, hc⟩
    simp [(hfree c).fields.2.1] at hc
  · rw [closing_of_trace hrun l]
    refine (or_iff_left ?_).symm
    rintro ⟨c, hc⟩
    simp [(hfree c).fields.2.2.2.2] at hc

/-- A node whose addresses are taken as they are written. -/
def exampleNode : System (State Bool Str) (Action Bool) := system Bool .ok

/-- One call serves a port and returns; then the other closes the node. -/
def servedThenClosed : List (Action Bool) :=
  ([.serve (.serveTCPAPI (str "5001")), .newMultiaddr, .listen true, .lock, .load, .store,
    .unlock, .report, .finish] : List Op).map (⟨false, ·⟩) ++
  ([.close, .lock, .range, .closeNext, .unlock, .stop] : List Op).map (⟨true, ·⟩)

/-- The listener of a call that has returned before the node is closed. -/
theorem closed_iff_seenByClose_in_turn :
    (∀ l ∈ (exampleNode.after servedThenClosed).reported,
        l < (exampleNode.after servedThenClosed).opened) ∧
      ∀ l < (exampleNode.after servedThenClosed).opened,
        (exampleNode.after servedThenClosed).listeners.count l = 1 ∧
          (l ∈ (exampleNode.after servedThenClosed).closed ↔
            SeenByClose Except.ok servedThenClosed l) := by
  have hrun : exampleNode.Trace servedThenClosed (exampleNode.after servedThenClosed) :=
    System.trace_after (by decide)
  refine closed_iff_seenByClose hrun fun c => ?_
  cases c <;> decide

/-- A returned `Close` leaves no listener behind: every reported listener is closed, and
the list has each opened listener once. -/
def State.NoneLeft (s : State C Maddr) : Prop :=
  (∃ c, s.phase c = .closed) →
    (∀ l ∈ s.reported, l ∈ s.closed) ∧ ∀ l < s.opened, s.listeners.count l = 1

/-- One call opens a listener; the other closes the node from beginning to end before
the first one adds its listener to the list and returns. -/
def closedBeforeAppend : List (Action Bool) :=
  ([.serve (.serveTCPAPI (str "5001")), .newMultiaddr, .listen true] : List Op).map (⟨false, ·⟩) ++
  ([.close, .lock, .range, .unlock, .stop] : List Op).map (⟨true, ·⟩) ++
  ([.lock, .load, .store, .unlock, .report, .finish] : List Op).map (⟨false, ·⟩)

/-- A listener that is added after the loop of `Close` stays open, although `Close` has
returned and no call is in progress. -/
theorem not_noneLeft_closedBeforeAppend :
    exampleNode.Trace closedBeforeAppend (exampleNode.after closedBeforeAppend) ∧
      (exampleNode.after closedBeforeAppend).Quiet ∧
      ¬(exampleNode.after closedBeforeAppend).NoneLeft := by
  refine ⟨System.trace_after (by decide), ?_, ?_⟩
  · intro c
    cases c <;> decide
  · intro h
    exact absurd ((h ⟨true, by decide⟩).1 0 (by decide)) (by decide)

end IpfsMobile.Core.Node
