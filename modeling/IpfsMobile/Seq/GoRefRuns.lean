import IpfsMobile.Seq.GoRefQueue
import Mathlib.Data.Finset.Dedup
import Mathlib.Data.Finset.Range
import Mathlib.Data.List.GetD
import Mathlib.Data.List.Nodup

/-!
# Telling Go

In every run Go is told at most once for each proxy, and only when the proxy cannot be
reached. No proxy is forgotten: once the program makes and loses no more of them, the
collector and the daemon come to an end, and then Go was told about all that were lost.
-/

namespace IpfsMobile.Seq.GoRefQueue

open Concurrent

/-- What the daemon has taken and not destroyed yet. -/
def Daemon.held : Daemon → List ℕ
  | taken g | unlisted g => [g]
  | waiting | informed _ => []

/-- Where the `GoRef`s are that were enqueued. -/
def State.passed (s : State) : List ℕ := s.queue ++ s.daemon.held ++ s.destroyed

/-- Every `GoRef` can still be enqueued, or is on its way to being destroyed once. -/
structure Accounted (s : State) : Prop where
  adding_lt : ∀ g ∈ s.adding, g < s.refnums.length
  lost_lt : ∀ g ∈ s.lost, g < s.refnums.length
  lost_of_enqueued : ∀ g ∈ s.enqueued, g ∈ s.lost
  mem_passed : ∀ g, g ∈ s.passed ↔ g ∈ s.enqueued
  nodup : s.passed.Nodup
  /-- The collector can reach what it has not enqueued. -/
  reachable : ∀ g < s.refnums.length, g ∉ s.enqueued → g ∈ s.adding ∨ g ∈ s.refs

/-- At first there is no `GoRef`. -/
theorem accounted_init : Accounted {} := by
  constructor <;> simp [State.passed, Daemon.held]

namespace Accounted

variable {s : State}

/-- Steps that only move a `GoRef` on its way. -/
theorem pass (h : Accounted s) {refs : Finset ℕ} {queue destroyed : List ℕ} {daemon : Daemon}
    (hpassed : (queue ++ daemon.held ++ destroyed).Perm s.passed)
    (hrefs : ∀ g ∈ s.refs, g ∉ s.enqueued → g ∈ refs) :
    Accounted
      { s with refs := refs, queue := queue, daemon := daemon, destroyed := destroyed } where
  adding_lt := h.adding_lt
  lost_lt := h.lost_lt
  lost_of_enqueued := h.lost_of_enqueued
  mem_passed g := hpassed.mem_iff.trans (h.mem_passed g)
  nodup := hpassed.nodup_iff.mpr h.nodup
  reachable g hg hnot := (h.reachable g hg hnot).imp_right fun hmem => hrefs g hmem hnot

/-- A new `GoRef` can be reached from the call that makes it. -/
theorem track (h : Accounted s) (n : ℤ) :
    Accounted
      { s with refnums := s.refnums ++ [n], adding := insert s.refnums.length s.adding } := by
  have hlen : (s.refnums ++ [n]).length = s.refnums.length + 1 := by simp
  refine ⟨fun g hg => ?_, fun g hg => ?_, h.lost_of_enqueued, h.mem_passed, h.nodup,
    fun g hg hnot => ?_⟩
  · rcases Finset.mem_insert.mp hg with rfl | hold
    · exact hlen ▸ Nat.lt_succ_self _
    · exact hlen ▸ Nat.lt_succ_of_lt (h.adding_lt g hold)
  · exact hlen ▸ Nat.lt_succ_of_lt (h.lost_lt g hg)
  · by_cases heq : g = s.refnums.length
    · exact Or.inl (heq ▸ Finset.mem_insert_self _ _)
    · have hold : g < s.refnums.length := by
        have hnew : g < (s.refnums ++ [n]).length := hg
        omega
      exact (h.reachable g hold hnot).imp_left (Finset.mem_insert_of_mem ·)

/-- Every step keeps the account. -/
theorem of_moves (h : Accounted s) {a : Action} {s' : State} (hmove : Moves s a s') :
    Accounted s' := by
  cases hmove with
  | reject | interrupt => exact h
  | track => exact h.track _
  | add hadd =>
    rename_i g
    refine ⟨fun g' hg' => h.adding_lt g' (Finset.mem_of_mem_erase hg'), h.lost_lt,
      h.lost_of_enqueued, h.mem_passed, h.nodup, fun g' hg' hnot => ?_⟩
    by_cases heq : g' = g
    · exact Or.inr (heq ▸ Finset.mem_insert_self _ _)
    · exact (h.reachable g' hg' hnot).imp (Finset.mem_erase_of_ne_of_mem heq)
        (Finset.mem_insert_of_mem ·)
  | lose hlt hnot =>
    refine ⟨h.adding_lt, fun g' hg' => ?_, fun g' hg' => ?_, h.mem_passed, h.nodup, h.reachable⟩
    · rcases Finset.mem_insert.mp hg' with rfl | hold
      · exact hlt
      · exact h.lost_lt g' hold
    · exact Finset.mem_insert_of_mem (h.lost_of_enqueued g' hg')
  | enqueue hlost hnot =>
    rename_i g
    have hperm : (s.queue ++ [g] ++ s.daemon.held ++ s.destroyed).Perm (g :: s.passed) := by
      rw [State.passed]
      simp
    refine ⟨h.adding_lt, h.lost_lt, fun g' hg' => ?_, fun g' => ?_, ?_, fun g' hg' hnot' => ?_⟩
    · rcases Finset.mem_insert.mp hg' with rfl | hold
      · exact hlost
      · exact h.lost_of_enqueued g' hold
    · rw [Finset.mem_insert, ← h.mem_passed g']
      exact hperm.mem_iff.trans List.mem_cons
    · exact hperm.nodup_iff.mpr (List.nodup_cons.mpr ⟨fun hmem => hnot ((h.mem_passed g).mp hmem),
        h.nodup⟩)
    · exact h.reachable g' hg' fun hmem => hnot' (Finset.mem_insert_of_mem hmem)
  | remove hwaiting hmem =>
    refine h.pass ?_ fun _ hg _ => hg
    have hperm := List.perm_middle.trans
      ((List.perm_cons_erase hmem).symm.append_right s.destroyed)
    rw [State.passed, hwaiting]
    simpa [Daemon.held] using hperm
  | unlist htaken =>
    rename_i g
    refine h.pass ?_ fun g' hg' hnot => ?_
    · rw [State.passed, htaken]
      exact .rfl
    · refine Finset.mem_erase_of_ne_of_mem ?_ hg'
      rintro rfl
      refine hnot ((h.mem_passed g').mp ?_)
      simp [State.passed, htaken, Daemon.held]
  | destroyRef hunlisted =>
    rename_i g
    refine h.pass ?_ fun _ hg _ => hg
    have hperm : (s.destroyed ++ [g]).Perm (g :: s.destroyed) := List.perm_append_singleton g _
    rw [State.passed, hunlisted]
    simpa [Daemon.held] using hperm.append_left s.queue
  | clear hinformed =>
    refine h.pass ?_ fun _ hg _ => hg
    rw [State.passed, hinformed]
    exact .rfl

end Accounted

/-- The account is kept in every run. -/
theorem accounted_of_trace {as : List Action} {s : State} (h : system.Trace as s) :
    Accounted s :=
  h.invariant (P := Accounted) accounted_init fun _ _ _ _ _ hs hstep =>
    hs.of_moves (moves_of_step hstep)

/-- The number of a `GoRef`, or a positive one if there is none. -/
def State.refnum (s : State) (g : ℕ) : ℤ := s.refnums.getD g 1

/-- The `GoRef`s of the proxies for a Go object. -/
def State.proxies (s : State) (n : ℤ) : Finset ℕ :=
  (Finset.range s.refnums.length).filter fun g => s.refnum g = n

/-- Those whose proxies can be reached. -/
def State.inUse (s : State) (n : ℤ) : Finset ℕ := (s.proxies n).filter fun g => g ∉ s.lost

/-- Those that Go has still to be told about. -/
def State.awaited (s : State) (n : ℤ) : Finset ℕ :=
  (s.proxies n).filter fun g => g ∈ s.lost ∧ g ∉ s.destroyed

/-- How often `destroyRef` was called with a number. -/
def State.released (s : State) (n : ℤ) : ℕ := (s.destroyed.map s.refnum).count n

/-- How often a number was tracked. -/
def tracked (n : ℤ) (as : List Action) : ℕ := as.count (.track n none)

/-- As many numbers in a list are equal to one as there are places where it stands. -/
theorem card_places (l : List ℤ) (n : ℤ) :
    ((Finset.range l.length).filter fun g => l.getD g 1 = n).card = l.count n := by
  induction l using List.reverseRecOn with
  | nil => rfl
  | append_singleton l m ih =>
    have hlast : (l ++ [m]).getD l.length 1 = m := by simp
    have hsame : ((Finset.range l.length).filter fun g => (l ++ [m]).getD g 1 = n) =
        (Finset.range l.length).filter fun g => l.getD g 1 = n := by
      refine Finset.filter_congr fun g hg => ?_
      rw [List.getD_append _ _ _ _ (Finset.mem_range.mp hg)]
    rw [List.length_append, List.length_singleton, Finset.range_add_one, Finset.filter_insert,
      hlast, hsame, List.count_append, ← ih]
    by_cases hm : m = n
    · subst hm
      simp
    · simp [hm]

/-- Every number that was tracked has a `GoRef`. -/
theorem tracked_eq_card {as : List Action} {s : State} (h : system.Trace as s) (n : ℤ) :
    tracked n as = (s.proxies n).card := by
  refine Eq.trans ?_ (card_places s.refnums n).symm
  unfold System.Trace at h
  induction h with
  | refl => rfl
  | @snoc as a t s' hprev hnext ih =>
    rw [tracked, List.count_append, ← tracked, ih]
    cases moves_of_step hnext with
    | track hn =>
      rename_i m
      rw [List.count_append]
      by_cases heq : m = n
      · subst heq
        simp
      · have hne : ¬Action.track m none = .track n none := fun h => heq (Action.track.inj h).1
        simp [heq, hne]
    | _ => simp

/-- Only proxies that cannot be reached are told to Go. -/
theorem Accounted.lost_of_destroyed {s : State} (h : Accounted s) :
    ∀ g ∈ s.destroyed, g ∈ s.lost := fun g hg =>
  h.lost_of_enqueued g ((h.mem_passed g).mp (List.mem_append_right _ hg))

/-- The calls of `destroyRef` are for as many `GoRef`s. -/
theorem Accounted.released_eq {s : State} (h : Accounted s) (n : ℤ) :
    s.released n = ((s.proxies n).filter fun g => g ∈ s.destroyed).card := by
  have hnodup : s.destroyed.Nodup := h.nodup.of_append_right
  have hset : ((s.proxies n).filter fun g => g ∈ s.destroyed) =
      (s.destroyed.filter fun g => s.refnum g = n).toFinset := by
    ext g
    have hlt : g ∈ s.destroyed → g < s.refnums.length := fun hg =>
      h.lost_lt g (h.lost_of_destroyed g hg)
    simp only [State.proxies, Finset.mem_filter, Finset.mem_range, List.mem_toFinset,
      List.mem_filter, decide_eq_true_eq]
    exact ⟨fun hg => ⟨hg.2, hg.1.2⟩, fun hg => ⟨⟨hlt hg.1, hg.2⟩, hg.1⟩⟩
  rw [hset, List.toFinset_card_of_nodup (hnodup.filter _), State.released, List.count,
    List.countP_map, List.countP_eq_length_filter]
  rfl

/-- For each Go object the proxies in use, those that Go was told about and those it has still
to be told about are all that were tracked. -/
theorem balance_of_trace {as : List Action} {s : State} (h : system.Trace as s) (n : ℤ) :
    s.released n + (s.inUse n).card + (s.awaited n).card = tracked n as := by
  have hacc := accounted_of_trace h
  have hsplit := Finset.card_filter_add_card_filter_not (s := s.proxies n) fun g => g ∈ s.lost
  have hsplit' := Finset.card_filter_add_card_filter_not
    (s := (s.proxies n).filter fun g => g ∈ s.lost) fun g => g ∈ s.destroyed
  have hdestroyed : ((s.proxies n).filter fun g => g ∈ s.lost).filter (fun g => g ∈ s.destroyed) =
      (s.proxies n).filter fun g => g ∈ s.destroyed := by
    rw [Finset.filter_filter]
    exact Finset.filter_congr fun g _ => ⟨And.right, fun hg => ⟨hacc.lost_of_destroyed g hg, hg⟩⟩
  rw [hdestroyed, Finset.filter_filter] at hsplit'
  rw [hacc.released_eq, tracked_eq_card h, State.inUse, State.awaited]
  omega

/-- Go is told about a proxy at most once, and not before it cannot be reached. For each Go
object the proxies in use, those that Go was told about and those it has still to be told about
are all that were tracked. -/
theorem released_of_trace {as : List Action} {s : State} (h : system.Trace as s) :
    s.destroyed.Nodup ∧ (∀ g ∈ s.destroyed, g ∈ s.lost) ∧
      ∀ n, s.released n + (s.inUse n).card + (s.awaited n).card = tracked n as :=
  have hacc := accounted_of_trace h
  ⟨hacc.nodup.of_append_right, hacc.lost_of_destroyed, balance_of_trace h⟩

/-- Three proxies for two Go objects. The two for the first one are lost, and one of them was
told to Go when an interrupt came. -/
def twoLost : List Action :=
  [.track (-7) none, .track (-9) none, .add 1, .track 5 (some (.trackGoRef 5)), .add 0,
    .track (-7) none, .lose 2, .lose 0, .enqueue 2, .enqueue 0, .remove 0, .unlist, .destroyRef,
    .clear, .interrupt, .add 2]

/-- One of three proxies was told to Go. -/
theorem released_of_trace_twoLost :
    (system.after twoLost).released (-7) + ((system.after twoLost).inUse (-7)).card +
      ((system.after twoLost).awaited (-7)).card = 2 :=
  (released_of_trace (System.trace_after rfl)).2.2 (-7)

/-- The steps that are taken when the program makes and loses no more proxies. -/
def Action.Internal : Action → Prop
  | add _ | enqueue _ | remove _ | unlist | destroyRef | clear => True
  | track _ _ | lose _ | interrupt => False

/-- The steps that the daemon has still to take before it waits. -/
def Daemon.work : Daemon → ℕ
  | waiting => 0
  | informed _ => 1
  | unlisted _ => 2
  | taken _ => 3

/-- A bound on the steps that are still to be taken. -/
def State.work (s : State) : ℕ :=
  s.adding.card + 5 * (s.lost \ s.enqueued).card + 4 * s.queue.length + s.daemon.work

/-- Every step on the way makes less of the work, and leaves the proxies that are in use. -/
theorem Moves.internal {s s' : State} {a : Action} (h : Moves s a s') (ha : a.Internal) :
    s'.work < s.work ∧ s'.refnums = s.refnums ∧ s'.lost = s.lost := by
  cases h with
  | reject | interrupt | track | lose => exact absurd ha id
  | add hadd =>
    have hcard := Finset.card_erase_add_one hadd
    refine ⟨?_, rfl, rfl⟩
    simp only [State.work]
    omega
  | enqueue hlost hnot =>
    rename_i g
    have hcard := Finset.card_erase_add_one (Finset.mem_sdiff.mpr ⟨hlost, hnot⟩)
    have hset : s.lost \ insert g s.enqueued = (s.lost \ s.enqueued).erase g :=
      Finset.sdiff_insert _ _ _
    refine ⟨?_, rfl, rfl⟩
    simp only [State.work, hset, List.length_append, List.length_singleton]
    omega
  | remove hwaiting hmem =>
    have hlen := List.length_erase_of_mem hmem
    have hpos := List.length_pos_of_mem hmem
    refine ⟨?_, rfl, rfl⟩
    simp only [State.work, hwaiting, Daemon.work]
    omega
  | unlist hphase | destroyRef hphase | clear hphase =>
    refine ⟨?_, rfl, rfl⟩
    simp only [State.work, hphase, Daemon.work]
    omega

/-- When no step is left, Go was told about all proxies that are lost. -/
theorem Accounted.lost_subset {s : State} (h : Accounted s)
    (hend : ∀ a, a.Internal → step s a = none) : ∀ g ∈ s.lost, g ∈ s.destroyed := by
  have hwaiting : s.daemon = .waiting := by
    cases hphase : s.daemon with
    | waiting => rfl
    | taken g => simpa [step, hphase] using hend .unlist trivial
    | unlisted g => simpa [step, hphase] using hend .destroyRef trivial
    | informed g => simpa [step, hphase] using hend .clear trivial
  have hqueue : s.queue = [] := by
    cases hq : s.queue with
    | nil => rfl
    | cons g queue => simpa [step, hwaiting, hq] using hend (.remove g) trivial
  intro g hg
  have henqueued : g ∈ s.enqueued := by
    by_contra hnot
    have hreach := h.reachable g (h.lost_lt g hg) hnot
    simpa [step, hg, hnot, hreach] using hend (.enqueue g) trivial
  have hpassed := (h.mem_passed g).mpr henqueued
  simpa [State.passed, hqueue, hwaiting, Daemon.held] using hpassed

/-- Once the program makes and loses no more proxies, only a bounded number of steps is left.
When they are taken, Go was told once for every proxy but those that are in use. -/
theorem told_of_steps {as more : List Action} {s s' : State} (h : system.Trace as s)
    (hmore : system.Steps s more s') (hinternal : ∀ a ∈ more, a.Internal) :
    more.length ≤ s.work ∧ ((∀ a, a.Internal → step s' a = none) →
      ∀ n, s'.released n + (s.inUse n).card = tracked n as) := by
  have hkept : (s'.refnums = s.refnums ∧ s'.lost = s.lost) ∧
      more.length + s'.work ≤ s.work := by
    refine System.Steps.length_add_le (P := fun t => t.refnums = s.refnums ∧ t.lost = s.lost)
      (fun t a t' ht ha hnext => ?_) hmore ⟨rfl, rfl⟩ hinternal
    obtain ⟨hlt, hrefnums, hlost⟩ := (moves_of_step hnext).internal ha
    exact ⟨⟨hrefnums.trans ht.1, hlost.trans ht.2⟩, hlt⟩
  obtain ⟨⟨hrefnums, hlost⟩, hlen⟩ := hkept
  refine ⟨by omega, fun hend n => ?_⟩
  have htrace := System.Steps.append h hmore
  have hall := (accounted_of_trace htrace).lost_subset hend
  have hbalance := balance_of_trace htrace n
  have hawaited : s'.awaited n = ∅ := by
    refine Finset.filter_eq_empty_iff.mpr fun g _ hg => ?_
    exact hg.2 (hall g hg.1)
  have hinUse : s'.inUse n = s.inUse n := by
    ext g
    simp only [State.inUse, State.proxies, Finset.mem_filter]
    rw [State.refnum, State.refnum, hrefnums, hlost]
  have htracked : tracked n (as ++ more) = tracked n as := by
    have hnone : more.count (.track n none) = 0 :=
      List.count_eq_zero.mpr fun hmem => hinternal _ hmem
    rw [tracked, List.count_append, hnone, Nat.add_zero, ← tracked]
  rw [hawaited, hinUse, htracked, Finset.card_empty] at hbalance
  omega

/-- The other lost proxy is told to Go in four more steps. -/
theorem told_of_steps_twoLost :
    [Action.remove 2, .unlist, .destroyRef, .clear].length ≤ (system.after twoLost).work := by
  have hmore : system.Steps (system.after twoLost) [.remove 2, .unlist, .destroyRef, .clear]
      (system.after (twoLost ++ [.remove 2, .unlist, .destroyRef, .clear])) :=
    System.steps_of_replay rfl
  exact (told_of_steps (System.trace_after rfl) hmore (by simp [Action.Internal])).1

end IpfsMobile.Seq.GoRefQueue
