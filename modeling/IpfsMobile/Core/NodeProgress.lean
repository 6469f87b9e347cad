import IpfsMobile.Concurrent.Progress
import IpfsMobile.Core.NodeClose
import Mathlib.Algebra.Order.BigOperators.Group.Finset

/-!
# What becomes of the calls of a node

The mutex is never held for good: once no more calls are made, those under way return
after a bounded number of steps, in whatever order these are taken. A call that serves
has by then gone through `ServeMultiaddr` once for each of its addresses, whatever came
of the ones before, and what it has opened is in the list.
-/

namespace IpfsMobile.Core.Node

open Go Concurrent

variable {C Maddr : Type} {newMultiaddr : Str → Except Err Maddr}

/-- The steps that make a call. The others lead a call on. -/
def Op.Starts : Op → Prop
  | serve _ | close => True
  | _ => False

/-- What one step of a call can be, and where it leads the call. -/
inductive Goes (newMultiaddr : Str → Except Err Maddr) (s : State C Maddr) :
    Phase Maddr → Op → Phase Maddr → Prop
  | serve {call} : Goes newMultiaddr s .idle (.serve call) (.serving call.addresses)
  | reject {smaddr todo e} : newMultiaddr smaddr = .error e →
      Goes newMultiaddr s (.serving (smaddr :: todo)) .newMultiaddr (.serving todo)
  | parse {smaddr todo maddr} : newMultiaddr smaddr = .ok maddr →
      Goes newMultiaddr s (.serving (smaddr :: todo)) .newMultiaddr (.parsed maddr todo)
  | refuse {maddr todo} :
      Goes newMultiaddr s (.parsed maddr todo) (.listen false) (.serving todo)
  | listen {maddr todo} :
      Goes newMultiaddr s (.parsed maddr todo) (.listen true) (.opened s.opened todo)
  | lock {ml todo} : Goes newMultiaddr s (.opened ml todo) .lock (.locked ml todo)
  | load {ml todo} : Goes newMultiaddr s (.locked ml todo) .load (.loaded ml s.listeners todo)
  | store {ml listeners todo} :
      Goes newMultiaddr s (.loaded ml listeners todo) .store (.stored ml todo)
  | unlock {ml todo} : Goes newMultiaddr s (.stored ml todo) .unlock (.unlocked ml todo)
  | report {ml todo} : Goes newMultiaddr s (.unlocked ml todo) .report (.serving todo)
  | finish : Goes newMultiaddr s (.serving []) .finish .served
  | close : Goes newMultiaddr s .idle .close .closing
  | closeLock : Goes newMultiaddr s .closing .lock .closeLocked
  | range : Goes newMultiaddr s .closeLocked .range (.closeLoop s.listeners)
  | closeNext {l rest} :
      Goes newMultiaddr s (.closeLoop (l :: rest)) .closeNext (.closeLoop rest)
  | closeUnlock : Goes newMultiaddr s (.closeLoop []) .unlock .stopping
  | stop : Goes newMultiaddr s .stopping .stop .closed

/-- The number of listeners that a step opens. -/
def Op.opens : Op → ℕ
  | listen true => 1
  | _ => 0

/-- The listeners that a call may still open. -/
def Phase.toOpen : Phase Maddr → ℕ
  | parsed _ todo => todo.length + 1
  | serving todo | opened _ todo | locked _ todo | loaded _ _ todo | stored _ todo
  | unlocked _ todo => todo.length
  | _ => 0

/-- A bound on the steps that a call has still to take, if the list gets no longer than `bound`. -/
def Phase.work (bound : ℕ) : Phase Maddr → ℕ
  | idle | served | closed => 0
  | serving todo => 7 * todo.length + 1
  | parsed _ todo => 7 * todo.length + 7
  | opened _ todo => 7 * todo.length + 6
  | locked _ todo => 7 * todo.length + 5
  | loaded _ _ todo => 7 * todo.length + 4
  | stored _ todo => 7 * todo.length + 3
  | unlocked _ todo => 7 * todo.length + 2
  | closing => bound + 4
  | closeLocked => bound + 3
  | closeLoop rest => rest.length + 2
  | stopping => 1

/-- A bound on the listeners that are opened when the calls return. -/
def State.bound (s : State C Maddr) (calls : Finset C) : ℕ :=
  s.opened + ∑ c ∈ calls, (s.phase c).toOpen

/-- A bound on the steps that the calls have still to take. -/
def State.work (s : State C Maddr) (calls : Finset C) : ℕ :=
  ∑ c ∈ calls, (s.phase c).work (s.bound calls)

/-- A longer list means more work. -/
theorem Phase.work_mono (p : Phase Maddr) {m n : ℕ} (h : m ≤ n) : p.work m ≤ p.work n := by
  cases p <;> simp only [work] <;> omega

/-- A step that makes no call turns a listener to open into an open one at most. -/
theorem Goes.toOpen_le {s : State C Maddr} {p q : Phase Maddr} {op : Op}
    (h : Goes newMultiaddr s p op q) (hop : ¬op.Starts) : op.opens + q.toOpen ≤ p.toOpen := by
  cases h <;> simp_all [Op.opens, Op.Starts, Phase.toOpen, Nat.add_comm]

/-- It leaves the call with less work. -/
theorem Goes.work_lt {s : State C Maddr} {p q : Phase Maddr} {op : Op}
    (h : Goes newMultiaddr s p op q) (hop : ¬op.Starts) {bound : ℕ}
    (hbound : s.listeners.length ≤ bound) : q.work bound < p.work bound := by
  cases h with
  | serve | close => exact absurd trivial hop
  | _ =>
    simp only [Phase.work, List.length_cons, List.length_nil]
    omega

/-- A call that is not made yet has no step but that. -/
theorem Goes.ne_idle {s : State C Maddr} {p q : Phase Maddr} {op : Op}
    (h : Goes newMultiaddr s p op q) (hop : ¬op.Starts) : p ≠ .idle := by
  rintro rfl
  cases h <;> exact hop trivial

/-- The list is no longer than the listeners opened. -/
theorem Registered.length_le {s : State C Maddr} (h : Registered s) :
    s.listeners.length ≤ s.opened := by
  have hsub : s.listeners ⊆ List.range s.opened := fun l hl => List.mem_range.mpr (h.mem_lt l hl)
  simpa using (h.nodup.subperm hsub).length_le

variable [DecidableEq C]

/-- A step of the call `c` leads it to the phase `q`. It opens what it says, and what it reports
is among the reported listeners from then on. -/
structure Leads (newMultiaddr : Str → Except Err Maddr) (s : State C Maddr) (c : C) (op : Op)
    (s' : State C Maddr) (q : Phase Maddr) : Prop where
  goes : Goes newMultiaddr s (s.phase c) op q
  phase_eq : s'.phase = Function.update s.phase c q
  opened_eq : s'.opened = s.opened + op.opens
  reported_mem : ∀ l, l ∈ s.reported ∨ op = .report ∧ (s.phase c).written = some l →
    l ∈ s'.reported

/-- An enabled step leads its call on. -/
theorem leads_of_step {s s' : State C Maddr} {c : C} {op : Op}
    (h : step newMultiaddr s c op = some s') : ∃ q, Leads newMultiaddr s c op s' q := by
  have hplain : ∀ {p q : Phase Maddr} {holder : Option C} {listeners closed : List Listener},
      s.phase c = p → Goes newMultiaddr s p op q → op.opens = 0 → op ≠ .report →
      ∃ q', Leads newMultiaddr s c op { s.goto c q with
        muListeners := holder, listeners := listeners, closed := closed } q' := by
    rintro p q holder listeners closed rfl hgoes hopens hop
    refine ⟨q, hgoes, rfl, by rw [hopens]; rfl, ?_⟩
    rintro l (hl | ⟨heq, -⟩)
    · exact hl
    · exact absurd heq hop
  cases op with
  | serve call =>
    simp only [step] at h
    split at h <;> cases h
    exact hplain ‹_› .serve rfl (by simp)
  | newMultiaddr =>
    simp only [step] at h
    split at h
    · rename_i hphase
      split at h <;> cases h
      · exact hplain hphase (.reject ‹_›) rfl (by simp)
      · exact hplain hphase (.parse ‹_›) rfl (by simp)
    · cases h
  | listen ok =>
    simp only [step] at h
    split at h
    · rename_i hphase
      cases ok <;> cases h
      · exact hplain hphase .refuse rfl (by simp)
      · exact ⟨_, hphase ▸ .listen, rfl, rfl, by simp [State.goto]⟩
    · cases h
  | lock =>
    simp only [step] at h
    split at h
    · split at h <;> cases h
      · exact hplain ‹_› .lock rfl (by simp)
      · exact hplain ‹_› .closeLock rfl (by simp)
    · cases h
  | load =>
    simp only [step] at h
    split at h <;> cases h
    exact hplain ‹_› .load rfl (by simp)
  | store =>
    simp only [step] at h
    split at h <;> cases h
    exact hplain ‹_› .store rfl (by simp)
  | unlock =>
    simp only [step] at h
    split at h <;> cases h
    · exact hplain ‹_› .unlock rfl (by simp)
    · exact hplain ‹_› .closeUnlock rfl (by simp)
  | report =>
    simp only [step] at h
    split at h <;> cases h
    rename_i hphase
    refine ⟨_, hphase ▸ .report, rfl, rfl, ?_⟩
    rintro l (hl | ⟨-, hl⟩)
    · exact List.mem_append_left _ hl
    · rw [hphase] at hl
      obtain rfl := Option.some.inj hl
      simp
  | finish =>
    simp only [step] at h
    split at h <;> cases h
    exact hplain ‹_› .finish rfl (by simp)
  | close =>
    simp only [step] at h
    split at h <;> cases h
    exact hplain ‹_› .close rfl (by simp)
  | range =>
    simp only [step] at h
    split at h <;> cases h
    exact hplain ‹_› .range rfl (by simp)
  | closeNext =>
    simp only [step] at h
    split at h <;> cases h
    exact hplain ‹_› .closeNext rfl (by simp)
  | stop =>
    simp only [step] at h
    split at h <;> cases h
    exact hplain ‹_› .stop rfl (by simp)

/-- Every step that makes no call leaves less work. -/
theorem Leads.work_lt {s s' : State C Maddr} {c : C} {op : Op} {q : Phase Maddr}
    (h : Leads newMultiaddr s c op s' q) (hop : ¬op.Starts) (hreg : Registered s)
    {calls : Finset C} (hc : c ∈ calls) : s'.work calls < s.work calls := by
  have hbound : s'.bound calls ≤ s.bound calls := by
    have hsum := sum_update hc (fun _ => Phase.toOpen) s.phase q
    have hle := h.goes.toOpen_le hop
    rw [State.bound, State.bound, h.phase_eq, h.opened_eq]
    omega
  have hlen : s.listeners.length ≤ s.bound calls :=
    hreg.length_le.trans (Nat.le_add_right _ _)
  have hsum := sum_update hc (fun _ => Phase.work (s.bound calls)) s.phase q
  have hlt := h.goes.work_lt hop hlen
  calc s'.work calls
      ≤ ∑ d ∈ calls, (Function.update s.phase c q d).work (s.bound calls) := by
        rw [State.work, h.phase_eq]
        exact Finset.sum_le_sum fun d _ => Phase.work_mono _ hbound
    _ < s.work calls := by
        rw [State.work]
        omega

/-- The calls of a node take turns. -/
theorem takesTurns :
    TakesTurns (system C newMultiaddr) Action.call State.phase .idle where
  init := fun _ => rfl
  step := fun _ _ _ hstep => (leads_of_step hstep).imp fun _ hleads => hleads.phase_eq

/-- When no step is left to take, the mutex is free and every call has returned. -/
theorem Registered.quiet {s : State C Maddr} (h : Registered s)
    (hend : ∀ c op, ¬op.Starts → step newMultiaddr s c op = none) : s.Quiet := by
  have hfree : s.muListeners = none := by
    by_contra hheld
    obtain ⟨d, hd⟩ := Option.ne_none_iff_exists'.mp hheld
    have hphase := (h.mutex d).mpr hd
    cases hp : s.phase d with
    | locked ml todo => simpa [step, hp] using hend d .load id
    | loaded ml listeners todo => simpa [step, hp] using hend d .store id
    | stored ml todo => simpa [step, hp] using hend d .unlock id
    | closeLocked => simpa [step, hp] using hend d .range id
    | closeLoop rest =>
      cases rest with
      | nil => simpa [step, hp] using hend d .unlock id
      | cons l rest => simpa [step, hp] using hend d .closeNext id
    | _ => simp [hp, Phase.Held] at hphase
  intro c
  have hnot : ¬(s.phase c).Held := by
    rw [h.mutex c, hfree]
    simp
  cases hp : s.phase c with
  | idle => exact Or.inl rfl
  | served => exact Or.inr (Or.inl rfl)
  | closed => exact Or.inr (Or.inr rfl)
  | serving todo =>
    cases todo with
    | nil => simpa [step, hp] using hend c .finish id
    | cons smaddr todo =>
      have hnone := hend c .newMultiaddr id
      cases hparse : newMultiaddr smaddr <;> simp [step, hp, hparse] at hnone
  | parsed maddr todo => simpa [step, hp] using hend c (.listen true) id
  | opened ml todo => simpa [step, hp, hfree] using hend c .lock id
  | unlocked ml todo => simpa [step, hp] using hend c .report id
  | closing => simpa [step, hp, hfree] using hend c .lock id
  | stopping => simpa [step, hp] using hend c .stop id
  | _ => simp [hp, Phase.Held] at hnot

/-- Once no more calls are made, the steps that are left are bounded in number. When they are
taken, in whatever order, every call has returned. -/
theorem returns_of_steps {as more : List (Action C)} {s s' : State C Maddr}
    (h : (system C newMultiaddr).Trace as s) (hmore : (system C newMultiaddr).Steps s more s')
    (hop : ∀ a ∈ more, ¬a.op.Starts) :
    more.length ≤ s.work (callsOf Action.call as) ∧
      ((∀ c op, ¬op.Starts → step newMultiaddr s' c op = none) → s'.Quiet) := by
  have hkept := System.Steps.length_add_le (μ := fun t => t.work (callsOf Action.call as))
    (P := fun t => Registered t ∧ ∀ c ∉ callsOf Action.call as, t.phase c = .idle)
    (fun t a t' ht ha hnext => ?_) hmore ⟨registered_of_trace h, takesTurns.idle_of_trace h⟩ hop
  · obtain ⟨⟨hreg, -⟩, hlen⟩ := hkept
    exact ⟨by omega, hreg.quiet⟩
  · obtain ⟨hreg, hidle⟩ := ht
    obtain ⟨q, hleads⟩ := leads_of_step hnext
    have hcall : a.call ∈ callsOf Action.call as := by
      by_contra hnot
      exact hleads.goes.ne_idle ha (hidle _ hnot)
    refine ⟨⟨hreg.of_moves (moves_of_step hnext), fun c hc => ?_⟩, hleads.work_lt ha hreg hcall⟩
    rw [hleads.phase_eq, Function.update_of_ne (ne_of_mem_of_not_mem hcall hc).symm]
    exact hidle c hc

/-- One call serves a port while the other closes the node and has taken the mutex. -/
def bothCalled : List (Action Bool) :=
  [⟨false, .serve (.serveTCPAPI (str "5001"))⟩, ⟨true, .close⟩, ⟨true, .lock⟩]

/-- The steps after which both have returned. -/
def bothReturn : List (Action Bool) :=
  [⟨false, .newMultiaddr⟩, ⟨false, .listen true⟩, ⟨true, .range⟩, ⟨true, .unlock⟩,
    ⟨false, .lock⟩, ⟨false, .load⟩, ⟨true, .stop⟩, ⟨false, .store⟩, ⟨false, .unlock⟩,
    ⟨false, .report⟩, ⟨false, .finish⟩]

/-- They are as many as the calls have left. -/
theorem returns_of_steps_both :
    bothReturn.length ≤ (exampleNode.after bothCalled).work (callsOf Action.call bothCalled) := by
  have hmore : exampleNode.Steps (exampleNode.after bothCalled) bothReturn
      (exampleNode.after (bothCalled ++ bothReturn)) := System.steps_of_replay rfl
  exact (returns_of_steps (System.trace_after rfl) hmore (by simp [bothReturn, Op.Starts])).1

/-- The steps of one call, in order. -/
def opsOf (c : C) (as : List (Action C)) : List Op :=
  (as.filter fun a => a.call = c).map Action.op

/-- The steps of one `ServeMultiaddr`. It ends early if `NewMultiaddr` or `Listen` fails. -/
def attempt (newMultiaddr : Str → Except Err Maddr) (smaddr : Str) (ok : Bool) : List Op :=
  match newMultiaddr smaddr, ok with
  | .error _, _ => [.newMultiaddr]
  | .ok _, false => [.newMultiaddr, .listen false]
  | .ok _, true => [.newMultiaddr, .listen true, .lock, .load, .store, .unlock, .report]

/-- The calls that have opened the listeners, in the order of the listeners. -/
def openings (as : List (Action C)) : List C :=
  as.filterMap fun a => match a.op with
    | .listen true => some a.call
    | _ => none

/-- A call has made an attempt at each of its addresses but those in `todo`. -/
def Attempted (newMultiaddr : Str → Except Err Maddr) (call : ServeCall) (todo : List Str)
    (ops : List Op) : Prop :=
  ∃ tried oks, call.addresses = tried ++ todo ∧ oks.length = tried.length ∧
    ops = .serve call :: (List.zipWith (attempt newMultiaddr) tried oks).flatten

/-- The steps that a call has taken of the `ServeMultiaddr` it is in, and the addresses after
that. -/
def Phase.underWay : Phase Maddr → List Op × List Str
  | parsed _ todo => ([.newMultiaddr], todo)
  | opened _ todo => ([.newMultiaddr, .listen true], todo)
  | locked _ todo => ([.newMultiaddr, .listen true, .lock], todo)
  | loaded _ _ todo => ([.newMultiaddr, .listen true, .lock, .load], todo)
  | stored _ todo => ([.newMultiaddr, .listen true, .lock, .load, .store], todo)
  | unlocked _ todo => ([.newMultiaddr, .listen true, .lock, .load, .store, .unlock], todo)
  | _ => ([], [])

/-- How a call that serves has come to its phase. -/
def Phase.ReachedBy (newMultiaddr : Str → Except Err Maddr) (p : Phase Maddr) (ops : List Op) :
    Prop :=
  match p with
  | idle => ops = []
  | serving todo => ∃ call, Attempted newMultiaddr call todo ops
  | served => ∃ call before, Attempted newMultiaddr call [] before ∧ ops = before ++ [.finish]
  | closing | closeLocked | closeLoop _ | stopping | closed => True
  | p => ∃ call smaddr maddr before, newMultiaddr smaddr = .ok maddr ∧
      Attempted newMultiaddr call (smaddr :: p.underWay.2) before ∧
      ops = before ++ p.underWay.1

/-- The listener that a call has opened and not yet reported. -/
def Phase.carried : Phase Maddr → Option Listener
  | opened ml _ | locked ml _ | loaded ml _ _ | stored ml _ | unlocked ml _ => some ml
  | _ => none

/-- A step adds to the steps of its own call. -/
theorem opsOf_append (c : C) (as : List (Action C)) (a : Action C) :
    opsOf c (as ++ [a]) = opsOf c as ++ if a.call = c then [a.op] else [] := by
  rw [opsOf, List.filter_append, List.map_append, ← opsOf]
  by_cases h : a.call = c <;> simp [h]

omit [DecidableEq C] in
/-- The step that opens a listener adds its call. -/
theorem openings_append_listen (as : List (Action C)) (c : C) :
    openings (as ++ [⟨c, .listen true⟩]) = openings as ++ [c] := by
  rw [openings, List.filterMap_append, ← openings]
  rfl

omit [DecidableEq C] in
/-- The other steps add nothing. -/
theorem openings_append_of_ne (as : List (Action C)) {a : Action C} (h : a.op ≠ .listen true) :
    openings (as ++ [a]) = openings as ∧ a.op.opens = 0 := by
  obtain ⟨c, op⟩ := a
  rw [openings, List.filterMap_append, ← openings]
  cases op with
  | listen ok =>
    cases ok with
    | true => exact absurd rfl h
    | false => exact ⟨by simp, rfl⟩
  | _ => exact ⟨by simp, rfl⟩

/-- One more attempt. -/
theorem Attempted.next {call : ServeCall} {smaddr : Str} {todo : List Str} {ops : List Op}
    (h : Attempted newMultiaddr call (smaddr :: todo) ops) (ok : Bool) :
    Attempted newMultiaddr call todo (ops ++ attempt newMultiaddr smaddr ok) := by
  obtain ⟨tried, oks, haddresses, hlen, rfl⟩ := h
  refine ⟨tried ++ [smaddr], oks ++ [ok], ?_, ?_, ?_⟩
  · rw [haddresses, List.append_assoc, List.singleton_append]
  · rw [List.length_append, List.length_append, hlen]
    rfl
  · rw [List.zipWith_append hlen.symm, List.flatten_append, List.cons_append]
    simp

omit [DecidableEq C] in
/-- A step takes a call from a phase reached by its steps to one reached by one more. -/
theorem Phase.ReachedBy.goes {s : State C Maddr} {p q : Phase Maddr} {op : Op} {ops : List Op}
    (h : p.ReachedBy newMultiaddr ops) (hgoes : Goes newMultiaddr s p op q) :
    q.ReachedBy newMultiaddr (ops ++ [op]) := by
  cases hgoes with
  | @serve call =>
    obtain rfl : ops = [] := h
    exact ⟨call, [], [], rfl, rfl, rfl⟩
  | reject herror =>
    obtain ⟨call, hattempted⟩ := h
    exact ⟨call, by simpa [attempt, herror] using hattempted.next false⟩
  | parse hok =>
    obtain ⟨call, hattempted⟩ := h
    exact ⟨call, _, _, ops, hok, hattempted, rfl⟩
  | refuse =>
    obtain ⟨call, smaddr, maddr, before, hok, hattempted, rfl⟩ := h
    exact ⟨call, by simpa [attempt, hok, underWay] using hattempted.next false⟩
  | report =>
    obtain ⟨call, smaddr, maddr, before, hok, hattempted, rfl⟩ := h
    exact ⟨call, by simpa [attempt, hok, underWay] using hattempted.next true⟩
  | finish =>
    obtain ⟨call, hattempted⟩ := h
    exact ⟨call, ops, hattempted, rfl⟩
  | listen | lock | load | store | unlock =>
    obtain ⟨call, smaddr, maddr, before, hok, hattempted, rfl⟩ := h
    exact ⟨call, smaddr, maddr, before, hok, hattempted, by simp [underWay]⟩
  | _ => trivial

/-- In every run each call has come to its phase by its own steps. -/
theorem reachedBy_of_trace {as : List (Action C)} {s : State C Maddr}
    (h : (system C newMultiaddr).Trace as s) (c : C) :
    (s.phase c).ReachedBy newMultiaddr (opsOf c as) := by
  unfold System.Trace at h
  induction h with
  | refl => rfl
  | @snoc as a s s' hprev hnext ih =>
    obtain ⟨q, hleads⟩ := leads_of_step hnext
    rw [opsOf_append, hleads.phase_eq]
    by_cases hc : a.call = c
    · subst hc
      rw [Function.update_self, if_pos rfl]
      exact ih.goes hleads.goes
    · rw [Function.update_of_ne (Ne.symm hc), if_neg hc, List.append_nil]
      exact ih

omit [DecidableEq C] in
/-- The call that opens a listener has it. -/
theorem Goes.carried_new {s : State C Maddr} {p q : Phase Maddr}
    (h : Goes newMultiaddr s p (.listen true) q) : q.carried = some s.opened := by
  cases h
  rfl

omit [DecidableEq C] in
/-- A step leaves its call with the listener it has opened, or reports it. -/
theorem Goes.carried {s : State C Maddr} {p q : Phase Maddr} {op : Op} {l : Listener}
    (h : Goes newMultiaddr s p op q) (hp : p.carried = some l) :
    q.carried = some l ∨ op = .report ∧ p.written = some l := by
  cases h <;> simp_all [Phase.carried, Phase.written]

/-- In every run each listener is reported or with the call that has opened it. -/
theorem carried_of_trace {as : List (Action C)} {s : State C Maddr}
    (h : (system C newMultiaddr).Trace as s) : (openings as).length = s.opened ∧
      ∀ c l, (openings as)[l]? = some c → l ∈ s.reported ∨ (s.phase c).carried = some l := by
  unfold System.Trace at h
  induction h with
  | refl => exact ⟨rfl, fun c l hl => by simp [openings] at hl⟩
  | @snoc as a s s' hprev hnext ih =>
    obtain ⟨hlen, hcarried⟩ := ih
    obtain ⟨q, hleads⟩ := leads_of_step hnext
    have hold : ∀ c l, (openings as)[l]? = some c →
        l ∈ s'.reported ∨ (s'.phase c).carried = some l := by
      intro c l hl
      rcases hcarried c l hl with hmem | hphase
      · exact Or.inl (hleads.reported_mem l (Or.inl hmem))
      · rw [hleads.phase_eq]
        by_cases hc : c = a.call
        · subst hc
          rw [Function.update_self]
          exact (hleads.goes.carried hphase).symm.imp_left fun hwritten =>
            hleads.reported_mem l (Or.inr hwritten)
        · rw [Function.update_of_ne hc]
          exact Or.inr hphase
    obtain ⟨c, op⟩ := a
    by_cases hop : op = .listen true
    · subst hop
      rw [openings_append_listen, List.length_append, hlen]
      refine ⟨hleads.opened_eq.symm, fun d l hl => ?_⟩
      rw [List.getElem?_append] at hl
      split at hl
      · exact hold d l hl
      · rename_i hge
        rw [List.getElem?_singleton] at hl
        obtain ⟨hzero, heq⟩ := Option.ite_none_right_eq_some.mp hl
        obtain rfl := Option.some.inj heq
        rw [hlen] at hge hzero
        obtain rfl : l = s.opened :=
          Nat.le_antisymm (Nat.sub_eq_zero_iff_le.mp hzero) (Nat.le_of_not_lt hge)
        rw [hleads.phase_eq, Function.update_self]
        exact Or.inr hleads.goes.carried_new
    · obtain ⟨hopenings, hopens⟩ := openings_append_of_ne (a := ⟨c, op⟩) as hop
      rw [hopenings, hleads.opened_eq, hlen]
      exact ⟨by rw [hopens]; rfl, hold⟩

/-- A call that serves has, by the time it returns, made one attempt at each of its addresses,
in order, whatever came of the ones before and whatever other calls did. Every listener that it
has opened is reported and in the list. -/
theorem served_of_trace {as : List (Action C)} {s : State C Maddr}
    (h : (system C newMultiaddr).Trace as s) {c : C} (hserved : s.phase c = .served) :
    (∃ call oks, oks.length = call.addresses.length ∧ opsOf c as = .serve call ::
      (List.zipWith (attempt newMultiaddr) call.addresses oks).flatten ++ [.finish]) ∧
      ∀ l, (openings as)[l]? = some c → l ∈ s.reported ∧ l ∈ s.listeners := by
  constructor
  · have hreached := reachedBy_of_trace h c
    rw [hserved] at hreached
    obtain ⟨call, before, ⟨tried, oks, haddresses, hlen, rfl⟩, hops⟩ := hreached
    rw [List.append_nil] at haddresses
    rw [← haddresses] at hlen hops
    exact ⟨call, oks, hlen, hops⟩
  · intro l hl
    have hreported : l ∈ s.reported := by
      refine ((carried_of_trace h).2 c l hl).resolve_right fun hcarried => ?_
      rw [hserved] at hcarried
      cases hcarried
    exact ⟨hreported, (registered_of_trace h).reported_mem l hreported⟩

/-- The configured API has an address that is no multiaddress, one that is in use and a third;
the node is closed in between. -/
def threeAddresses : List (Action Bool) :=
  [⟨false, .serve (.serveConfigAPI (.ok [str "none", str "/ip4/127.0.0.1/tcp/1",
      str "/ip4/127.0.0.1/tcp/2"]))⟩, ⟨false, .newMultiaddr⟩, ⟨true, .close⟩,
    ⟨false, .newMultiaddr⟩, ⟨false, .listen false⟩, ⟨true, .lock⟩, ⟨false, .newMultiaddr⟩,
    ⟨false, .listen true⟩, ⟨true, .range⟩, ⟨true, .unlock⟩, ⟨false, .lock⟩, ⟨false, .load⟩,
    ⟨false, .store⟩, ⟨false, .unlock⟩, ⟨false, .report⟩, ⟨false, .finish⟩]

/-- A node that takes an address if it starts with a slash. -/
def slashNode : System (State Bool Str) (Action Bool) :=
  system Bool fun smaddr =>
    if smaddr.take 1 = str "/" then .ok smaddr else .error (.other (str "must begin with /"))

/-- The third address is served. -/
theorem served_of_trace_three : 0 ∈ (slashNode.after threeAddresses).listeners :=
  ((served_of_trace (System.trace_after rfl) (c := false) rfl).2 0 rfl).2

end IpfsMobile.Core.Node
