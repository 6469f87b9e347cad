import IpfsMobile.Concurrent.Dispenser
import IpfsMobile.Core.SockManager

/-!
# Concurrent calls of `NewSockPath`

Any number of calls share one manager. The counter is compared, formatted and
incremented in separate steps under the mutex; `os.Stat` comes after it is released
and may answer anything. The calls refine a ticket dispenser whose tickets are the
values of the counter, so no two of them return the same path, and every call that has
begun can return.
-/

namespace IpfsMobile.Core.SockPaths

open Go Concurrent

/-- How far a call of `NewSockPath` has come. -/
inductive Phase where
  /-- Not called yet. -/
  | idle
  /-- Before the lock. -/
  | locking
  /-- The mutex is taken. -/
  | locked
  /-- The counter is not the maximum. -/
  | checked
  /-- The counter is the maximum; the error is returned after the mutex is released. -/
  | exhausted
  /-- The file name for the counter is formatted. -/
  | formatted (filename : Str)
  /-- The counter is incremented. -/
  | counted (filename : Str)
  /-- The mutex is free again; `os.Stat` is next. -/
  | unlocked (filename : Str)
  /-- The call has returned. -/
  | done (result : Except Err Str)
  deriving DecidableEq, Repr

/-- What a call does in one step. -/
inductive Op where
  | call
  | lock
  | check
  | format
  | increment
  | unlock
  | stat (answer : StatResult)
  deriving DecidableEq, Repr

/-- One step of one call. -/
structure Action (C : Type) where
  call : C
  op : Op

/-- The manager's counter and mutex, and how far each call has come. -/
structure State (C : Type) where
  counter : BitVec 32
  muCounter : Option C := none
  phase : C → Phase := fun _ => .idle

section Steps

variable {C : Type} [DecidableEq C]

/-- One call goes on to a phase. -/
def State.goto (s : State C) (c : C) (p : Phase) : State C :=
  { s with phase := Function.update s.phase c p }

/-- The effect of one step of the call `c` on the manager `sm`. -/
def step (sm : SockManager) (s : State C) (c : C) : Op → Option (State C)
  | .call =>
    match s.phase c with
    | .idle => some (s.goto c .locking)
    | _ => none
  | .lock =>
    match s.phase c with
    | .locking =>
      if s.muCounter = none then some { s.goto c .locked with muCounter := some c } else none
    | _ => none
  | .check =>
    match s.phase c with
    | .locked => some (s.goto c (if s.counter = maxUint32 then .exhausted else .checked))
    | _ => none
  | .format =>
    match s.phase c with
    | .checked => some (s.goto c (.formatted (sockFilename s.counter.toNat)))
    | _ => none
  | .increment =>
    match s.phase c with
    | .formatted filename =>
      some { s.goto c (.counted filename) with counter := s.counter + 1 }
    | _ => none
  | .unlock =>
    match s.phase c with
    | .exhausted =>
      some { s.goto c (.done (.error (.other (str "max number of socket exceeded")))) with
        muCounter := none }
    | .counted filename => some { s.goto c (.unlocked filename) with muCounter := none }
    | _ => none
  | .stat answer =>
    match s.phase c with
    | .unlocked filename => some (s.goto c (.done (checkSockPath (sm.sockPath filename) answer)))
    | _ => none

/-- The manager as a system of overlapping calls. -/
def system (C : Type) [DecidableEq C] (sm : SockManager) : System (State C) (Action C) where
  init := { counter := sm.counter }
  step s a := step sm s a.call a.op

/-- The phases in which a call holds the mutex. -/
def Phase.Held : Phase → Prop
  | locked | checked | exhausted | formatted _ | counted _ => True
  | _ => False

/-- The phases of a call that has not compared the counter yet. -/
def Phase.Unchecked : Phase → Prop
  | idle | locking | locked => True
  | _ => False

/-- What a call under the mutex has found out about the counter is still so. -/
def Phase.Agrees (counter : BitVec 32) : Phase → Prop
  | checked => counter ≠ maxUint32
  | formatted filename => counter ≠ maxUint32 ∧ filename = sockFilename counter.toNat
  | _ => True

/-- Without the mutex a call has nothing to be wrong about. -/
theorem Phase.agrees_of_not_held {p : Phase} (h : ¬p.Held) (counter : BitVec 32) :
    p.Agrees counter := by
  cases p <;> simp_all [Held, Agrees]

/-- What a step of the call `c` can do. -/
inductive Moves (sm : SockManager) (s : State C) (c : C) : State C → Prop
  | call : s.phase c = .idle → Moves sm s c (s.goto c .locking)
  | lock : s.phase c = .locking → s.muCounter = none →
      Moves sm s c { s.goto c .locked with muCounter := some c }
  | exhausted : s.phase c = .locked → s.counter = maxUint32 → Moves sm s c (s.goto c .exhausted)
  | checked : s.phase c = .locked → s.counter ≠ maxUint32 → Moves sm s c (s.goto c .checked)
  | format : s.phase c = .checked →
      Moves sm s c (s.goto c (.formatted (sockFilename s.counter.toNat)))
  | increment {filename} : s.phase c = .formatted filename →
      Moves sm s c { s.goto c (.counted filename) with counter := s.counter + 1 }
  | giveUp {e} : s.phase c = .exhausted →
      Moves sm s c { s.goto c (.done (.error e)) with muCounter := none }
  | unlock {filename} : s.phase c = .counted filename →
      Moves sm s c { s.goto c (.unlocked filename) with muCounter := none }
  | stat {filename} (answer : StatResult) : s.phase c = .unlocked filename →
      Moves sm s c (s.goto c (.done (checkSockPath (sm.sockPath filename) answer)))

/-- Every enabled step is one of the moves. -/
theorem moves_of_step {sm : SockManager} {s s' : State C} {c : C} {op : Op}
    (h : step sm s c op = some s') : Moves sm s c s' := by
  cases op with
  | call =>
    simp only [step] at h
    split at h <;> cases h
    exact .call ‹_›
  | lock =>
    simp only [step] at h
    split at h
    · split at h <;> cases h
      exact .lock ‹_› ‹_›
    · cases h
  | check =>
    simp only [step] at h
    split at h <;> cases h
    split
    · exact .exhausted ‹_› ‹_›
    · exact .checked ‹_› ‹_›
  | format =>
    simp only [step] at h
    split at h <;> cases h
    exact .format ‹_›
  | increment =>
    simp only [step] at h
    split at h <;> cases h
    exact .increment ‹_›
  | unlock =>
    simp only [step] at h
    split at h <;> cases h
    · exact .giveUp ‹_›
    · exact .unlock ‹_›
  | stat answer =>
    simp only [step] at h
    split at h <;> cases h
    exact .stat answer ‹_›

/-- The mutex works, and what a call knows of the counter is so. -/
structure Guarded (s : State C) : Prop where
  /-- The phases agree with the holder of the mutex. -/
  mutex : Excludes Phase.Held s.muCounter s.phase
  /-- A call under the mutex is right about the counter. -/
  agrees : ∀ c, (s.phase c).Agrees s.counter

omit [DecidableEq C] in
/-- Before any call the mutex is free. -/
theorem guarded_init (counter : BitVec 32) : Guarded ({ counter := counter } : State C) where
  mutex := fun c => by simp [Phase.Held]
  agrees := fun c => trivial

namespace Guarded

variable {sm : SockManager} {s s' : State C} {c : C}

/-- A step that leaves the counter alone. -/
theorem move (h : Guarded s) {q : Phase} {holder : Option C}
    (hmutex : Excludes Phase.Held holder (Function.update s.phase c q))
    (hq : q.Agrees s.counter) :
    Guarded { s with muCounter := holder, phase := Function.update s.phase c q } where
  mutex := hmutex
  agrees := (Function.forall_update_iff s.phase fun _ p => p.Agrees s.counter).mpr
    ⟨hq, fun d _ => h.agrees d⟩

/-- The increment concerns no other call, since no other call holds the mutex. -/
theorem increment (h : Guarded s) {filename : Str} (hphase : s.phase c = .formatted filename) :
    Guarded { s.goto c (.counted filename) with counter := s.counter + 1 } where
  mutex := h.mutex.update (by simp [hphase, Phase.Held])
  agrees := by
    refine (Function.forall_update_iff s.phase fun _ p => p.Agrees (s.counter + 1)).mpr
      ⟨trivial, fun d hd => Phase.agrees_of_not_held (fun hheld => hd ?_) _⟩
    exact h.mutex.unique hheld (by rw [hphase]; trivial)

/-- Every step keeps the guard. -/
theorem of_moves (h : Guarded s) (hmove : Moves sm s c s') : Guarded s' := by
  have hmutex := h.mutex
  have hagrees := h.agrees c
  cases hmove with
  | call hphase =>
    refine h.move (hmutex.update ?_) trivial
    simp [hphase, Phase.Held]
  | lock hphase hnone =>
    rw [hnone] at hmutex
    exact h.move (hmutex.acquire trivial) trivial
  | exhausted hphase hcounter =>
    refine h.move (hmutex.update ?_) trivial
    simp [hphase, Phase.Held]
  | checked hphase hcounter =>
    refine h.move (hmutex.update ?_) hcounter
    simp [hphase, Phase.Held]
  | format hphase =>
    rw [hphase] at hagrees
    refine h.move (hmutex.update ?_) ⟨hagrees, rfl⟩
    simp [hphase, Phase.Held]
  | increment hphase => exact h.increment hphase
  | giveUp hphase | unlock hphase =>
    refine h.move (hmutex.release ?_ ?_) trivial
    · simp [hphase, Phase.Held]
    · simp [Phase.Held]
  | stat answer hphase =>
    refine h.move (hmutex.update ?_) trivial
    simp [hphase, Phase.Held]

end Guarded

/-- The guard is kept in every state that calls of a manager reach. -/
theorem guarded_of_trace {sm : SockManager} {as : List (Action C)} {s : State C}
    (h : (system C sm).Trace as s) : Guarded s :=
  h.invariant (guarded_init sm.counter) fun _ _ _ _ _ hguard hstep =>
    hguard.of_moves (moves_of_step hstep)

/-- Below the maximum the increment does not wrap. -/
theorem toNat_increment {counter : BitVec 32} (h : counter ≠ maxUint32) :
    (counter + 1).toNat = counter.toNat + 1 ∧ counter.toNat < maxUint32.toNat := by
  have hne : counter.toNat ≠ maxUint32.toNat := fun heq => h (BitVec.eq_of_toNat_eq heq)
  have hlt := counter.isLt
  have hmax : maxUint32.toNat = 2 ^ 32 - 1 := by decide
  refine ⟨?_, by omega⟩
  have hone : (1 : BitVec 32).toNat = 1 := rfl
  rw [BitVec.toNat_add, hone]
  omega

/-- The counter stays, or goes up by one from a value that is not the maximum. -/
theorem counter_of_moves {sm : SockManager} {s s' : State C} {c : C} (h : Guarded s)
    (hmove : Moves sm s c s') : s'.counter = s.counter ∨
      s.counter ≠ maxUint32 ∧ s'.counter.toNat = s.counter.toNat + 1 := by
  cases hmove with
  | increment hphase =>
    have hagrees : (s.phase c).Agrees s.counter := h.agrees c
    rw [hphase] at hagrees
    exact Or.inr ⟨hagrees.1, (toNat_increment hagrees.1).1⟩
  | _ => exact Or.inl rfl

/-- The ticket of a call by its phase: the value of the counter in its file name. A call
that returns an error may have used one up. -/
def Ticketed (sm : SockManager) : Phase → Option ℕ → Prop
  | .counted filename, t => ∃ k, t = some k ∧ filename = sockFilename k
  | .unlocked filename, t => ∃ k, t = some k ∧ filename = sockFilename k
  | .done (.ok p), t => ∃ k, t = some k ∧ p = sm.sockPath (sockFilename k)
  | .done (.error _), _ => True
  | _, t => t = none

/-- A state of the calls and a state of the dispenser say the same. -/
structure Refines (sm : SockManager) (s : State C) (x : Dispenser C) : Prop where
  /-- The counter is the next ticket. -/
  next : x.next = s.counter.toNat
  /-- Each call has the ticket that its phase tells. -/
  ticket : ∀ c, Ticketed sm (s.phase c) (x.ticket c)

/-- A step that does not touch the counter needs no ticket. -/
theorem Refines.move {sm : SockManager} {s s' : State C} {x : Dispenser C} {c : C} {q : Phase}
    (h : Refines sm s x) (hcounter : s'.counter = s.counter)
    (hphase : s'.phase = Function.update s.phase c q) (hq : Ticketed sm q (x.ticket c)) :
    Refines sm s' x := by
  refine ⟨by rw [hcounter, h.next], ?_⟩
  rw [hphase]
  exact (Function.forall_update_iff s.phase fun d p => Ticketed sm p (x.ticket d)).mpr
    ⟨hq, fun d _ => h.ticket d⟩

/-- The step that increments the counter takes a ticket. -/
theorem Refines.increment {sm : SockManager} {s : State C} {x : Dispenser C} {c : C}
    {filename : Str} (h : Refines sm s x) (hguard : Guarded s)
    (hphase : s.phase c = .formatted filename) :
    ∃ x', x.take maxUint32.toNat c = some x' ∧
      Refines sm { s.goto c (.counted filename) with counter := s.counter + 1 } x' := by
  have hagrees : (s.phase c).Agrees s.counter := hguard.agrees c
  rw [hphase] at hagrees
  obtain ⟨hcounter, rfl⟩ := hagrees
  obtain ⟨hnext, hlt⟩ := toNat_increment hcounter
  have hnone : x.ticket c = none := by
    have hticket := h.ticket c
    rwa [hphase] at hticket
  refine ⟨⟨x.next + 1, Function.update x.ticket c (some x.next)⟩, ?_, ?_, ?_⟩
  · rw [Dispenser.take, if_pos ⟨hnone, by rw [h.next]; exact hlt⟩]
  · simp only [hnext, h.next]
  · intro d
    simp only [State.goto]
    by_cases hd : d = c
    · subst hd
      rw [Function.update_self, Function.update_self]
      exact ⟨x.next, rfl, by rw [h.next]⟩
    · rw [Function.update_of_ne hd, Function.update_of_ne hd]
      exact h.ticket d

/-- The calls of a new manager refine the dispenser of the tickets below the maximum. -/
theorem simulates_dispenser {sm : SockManager} (hzero : sm.counter = 0) :
    System.Simulates (system C sm) (Dispenser.system C maxUint32.toNat) (Refines sm) where
  init := by
    refine ⟨?_, fun c => rfl⟩
    change 0 = sm.counter.toNat
    rw [hzero]
    rfl
  step := by
    intro as s a s' x htrace hrel hstep
    have hguard := guarded_of_trace htrace
    have hticket := hrel.ticket a.call
    cases moves_of_step hstep with
    | increment hphase =>
      obtain ⟨x', htake, hrel'⟩ := hrel.increment hguard hphase
      exact Or.inr ⟨a.call, x', htake, hrel'⟩
    | giveUp hphase => exact Or.inl (hrel.move rfl rfl trivial)
    | stat answer hphase =>
      rw [hphase] at hticket
      refine Or.inl (hrel.move rfl rfl ?_)
      obtain ⟨k, hk, rfl⟩ := hticket
      cases answer with
      | notExist e => exact ⟨k, hk, rfl⟩
      | present => trivial
      | failed e => trivial
    | call hphase | lock hphase _ | exhausted hphase _ | checked hphase _ | format hphase
    | unlock hphase =>
      rw [hphase] at hticket
      exact Or.inl (hrel.move rfl rfl hticket)

/-- The paths that calls have returned come from different values of the counter. -/
theorem exists_tickets {sm : SockManager} (hzero : sm.counter = 0) {as : List (Action C)}
    {s : State C} (h : (system C sm).Trace as s) :
    ∃ ticket : C → Option ℕ,
      (∀ c p, s.phase c = .done (.ok p) →
        ∃ k < maxUint32.toNat, ticket c = some k ∧ p = sm.sockPath (sockFilename k)) ∧
      ∀ c c' k, ticket c = some k → ticket c' = some k → c = c' := by
  obtain ⟨cs, x, htrace, hrel⟩ := (simulates_dispenser hzero).trace h
  have hfair := Dispenser.fair_of_trace htrace
  refine ⟨x.ticket, fun c p hdone => ?_, hfair.unique⟩
  have hticket := hrel.ticket c
  rw [hdone] at hticket
  obtain ⟨k, hk, hp⟩ := hticket
  exact ⟨k, (hfair.lt_next c k hk).trans_le hfair.next_le, hk, hp⟩

/-- Once the counter is at its maximum, a call that has not compared it can only fail. -/
def Phase.Failing : Phase → Prop
  | idle | locking | locked | exhausted => True
  | done (.error _) => True
  | _ => False

/-- A step of a call that can only fail if it could only fail before. -/
theorem failing_update {s : State C} {c : C} {q : Phase} (hq : (s.phase c).Failing → q.Failing) :
    ∀ d, (s.phase d).Failing → (Function.update s.phase c q d).Failing :=
  (Function.forall_update_iff s.phase fun d p => (s.phase d).Failing → p.Failing).mpr
    ⟨hq, fun _ _ => id⟩

/-- At the maximum, a step leaves the counter there and failing calls failing. -/
theorem failing_of_moves {sm : SockManager} {s s' : State C} {c : C} (hguard : Guarded s)
    (hcounter : s.counter = maxUint32) (hmove : Moves sm s c s') :
    s'.counter = maxUint32 ∧ ∀ d, (s.phase d).Failing → (s'.phase d).Failing := by
  have hagrees := hguard.agrees c
  cases hmove with
  | call hphase | lock hphase _ | exhausted hphase _ | giveUp hphase =>
    exact ⟨hcounter, failing_update fun _ => trivial⟩
  | checked hphase hne => exact absurd hcounter hne
  | format hphase =>
    rw [hphase] at hagrees
    exact absurd hcounter hagrees
  | increment hphase =>
    rw [hphase] at hagrees
    exact absurd hcounter hagrees.1
  | unlock hphase | stat answer hphase =>
    refine ⟨hcounter, failing_update fun hfailing => ?_⟩
    rw [hphase] at hfailing
    exact hfailing.elim

/-- At the maximum the counter stays, and the calls that can only fail go on to fail. -/
theorem failing_of_steps {sm : SockManager} {s s' : State C} {bs : List (Action C)}
    (hguard : Guarded s) (hcounter : s.counter = maxUint32) (h : (system C sm).Steps s bs s') :
    s'.counter = maxUint32 ∧ ∀ c, (s.phase c).Failing → (s'.phase c).Failing := by
  have hkeep : ∀ t (a : Action C) t', (Guarded t ∧ t.counter = maxUint32 ∧
        ∀ c, (s.phase c).Failing → (t.phase c).Failing) →
      (system C sm).step t a = some t' → Guarded t' ∧ t'.counter = maxUint32 ∧
        ∀ c, (s.phase c).Failing → (t'.phase c).Failing := by
    rintro t a t' ⟨hguard', hcounter', hfailing⟩ hstep
    have hmove := moves_of_step hstep
    obtain ⟨hnext, hfailing'⟩ := failing_of_moves hguard' hcounter' hmove
    exact ⟨hguard'.of_moves hmove, hnext, fun c hc => hfailing' c (hfailing c hc)⟩
  exact (h.keep hkeep ⟨hguard, hcounter, fun _ => id⟩).2

/-- A call that no other interrupts does what `NewSockPath` does as a whole. -/
theorem exists_steps_newSockPath (sm : SockManager) (stat : Str → StatResult) {s : State C} {c : C}
    (hidle : s.phase c = .idle) (hfree : s.muCounter = none) :
    ∃ (ops : List Op) (s' : State C), (system C sm).Steps s (ops.map (⟨c, ·⟩)) s' ∧
      s'.muCounter = none ∧
      s'.phase c = .done (SockManager.newSockPath stat { sm with counter := s.counter }).1 ∧
      s'.counter = (SockManager.newSockPath stat { sm with counter := s.counter }).2.counter := by
  by_cases hmax : s.counter = maxUint32
  · have hreplay : ∃ s', (system C sm).replay s
        (([.call, .lock, .check, .unlock] : List Op).map (⟨c, ·⟩)) = some s' ∧
        s'.muCounter = none ∧ s'.counter = s.counter ∧
        s'.phase c = .done (.error (.other (str "max number of socket exceeded"))) := by
      simp [System.replay, system, step, State.goto, hidle, hfree, hmax]
    obtain ⟨s', hs', hmu, hcounter, hphase⟩ := hreplay
    refine ⟨_, s', System.steps_of_replay hs', hmu, ?_, ?_⟩
    · rw [hphase, SockManager.newSockPath, SockManager.takeFilename, if_pos hmax]
    · rw [hcounter, SockManager.newSockPath, SockManager.takeFilename, if_pos hmax]
  · let p := sm.sockPath (sockFilename s.counter.toNat)
    have hreplay : ∃ s', (system C sm).replay s
        (([.call, .lock, .check, .format, .increment, .unlock, .stat (stat p)] : List Op).map
          (⟨c, ·⟩)) = some s' ∧
        s'.muCounter = none ∧ s'.counter = s.counter + 1 ∧
        s'.phase c = .done (checkSockPath p (stat p)) := by
      simp [System.replay, system, step, State.goto, hidle, hfree, hmax, p]
    obtain ⟨s', hs', hmu, hcounter, hphase⟩ := hreplay
    refine ⟨_, s', System.steps_of_replay hs', hmu, ?_, ?_⟩
    · rw [hphase, SockManager.newSockPath, SockManager.takeFilename, if_neg hmax]
      rfl
    · rw [hcounter, SockManager.newSockPath, SockManager.takeFilename, if_neg hmax]

/-- A step of a call changes the phase of that call only. -/
theorem phase_of_step {sm : SockManager} {s s' : State C} {c : C} {op : Op}
    (h : step sm s c op = some s') {d : C} (hd : d ≠ c) : s'.phase d = s.phase d := by
  have hframe : ∀ q, Function.update s.phase c q d = s.phase d :=
    fun q => Function.update_of_ne hd q s.phase
  cases moves_of_step h <;> exact hframe _

/-- The call holds the mutex, or has given it back. -/
def Phase.Underway (p : Phase) : Prop := p.Held ∨ ∃ filename, p = .unlocked filename

/-- The call does not have to wait for its next step. -/
def Ready (s : State C) (c : C) : Prop :=
  (s.phase c).Underway ∨ s.phase c = .locking ∧ s.muCounter = none

/-- A bound on the steps that a call still takes. -/
def Phase.stepsLeft : Phase → ℕ
  | idle => 8
  | locking => 7
  | locked => 6
  | checked => 5
  | formatted _ => 4
  | exhausted | counted _ => 3
  | unlocked _ => 2
  | done _ => 0

/-- A call that is ready can take a step, and `os.Stat` may answer as it likes. -/
theorem exists_step (sm : SockManager) (answer : Str → StatResult) {s : State C} {c : C}
    (h : Ready s c) :
    ∃ op s', step sm s c op = some s' ∧ ∀ x, op = .stat x →
      ∃ filename, s.phase c = .unlocked filename ∧ x = answer (sm.sockPath filename) := by
  cases hphase : s.phase c with
  | idle | done r => simp [Ready, hphase, Phase.Underway, Phase.Held] at h
  | locking =>
    have hfree : s.muCounter = none := by simpa [Ready, hphase, Phase.Underway, Phase.Held] using h
    exact ⟨.lock, _, by simp only [step, hphase, hfree, if_true]; rfl, by simp⟩
  | locked => exact ⟨.check, _, by simp only [step, hphase]; rfl, by simp⟩
  | checked => exact ⟨.format, _, by simp only [step, hphase]; rfl, by simp⟩
  | formatted filename => exact ⟨.increment, _, by simp only [step, hphase]; rfl, by simp⟩
  | exhausted | counted filename => exact ⟨.unlock, _, by simp only [step, hphase]; rfl, by simp⟩
  | unlocked filename =>
    refine ⟨.stat (answer (sm.sockPath filename)), _, by simp only [step, hphase]; rfl, ?_⟩
    rintro x hx
    exact ⟨filename, rfl, (Op.stat.inj hx).symm⟩

/-- A step of a call that is ready leads on, and to fewer steps that are left. -/
theorem underway_of_moves {sm : SockManager} {s s' : State C} {c : C} (hmove : Moves sm s c s')
    (h : Ready s c) :
    ((s'.phase c).Underway ∨ ∃ r, s'.phase c = .done r) ∧
      (s'.phase c).stepsLeft < (s.phase c).stepsLeft := by
  cases hmove <;> simp_all [Ready, State.goto, Phase.Underway, Phase.Held, Phase.stepsLeft]

/-- A system in which the calls take the steps of the manager: what it keeps says that the mutex
works, and it has a step for every call that is ready. -/
structure Carries {S A : Type} (sm : SockManager) (sys : System S A) (calls : S → State C)
    (Inv : S → Prop) : Prop where
  keeps : ∀ t a t', Inv t → sys.step t a = some t' → Inv t'
  mutex : ∀ t, Inv t → Excludes Phase.Held (calls t).muCounter (calls t).phase
  can : ∀ t c, Ready (calls t) c →
    ∃ a t' op, sys.step t a = some t' ∧ step sm (calls t) c op = some (calls t')

/-- The calls by themselves. -/
theorem carries (sm : SockManager) : Carries sm (system C sm) id Guarded where
  keeps _ _ _ hguard hstep := hguard.of_moves (moves_of_step hstep)
  mutex _ hguard := hguard.mutex
  can _ c hready := by
    obtain ⟨op, s', hstep, -⟩ := exists_step sm (fun _ => .present) hready
    exact ⟨⟨c, op⟩, s', op, hstep, hstep⟩

namespace Carries

variable {S A : Type} {sm : SockManager} {sys : System S A} {calls : S → State C} {Inv : S → Prop}

/-- A call that does not have to wait can return before any other moves. -/
theorem exists_steps_done (h : Carries sm sys calls Inv) {t : S} {c : C}
    (hready : Ready (calls t) c) :
    ∃ as t', sys.Steps t as t' ∧ (∃ r, (calls t').phase c = .done r) ∧
      ∀ d, d ≠ c → (calls t').phase d = (calls t).phase d := by
  obtain ⟨n, hn⟩ : ∃ n, ((calls t).phase c).stepsLeft ≤ n := ⟨_, le_rfl⟩
  induction n generalizing t with
  | zero =>
    obtain ⟨a, t', op, -, hstep⟩ := h.can t c hready
    have hlt := (underway_of_moves (moves_of_step hstep) hready).2
    omega
  | succ n ih =>
    obtain ⟨a, u, op, hsys, hstep⟩ := h.can t c hready
    obtain ⟨hnext, hlt⟩ := underway_of_moves (moves_of_step hstep) hready
    have hfirst : sys.Steps t [a] u := .snoc .refl hsys
    have hframe : ∀ d, d ≠ c → (calls u).phase d = (calls t).phase d := fun d hd =>
      phase_of_step hstep hd
    rcases hnext with hunderway | hdone
    · obtain ⟨as, t', hrest, hdone, hframe'⟩ := ih (Or.inl hunderway) (by omega)
      exact ⟨_, t', hfirst.append hrest, hdone, fun d hd => (hframe' d hd).trans (hframe d hd)⟩
    · exact ⟨_, u, hfirst, hdone, hframe⟩

/-- The mutex becomes free while a call waits for it. -/
theorem exists_steps_free (h : Carries sm sys calls Inv) {t : S} (hinv : Inv t) {c : C}
    (hlocking : (calls t).phase c = .locking) :
    ∃ as t', sys.Steps t as t' ∧ (calls t').muCounter = none ∧ (calls t').phase c = .locking := by
  cases hmu : (calls t).muCounter with
  | none => exact ⟨[], t, .refl, hmu, hlocking⟩
  | some d =>
    have hheld : ((calls t).phase d).Held := (h.mutex t hinv d).mpr hmu
    have hne : c ≠ d := by
      rintro rfl
      rw [hlocking] at hheld
      exact hheld
    obtain ⟨as, u, hsteps, ⟨r, hdone⟩, hframe⟩ := h.exists_steps_done (Or.inl (Or.inl hheld))
    refine ⟨as, u, hsteps, ?_, (hframe c hne).trans hlocking⟩
    have hinv' : Inv u := hsteps.keep h.keeps hinv
    rw [Option.eq_none_iff_forall_ne_some]
    intro e he
    have hheld' : ((calls u).phase e).Held := (h.mutex u hinv' e).mpr he
    by_cases heq : e = d
    · rw [heq, hdone] at hheld'
      exact hheld'
    · rw [hframe e heq] at hheld'
      exact heq ((h.mutex t hinv).unique hheld' hheld)

/-- A call that has begun can return. If it waits for the mutex, the call that holds it
returns first. -/
theorem exists_steps_return (h : Carries sm sys calls Inv) {t : S} (hinv : Inv t) {c : C}
    (hbegun : (calls t).phase c ≠ .idle) :
    ∃ as t', sys.Steps t as t' ∧ ∃ r, (calls t').phase c = .done r := by
  cases hphase : (calls t).phase c with
  | idle => exact absurd hphase hbegun
  | done r => exact ⟨[], t, .refl, r, hphase⟩
  | locking =>
    obtain ⟨as, u, hsteps, hfree, hlocking⟩ := h.exists_steps_free hinv hphase
    obtain ⟨as', t', hrest, hdone, -⟩ := h.exists_steps_done (Or.inr ⟨hlocking, hfree⟩)
    exact ⟨_, t', hsteps.append hrest, hdone⟩
  | locked | checked | exhausted | formatted _ | counted _ | unlocked _ =>
    have hunderway : ((calls t).phase c).Underway := by simp [hphase, Phase.Underway, Phase.Held]
    obtain ⟨as, t', hsteps, hdone, -⟩ := h.exists_steps_done (Or.inl hunderway)
    exact ⟨as, t', hsteps, hdone⟩

end Carries

/-- What a manager promises of its paths in a state of its calls. -/
structure Unique (sm : SockManager) (s : State C) : Prop where
  /-- Two calls do not return the same path, not even ignoring case. -/
  distinct : ∀ c c' p p', c ≠ c' → s.phase c = .done (.ok p) → s.phase c' = .done (.ok p') →
    p.map toLower ≠ p'.map toLower
  /-- A returned path is a name of fixed length in the directory. -/
  shape : ∀ c p, s.phase c = .done (.ok p) → ∃ name, p = sm.sockDirPath ++ Path.slash :: name ∧
    name.length = maxSockFilename.length ∧ Path.slash ∉ name
  /-- The counter does not wrap. -/
  counter : ∀ a s', (system C sm).step s a = some s' → s'.counter = s.counter ∨
    s.counter ≠ maxUint32 ∧ s'.counter.toNat = s.counter.toNat + 1
  /-- At the maximum the counter stays, and every call that compares it later fails. -/
  exhausted : s.counter = maxUint32 → ∀ bs s', (system C sm).Steps s bs s' →
    s'.counter = maxUint32 ∧
      ∀ c r, (s.phase c).Unchecked → s'.phase c = .done r → ∃ e, r = .error e
  /-- Every call that has begun can return. -/
  returns : ∀ c, s.phase c ≠ .idle →
    ∃ bs s', (system C sm).Steps s bs s' ∧ ∃ r, s'.phase c = .done r
  /-- A call that no other interrupts does what `NewSockPath` does as a whole. -/
  alone : ∀ stat c, s.phase c = .idle → s.muCounter = none →
    ∃ (ops : List Op) (s' : State C), (system C sm).Steps s (ops.map (⟨c, ·⟩)) s' ∧
      s'.muCounter = none ∧
      s'.phase c = .done (SockManager.newSockPath stat { sm with counter := s.counter }).1 ∧
      s'.counter = (SockManager.newSockPath stat { sm with counter := s.counter }).2.counter

/-- A call that has not compared the counter fails if it is at its maximum. -/
theorem Phase.Unchecked.failing {p : Phase} (h : p.Unchecked) : p.Failing := by
  cases p <;> simp_all [Unchecked, Failing]

/-- The path of a ticket is its file name after the directory and a slash. -/
theorem sockPath_sockFilename {sm : SockManager} {abspath : Str}
    (hdir : SockDir abspath sm.sockDirPath) {k : ℕ} (hk : k < 2 ^ 32) :
    sm.sockPath (sockFilename k) = sm.sockDirPath ++ Path.slash :: sockFilename k := by
  have hlen := length_sockFilename hk
  rw [length_maxSockFilename] at hlen
  exact hdir.join_eq (plain_of_length (by omega) (slash_not_mem_sockFilename k))

/-- Paths of different tickets differ, also when letter case is ignored. -/
theorem sockPath_injective {sm : SockManager} {abspath : Str}
    (hdir : SockDir abspath sm.sockDirPath) {k k' : ℕ} (hk : k < 2 ^ 32) (hk' : k' < 2 ^ 32)
    (h : (sm.sockPath (sockFilename k)).map toLower = (sm.sockPath (sockFilename k')).map toLower) :
    k = k' := by
  rw [sockPath_sockFilename hdir hk, sockPath_sockFilename hdir hk',
    List.map_append, List.map_append, List.map_cons, List.map_cons] at h
  -- The directory is the same, and the names are in lower case.
  have hname := List.cons_inj_right _ |>.mp (List.append_cancel_left h)
  rw [sockFilename, sockFilename, map_toLower_padZeros, map_toLower_padZeros] at hname
  exact padZeros_formatUint36_injective _ hname

/-- At the maximum the counter stays, and a call that compares it later returns an error. -/
theorem exhausted_of_steps {sm : SockManager} {s s' : State C} {bs : List (Action C)}
    (hguard : Guarded s) (hcounter : s.counter = maxUint32) (h : (system C sm).Steps s bs s') :
    s'.counter = maxUint32 ∧
      ∀ c r, (s.phase c).Unchecked → s'.phase c = .done r → ∃ e, r = .error e := by
  obtain ⟨hkeep, hfailing⟩ := failing_of_steps hguard hcounter h
  refine ⟨hkeep, fun c r hunchecked hdone => ?_⟩
  have hfail := hfailing c hunchecked.failing
  rw [hdone] at hfail
  cases r with
  | ok p => exact hfail.elim
  | error e => exact ⟨e, rfl⟩

/-- In every interleaving of any number of calls of a new manager, whatever `os.Stat`
answers, the returned paths are unique and the counter does not wrap. -/
theorem unique_of_trace {os : Os} {path : Str} {sm : SockManager}
    (hnew : newSockManager os path = .ok sm) {as : List (Action C)} {s : State C}
    (hrun : (system C sm).Trace as s) : Unique sm s := by
  obtain ⟨abspath, hdir, hzero⟩ := sockDir_of_newSockManager hnew
  obtain ⟨ticket, htickets, hunique⟩ := exists_tickets hzero hrun
  have hguard := guarded_of_trace hrun
  have hmax : maxUint32.toNat < 2 ^ 32 := maxUint32.isLt
  refine ⟨?_, ?_, ?_, ?_, ?_, ?_⟩
  · intro c c' p p' hne hdone hdone' heq
    obtain ⟨k, hk, hticket, rfl⟩ := htickets c p hdone
    obtain ⟨k', hk', hticket', rfl⟩ := htickets c' p' hdone'
    obtain rfl := sockPath_injective hdir (hk.trans hmax) (hk'.trans hmax) heq
    exact hne (hunique c c' k hticket hticket')
  · intro c p hdone
    obtain ⟨k, hk, -, rfl⟩ := htickets c p hdone
    have hlen := length_sockFilename (hk.trans hmax)
    have hslash := slash_not_mem_sockFilename k
    exact ⟨sockFilename k, sockPath_sockFilename hdir (hk.trans hmax), hlen, hslash⟩
  · intro a s' hstep
    exact counter_of_moves hguard (moves_of_step hstep)
  · intro hcounter bs s' hsteps
    exact exhausted_of_steps hguard hcounter hsteps
  · intro c hbegun
    exact (carries sm).exists_steps_return hguard hbegun
  · intro stat c hidle hfree
    exact exists_steps_newSockPath sm stat hidle hfree

end Steps

/-- The manager of the folder `/data`. -/
def dataManager : SockManager := ⟨str "/data/sock", 0⟩

/-- Two calls overlap: the second takes its number while the first waits for the lock,
and asks for its file while the first holds it. -/
def overlappingCalls : List (Action Bool) :=
  [⟨false, .call⟩, ⟨true, .call⟩, ⟨true, .lock⟩, ⟨true, .check⟩, ⟨true, .format⟩,
    ⟨true, .increment⟩, ⟨true, .unlock⟩, ⟨false, .lock⟩, ⟨true, .stat (.notExist .eof)⟩,
    ⟨false, .check⟩, ⟨false, .format⟩, ⟨false, .increment⟩, ⟨false, .unlock⟩,
    ⟨false, .stat (.notExist .eof)⟩]

/-- The promise after two overlapping calls. -/
theorem unique_of_trace_overlapping :
    Unique dataManager ((system Bool dataManager).after overlappingCalls) := by
  have hnew : newSockManager (osWithDir (str "/data")) (str "/data/") = .ok dataManager := by
    decide
  have hrun : (system Bool dataManager).Trace overlappingCalls
      ((system Bool dataManager).after overlappingCalls) := System.trace_after (by decide +kernel)
  exact unique_of_trace hnew hrun

end IpfsMobile.Core.SockPaths
