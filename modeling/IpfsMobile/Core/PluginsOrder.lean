import IpfsMobile.Concurrent.Progress
import IpfsMobile.Core.Plugins

/-!
# The order in which plugins are loaded

However calls of `loadPlugins` overlap and whichever stages fail, the calls end as they would
one after another, in the order in which they take the mutex. The unlock is deferred, so the
mutex is given back after a failure as well, and every call returns.
-/

namespace IpfsMobile.Core.Plugins

open Go Concurrent

variable {C : Type} {env : Process C}

/-- The call that takes the mutex in a step. -/
def Action.locker (a : Action C) : Option C := if a.op = .lock then some a.call else none

/-- The calls in the order in which they take the mutex. -/
def lockOrder (as : List (Action C)) : List C := as.filterMap Action.locker

/-- The call that has the mutex, until its result is known. -/
def State.undecided (s : State C) : List C :=
  s.muPlugins.toList.filter fun c => (s.phase c).result.isNone

/-- There is at most one such call. -/
theorem undecided_cases (s : State C) : s.undecided = [] ∨
    ∃ c, s.undecided = [c] ∧ s.muPlugins = some c ∧ (s.phase c).result = none := by
  rw [State.undecided]
  cases s.muPlugins with
  | none => exact Or.inl rfl
  | some c =>
    cases hresult : (s.phase c).result with
    | none => exact Or.inr ⟨c, by simp [hresult], rfl, hresult⟩
    | some r => exact Or.inl (by simp [hresult])

variable [DecidableEq C] {s s' : State C}

/-- A step that changes neither the holder of the mutex nor the result of its call. -/
theorem undecided_goto {c : C} {q : Phase C} (h : q.result = (s.phase c).result)
    (now : Globals C) : State.undecided
      ⟨now, s.muPlugins, Function.update s.phase c q⟩ = s.undecided := by
  have hresult : ∀ d, (Function.update s.phase c q d).result = (s.phase d).result :=
    (Function.forall_update_iff s.phase fun d p => p.result = (s.phase d).result).mpr
      ⟨h, fun _ _ => rfl⟩
  simp only [State.undecided, hresult]

/-- A step lets its call be undecided, decides it, or does neither. -/
theorem undecided_of_moves {c : C} {op : Op} (h : Moves env s c op s')
    (hmutex : Excludes Phase.Held s.muPlugins s.phase) :
    ((s'.phase c).result = (s.phase c).result ∧
      s'.undecided = s.undecided ++ (Action.locker ⟨c, op⟩).toList) ∨
    ((s'.phase c).result ≠ none ∧ s.undecided = [c] ∧ s'.undecided = [] ∧
      Action.locker ⟨c, op⟩ = none) := by
  -- Under the mutex a call goes on without a result.
  have hstay : ∀ {q : Phase C} {now : Globals C}, q.result = (s.phase c).result →
      op ≠ .lock → s' = ⟨now, s.muPlugins, Function.update s.phase c q⟩ →
      (s'.phase c).result = (s.phase c).result ∧
        s'.undecided = s.undecided ++ (Action.locker ⟨c, op⟩).toList := by
    rintro q now hresult hop rfl
    refine ⟨by simpa using hresult, ?_⟩
    rw [undecided_goto hresult, Action.locker, if_neg hop]
    simp
  have hsettle : ∀ {r : Except Err C} {now : Globals C}, (s.phase c).Held →
      (s.phase c).result = none → op ≠ .lock →
      s' = ⟨now, s.muPlugins, Function.update s.phase c (.leaving r)⟩ →
      (s'.phase c).result ≠ none ∧ s.undecided = [c] ∧ s'.undecided = [] ∧
        Action.locker ⟨c, op⟩ = none := by
    rintro r now hheld hnone hop rfl
    have hholder := (hmutex c).mp hheld
    refine ⟨by simp [Phase.result], ?_, ?_, if_neg hop⟩
    · simp [State.undecided, hholder, hnone]
    · simp [State.undecided, hholder, Phase.result]
  cases h with
  | call hphase | missing hphase _ | created hphase _ | initialized hphase _
  | injected hphase _ => exact Or.inl (hstay (by rw [hphase]; rfl) (by simp) rfl)
  | found hphase _ | createFailed hphase _ | initFailed hphase _ | injectFailed hphase _
  | assign hphase =>
    exact Or.inr (hsettle (by simp [hphase, Phase.Held]) (by rw [hphase]; rfl) (by simp) rfl)
  | lock hphase hnone =>
    refine Or.inl ⟨by simp [Phase.result, State.goto, hphase], ?_⟩
    simp [State.undecided, hnone, State.goto, Phase.result, Action.locker]
  | unlock hphase =>
    have hholder := (hmutex c).mp (by simp [hphase, Phase.Held])
    refine Or.inl ⟨by simp [State.goto, hphase, Phase.result], ?_⟩
    simp [State.undecided, hholder, hphase, Phase.result, Action.locker]

/-- A call of the sequence had no result and has one. -/
theorem result_of_sequence_step {x x' : Calls C} {c : C} (h : (sequence env).step x c = some x') :
    x.result c = none ∧ x'.result c ≠ none := by
  have hnew := sequence_step h
  simp only [sequence] at h
  split at h
  · cases h
  · rename_i hnone
    exact ⟨hnone, by simp [hnew]⟩

/-- The calls refine the sequence of those that are decided, in the order of the mutex. -/
theorem refines_in_order {as : List (Action C)} (h : (system env).Trace as s) :
    ∃ order x, (sequence env).Trace order x ∧ Refines env s x ∧
      lockOrder as = order ++ s.undecided := by
  unfold System.Trace at h
  induction h with
  | refl => exact ⟨[], _, .refl, refines_init env, rfl⟩
  | @snoc as a s s' hprev hnext ih =>
    obtain ⟨order, x, htrace, hrel, horder⟩ := ih
    have hmove := moves_of_step hnext
    have hlocks : lockOrder (as ++ [a]) = order ++ s.undecided ++ a.locker.toList := by
      rw [lockOrder, List.filterMap_append, ← lockOrder, horder]
      cases hlocker : a.locker <;> simp [hlocker]
    rcases undecided_of_moves hmove hrel.mutex with ⟨hsame, hundecided⟩ | hdecided
    · rcases hrel.step hmove with hrel' | ⟨x', hx, hrel', -⟩
      · refine ⟨order, x, htrace, hrel', ?_⟩
        rw [hlocks, hundecided, List.append_assoc]
      · -- A call that is decided in the sequence has a result now and had none.
        obtain ⟨hnone, hsome⟩ := result_of_sequence_step hx
        rw [hrel'.result, hsame, ← hrel.result] at hsome
        exact absurd hnone hsome
    · obtain ⟨hsome, hbefore, hafter, hlocker⟩ := hdecided
      rcases hrel.step hmove with hrel' | ⟨x', hx, hrel', -⟩
      · have hnone : (s.phase a.call).result = none := by
          have hmem : a.call ∈ s.undecided := by simp [hbefore]
          simpa [State.undecided] using (List.mem_filter.mp hmem).2
        rw [← hrel'.result, hrel.result] at hsome
        exact absurd hnone hsome
      · refine ⟨order ++ [a.call], x', .snoc htrace hx, hrel', ?_⟩
        rw [hlocks, hbefore, hafter, hlocker]
        simp

/-- A loader that was returned in a sequence of calls is the one that is kept. -/
theorem kept_of_sequence {order : List C} {x : Calls C} (h : (sequence env).Trace order x) :
    ∀ c lp, x.result c = some (.ok lp) → x.globals.plugins = some lp := by
  refine h.invariant (P := fun x => ∀ c lp, x.result c = some (.ok lp) →
    x.globals.plugins = some lp) (fun c lp hlp => by cases hlp) ?_
  intro _ x c x' _ hkept hstep
  rw [sequence_step hstep]
  have hkeeps : ∀ lp, x.globals.plugins = some lp →
      (loadPlugins env c x.globals).2.plugins = some lp := by
    intro lp hlp
    rw [loadPlugins_some env hlp]
    exact hlp
  refine (Function.forall_update_iff x.result fun d o => ∀ lp, o = some (.ok lp) →
    (loadPlugins env c x.globals).2.plugins = some lp).mpr ⟨fun lp hlp => ?_, fun d _ lp hlp =>
      hkeeps lp (hkept d lp hlp)⟩
  have hresult := Option.some.inj hlp
  cases hplugins : x.globals.plugins with
  | some lp' =>
    rw [loadPlugins_some env hplugins] at hresult ⊢
    rw [← Except.ok.inj hresult]
    exact hplugins
  | none =>
    rcases loadPlugins_none env hplugins with ⟨e, herror, -⟩ | ⟨hok, hsome⟩
    · rw [herror] at hresult
      cases hresult
    · rw [hok] at hresult
      rw [← Except.ok.inj hresult]
      exact hsome

/-- In every interleaving and with any stages that fail, the calls that have returned have the
results that they have one after another, in the order in which they took the mutex, and so
has the process while the mutex is free. All that succeeded have the same loader, which is kept. -/
theorem serial_of_trace {as : List (Action C)} (h : (system env).Trace as s) :
    (∃ x, (sequence env).Trace (lockOrder as) x ∧
      (∀ c r, s.phase c = .done r → x.result c = some r) ∧
      (s.muPlugins = none → x.globals = s.globals)) ∧
    ∀ c lp, s.phase c = .done (.ok lp) → s.globals.plugins = some lp := by
  obtain ⟨order, x, htrace, hrel, horder⟩ := refines_in_order h
  have hdone : ∀ c r, s.phase c = .done r → x.result c = some r := by
    intro c r hr
    rw [hrel.result, hr]
    rfl
  refine ⟨?_, fun c lp hlp => ?_⟩
  · rcases undecided_cases s with hnil | ⟨c, hone, hholder, hnone⟩
    · rw [horder, hnil, List.append_nil]
      exact ⟨x, htrace, hdone, hrel.free⟩
    · -- The call that has the mutex comes last in the sequence.
      have hnew : x.result c = none := (hrel.result c).trans hnone
      have hstep : (sequence env).step x c = some ⟨(loadPlugins env c x.globals).2,
          Function.update x.result c (some (loadPlugins env c x.globals).1)⟩ := by
        simp only [sequence, hnew]
      rw [horder, hone]
      refine ⟨_, .snoc htrace hstep, fun d r hr => ?_, fun hfree => ?_⟩
      · have hne : d ≠ c := by
          rintro rfl
          rw [hr] at hnone
          cases hnone
        exact (Function.update_of_ne hne _ _).trans (hdone d r hr)
      · rw [hholder] at hfree
        cases hfree
  · rw [← hrel.plugins_eq]
    exact kept_of_sequence htrace c lp (hdone c _ hlp)

/-- The two repositories when the second plugin of the first one fails. -/
def brokenSecond : Process Bool := twoRepos [⟨str "flatfs", none⟩, ⟨str "broken", some .eof⟩]

/-- The first call leaves a plugin behind, and the second fails as it does after the first. -/
theorem serial_of_trace_spoiled :
    ∃ x, (sequence brokenSecond).Trace [false, true] x ∧
      x.result true = some (.error (.other (str "already have a datastore named flatfs"))) := by
  have hrun : (system brokenSecond).Trace spoiledRetry ((system brokenSecond).after spoiledRetry) :=
    System.trace_after (by decide +kernel)
  obtain ⟨⟨x, hx, hdone, -⟩, -⟩ := serial_of_trace hrun
  exact ⟨x, hx, hdone true _ (by decide +kernel)⟩

/-- The number of plugins of the loader that a call makes. -/
def Attempt.size (a : Attempt) : ℕ :=
  match a.create with
  | .ok lps => lps.length
  | .error _ => 0

/-- A bound on the steps that a call has still to take. -/
def Phase.work (a : Attempt) : Phase C → ℕ
  | idle | done _ => 0
  | locking => a.size + 6
  | locked => a.size + 5
  | missing => a.size + 4
  | created lps => lps.length + 3
  | injecting _ lps => lps.length + 2
  | leaving _ => 1

/-- A step leads its call to another phase, with less work unless it makes the call. -/
theorem Moves.work_lt {c : C} {op : Op} (h : Moves env s c op s') :
    ∃ q, s'.phase = Function.update s.phase c q ∧
      (op ≠ .call → s.phase c ≠ .idle ∧
        q.work (env.attempt c) < (s.phase c).work (env.attempt c)) := by
  have hlt : ∀ {p q : Phase C}, s.phase c = p → p ≠ .idle →
      q.work (env.attempt c) < p.work (env.attempt c) →
      s'.phase = Function.update s.phase c q → ∃ q, s'.phase = Function.update s.phase c q ∧
        (op ≠ .call → s.phase c ≠ .idle ∧
          q.work (env.attempt c) < (s.phase c).work (env.attempt c)) := by
    rintro p q rfl hidle hwork hphase
    exact ⟨q, hphase, fun _ => ⟨hidle, hwork⟩⟩
  cases h with
  | call hphase => exact ⟨_, rfl, fun hop => absurd rfl hop⟩
  | lock hphase _ => exact hlt hphase (by simp) (by simp [Phase.work]) rfl
  | found hphase _ | missing hphase _ | createFailed hphase _ | initFailed hphase _
  | initialized hphase _ | injectFailed hphase _ | injected hphase _ =>
    exact hlt hphase (by simp) (by simp [Phase.work]) rfl
  | created hphase hcreate =>
    exact hlt hphase (by simp) (by simp [Phase.work, Attempt.size, hcreate]) rfl
  | assign hphase | unlock hphase => exact hlt hphase (by simp) (by simp [Phase.work]) rfl

/-- The calls of a process take turns. -/
theorem takesTurns : TakesTurns (system env) Action.call State.phase .idle where
  init := fun _ => rfl
  step := fun _ _ _ hstep => (moves_of_step hstep).work_lt.imp fun _ hq => hq.1

/-- When no step is left to take, every call that was made is over. -/
theorem over_of_stuck (hmutex : Excludes Phase.Held s.muPlugins s.phase)
    (hend : ∀ c op, op ≠ .call → step env s c op = none) (c : C) :
    s.phase c = .idle ∨ (s.phase c).Over := by
  have hnotHeld : ∀ d, ¬(s.phase d).Held := by
    intro d hheld
    cases hp : s.phase d with
    | idle | locking | done r => simp [hp, Phase.Held] at hheld
    | locked =>
      have hnone := hend d .check (by simp)
      cases hplugins : s.globals.plugins <;> simp [step, hp, hplugins] at hnone
    | missing =>
      have hnone := hend d .newPluginLoader (by simp)
      cases hcreate : (env.attempt d).create <;> simp [step, hp, hcreate] at hnone
    | created lps =>
      have hnone := hend d .init (by simp)
      cases hinit : (env.attempt d).initializeError <;> simp [step, hp, hinit] at hnone
    | injecting registered lps =>
      cases lps with
      | nil => simpa [step, hp] using hend d .assign (by simp)
      | cons p lps =>
        have hnone := hend d .inject (by simp)
        cases hregister : register env s.globals.registry p <;>
          simp [step, hp, hregister] at hnone
    | leaving r => simpa [step, hp] using hend d .unlock (by simp)
  have hfree : s.muPlugins = none := by
    by_contra hholder
    obtain ⟨d, hd⟩ := Option.ne_none_iff_exists'.mp hholder
    exact hnotHeld d ((hmutex d).mpr hd)
  cases hp : s.phase c with
  | idle => exact Or.inl rfl
  | locking => simpa [step, hp, hfree] using hend c .lock (by simp)
  | done r => exact Or.inr ⟨r, rfl⟩
  | _ => exact absurd (by simp [hp, Phase.Held]) (hnotHeld c)

/-- Once no more calls are made, the steps that are left are bounded in number, whatever
stages fail. When they are taken, in whatever order, every call has returned. -/
theorem over_of_steps {as more : List (Action C)} (h : (system env).Trace as s)
    (hmore : (system env).Steps s more s') (hop : ∀ a ∈ more, a.op ≠ .call) :
    more.length ≤ ∑ c ∈ callsOf Action.call as, (s.phase c).work (env.attempt c) ∧
      ((∀ c op, op ≠ .call → step env s' c op = none) →
        ∀ c, s'.phase c = .idle ∨ (s'.phase c).Over) := by
  have hkept := System.Steps.length_add_le
    (μ := fun t => ∑ c ∈ callsOf Action.call as, (t.phase c).work (env.attempt c))
    (P := fun t => ∀ c ∉ callsOf Action.call as, t.phase c = .idle)
    (fun t a t' hidle ha hnext => ?_) hmore (takesTurns.idle_of_trace h) hop
  · obtain ⟨-, x, -, hrel, -⟩ := refines_in_order (System.Steps.append h hmore)
    exact ⟨by omega, over_of_stuck hrel.mutex⟩
  · obtain ⟨q, hphase, hless⟩ := (moves_of_step hnext).work_lt
    obtain ⟨hne, hlt⟩ := hless ha
    have hcall : a.call ∈ callsOf Action.call as := by
      by_contra hnot
      exact hne (hidle _ hnot)
    have hsum := sum_update hcall (fun c p => p.work (env.attempt c)) t.phase q
    refine ⟨fun c hc => ?_, ?_⟩
    · rw [hphase, Function.update_of_ne (ne_of_mem_of_not_mem hcall hc).symm]
      exact hidle c hc
    · simp only [hphase]
      omega

/-- After the first call has failed, the steps of the second one stay within the bound. -/
theorem over_of_steps_spoiled :
    (spoiledRetry.drop 9).length ≤ ∑ c ∈ callsOf Action.call (spoiledRetry.take 9),
      (((system brokenSecond).after (spoiledRetry.take 9)).phase c).work
        (brokenSecond.attempt c) := by
  have hrun : (system brokenSecond).Trace (spoiledRetry.take 9)
      ((system brokenSecond).after (spoiledRetry.take 9)) := System.trace_after (by decide +kernel)
  obtain ⟨s, hs⟩ := Option.isSome_iff_exists.mp (show ((system brokenSecond).replay
    ((system brokenSecond).after (spoiledRetry.take 9)) (spoiledRetry.drop 9)).isSome = true by
      decide +kernel)
  exact (over_of_steps hrun (System.steps_of_replay hs) (by decide)).1

end IpfsMobile.Core.Plugins
