import IpfsMobile.Concurrent.Transition
import IpfsMobile.Go.Path

/-!
# Loading plugins

`InitRepo`, `OpenRepo` and `NewNode` load the plugins under a mutex; the first loader
that comes through all stages is kept for the process. A loader that fails is dropped,
but what it has injected stays registered, so a later loader may fail where it would
have succeeded as the first. The calls refine a sequence of whole calls of `loadPlugins`,
and there a failed call is forgotten exactly as long as it has registered nothing.
-/

namespace IpfsMobile.Core.Plugins

open Go Concurrent

/-- A plugin: the name under which it is registered, and the error it gives instead. -/
structure Plugin where
  name : Str
  failure : Option Err
  deriving DecidableEq, Repr

/-- The functions that load plugins, with the path of the repository. -/
inductive EntryPoint where
  | initRepo (path : Str)
  | openRepo (path : Str)
  | newNode (path : Str)
  deriving DecidableEq, Repr

/-- The path that is passed on to `loadPlugins`. -/
def EntryPoint.repoPath : EntryPoint → Str
  | initRepo path | openRepo path | newNode path => path

/-- A call, with what the stages of the plugin loader do in it. -/
structure Attempt where
  entry : EntryPoint
  /-- `NewPluginLoader`: the plugins of the loader for a path. -/
  newPluginLoader : Str → Except Err (List Plugin)
  /-- `Initialize`: its error, if it fails. -/
  initializeError : Option Err

/-- `NewPluginLoader(pluginpath)`. -/
def Attempt.create (a : Attempt) : Except Err (List Plugin) :=
  a.newPluginLoader (Path.join [a.entry.repoPath, str "plugins"])

/-- The calls of a process, the names that are registered before the first of them, and
the error for a name that is registered already. -/
structure Process (C : Type) where
  attempt : C → Attempt
  registered : List Str
  alreadyRegistered : Str → Err

/-- The package variable, with the call that has made the loader, and the registry. -/
structure Globals (C : Type) where
  plugins : Option C
  registry : List Str
  deriving DecidableEq

section Sequential

variable {C : Type} (env : Process C)

/-- Before the first call. -/
def Process.start : Globals C := ⟨none, env.registered⟩

/-- Register one plugin. -/
def register (registry : List Str) (p : Plugin) : Except Err (List Str) :=
  if p.name ∈ registry then .error (env.alreadyRegistered p.name)
  else
    match p.failure with
    | some e => .error e
    | none => .ok (registry ++ [p.name])

/-- `Inject`: the plugins are registered in order up to the first that fails. -/
def inject (registry : List Str) : List Plugin → Option Err × List Str
  | [] => (none, registry)
  | p :: ps =>
    match register env registry p with
    | .error e => (some e, registry)
    | .ok registry => inject registry ps

/-- `loadPlugins` as a whole. -/
def loadPlugins (c : C) (g : Globals C) : Except Err C × Globals C :=
  match g.plugins with
  | some lp => (.ok lp, g)
  | none =>
    match (env.attempt c).create with
    | .error e => (.error e, g)
    | .ok lps =>
      match (env.attempt c).initializeError with
      | some e => (.error e, g)
      | none =>
        match inject env g.registry lps with
        | (some e, registry) => (.error e, { g with registry := registry })
        | (none, registry) => (.ok c, ⟨some c, registry⟩)

/-- The call would succeed as the first call of the process. -/
def SucceedsFirst (c : C) : Prop := ∃ lp, (loadPlugins env c env.start).1 = .ok lp

/-- The plugins after some that are registered are injected into what these leave. -/
theorem inject_append {registry registry' : List Str} {ps : List Plugin}
    (h : inject env registry ps = (none, registry')) (qs : List Plugin) :
    inject env registry (ps ++ qs) = inject env registry' qs := by
  induction ps generalizing registry with
  | nil =>
    obtain rfl : registry = registry' := congrArg Prod.snd h
    rfl
  | cons p ps ih =>
    simp only [List.cons_append, inject] at h ⊢
    cases hp : register env registry p with
    | error e => simp [hp] at h
    | ok registry'' =>
      simp only [hp] at h ⊢
      exact ih h

/-- What `loadPlugins` does without a loader: it succeeds with its own, and fails
without one. -/
theorem loadPlugins_none {c : C} {g : Globals C} (hnone : g.plugins = none) :
    (∃ e, (loadPlugins env c g).1 = .error e ∧ (loadPlugins env c g).2.plugins = none) ∨
      (loadPlugins env c g).1 = .ok c ∧ (loadPlugins env c g).2.plugins = some c := by
  simp only [loadPlugins, hnone]
  split
  · exact Or.inl ⟨_, rfl, hnone⟩
  · split
    · exact Or.inl ⟨_, rfl, hnone⟩
    · split
      · exact Or.inl ⟨_, rfl, rfl⟩
      · exact Or.inr ⟨rfl, rfl⟩

/-- With a loader, `loadPlugins` returns it and does nothing. -/
theorem loadPlugins_some {c lp : C} {g : Globals C} (hsome : g.plugins = some lp) :
    loadPlugins env c g = (.ok lp, g) := by
  simp only [loadPlugins, hsome]

/-- The results of the calls that are over, and what they have left. -/
structure Calls (C : Type) where
  globals : Globals C
  result : C → Option (Except Err C) := fun _ => none

variable [DecidableEq C]

/-- Calls one after another, each as a whole. -/
def sequence : System (Calls C) C where
  init := { globals := env.start }
  step x c :=
    match x.result c with
    | some _ => none
    | none => some ⟨(loadPlugins env c x.globals).2,
        Function.update x.result c (some (loadPlugins env c x.globals).1)⟩

/-- A call leaves nothing behind if it fails. -/
def LeavesNothing (x : Calls C) (c : C) : Prop :=
  (loadPlugins env c x.globals).1.isOk = false → (loadPlugins env c x.globals).2 = x.globals

instance (x : Calls C) (c : C) : Decidable (LeavesNothing env x c) :=
  inferInstanceAs (Decidable (_ → _))

/-- What a sequence of calls has shown about them. -/
structure Forgetful (x : Calls C) : Prop where
  /-- Without a loader everything is as at the start. -/
  fresh : x.globals.plugins = none → x.globals = env.start
  /-- The loader is that of a call which would succeed as the first. -/
  owner : ∀ lp, x.globals.plugins = some lp → SucceedsFirst env lp
  /-- A call that has failed would fail as the first. -/
  failed : ∀ c e, x.result c = some (.error e) → ¬SucceedsFirst env c
  /-- A call that has succeeded returned the loader. -/
  succeeded : ∀ c lp, x.result c = some (.ok lp) → x.globals.plugins = some lp

/-- Before the first call there is nothing to remember. -/
theorem forgetful_init : Forgetful env (sequence env).init where
  fresh := fun _ => rfl
  owner := fun lp h => by cases h
  failed := fun c e h => by cases h
  succeeded := fun c lp h => by cases h

variable {env}

namespace Forgetful

variable {x : Calls C} {c : C}

/-- A result is recorded, and the loader of earlier calls is kept. -/
theorem record (h : Forgetful env x) {g : Globals C} {r : Except Err C}
    (hfresh : g.plugins = none → g = env.start)
    (howner : ∀ lp, g.plugins = some lp → SucceedsFirst env lp)
    (hkeep : ∀ lp, x.globals.plugins = some lp → g.plugins = some lp)
    (hfailed : ∀ e, r = .error e → ¬SucceedsFirst env c)
    (hsucceeded : ∀ lp, r = .ok lp → g.plugins = some lp) :
    Forgetful env ⟨g, Function.update x.result c (some r)⟩ where
  fresh := hfresh
  owner := howner
  failed := (Function.forall_update_iff x.result fun d o => ∀ e, o = some (.error e) →
    ¬SucceedsFirst env d).mpr ⟨fun e he => hfailed e (Option.some.inj he), fun d _ => h.failed d⟩
  succeeded := (Function.forall_update_iff x.result fun _ o => ∀ lp, o = some (.ok lp) →
    g.plugins = some lp).mpr ⟨fun lp hlp => hsucceeded lp (Option.some.inj hlp),
      fun d _ lp hlp => hkeep lp (h.succeeded d lp hlp)⟩

/-- A call that leaves nothing when it fails. -/
theorem call (h : Forgetful env x) (hclean : LeavesNothing env x c) :
    Forgetful env ⟨(loadPlugins env c x.globals).2,
      Function.update x.result c (some (loadPlugins env c x.globals).1)⟩ := by
  cases hplugins : x.globals.plugins with
  | some lp =>
    rw [loadPlugins_some env hplugins]
    refine h.record h.fresh h.owner (fun _ => id) (fun e he => ?_) (fun lp' hlp' => ?_)
    · cases he
    · obtain rfl := Except.ok.inj hlp'
      exact hplugins
  | none =>
    have hstart := h.fresh hplugins
    have hnoLoader : ∀ lp, x.globals.plugins ≠ some lp := by simp [hplugins]
    rcases loadPlugins_none env hplugins with ⟨e, hresult, hnone⟩ | ⟨hresult, hsome⟩
    · -- The failed call leaves the globals of the start, where it fails as well.
      have hsame := hclean (by rw [hresult]; rfl)
      rw [hsame, hresult]
      refine h.record h.fresh h.owner (fun _ => id) (fun e' he' => ?_) (fun lp hlp => ?_)
      · rintro ⟨lp, hfirst⟩
        rw [← hstart, hresult] at hfirst
        cases hfirst
      · cases hlp
    · rw [hresult]
      have hfirst : SucceedsFirst env c := ⟨c, by rw [← hstart, hresult]⟩
      refine h.record ?_ ?_ ?_ ?_ ?_
      · intro hnone
        rw [hsome] at hnone
        cases hnone
      · intro lp hlp
        rw [hsome] at hlp
        obtain rfl := Option.some.inj hlp
        exact hfirst
      · intro lp hlp
        exact absurd hlp (hnoLoader lp)
      · intro e he
        cases he
      · intro lp hlp
        obtain rfl := Except.ok.inj hlp
        exact hsome

end Forgetful

/-- A step of the sequence is a whole call. -/
theorem sequence_step {x x' : Calls C} {c : C} (h : (sequence env).step x c = some x') :
    x' = ⟨(loadPlugins env c x.globals).2,
      Function.update x.result c (some (loadPlugins env c x.globals).1)⟩ := by
  simp only [sequence] at h
  split at h
  · cases h
  · exact (Option.some.inj h).symm

/-- Calls that leave nothing when they fail are forgotten, in every sequence of them. -/
theorem forgetful_of_trace {cs : List C} {x : Calls C}
    (h : ((sequence env).restrict (LeavesNothing env)).Trace cs x) : Forgetful env x := by
  have hinit : Forgetful env ((sequence env).restrict (LeavesNothing env)).init :=
    forgetful_init env
  refine h.invariant hinit fun _ y c y' _ hforgetful hstep => ?_
  obtain ⟨hclean, hcall⟩ := System.restrict_step.mp hstep
  rw [sequence_step hcall]
  exact hforgetful.call hclean

end Sequential

/-- How far a call of `loadPlugins` has come. -/
inductive Phase (C : Type) where
  /-- Not called yet. -/
  | idle
  /-- Before the lock. -/
  | locking
  /-- The mutex is taken. -/
  | locked
  /-- There is no loader. -/
  | missing
  /-- A loader with these plugins is made. -/
  | created (lps : List Plugin)
  /-- The loader is initialized; some plugins are registered, the others are next. -/
  | injecting (registered lps : List Plugin)
  /-- The result is known; the deferred unlock is next. -/
  | leaving (result : Except Err C)
  /-- The call has returned. -/
  | done (result : Except Err C)
  deriving DecidableEq

/-- What a call does in one step. -/
inductive Op where
  | call
  | lock
  | check
  | newPluginLoader
  | init
  | inject
  | assign
  | unlock
  deriving DecidableEq, Repr

/-- The stages of the plugin loader. -/
def Op.IsStage : Op → Prop
  | newPluginLoader | init | inject => True
  | _ => False

/-- One step of one call. -/
structure Action (C : Type) where
  call : C
  op : Op

/-- The globals and the mutex, and how far each call has come. -/
structure State (C : Type) where
  globals : Globals C
  muPlugins : Option C := none
  phase : C → Phase C := fun _ => .idle

section Steps

variable {C : Type} [DecidableEq C] (env : Process C)

/-- One call goes on to a phase. -/
def State.goto (s : State C) (c : C) (p : Phase C) : State C :=
  { s with phase := Function.update s.phase c p }

/-- The effect of one step of the call `c`. -/
def step (s : State C) (c : C) : Op → Option (State C)
  | .call =>
    match s.phase c with
    | .idle => some (s.goto c .locking)
    | _ => none
  | .lock =>
    match s.phase c with
    | .locking =>
      if s.muPlugins = none then some { s.goto c .locked with muPlugins := some c } else none
    | _ => none
  | .check =>
    match s.phase c with
    | .locked =>
      match s.globals.plugins with
      | some lp => some (s.goto c (.leaving (.ok lp)))
      | none => some (s.goto c .missing)
    | _ => none
  | .newPluginLoader =>
    match s.phase c with
    | .missing =>
      match (env.attempt c).create with
      | .error e => some (s.goto c (.leaving (.error e)))
      | .ok lps => some (s.goto c (.created lps))
    | _ => none
  | .init =>
    match s.phase c with
    | .created lps =>
      match (env.attempt c).initializeError with
      | some e => some (s.goto c (.leaving (.error e)))
      | none => some (s.goto c (.injecting [] lps))
    | _ => none
  | .inject =>
    match s.phase c with
    | .injecting registered (p :: lps) =>
      match register env s.globals.registry p with
      | .error e => some (s.goto c (.leaving (.error e)))
      | .ok registry =>
        some { s.goto c (.injecting (registered ++ [p]) lps) with
          globals := { s.globals with registry := registry } }
    | _ => none
  | .assign =>
    match s.phase c with
    | .injecting _ [] =>
      some { s.goto c (.leaving (.ok c)) with globals := { s.globals with plugins := some c } }
    | _ => none
  | .unlock =>
    match s.phase c with
    | .leaving result => some { s.goto c (.done result) with muPlugins := none }
    | _ => none

/-- The calls of a process as a system. -/
def system : System (State C) (Action C) where
  init := { globals := env.start }
  step s a := step env s a.call a.op

/-- The plugins that a call has registered if its next plugin fails. -/
def leftBehind (s : State C) (a : Action C) : List Plugin :=
  match a.op, s.phase a.call with
  | .inject, .injecting registered (p :: _) =>
    if (register env s.globals.registry p).isOk then [] else registered
  | _, _ => []

/-- A plugin that fails is the first of its loader. -/
def FailsFirst (s : State C) (a : Action C) : Prop := leftBehind env s a = []

instance (s : State C) (a : Action C) : Decidable (FailsFirst env s a) :=
  inferInstanceAs (Decidable (_ = _))

/-- The phases in which a call holds the mutex. -/
def Phase.Held : Phase C → Prop
  | locked | missing | created _ | injecting _ _ | leaving _ => True
  | _ => False

/-- The result of a call, as soon as it is known. -/
def Phase.result : Phase C → Option (Except Err C)
  | leaving r | done r => some r
  | _ => none

/-- What a step of the call `c` can do. -/
inductive Moves (s : State C) (c : C) : Op → State C → Prop
  | call : s.phase c = .idle → Moves s c .call (s.goto c .locking)
  | lock : s.phase c = .locking → s.muPlugins = none →
      Moves s c .lock { s.goto c .locked with muPlugins := some c }
  | found {lp} : s.phase c = .locked → s.globals.plugins = some lp →
      Moves s c .check (s.goto c (.leaving (.ok lp)))
  | missing : s.phase c = .locked → s.globals.plugins = none →
      Moves s c .check (s.goto c .missing)
  | createFailed {e} : s.phase c = .missing → (env.attempt c).create = .error e →
      Moves s c .newPluginLoader (s.goto c (.leaving (.error e)))
  | created {lps} : s.phase c = .missing → (env.attempt c).create = .ok lps →
      Moves s c .newPluginLoader (s.goto c (.created lps))
  | initFailed {lps e} : s.phase c = .created lps → (env.attempt c).initializeError = some e →
      Moves s c .init (s.goto c (.leaving (.error e)))
  | initialized {lps} : s.phase c = .created lps → (env.attempt c).initializeError = none →
      Moves s c .init (s.goto c (.injecting [] lps))
  | injectFailed {registered p lps e} : s.phase c = .injecting registered (p :: lps) →
      register env s.globals.registry p = .error e →
      Moves s c .inject (s.goto c (.leaving (.error e)))
  | injected {registered p lps registry} : s.phase c = .injecting registered (p :: lps) →
      register env s.globals.registry p = .ok registry →
      Moves s c .inject { s.goto c (.injecting (registered ++ [p]) lps) with
        globals := { s.globals with registry := registry } }
  | assign {registered} : s.phase c = .injecting registered [] →
      Moves s c .assign { s.goto c (.leaving (.ok c)) with
        globals := { s.globals with plugins := some c } }
  | unlock {r} : s.phase c = .leaving r →
      Moves s c .unlock { s.goto c (.done r) with muPlugins := none }

variable {env}

/-- Every enabled step is one of the moves. -/
theorem moves_of_step {s s' : State C} {c : C} {op : Op} (h : step env s c op = some s') :
    Moves env s c op s' := by
  cases op with
  | call =>
    simp only [step] at h
    split at h <;> cases h
    exact .call ‹_›
  | lock =>
    simp only [step] at h
    split at h
    · split at h <;> cases h
      exact .lock ‹_› ‹_›
    · cases h
  | check =>
    simp only [step] at h
    split at h
    · split at h <;> cases h
      · exact .found ‹_› ‹_›
      · exact .missing ‹_› ‹_›
    · cases h
  | newPluginLoader =>
    simp only [step] at h
    split at h
    · split at h <;> cases h
      · exact .createFailed ‹_› ‹_›
      · exact .created ‹_› ‹_›
    · cases h
  | init =>
    simp only [step] at h
    split at h
    · split at h <;> cases h
      · exact .initFailed ‹_› ‹_›
      · exact .initialized ‹_› ‹_›
    · cases h
  | inject =>
    simp only [step] at h
    split at h
    · split at h <;> cases h
      · exact .injectFailed ‹_› ‹_›
      · exact .injected ‹_› ‹_›
    · cases h
  | assign =>
    simp only [step] at h
    split at h <;> cases h
    exact .assign ‹_›
  | unlock =>
    simp only [step] at h
    split at h <;> cases h
    exact .unlock ‹_›

variable (env)

/-- What the phase of the call `c` says of the globals `g` before the call and of the
present ones. -/
def Agrees (g now : Globals C) (c : C) : Phase C → Prop
  | .locked => g = now
  | .missing => g = now ∧ g.plugins = none
  | .created lps => g = now ∧ g.plugins = none ∧ (env.attempt c).create = .ok lps
  | .injecting registered lps => g.plugins = none ∧ now.plugins = none ∧
      (env.attempt c).create = .ok (registered ++ lps) ∧ (env.attempt c).initializeError = none ∧
      inject env g.registry registered = (none, now.registry)
  | .leaving r => g = now ∧ ∀ lp, g.plugins = some lp → r = .ok lp
  | .idle | .locking | .done _ => True

/-- The calls say the same as a sequence of whole calls. -/
structure Refines (s : State C) (x : Calls C) : Prop where
  /-- The phases agree with the holder of the mutex. -/
  mutex : Excludes Phase.Held s.muPlugins s.phase
  /-- While no call holds the mutex the globals are those of the sequence. -/
  free : s.muPlugins = none → x.globals = s.globals
  /-- A call that holds it is right about the globals. -/
  agrees : ∀ c, Agrees env x.globals s.globals c (s.phase c)
  /-- The results are those of the sequence. -/
  result : ∀ c, x.result c = (s.phase c).result

omit [DecidableEq C] in
/-- A call without the mutex says nothing of the globals. -/
theorem agrees_of_not_held {p : Phase C} (h : ¬p.Held) (g now : Globals C) (c : C) :
    Agrees env g now c p := by
  cases p <;> simp_all [Phase.Held, Agrees]

omit [DecidableEq C] in
/-- Before any call. -/
theorem refines_init : Refines env { globals := env.start } { globals := env.start } where
  mutex := fun c => by simp [Phase.Held]
  free := fun _ => rfl
  agrees := fun c => trivial
  result := fun c => rfl

variable {env}

namespace Refines

variable {s : State C} {x : Calls C} {c : C}

omit [DecidableEq C] in
/-- While a call holds the mutex, the others say nothing of the globals. -/
theorem others (h : Refines env s x) (hheld : (s.phase c).Held) (g now : Globals C) :
    ∀ d, d ≠ c → Agrees env g now d (s.phase d) := by
  intro d hd
  apply agrees_of_not_held
  intro hheld'
  exact hd (h.mutex.unique hheld' hheld)

/-- A step that leaves the result of the call as it is. -/
theorem move (h : Refines env s x) {q : Phase C} {holder : Option C} {now : Globals C}
    (hmutex : Excludes Phase.Held holder (Function.update s.phase c q))
    (hfree : holder = none → x.globals = now) (hagrees : Agrees env x.globals now c q)
    (hothers : ∀ d, d ≠ c → Agrees env x.globals now d (s.phase d))
    (hresult : q.result = (s.phase c).result) :
    Refines env ⟨now, holder, Function.update s.phase c q⟩ x where
  mutex := hmutex
  free := hfree
  agrees := (Function.forall_update_iff s.phase fun d p => Agrees env x.globals now d p).mpr
    ⟨hagrees, hothers⟩
  result := (Function.forall_update_iff s.phase fun d p => x.result d = p.result).mpr
    ⟨(h.result c).trans hresult.symm, fun d _ => h.result d⟩

/-- A step under the mutex that is not the last. -/
theorem stay (h : Refines env s x) {q : Phase C} {now : Globals C} (hheld : (s.phase c).Held)
    (hq : q.Held) (hagrees : Agrees env x.globals now c q)
    (hresult : q.result = (s.phase c).result) :
    Refines env { s with globals := now, phase := Function.update s.phase c q } x := by
  refine h.move (h.mutex.update (iff_of_true hq hheld)) ?_ hagrees
    (h.others hheld x.globals now) hresult
  intro hnone
  rw [(h.mutex c).mp hheld] at hnone
  cases hnone

/-- The step that settles the result is the whole call of the sequence. -/
theorem settle (h : Refines env s x) {r : Except Err C} {now : Globals C}
    (hheld : (s.phase c).Held) (hresult : (s.phase c).result = none)
    (hload : loadPlugins env c x.globals = (r, now))
    (hloader : ∀ lp, now.plugins = some lp → r = .ok lp) :
    ∃ x', (sequence env).step x c = some x' ∧
      Refines env { s with
        globals := now, phase := Function.update s.phase c (.leaving r) } x' := by
  have hnew : x.result c = none := (h.result c).trans hresult
  refine ⟨⟨now, Function.update x.result c (some r)⟩, ?_, ?_, ?_, ?_, ?_⟩
  · simp only [sequence, hnew, hload]
  · exact h.mutex.update (iff_of_true trivial hheld)
  · intro hnone
    rfl
  · exact (Function.forall_update_iff s.phase fun d p => Agrees env now now d p).mpr
      ⟨⟨rfl, hloader⟩, h.others hheld now now⟩
  · intro d
    by_cases hd : d = c
    · subst hd
      simp [Phase.result]
    · simp [hd, h.result d]

/-- The step at which a call fails. -/
theorem fail (h : Refines env s x) {op : Op} {e : Err} {now : Globals C}
    (hheld : (s.phase c).Held) (hresult : (s.phase c).result = none)
    (hload : loadPlugins env c x.globals = (.error e, now)) (hnone : now.plugins = none)
    (hclean : FailsFirst env s ⟨c, op⟩ → now = x.globals) :
    ∃ x', (sequence env).step x c = some x' ∧
      Refines env { s with
        globals := now, phase := Function.update s.phase c (.leaving (.error e)) } x' ∧
      (FailsFirst env s ⟨c, op⟩ → LeavesNothing env x c) := by
  obtain ⟨x', hstep, hrel⟩ := h.settle hheld hresult hload fun lp hlp => by
    rw [hnone] at hlp
    cases hlp
  refine ⟨x', hstep, hrel, fun hfirst _ => ?_⟩
  rw [hload]
  exact hclean hfirst

/-- A step is matched by the whole call or by nothing, and the call leaves nothing if
the step is allowed. -/
theorem step (h : Refines env s x) {op : Op} {s' : State C} (hmove : Moves env s c op s') :
    Refines env s' x ∨ ∃ x', (sequence env).step x c = some x' ∧ Refines env s' x' ∧
      (FailsFirst env s ⟨c, op⟩ → LeavesNothing env x c) := by
  have hagrees := h.agrees c
  cases hmove with
  | call hphase =>
    refine Or.inl (h.move (h.mutex.update ?_) h.free trivial (fun d _ => h.agrees d) ?_)
    · simp [hphase, Phase.Held]
    · simp [hphase, Phase.result]
  | lock hphase hnone =>
    have hmutex := h.mutex
    rw [hnone] at hmutex
    refine Or.inl (h.move (hmutex.acquire trivial) ?_ (h.free hnone) (fun d _ => h.agrees d) ?_)
    · intro hnone'
      cases hnone'
    · simp [hphase, Phase.result]
  | @found lp hphase hsome =>
    rw [hphase] at hagrees
    have hload : loadPlugins env c x.globals = (.ok lp, s.globals) := by
      rw [hagrees]
      exact loadPlugins_some env hsome
    obtain ⟨x', hstep, hrel⟩ := h.settle (by simp [hphase, Phase.Held])
      (by simp [hphase, Phase.result]) hload fun lp' hlp' => by
        rw [hsome] at hlp'
        rw [Option.some.inj hlp']
    refine Or.inr ⟨x', hstep, hrel, fun _ hfails => ?_⟩
    rw [hload, hagrees]
  | missing hphase hnone =>
    rw [hphase] at hagrees
    have hnone' : x.globals.plugins = none := by
      rw [hagrees]
      exact hnone
    refine Or.inl (h.stay (by simp [hphase, Phase.Held]) trivial ⟨hagrees, hnone'⟩ ?_)
    simp [hphase, Phase.result]
  | @createFailed e hphase hcreate =>
    rw [hphase] at hagrees
    obtain ⟨hsame, hnone⟩ := hagrees
    have hload : loadPlugins env c x.globals = (.error e, s.globals) := by
      rw [← hsame]
      simp only [loadPlugins, hnone, hcreate]
    exact Or.inr (h.fail (by simp [hphase, Phase.Held]) (by simp [hphase, Phase.result]) hload
      (by rw [← hsame, hnone]) fun _ => hsame.symm)
  | created hphase hcreate =>
    rw [hphase] at hagrees
    refine Or.inl (h.stay (by simp [hphase, Phase.Held]) trivial
      ⟨hagrees.1, hagrees.2, hcreate⟩ ?_)
    simp [hphase, Phase.result]
  | @initFailed lps e hphase hinit =>
    rw [hphase] at hagrees
    obtain ⟨hsame, hnone, hcreate⟩ := hagrees
    have hload : loadPlugins env c x.globals = (.error e, s.globals) := by
      rw [← hsame]
      simp only [loadPlugins, hnone, hcreate, hinit]
    exact Or.inr (h.fail (by simp [hphase, Phase.Held]) (by simp [hphase, Phase.result]) hload
      (by rw [← hsame, hnone]) fun _ => hsame.symm)
  | @initialized lps hphase hinit =>
    rw [hphase] at hagrees
    obtain ⟨hsame, hnone, hcreate⟩ := hagrees
    refine Or.inl (h.stay (by simp [hphase, Phase.Held]) trivial
      ⟨hnone, by rw [← hsame, hnone], hcreate, hinit, ?_⟩ ?_)
    · rw [inject, hsame]
    · simp [hphase, Phase.result]
  | @injectFailed registered p lps e hphase hregister =>
    rw [hphase] at hagrees
    obtain ⟨hnone, hnone', hcreate, hinit, hinject⟩ := hagrees
    have hall : inject env x.globals.registry (registered ++ p :: lps) =
        (some e, s.globals.registry) := by
      rw [inject_append env hinject, inject, hregister]
    have hnow : s.globals = ⟨x.globals.plugins, s.globals.registry⟩ := by
      rw [hnone, ← hnone']
    have hload : loadPlugins env c x.globals = (.error e, s.globals) := by
      rw [hnow]
      simp only [loadPlugins, hnone, hcreate, hinit, hall]
    refine Or.inr (h.fail (by simp [hphase, Phase.Held]) (by simp [hphase, Phase.result]) hload
      hnone' fun hfirst => ?_)
    -- Nothing was registered before the plugin that fails.
    have hnil : registered = [] := by
      simpa [FailsFirst, leftBehind, hphase, hregister, Except.isOk, Except.toBool] using hfirst
    subst hnil
    have hregistry : x.globals.registry = s.globals.registry := congrArg Prod.snd hinject
    rw [hnow, ← hregistry]
  | @injected registered p lps registry hphase hregister =>
    rw [hphase] at hagrees
    obtain ⟨hnone, hnone', hcreate, hinit, hinject⟩ := hagrees
    refine Or.inl (h.stay (by simp [hphase, Phase.Held]) trivial
      ⟨hnone, hnone', by simpa using hcreate, hinit, ?_⟩ ?_)
    · simp only [inject_append env hinject, inject, hregister]
    · simp [hphase, Phase.result]
  | @assign registered hphase =>
    rw [hphase] at hagrees
    obtain ⟨hnone, hnone', hcreate, hinit, hinject⟩ := hagrees
    rw [List.append_nil] at hcreate
    have hload : loadPlugins env c x.globals = (.ok c, ⟨some c, s.globals.registry⟩) := by
      simp only [loadPlugins, hnone, hcreate, hinit, hinject]
    obtain ⟨x', hstep, hrel⟩ := h.settle (by simp [hphase, Phase.Held])
      (by simp [hphase, Phase.result]) hload fun lp hlp => by
        rw [Option.some.inj hlp]
    refine Or.inr ⟨x', hstep, hrel, fun _ hfails => ?_⟩
    rw [hload] at hfails
    cases hfails
  | @unlock r hphase =>
    rw [hphase] at hagrees
    refine Or.inl (h.move (h.mutex.release ?_ ?_) (fun _ => hagrees.1) trivial
      (fun d _ => h.agrees d) ?_)
    · simp [hphase, Phase.Held]
    · simp [Phase.Held]
    · simp [hphase, Phase.result]

end Refines

variable (env)

/-- The calls in which only first plugins fail refine a sequence of calls that leave
nothing when they fail. -/
theorem simulates_leavesNothing :
    System.Simulates ((system env).restrict (FailsFirst env))
      ((sequence env).restrict (LeavesNothing env)) (Refines env) where
  init := refines_init env
  step := by
    intro as s a s' x _ hrel hstep
    obtain ⟨hfirst, hstep⟩ := System.restrict_step.mp hstep
    rcases hrel.step (moves_of_step hstep) with hsame | ⟨x', hx, hrel', hclean⟩
    · exact Or.inl hsame
    · exact Or.inr ⟨a.call, x', System.restrict_step.mpr ⟨hclean hfirst, hx⟩, hrel'⟩

/-- A call that can only return the loader `lp`. -/
def Phase.Served (lp : C) : Phase C → Prop
  | idle | locking | locked => True
  | leaving r | done r => r = .ok lp
  | _ => False

/-- The call is over. -/
def Phase.Over (p : Phase C) : Prop := ∃ r, p = .done r

variable {env}

omit [DecidableEq C] in
/-- The loader is that of the sequence at any time. -/
theorem Refines.plugins_eq {s : State C} {x : Calls C} (h : Refines env s x) :
    x.globals.plugins = s.globals.plugins := by
  cases hmu : s.muPlugins with
  | none => rw [h.free hmu]
  | some c =>
    have hheld : (s.phase c).Held := (h.mutex c).mpr hmu
    have hagrees := h.agrees c
    cases hphase : s.phase c with
    | idle | locking | done r =>
      rw [hphase] at hheld
      exact hheld.elim
    | locked =>
      rw [hphase] at hagrees
      have hsame : x.globals = s.globals := hagrees
      rw [hsame]
    | missing | created lps | leaving r =>
      rw [hphase] at hagrees
      rw [hagrees.1]
    | injecting registered lps =>
      rw [hphase] at hagrees
      obtain ⟨hnone, hnone', -⟩ := hagrees
      rw [hnone, hnone']

omit [DecidableEq C] in
/-- As soon as there is a loader, every call that is not over can only return it. -/
theorem Refines.served {s : State C} {x : Calls C} (h : Refines env s x) {lp : C}
    (hplugins : s.globals.plugins = some lp) {c : C} (hover : ¬(s.phase c).Over) :
    (s.phase c).Served lp := by
  have hagrees := h.agrees c
  have hnotNone : s.globals.plugins ≠ none := by simp [hplugins]
  cases hphase : s.phase c with
  | idle | locking | locked => trivial
  | missing | created lps =>
    rw [hphase] at hagrees
    have hnone := hagrees.2
    rw [hagrees.1] at hnone
    simp [hplugins] at hnone
  | injecting registered lps =>
    rw [hphase] at hagrees
    exact absurd hagrees.2.1 hnotNone
  | leaving r =>
    rw [hphase] at hagrees
    have hload : x.globals.plugins = some lp := by rw [hagrees.1, hplugins]
    exact hagrees.2 lp hload
  | done r => exact absurd ⟨r, hphase⟩ hover

/-- With a loader, a step of a call that can only return it is no stage, and leaves the
loader and such calls as they are. -/
theorem served_of_moves {s s' : State C} {lp c : C} {op : Op}
    (hplugins : s.globals.plugins = some lp) (hserved : (s.phase c).Served lp)
    (hmove : Moves env s c op s') :
    ¬op.IsStage ∧ s'.globals.plugins = some lp ∧
      ∃ q : Phase C, q.Served lp ∧ s'.phase = Function.update s.phase c q := by
  cases hmove with
  | call hphase => exact ⟨id, hplugins, .locking, trivial, rfl⟩
  | lock hphase hnone => exact ⟨id, hplugins, .locked, trivial, rfl⟩
  | @found lp' hphase hsome =>
    rw [hplugins] at hsome
    obtain rfl := Option.some.inj hsome
    exact ⟨id, hplugins, .leaving (.ok lp), rfl, rfl⟩
  | missing hphase hnone =>
    rw [hplugins] at hnone
    cases hnone
  | @unlock r hphase =>
    rw [hphase] at hserved
    exact ⟨id, hplugins, .done r, hserved, rfl⟩
  | createFailed hphase _ | created hphase _ | initFailed hphase _ | initialized hphase _
  | injectFailed hphase _ | injected hphase _ | assign hphase =>
    rw [hphase] at hserved
    exact hserved.elim

/-- A call that is over does not move. -/
theorem not_moves_of_over {s s' : State C} {c : C} {op : Op} (hover : (s.phase c).Over) :
    ¬Moves env s c op s' := by
  obtain ⟨r, hr⟩ := hover
  intro hmove
  cases hmove <;> simp_all

/-- After the first success no stage is run, and the calls that were not over can only
return the loader. -/
theorem served_of_steps {s s' : State C} {x : Calls C} {as : List (Action C)}
    (hrel : Refines env s x) {lp : C} (hplugins : s.globals.plugins = some lp)
    (h : (system env).Steps s as s') :
    s'.globals.plugins = some lp ∧ (∀ a ∈ as, ¬a.op.IsStage) ∧
      ∀ c, (s.phase c).Over ∧ s'.phase c = s.phase c ∨
        ¬(s.phase c).Over ∧ (s'.phase c).Served lp := by
  induction h with
  | refl =>
    refine ⟨hplugins, by simp, fun c => ?_⟩
    by_cases hover : (s.phase c).Over
    · exact Or.inl ⟨hover, rfl⟩
    · exact Or.inr ⟨hover, hrel.served hplugins hover⟩
  | @snoc as a t s' hprev hnext ih =>
    obtain ⟨hloader, hstages, hphases⟩ := ih
    have hmove := moves_of_step hnext
    rcases hphases a.call with ⟨hover, hsame⟩ | ⟨hover, hserved⟩
    · rw [← hsame] at hover
      exact absurd hmove (not_moves_of_over hover)
    · obtain ⟨hstage, hloader', q, hq, hphase⟩ := served_of_moves hloader hserved hmove
      refine ⟨hloader', ?_, ?_⟩
      · intro b hb
        rcases List.mem_append.mp hb with hold | hnew
        · exact hstages b hold
        · obtain rfl := List.mem_singleton.mp hnew
          exact hstage
      · rw [hphase]
        exact (Function.forall_update_iff t.phase fun d p => (s.phase d).Over ∧ p = s.phase d ∨
          ¬(s.phase d).Over ∧ p.Served lp).mpr ⟨Or.inr ⟨hover, hq⟩, fun d _ => hphases d⟩

variable (env)

/-- What is promised of the calls that load plugins in a state of a process. -/
structure Reliable (s : State C) : Prop where
  /-- A call that did not get the loader of another succeeded exactly if it would have
  succeeded as the first. -/
  retry : ∀ c r, s.phase c = .done r → (∀ lp, r = .ok lp → lp = c) →
    ((∃ lp, r = .ok lp) ↔ SucceedsFirst env c)
  /-- A call that succeeded returned the loader that is kept. -/
  same : ∀ c lp, s.phase c = .done (.ok lp) → s.globals.plugins = some lp
  /-- As soon as there is a loader, no stage is run and every call that is not over
  returns it. -/
  kept : ∀ lp, s.globals.plugins = some lp → ∀ as s', (system env).Steps s as s' →
    s'.globals.plugins = some lp ∧ (∀ a ∈ as, ¬a.op.IsStage) ∧
      ∀ c r, ¬(s.phase c).Over → s'.phase c = .done r → r = .ok lp

variable {env}

/-- The calls are as reliable as the sequence of whole calls that they refine. -/
theorem Refines.reliable {s : State C} {x : Calls C} (h : Refines env s x)
    (hforgetful : Forgetful env x) : Reliable env s := by
  have hresult : ∀ c r, s.phase c = .done r → x.result c = some r := by
    intro c r hdone
    rw [h.result c, hdone]
    rfl
  have hsame : ∀ c lp, s.phase c = .done (.ok lp) → s.globals.plugins = some lp := by
    intro c lp hdone
    rw [← h.plugins_eq]
    exact hforgetful.succeeded c lp (hresult c _ hdone)
  refine ⟨?_, hsame, ?_⟩
  · intro c r hdone hown
    cases r with
    | error e =>
      have hfailed := hforgetful.failed c e (hresult c _ hdone)
      exact iff_of_false (by simp) hfailed
    | ok lp =>
      obtain rfl := hown lp rfl
      have hloader : x.globals.plugins = some lp := hforgetful.succeeded lp lp (hresult lp _ hdone)
      exact iff_of_true ⟨lp, rfl⟩ (hforgetful.owner lp hloader)
  · intro lp hplugins as s' hsteps
    obtain ⟨hloader, hstages, hphases⟩ := served_of_steps h hplugins hsteps
    refine ⟨hloader, hstages, fun c r hover hdone => ?_⟩
    rcases hphases c with ⟨hover', -⟩ | ⟨-, hserved⟩
    · exact absurd hover' hover
    · rw [hdone] at hserved
      exact hserved

variable (env)

/-- In every interleaving of the calls of a process in which each plugin that fails is
the first of its loader, the calls are reliable. -/
theorem reliable_of_trace {as : List (Action C)} {s : State C}
    (hrun : ((system env).restrict (FailsFirst env)).Trace as s) : Reliable env s := by
  obtain ⟨cs, x, htrace, hrel⟩ := (simulates_leavesNothing env).trace hrun
  exact hrel.reliable (forgetful_of_trace htrace)

end Steps

/-- A process that calls `InitRepo("/a")` with some plugins and `OpenRepo("/b")` with the
datastore plugin only. -/
def twoRepos (lps : List Plugin) : Process Bool where
  attempt
    | false => ⟨.initRepo (str "/a"), fun _ => .ok lps, none⟩
    | true => ⟨.openRepo (str "/b"), fun _ => .ok [⟨str "flatfs", none⟩], none⟩
  registered := []
  alreadyRegistered name := .other (str "already have a datastore named " ++ name)

/-- The first call fails at once, and the second, which waits for the mutex, succeeds. -/
def healthyRetry : List (Action Bool) :=
  ([.call, .lock, .check, .newPluginLoader, .init, .inject] : List Op).map (⟨false, ·⟩) ++
    [⟨true, .call⟩, ⟨false, .unlock⟩] ++
    ([.lock, .check, .newPluginLoader, .init, .inject, .assign, .unlock] : List Op).map (⟨true, ·⟩)

/-- The promise after a call that fails at its first plugin and one that succeeds. -/
theorem reliable_of_trace_healthyRetry :
    Reliable (twoRepos [⟨str "broken", some .eof⟩])
      (((system (twoRepos [⟨str "broken", some .eof⟩])).restrict
        (FailsFirst (twoRepos [⟨str "broken", some .eof⟩]))).after healthyRetry) :=
  reliable_of_trace _ (System.trace_after (by decide +kernel))

/-- The first call registers the datastore plugin and fails at the next one; the second
finds the name registered. -/
def spoiledRetry : List (Action Bool) :=
  ([.call, .lock, .check, .newPluginLoader, .init, .inject, .inject, .unlock] : List Op).map
    (⟨false, ·⟩) ++
    ([.call, .lock, .check, .newPluginLoader, .init, .inject, .unlock] : List Op).map (⟨true, ·⟩)

/-- A call that would succeed as the first call of the process fails after another one has
failed at its second plugin. -/
theorem not_reliable_spoiledRetry :
    ¬∀ (as : List (Action Bool)) (s : State Bool),
      (system (twoRepos [⟨str "flatfs", none⟩, ⟨str "broken", some .eof⟩])).Trace as s →
        Reliable (twoRepos [⟨str "flatfs", none⟩, ⟨str "broken", some .eof⟩]) s := by
  intro h
  have hreliable := h spoiledRetry _ (System.trace_after (by decide +kernel))
  have hdone : ((system (twoRepos [⟨str "flatfs", none⟩, ⟨str "broken", some .eof⟩])).after
      spoiledRetry).phase true =
        .done (.error (.other (str "already have a datastore named flatfs"))) := by
    decide +kernel
  obtain ⟨lp, hlp⟩ := (hreliable.retry true _ hdone (by simp)).mpr ⟨true, by decide +kernel⟩
  cases hlp

end IpfsMobile.Core.Plugins
