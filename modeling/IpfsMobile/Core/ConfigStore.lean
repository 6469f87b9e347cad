import IpfsMobile.Concurrent.Transition
import IpfsMobile.Core.ConfigJson
import IpfsMobile.Go.Heap

/-!
# Handles on configurations

A handle from `Repo.GetConfig` and one that was given to `Repo.SetConfig` point to the
object that the repository uses. The operations of `Config` never write to an object:
they make a new one and change the pointer of the handle. So a handle and the
repository part ways with the first change, and no change is seen by anyone else.
-/

namespace IpfsMobile.Core

open Go Concurrent

/-- The configurations in memory, the pointer of each handle, and that of the repository. -/
structure ConfigStore (Cfg : Type) where
  objects : Heap Cfg
  handles : List Ref
  live : Ref
  /-- Every handle has a configuration. -/
  valid_handles : ∀ r ∈ handles, objects.Valid r
  /-- The repository has a configuration. -/
  valid_live : objects.Valid live

/-- A call on the repository or on a handle, known by its number. What the repository
answers, nil if it succeeds, and the configuration that `initConfig` makes come with it. -/
inductive ConfigOp (Cfg Key Doc : Type) where
  | newDefaultConfig (result : Except Err Cfg)
  | newConfig (raw_json : Doc)
  | getConfig (answer : Option Err)
  | setConfig (c : ℕ) (answer : Option Err)
  | set (c : ℕ) (raw_json : Doc)
  | setKey (c : ℕ) (key : Key) (raw_value : Doc)
  | get (c : ℕ)
  | getKey (c : ℕ) (key : Key)

/-- What a call returns besides a handle. -/
inductive ConfigResult (Doc : Type) where
  | done
  | bytes (data : Doc)
  | failed (e : Err)
  deriving DecidableEq, Repr

namespace ConfigStore

variable {Cfg Map Val Key Doc : Type}

/-- The configuration a handle shows. -/
def shows (s : ConfigStore Cfg) (c : ℕ) : Option Cfg := s.handles[c]?.bind s.objects.read

/-- The configuration the repository shows. -/
def shown (s : ConfigStore Cfg) : Cfg := s.objects.get s.live s.valid_live

/-- A new handle on a new configuration. -/
def addHandle (s : ConfigStore Cfg) (cfg : Cfg) : ConfigStore Cfg where
  objects := s.objects.alloc cfg
  handles := s.handles ++ [s.objects.fresh]
  live := s.live
  valid_handles := by
    intro r hr
    rcases List.mem_append.mp hr with hold | hnew
    · exact (s.valid_handles r hold).alloc cfg
    · obtain rfl := List.mem_singleton.mp hnew
      exact Heap.valid_fresh _ _
  valid_live := s.valid_live.alloc cfg

/-- A new handle on the configuration the repository uses. -/
def share (s : ConfigStore Cfg) : ConfigStore Cfg where
  objects := s.objects
  handles := s.handles ++ [s.live]
  live := s.live
  valid_handles := by
    intro r hr
    rcases List.mem_append.mp hr with hold | hnew
    · exact s.valid_handles r hold
    · obtain rfl := List.mem_singleton.mp hnew
      exact s.valid_live
  valid_live := s.valid_live

/-- The repository uses the configuration of a handle. -/
def install (s : ConfigStore Cfg) (r : Ref) (hr : r ∈ s.handles) : ConfigStore Cfg where
  objects := s.objects
  handles := s.handles
  live := r
  valid_handles := s.valid_handles
  valid_live := s.valid_handles r hr

/-- A handle gets a new configuration: `c.cfg = cfg`. -/
def repoint (s : ConfigStore Cfg) (c : ℕ) (cfg : Cfg) : ConfigStore Cfg where
  objects := s.objects.alloc cfg
  handles := s.handles.set c s.objects.fresh
  live := s.live
  valid_handles := by
    intro r hr
    rcases List.mem_or_eq_of_mem_set hr with hold | rfl
    · exact (s.valid_handles r hold).alloc cfg
    · exact Heap.valid_fresh _ _
  valid_live := s.valid_live.alloc cfg

/-- The result of a call that returns bytes. -/
def bytesResult : Except Err Doc → ConfigResult Doc
  | .ok data => .bytes data
  | .error e => .failed e

/-- Store the result of a change, or leave everything as it was. -/
def commit (s : ConfigStore Cfg) (change : Cfg → ConfigStore Cfg) :
    Except Err Cfg → ConfigResult Doc × ConfigStore Cfg
  | .ok cfg => (.done, change cfg)
  | .error e => (.failed e, s)

variable (lib : ConfigLibrary Cfg Map Val Key Doc)

/-- Perform a call. There is no call on a handle that does not exist. -/
def exec (s : ConfigStore Cfg) :
    ConfigOp Cfg Key Doc → Option (ConfigResult Doc × ConfigStore Cfg)
  | .newDefaultConfig result => some (s.commit s.addHandle result)
  | .newConfig raw_json => some (s.commit s.addHandle (Config.newConfig lib raw_json))
  | .getConfig (some e) => some (.failed e, s)
  | .getConfig none => some (.done, s.share)
  | .setConfig c answer =>
    if h : c < s.handles.length then
      match answer with
      | some e => some (.failed e, s)
      | none => some (.done, s.install s.handles[c] (List.getElem_mem h))
    else none
  | .set c raw_json =>
    if c < s.handles.length then some (s.commit (s.repoint c) (Config.set lib raw_json)) else none
  | .setKey c key raw_value => do
    let cfg ← s.shows c
    return s.commit (s.repoint c) (Config.setKey lib cfg key raw_value)
  | .get c => do
    let cfg ← s.shows c
    return (bytesResult (Config.get lib cfg), s)
  | .getKey c key => do
    let cfg ← s.shows c
    return (bytesResult (Config.getKey lib cfg key), s)

/-- The calls on a repository and its handles, each with what it returned. -/
def system [DecidableEq Doc] (init : ConfigStore Cfg) :
    System (ConfigStore Cfg) (ConfigOp Cfg Key Doc × ConfigResult Doc) where
  init := init
  step s a :=
    match exec lib s a.1 with
    | some (result, s') => if result = a.2 then some s' else none
    | none => none

/-- The calls that may change what a handle shows. -/
def Updates (c : ℕ) : ConfigOp Cfg Key Doc → Prop
  | .set c' _ => c' = c
  | .setKey c' _ _ => c' = c
  | _ => False

/-- What a call does to the configurations. -/
inductive Effect (s : ConfigStore Cfg) :
    ConfigOp Cfg Key Doc → ConfigResult Doc → ConfigStore Cfg → Prop
  | kept {op : ConfigOp Cfg Key Doc} {result : ConfigResult Doc} : result ≠ .done →
      Effect s op result s
  | added {op : ConfigOp Cfg Key Doc} (cfg : Cfg) : Effect s op .done (s.addHandle cfg)
  | shared {op : ConfigOp Cfg Key Doc} : Effect s op .done s.share
  | installed {c : ℕ} {r : Ref} (hr : r ∈ s.handles) :
      Effect s (.setConfig c none) .done (s.install r hr)
  | repointed {op : ConfigOp Cfg Key Doc} {c : ℕ} (cfg : Cfg) : Updates c op →
      Effect s op .done (s.repoint c cfg)

/-- A committed change has its effect, or the call failed and nothing changed. -/
theorem commit_cases {s s' : ConfigStore Cfg} {change : Cfg → ConfigStore Cfg}
    {x : Except Err Cfg} {result : ConfigResult Doc} (h : s.commit change x = (result, s')) :
    (∃ e, result = .failed e ∧ s' = s) ∨ ∃ cfg, result = .done ∧ s' = change cfg := by
  cases x with
  | error e =>
    obtain ⟨rfl, rfl⟩ := Prod.mk.inj h
    exact Or.inl ⟨e, rfl, rfl⟩
  | ok cfg =>
    obtain ⟨rfl, rfl⟩ := Prod.mk.inj h
    exact Or.inr ⟨cfg, rfl, rfl⟩

/-- A call that returns bytes or an error is not one that changes something. -/
theorem bytesResult_ne_done (x : Except Err Doc) : bytesResult x ≠ .done := by
  cases x <;> simp [bytesResult]

variable {lib}

/-- Every call has one of the effects. -/
theorem effect_of_exec {s s' : ConfigStore Cfg} {op : ConfigOp Cfg Key Doc}
    {result : ConfigResult Doc} (h : exec lib s op = some (result, s')) :
    Effect s op result s' := by
  cases op with
  | newDefaultConfig x =>
    rcases commit_cases (Option.some.inj h) with ⟨e, rfl, rfl⟩ | ⟨cfg, rfl, rfl⟩
    · exact .kept (by simp)
    · exact .added cfg
  | newConfig raw_json =>
    rcases commit_cases (Option.some.inj h) with ⟨e, rfl, rfl⟩ | ⟨cfg, rfl, rfl⟩
    · exact .kept (by simp)
    · exact .added cfg
  | getConfig answer =>
    cases answer with
    | some e =>
      obtain ⟨rfl, rfl⟩ := Prod.mk.inj (Option.some.inj h)
      exact .kept (by simp)
    | none =>
      obtain ⟨rfl, rfl⟩ := Prod.mk.inj (Option.some.inj h)
      exact .shared
  | setConfig c answer =>
    simp only [exec] at h
    split at h
    · cases answer with
      | some e =>
        obtain ⟨rfl, rfl⟩ := Prod.mk.inj (Option.some.inj h)
        exact .kept (by simp)
      | none =>
        obtain ⟨rfl, rfl⟩ := Prod.mk.inj (Option.some.inj h)
        exact .installed _
    · cases h
  | set c raw_json =>
    simp only [exec] at h
    split at h
    · rcases commit_cases (Option.some.inj h) with ⟨e, rfl, rfl⟩ | ⟨cfg, rfl, rfl⟩
      · exact .kept (by simp)
      · exact .repointed cfg rfl
    · cases h
  | setKey c key raw_value =>
    obtain ⟨cfg, -, hcommit⟩ := Option.bind_eq_some_iff.mp h
    rcases commit_cases (Option.some.inj hcommit) with ⟨e, rfl, rfl⟩ | ⟨cfg, rfl, rfl⟩
    · exact .kept (by simp)
    · exact .repointed cfg rfl
  | get c =>
    obtain ⟨cfg, -, hbytes⟩ := Option.bind_eq_some_iff.mp h
    obtain ⟨rfl, rfl⟩ := Prod.mk.inj (Option.some.inj hbytes)
    exact .kept (bytesResult_ne_done _)
  | getKey c key =>
    obtain ⟨cfg, -, hbytes⟩ := Option.bind_eq_some_iff.mp h
    obtain ⟨rfl, rfl⟩ := Prod.mk.inj (Option.some.inj hbytes)
    exact .kept (bytesResult_ne_done _)

/-- What a handle shows is behind a valid pointer. -/
theorem shows_eq {s : ConfigStore Cfg} {c : ℕ} (hc : c < s.handles.length) :
    s.shows c = s.objects.read s.handles[c] := by
  rw [shows, List.getElem?_eq_getElem hc]
  rfl

/-- The other calls leave what a handle shows. -/
theorem Effect.shows {s s' : ConfigStore Cfg} {op : ConfigOp Cfg Key Doc}
    {result : ConfigResult Doc} (h : Effect s op result s') {c : ℕ} (hc : c < s.handles.length) :
    c < s'.handles.length ∧ (s'.shows c = s.shows c ∨ result = .done ∧ Updates c op) := by
  have hvalid := s.valid_handles _ (List.getElem_mem hc)
  cases h with
  | kept _ => exact ⟨hc, Or.inl rfl⟩
  | added cfg =>
    have hlen : c < (s.addHandle cfg).handles.length := by
      simp only [addHandle, List.length_append]
      omega
    have hsame : (s.addHandle cfg).handles[c] = s.handles[c] := List.getElem_append_left hc
    refine ⟨hlen, Or.inl ?_⟩
    rw [shows_eq hlen, shows_eq hc, hsame]
    exact Heap.read_alloc hvalid cfg
  | shared =>
    have hlen : c < s.share.handles.length := by
      simp only [share, List.length_append]
      omega
    have hsame : s.share.handles[c] = s.handles[c] := List.getElem_append_left hc
    refine ⟨hlen, Or.inl ?_⟩
    rw [shows_eq hlen, shows_eq hc, hsame]
    rfl
  | installed hr => exact ⟨hc, Or.inl rfl⟩
  | @repointed _ c' cfg hupdates =>
    have hlen : c < (s.repoint c' cfg).handles.length := by
      simpa only [repoint, List.length_set] using hc
    refine ⟨hlen, ?_⟩
    by_cases heq : c' = c
    · subst heq
      exact Or.inr ⟨rfl, hupdates⟩
    · have hsame : (s.repoint c' cfg).handles[c] = s.handles[c] := List.getElem_set_ne heq _
      refine Or.inl ?_
      rw [shows_eq hlen, shows_eq hc, hsame]
      exact Heap.read_alloc hvalid cfg

/-- The other calls leave what the repository shows. -/
theorem Effect.shown {s s' : ConfigStore Cfg} {op : ConfigOp Cfg Key Doc}
    {result : ConfigResult Doc} (h : Effect s op result s') :
    s'.shown = s.shown ∨ result = .done ∧ ∃ c, op = .setConfig c none := by
  have halloc : ∀ cfg, (s.objects.alloc cfg).get s.live (s.valid_live.alloc cfg) = s.shown := by
    intro cfg
    have hread := Heap.read_alloc s.valid_live cfg
    rw [Heap.read_eq_get s.valid_live, Heap.read_eq_get (s.valid_live.alloc cfg)] at hread
    exact Option.some.inj hread
  cases h with
  | kept _ => exact Or.inl rfl
  | added cfg => exact Or.inl (halloc cfg)
  | shared => exact Or.inl rfl
  | @installed c r hr => exact Or.inr ⟨rfl, c, rfl⟩
  | repointed cfg hupdates => exact Or.inl (halloc cfg)

/-- A call that fails changes nothing at all. -/
theorem Effect.failed {s s' : ConfigStore Cfg} {op : ConfigOp Cfg Key Doc} {e : Err}
    (h : Effect s op (.failed e) s') : s' = s := by
  cases h
  rfl

/-- A step of the calls is a call with its result. -/
theorem exec_of_step [DecidableEq Doc] {init s s' : ConfigStore Cfg}
    {a : ConfigOp Cfg Key Doc × ConfigResult Doc}
    (h : (system lib init).step s a = some s') : exec lib s a.1 = some (a.2, s') := by
  simp only [system] at h
  split at h
  · rename_i result t hexec
    split at h
    · rename_i hresult
      rw [hexec, hresult, Option.some.inj h]
    · cases h
  · cases h

variable (lib)

/-- What a sequence of calls, with their results, has changed. -/
structure Isolated (s : ConfigStore Cfg) (calls : List (ConfigOp Cfg Key Doc × ConfigResult Doc))
    (s' : ConfigStore Cfg) : Prop where
  /-- A handle shows something else only after a successful change of that handle. -/
  handles : ∀ c < s.handles.length, s'.shows c ≠ s.shows c →
    ∃ op, (op, .done) ∈ calls ∧ Updates c op
  /-- The repository shows something else only after a successful `SetConfig`. -/
  repo : s'.shown ≠ s.shown → ∃ c, (.setConfig c none, .done) ∈ calls
  /-- A call that fails, at whatever stage, leaves every handle and the repository. -/
  failed : ∀ op e s'', exec lib s' op = some (.failed e, s'') → s'' = s'

variable {lib}

/-- A handle shows something else only after a successful change of that handle. -/
theorem exists_update_of_steps [DecidableEq Doc] {init s s' : ConfigStore Cfg}
    {calls : List (ConfigOp Cfg Key Doc × ConfigResult Doc)}
    (h : (system lib init).Steps s calls s') {c : ℕ} (hc : c < s.handles.length) :
    c < s'.handles.length ∧
      (s'.shows c = s.shows c ∨ ∃ op, (op, .done) ∈ calls ∧ Updates c op) := by
  induction h with
  | refl => exact ⟨hc, Or.inl rfl⟩
  | @snoc calls a t s' hprev hnext ih =>
    obtain ⟨hlen, hbefore⟩ := ih
    have heffect := effect_of_exec (exec_of_step hnext)
    obtain ⟨hlen', hlast⟩ := heffect.shows hlen
    refine ⟨hlen', ?_⟩
    rcases hbefore with hsame | ⟨op, hop, hupdates⟩
    · rcases hlast with hsame' | ⟨hdone, hupdates⟩
      · exact Or.inl (hsame'.trans hsame)
      · refine Or.inr ⟨a.1, ?_, hupdates⟩
        rw [← hdone]
        simp
    · exact Or.inr ⟨op, List.mem_append_left _ hop, hupdates⟩

/-- The repository shows something else only after a successful `SetConfig`. -/
theorem exists_setConfig_of_steps [DecidableEq Doc] {init s s' : ConfigStore Cfg}
    {calls : List (ConfigOp Cfg Key Doc × ConfigResult Doc)}
    (h : (system lib init).Steps s calls s') :
    s'.shown = s.shown ∨ ∃ c, (.setConfig c none, .done) ∈ calls := by
  induction h with
  | refl => exact Or.inl rfl
  | @snoc calls a t s' hprev hnext ih =>
    have heffect := effect_of_exec (exec_of_step hnext)
    rcases ih with hsame | ⟨c, hc⟩
    · rcases heffect.shown with hsame' | ⟨hdone, c, hop⟩
      · exact Or.inl (hsame'.trans hsame)
      · refine Or.inr ⟨c, ?_⟩
        rw [← hop, ← hdone]
        simp
    · exact Or.inr ⟨c, List.mem_append_left _ hc⟩

/-- Handles are isolated, in every sequence of calls on any number of handles that may
share their configurations with each other and with the repository. -/
theorem isolated_of_steps [DecidableEq Doc] {init s s' : ConfigStore Cfg}
    {calls : List (ConfigOp Cfg Key Doc × ConfigResult Doc)}
    (h : (system lib init).Steps s calls s') : Isolated lib s calls s' := by
  refine ⟨fun c hc hne => ?_, fun hne => ?_, fun op e s'' hexec => ?_⟩
  · exact (exists_update_of_steps h hc).2.resolve_left hne
  · exact (exists_setConfig_of_steps h).resolve_left hne
  · exact (effect_of_exec hexec).failed

/-- A repository with a watermark of 90, and a handle on its configuration. -/
def nodeStore : ConfigStore nodeType.Cfg where
  objects := ⟨[nodeConfig 90]⟩
  handles := [0]
  live := 0
  valid_handles := by
    intro r hr
    obtain rfl := List.mem_singleton.mp hr
    exact Nat.zero_lt_one
  valid_live := Nat.zero_lt_one

/-- Another handle on it. The first one is changed twice, with a failure between, and then
given to the repository. -/
def sharedCalls : List (ConfigOp nodeType.Cfg Text JsonText × ConfigResult JsonText) :=
  [(.getConfig none, .done),
    (.setKey 0 (text "Datastore.StorageGCWatermark") (some (.num 80)), .done),
    (.setKey 0 (text "Identity.PeerID") (some (.num 80)), .failed .eof),
    (.set 0 (some (.obj [])), .done), (.setConfig 0 none, .done)]

/-- Isolation where two handles and the repository share a configuration. -/
theorem isolated_of_steps_shared :
    Isolated (nodeType.library .eof) nodeStore sharedCalls
      ((system (nodeType.library .eof) nodeStore).after sharedCalls) :=
  isolated_of_steps (System.trace_after rfl)

end ConfigStore

end IpfsMobile.Core
