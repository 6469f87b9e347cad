import IpfsMobile.Core.ConfigKeys
import IpfsMobile.Core.ConfigStore

/-!
# Configurations over whole runs

In a run of calls on a repository and its handles, every configuration that a call has made
is settled. So what `Get` returns for it makes a configuration that cannot be told from it. A
key that was set is read as its value for as long as only other keys are set.
-/

namespace IpfsMobile.Core

open Go Members Concurrent

variable {lib : EncodingJson} {T : ConfigType lib} {fault : Err}

namespace ConfigType

/-- Two configurations that every call on a handle treats alike. -/
structure Alike (T : ConfigType lib) (fault : Err) (cfg cfg' : T.Cfg) : Prop where
  get : Config.get (T.library fault) cfg' = Config.get (T.library fault) cfg
  getKey : ∀ key,
    Config.getKey (T.library fault) cfg' key = Config.getKey (T.library fault) cfg key
  setKey : ∀ key raw,
    Config.setKey (T.library fault) cfg' key raw = Config.setKey (T.library fault) cfg key raw

/-- What `Get` returns makes a configuration that is like the one it was written for. -/
def Restores (T : ConfigType lib) (fault : Err) (cfg : T.Cfg) : Prop :=
  ∃ raw cfg', Config.get (T.library fault) cfg = .ok raw ∧
    Config.newConfig (T.library fault) raw = .ok cfg' ∧ T.Alike fault cfg cfg'

/-- Configurations with the same document are alike. -/
theorem alike_of_document_eq {cfg cfg' : T.Cfg} (h : T.document cfg' = T.document cfg) :
    T.Alike fault cfg cfg' where
  get := by
    change Except.ok (some (Json.obj (T.document cfg'))) = .ok (some (.obj (T.document cfg)))
    rw [h]
  getKey key := by rw [Config.getKey, Config.getKey, toMap_eq, toMap_eq, h]
  setKey key raw := by rw [Config.setKey, Config.setKey, toMap_eq, toMap_eq, h]

/-- What `Set` reads is settled. -/
theorem settled_of_set {raw : JsonText} {cfg : T.Cfg}
    (h : Config.set (T.library fault) raw = .ok cfg) : lib.Settled (.obj (T.document cfg)) := by
  have hread : ∃ map, lib.Settled (.obj map) ∧
      T.fields.decode lib T.fields.zero map = some cfg := by
    cases raw with
    | none => cases h
    | some j =>
      by_cases hnull : j = .null
      · subst hnull
        exact ⟨[], settled_obj_iff.mpr (by simp), orFault_eq_ok.mp h⟩
      · have hset : (do
            let map ← orFault fault (lib.generic j).members
            (T.library fault).fromMap map) = Except.ok cfg := by
          rw [← h]
          cases j <;> first | exact absurd rfl hnull | rfl
        cases hmembers : (lib.generic j).members with
        | none =>
          rw [hmembers] at hset
          cases hset
        | some map =>
          rw [hmembers] at hset
          have hobj := Json.eq_obj_of_members hmembers
          exact ⟨map, hobj ▸ generic_generic j, orFault_eq_ok.mp hset⟩
  obtain ⟨map, hmap, hdecode⟩ := hread
  exact Fields.keepSettled T.fields T.fields.zero map cfg (Fields.settled_zero T.fields) hmap
    hdecode

/-- A settled configuration can be restored. -/
theorem restores_of_settled (hreadable : T.fields.Readable lib) {cfg : T.Cfg}
    (h : lib.Settled (.obj (T.document cfg))) : T.Restores fault cfg := by
  have hsame : mapValues lib.generic (T.document cfg) = T.document cfg := by
    have hobj : lib.generic (.obj (T.document cfg)) = .obj (T.document cfg) := h
    rwa [generic_obj, Json.obj.injEq] at hobj
  have hreads := reads_encode T.wf cfg
  obtain ⟨cfg', hcfg'⟩ := Option.isSome_iff_exists.mp
    (Fields.readBack T.fields T.wf hreadable cfg _ hreads h)
  have hdocument : T.document cfg' = T.document cfg := by
    rw [← hsame]
    exact Fields.writeBack T.fields T.wf cfg cfg' _ hreads hcfg'
  refine ⟨_, cfg', rfl, ?_, alike_of_document_eq hdocument⟩
  change Config.set (T.library fault) (some (.obj (T.document cfg))) = .ok cfg'
  rw [set_document, orFault_eq_ok]
  exact hcfg'

/-- A key that is set leaves what is read at another one, unless it replaces that in another
spelling. -/
theorem getKey_of_setKey {cfg cfg' : T.Cfg} {key key' : Text} {v w : Json}
    (h : Config.setKey (T.library fault) cfg key (some v) = .ok cfg')
    (hapart : Json.Apart lib.fold (splitKey key) (splitKey key'))
    (hrespells : ¬T.ty.Respells lib (splitKey key) (splitKey key'))
    (hget : Config.getKey (T.library fault) cfg key' = .ok (some w)) :
    Config.getKey (T.library fault) cfg' key' = .ok (some w) := by
  rw [getKey_eq_ok_iff] at hget ⊢
  obtain ⟨map, hset, hread⟩ := setKey_cases h
  have hfits : T.ty.Fits lib (lib.generic (.obj (T.document cfg))) := Or.inr ⟨cfg, rfl⟩
  have hstays := Ty.frames (t := T.ty) T.wf _ _ _ _ _ cfg' hfits hapart hset hread
  have hsettled : lib.generic (.obj (T.document cfg')) = .obj (T.document cfg') :=
    settled_of_setKey h
  rw [hsettled]
  rcases hstays with hsame | ⟨-, hrespelled⟩ | ⟨hnone, -⟩
  · exact hsame.trans hget
  · exact absurd hrespelled hrespells
  · rw [hget] at hnone
    cases hnone

end ConfigType

namespace ConfigStore

variable {init s s' : ConfigStore T.Cfg}

/-- A call makes at most one configuration. Unless `initConfig` did, it is settled. -/
theorem objects_of_exec {op : ConfigOp T.Cfg Text JsonText} {result : ConfigResult JsonText}
    (h : exec (T.library fault) s op = some (result, s')) :
    s'.objects = s.objects ∨ ∃ cfg, s'.objects = s.objects.alloc cfg ∧
      (op = .newDefaultConfig (.ok cfg) ∧ result = .done ∨
        lib.Settled (.obj (T.document cfg))) := by
  -- A change is made by `commit`, with the configuration that was made.
  have hcommit : ∀ (change : T.Cfg → ConfigStore T.Cfg) (x : Except Err T.Cfg),
      (∀ cfg, (change cfg).objects = s.objects.alloc cfg) → s.commit change x = (result, s') →
      s'.objects = s.objects ∨
        ∃ cfg, s'.objects = s.objects.alloc cfg ∧ x = .ok cfg ∧ result = .done := by
    intro change x hchange hx
    cases x with
    | error e =>
      obtain ⟨-, rfl⟩ := Prod.mk.inj hx
      exact Or.inl rfl
    | ok cfg =>
      obtain ⟨rfl, rfl⟩ := Prod.mk.inj hx
      exact Or.inr ⟨cfg, hchange cfg, rfl, rfl⟩
  cases op with
  | newDefaultConfig x =>
    rcases hcommit _ x (fun _ => rfl) (Option.some.inj h) with hsame | ⟨cfg, hnew, rfl, hdone⟩
    · exact Or.inl hsame
    · exact Or.inr ⟨cfg, hnew, Or.inl ⟨rfl, hdone⟩⟩
  | newConfig raw_json =>
    rcases hcommit _ _ (fun _ => rfl) (Option.some.inj h) with hsame | ⟨cfg, hnew, hset, -⟩
    · exact Or.inl hsame
    · exact Or.inr ⟨cfg, hnew, Or.inr (ConfigType.settled_of_set hset)⟩
  | getConfig answer =>
    cases answer <;> obtain ⟨-, rfl⟩ := Prod.mk.inj (Option.some.inj h) <;> exact Or.inl rfl
  | setConfig c answer =>
    simp only [exec] at h
    split at h
    · cases answer <;> obtain ⟨-, rfl⟩ := Prod.mk.inj (Option.some.inj h) <;> exact Or.inl rfl
    · cases h
  | set c raw_json =>
    simp only [exec] at h
    split at h
    · rcases hcommit _ _ (fun _ => rfl) (Option.some.inj h) with hsame | ⟨cfg, hnew, hset, -⟩
      · exact Or.inl hsame
      · exact Or.inr ⟨cfg, hnew, Or.inr (ConfigType.settled_of_set hset)⟩
    · cases h
  | setKey c key raw_value =>
    obtain ⟨old, -, hx⟩ := Option.bind_eq_some_iff.mp h
    rcases hcommit _ _ (fun _ => rfl) (Option.some.inj hx) with hsame | ⟨cfg, hnew, hset, -⟩
    · exact Or.inl hsame
    · cases raw_value with
      | none => cases hset
      | some v => exact Or.inr ⟨cfg, hnew, Or.inr (ConfigType.settled_of_setKey hset)⟩
  | get c | getKey c key =>
    obtain ⟨old, -, hx⟩ := Option.bind_eq_some_iff.mp h
    obtain ⟨-, rfl⟩ := Prod.mk.inj (Option.some.inj hx)
    exact Or.inl rfl

variable {calls : List (ConfigOp T.Cfg Text JsonText × ConfigResult JsonText)}

/-- Every configuration in memory was there at first, or `initConfig` has made it, or it is
settled. -/
theorem objects_of_steps (h : (system (T.library fault) init).Steps s calls s') {r : Ref}
    {cfg : T.Cfg} (hr : s'.objects.read r = some cfg) :
    s.objects.read r = some cfg ∨ (.newDefaultConfig (.ok cfg), .done) ∈ calls ∨
      lib.Settled (.obj (T.document cfg)) := by
  induction h with
  | refl => exact Or.inl hr
  | @snoc calls a t s' hprev hnext ih =>
    have hbefore : t.objects.read r = some cfg → s.objects.read r = some cfg ∨
        (.newDefaultConfig (.ok cfg), .done) ∈ calls ++ [a] ∨
          lib.Settled (.obj (T.document cfg)) := fun hread =>
      (ih hread).imp_right fun hmade => hmade.imp_left (List.mem_append_left _)
    rcases objects_of_exec (exec_of_step hnext) with hsame | ⟨cfg', hnew, hmade⟩
    · rw [hsame] at hr
      exact hbefore hr
    · rw [hnew] at hr
      rcases Heap.read_alloc_cases hr with hold | rfl
      · exact hbefore hold
      · refine Or.inr (hmade.imp_left ?_)
        rintro ⟨hop, hdone⟩
        obtain ⟨op, result⟩ := a
        subst hop hdone
        simp

/-- In every run, what a handle shows can be restored from what `Get` returns for it, unless
it was there at first or `initConfig` has made it. -/
theorem restores_of_steps (hreadable : T.fields.Readable lib)
    (h : (system (T.library fault) init).Steps s calls s') {c : ℕ} {cfg : T.Cfg}
    (hc : s'.shows c = some cfg) :
    (∃ r, s.objects.read r = some cfg) ∨ (.newDefaultConfig (.ok cfg), .done) ∈ calls ∨
      T.Restores fault cfg := by
  obtain ⟨r, -, hr⟩ := Option.bind_eq_some_iff.mp hc
  rcases objects_of_steps h hr with hold | hdefault | hsettled
  · exact Or.inl ⟨r, hold⟩
  · exact Or.inr (Or.inl hdefault)
  · exact Or.inr (Or.inr (ConfigType.restores_of_settled hreadable hsettled))

/-- The fields of the configuration of a node read what they have written. -/
theorem readable_nodeFields : nodeFields.Readable encodingJson := by
  simp only [nodeFields, Fields.Readable, Ty.Readable]
  exact ⟨⟨Scalar.readable_string, Scalar.readable_string, trivial⟩,
    ⟨Scalar.readable_int 64, trivial, trivial⟩, Scalar.readable_string,
    ⟨⟨Scalar.readable_string, Scalar.readable_boolean, trivial⟩, trivial⟩, trivial⟩

/-- The configuration with a watermark of 80 can be restored. -/
theorem restores_of_steps_eighty : nodeType.Restores .eof (nodeConfig 80) := by
  have hrun : (system (nodeType.library .eof) nodeStore).Trace
      [(.setKey 0 (text "Datastore.StorageGCWatermark") (some (.num 80)), .done)]
      (nodeStore.repoint 0 (nodeConfig 80)) := System.steps_of_replay rfl
  have hshows : (nodeStore.repoint 0 (nodeConfig 80)).shows 0 = some (nodeConfig 80) := rfl
  rcases restores_of_steps readable_nodeFields hrun hshows with ⟨r, hr⟩ | hmade | hrestores
  · -- The repository has the watermark of 90.
    obtain hmem := List.mem_of_getElem? hr
    have hsame := congrArg (fun cfg : nodeType.Cfg => cfg.2.1.1) (List.mem_singleton.mp hmem)
    have hne : ¬(80 : BitVec 64) = 90 := by decide
    exact absurd hsame hne
  · simp at hmade
  · exact hrestores

/-- `GetKey` on a handle. -/
theorem exec_getKey {c : ℕ} {cfg : T.Cfg} (hc : s.shows c = some cfg) (key : Text) :
    exec (T.library fault) s (.getKey c key) =
      some (bytesResult (Config.getKey (T.library fault) cfg key), s) := by
  simp only [exec, hc]
  rfl

/-- What a handle shows after its configuration was changed. -/
theorem shows_repoint {c : ℕ} (hc : c < s.handles.length) (cfg : T.Cfg) :
    (s.repoint c cfg).shows c = some cfg := by
  have hlen : c < (s.repoint c cfg).handles.length := by
    simpa only [repoint, List.length_set] using hc
  rw [shows_eq hlen]
  simp only [repoint, List.getElem_set_self]
  exact Heap.read_fresh _ _

/-- What a successful `SetKey` does. -/
theorem setKey_of_exec {c : ℕ} {key : Text} {raw : JsonText}
    (h : exec (T.library fault) s (.setKey c key raw) = some (.done, s')) :
    ∃ cfg cfg', s.shows c = some cfg ∧ s'.shows c = some cfg' ∧ c < s'.handles.length ∧
      Config.setKey (T.library fault) cfg key raw = .ok cfg' := by
  obtain ⟨cfg, hcfg, hcommit⟩ := Option.bind_eq_some_iff.mp h
  have hc : c < s.handles.length := by
    obtain ⟨r, hr, -⟩ := Option.bind_eq_some_iff.mp hcfg
    exact (List.getElem?_eq_some_iff.mp hr).1
  cases hset : Config.setKey (T.library fault) cfg key raw with
  | error e =>
    rw [hset] at hcommit
    cases hcommit
  | ok cfg' =>
    rw [hset] at hcommit
    obtain ⟨-, rfl⟩ := Prod.mk.inj (Option.some.inj hcommit)
    refine ⟨cfg, cfg', hcfg, shows_repoint hc cfg', ?_, hset⟩
    simpa only [repoint, List.length_set] using hc

/-- The changes of a handle in a run are of single keys, apart from one of them, and none of them
replaces what is at this one in another spelling. -/
def OtherKeys (T : ConfigType lib) (c : ℕ) (key : Text)
    (calls : List (ConfigOp T.Cfg Text JsonText × ConfigResult JsonText)) : Prop :=
  ∀ op, (op, .done) ∈ calls → Updates c op → ∃ key' v, op = .setKey c key' (some v) ∧
    Json.Apart lib.fold (splitKey key') (splitKey key) ∧
      ¬T.ty.Respells lib (splitKey key') (splitKey key)

/-- What is read at a key stays as long as other keys are set. -/
theorem getKey_of_steps (h : (system (T.library fault) init).Steps s calls s') {c : ℕ}
    {key : Text} {w : Json} (hother : OtherKeys T c key calls) (hlen : c < s.handles.length)
    {cfg : T.Cfg} (hcfg : s.shows c = some cfg)
    (hget : Config.getKey (T.library fault) cfg key = .ok (some w)) :
    c < s'.handles.length ∧ ∃ cfg', s'.shows c = some cfg' ∧
      Config.getKey (T.library fault) cfg' key = .ok (some w) := by
  induction h with
  | refl => exact ⟨hlen, cfg, hcfg, hget⟩
  | @snoc calls a t s' hprev hnext ih =>
    obtain ⟨hlen', cfg', hcfg', hget'⟩ := ih fun op hop =>
      hother op (List.mem_append_left _ hop)
    have hexec := exec_of_step hnext
    obtain ⟨hlen'', hsame | ⟨hdone, hupdates⟩⟩ := (effect_of_exec hexec).shows hlen'
    · exact ⟨hlen'', cfg', hsame.trans hcfg', hget'⟩
    · obtain ⟨op, result⟩ := a
      obtain rfl : result = .done := hdone
      obtain ⟨key', v, rfl, hapart, hrespells⟩ := hother op (by simp) hupdates
      obtain ⟨old, new, hold, hnew, -, hset⟩ := setKey_of_exec hexec
      obtain rfl : cfg' = old := Option.some.inj (hcfg'.symm.trans hold)
      exact ⟨hlen'', new, hnew, ConfigType.getKey_of_setKey hset hapart hrespells hget'⟩

/-- A handle is a store of keys: what was set at a key that shows it is read there after any
run of calls on any handles and the repository, if this handle is changed at other keys only,
and none of these replaces it in another spelling. -/
theorem reads_of_steps {c : ℕ} {key : Text} {v : Json} {s₁ s₂ : ConfigStore T.Cfg}
    (hset : exec (T.library fault) s (.setKey c key (some v)) = some (.done, s₁))
    (hshows : T.ty.Observable lib (splitKey key) v)
    (h : (system (T.library fault) init).Steps s₁ calls s₂) (hother : OtherKeys T c key calls) :
    ∃ w, exec (T.library fault) s₂ (.getKey c key) = some (.bytes (some w), s₂) ∧ w.Same v := by
  obtain ⟨cfg, cfg', -, hcfg', hlen, hsetKey⟩ := setKey_of_exec hset
  obtain ⟨map, hmap, hread⟩ := ConfigType.setKey_cases hsetKey
  have hfits : T.ty.Fits lib (lib.generic (.obj (T.document cfg))) := Or.inr ⟨cfg, rfl⟩
  have hsettled : lib.generic (.obj (T.document cfg')) = .obj (T.document cfg') :=
    ConfigType.settled_of_setKey hsetKey
  obtain ⟨w, hw, hsame⟩ := (Ty.shows (t := T.ty) T.wf _ v _ _ cfg' hfits hmap hread).mpr hshows
  have hget : Config.getKey (T.library fault) cfg' key = .ok (some w) := by
    rw [ConfigType.getKey_eq_ok_iff, hsettled]
    exact hw
  obtain ⟨-, cfg'', hcfg'', hget''⟩ := getKey_of_steps h hother hlen hcfg' hget
  refine ⟨w, ?_, hsame⟩
  rw [exec_getKey hcfg'', hget'']
  rfl

/-- Another handle is made and replaced, and the peer id is set. -/
def otherCalls : List (ConfigOp nodeType.Cfg Text JsonText × ConfigResult JsonText) :=
  [(.getConfig none, .done), (.set 1 (some (.obj [])), .done),
    (.setKey 0 (text "Identity.PeerID") (some (.str (text "QmOther"))), .done),
    (.setKey 0 (text "Datastore") (some (.num 80)), .failed .eof)]

/-- The watermark is read after the peer id was set. -/
theorem reads_of_steps_eighty : ∃ w,
    exec (nodeType.library .eof) ((system (nodeType.library .eof)
        (nodeStore.repoint 0 (nodeConfig 80))).after otherCalls)
      (.getKey 0 (text "Datastore.StorageGCWatermark")) =
        some (.bytes (some w), (system (nodeType.library .eof)
          (nodeStore.repoint 0 (nodeConfig 80))).after otherCalls) ∧ w.Same (.num 80) := by
  have hset : exec (nodeType.library .eof) nodeStore (.setKey 0
      (text "Datastore.StorageGCWatermark") (some (.num 80))) =
        some (.done, nodeStore.repoint 0 (nodeConfig 80)) := rfl
  have hshows : nodeType.ty.Observable encodingJson
      (splitKey (text "Datastore.StorageGCWatermark")) (.num 80) := by
    change nodeFields.Observable encodingJson (text "Datastore") [text "StorageGCWatermark"] _
    rw [nodeFields, Fields.Observable, if_neg (by decide), Fields.Observable, if_pos rfl,
      Ty.Observable, Fields.Observable, if_pos rfl, Ty.Observable]
    exact ⟨⟨⟨(80 : BitVec 64), rfl, rfl⟩, by simp⟩, by simp⟩
  have hfold : encodingJson.fold (text "Identity") ≠ encodingJson.fold (text "Datastore") := by
    decide
  refine reads_of_steps hset hshows (System.trace_after rfl) fun op hop hupdates => ?_
  simp only [otherCalls, List.mem_cons, Prod.mk.injEq, List.not_mem_nil, or_false] at hop
  rcases hop with ⟨rfl, -⟩ | ⟨rfl, -⟩ | ⟨rfl, -⟩ | ⟨-, hfailed⟩
  · exact absurd hupdates id
  · exact absurd hupdates (by decide : ¬(1 : ℕ) = 0)
  · refine ⟨_, _, rfl, ?_, fun hrespells => hfold hrespells.1⟩
    constructor <;> decide
  · cases hfailed

end ConfigStore

end IpfsMobile.Core
