import IpfsMobile.Core.ConfigOrder

/-!
# Setting a key again

What was set at a key before makes no difference to the next `SetKey` of it, in runs of calls
on a repository and its handles. Setting a key to what is read there does what setting the
configuration to what `Get` returns does: it changes nothing exactly if every number in the
configuration is unchanged by being read into a float64 and written again.
-/

namespace IpfsMobile.Core

open Go Members Concurrent

variable {lib : EncodingJson} {T : ConfigType lib} {fault : Err}

namespace ConfigType

theorem Alike.trans {a b c : T.Cfg} (h : T.Alike fault a b) (h' : T.Alike fault b c) :
    T.Alike fault a c where
  get := h'.get.trans h.get
  getKey key := (h'.getKey key).trans (h.getKey key)
  setKey key raw := (h'.setKey key raw).trans (h.setKey key raw)

/-- The next `SetKey` of a key does the same to two configurations. -/
structure SetsAlike (T : ConfigType lib) (fault : Err) (key : Text) (cfg cfg' : T.Cfg) : Prop where
  taken : ∀ v, (∃ a, Config.setKey (T.library fault) cfg' key (some v) = .ok a) ↔
    ∃ a, Config.setKey (T.library fault) cfg key (some v) = .ok a
  alike : ∀ v a a', Config.setKey (T.library fault) cfg key (some v) = .ok a →
    Config.setKey (T.library fault) cfg' key (some v) = .ok a' → T.Alike fault a a'

theorem SetsAlike.refl (key : Text) (cfg : T.Cfg) : T.SetsAlike fault key cfg cfg where
  taken _ := Iff.rfl
  alike v a a' ha ha' := by
    obtain rfl := Except.ok.inj (ha.symm.trans ha')
    exact alike_of_document_eq rfl

theorem SetsAlike.trans {key : Text} {a b c : T.Cfg} (h : T.SetsAlike fault key a b)
    (h' : T.SetsAlike fault key b c) : T.SetsAlike fault key a c where
  taken v := (h'.taken v).trans (h.taken v)
  alike v x z hx hz := by
    obtain ⟨y, hy⟩ := (h.taken v).mpr ⟨x, hx⟩
    exact (h.alike v x y hx hy).trans (h'.alike v y z hy hz)

/-- What was set at a key makes no difference to the next `SetKey` of it. -/
theorem setsAlike_of_setKey (hreadable : T.fields.Readable lib) {cfg cfg' : T.Cfg} {key : Text}
    (hexact : T.ty.Exact lib (splitKey key)) {u : Json}
    (h : Config.setKey (T.library fault) cfg key (some u) = .ok cfg') :
    T.SetsAlike fault key cfg cfg' := by
  have hsettled : lib.generic (.obj (T.document cfg')) = .obj (T.document cfg') :=
    settled_of_setKey h
  have hbegun : ∀ v, T.ty.Begun lib (lib.generic (.obj (T.document cfg))) (splitKey key)
      (lib.generic u) (lib.generic v) cfg' := fun v =>
    ⟨Or.inr ⟨cfg, rfl⟩, ⟨generic_generic u, generic_generic v⟩, hexact, setKey_eq_ok_iff.mp h⟩
  constructor
  · intro v
    simp only [setKey_eq_ok_iff, hsettled]
    exact Ty.retakes (t := T.ty) T.wf hreadable _ _ _ _ _ (hbegun v)
  · intro v a a' ha ha'
    rw [setKey_eq_ok_iff] at ha ha'
    rw [hsettled] at ha'
    have hsame : Json.obj (T.document a') = .obj (T.document a) :=
      Ty.overwrites (t := T.ty) T.wf _ _ _ _ _ a' a (hbegun v) ha' ha
    exact alike_of_document_eq (Json.obj.inj hsame)

/-- Setting a key to what is read there does what setting the configuration to what `Get` returns
does. -/
theorem setKey_getKey {cfg : T.Cfg} {key : Text} {w : Json}
    (hget : Config.getKey (T.library fault) cfg key = .ok (some w)) (cfg' : T.Cfg) :
    Config.setKey (T.library fault) cfg key (some w) = .ok cfg' ↔
      Config.set (T.library fault) (some (.obj (T.document cfg))) = .ok cfg' := by
  rw [getKey_eq_ok_iff] at hget
  have hsettled : lib.generic w = w := by
    have hmap := Json.get_mapNum lib.float.round (lib.generic (.obj (T.document cfg)))
      (splitKey key)
    change (lib.generic (lib.generic (.obj (T.document cfg)))).get (splitKey key) = _ at hmap
    rw [generic_generic, hget] at hmap
    exact (Option.some.inj hmap).symm
  have hopened : (lib.generic (.obj (T.document cfg))).opened =
      lib.generic (.obj (T.document cfg)) := by
    rw [generic_obj]
    rfl
  have hset : (lib.generic (.obj (T.document cfg))).opened.set (lib.generic w) (splitKey key) =
      some (.obj (mapValues lib.generic (T.document cfg))) := by
    rw [hopened, hsettled, Json.set_eq_self hget, generic_obj]
  rw [setKey_eq_ok_iff, set_document, orFault_eq_ok]
  constructor
  · rintro ⟨j, hj, hread⟩
    obtain rfl := Option.some.inj (hset.symm.trans hj)
    exact hread
  · intro hread
    exact ⟨_, hset, hread⟩

/-- Setting a key to what is read there leaves the configuration as it is exactly if every number
in the configuration, at any key, is unchanged by being read into a float64 and written again. -/
theorem setKey_getKey_alike_iff (hreadable : T.fields.Readable lib) {cfg : T.Cfg} {key : Text}
    {w : Json} (hget : Config.getKey (T.library fault) cfg key = .ok (some w)) :
    (∃ cfg', Config.setKey (T.library fault) cfg key (some w) = .ok cfg' ∧
        T.Alike fault cfg cfg') ↔
      ∀ q ∈ T.fields.numbers cfg, lib.float.round q = q := by
  rw [← Fields.settled_iff T.fields cfg]
  constructor
  · rintro ⟨cfg', hset, halike⟩
    have hsettled : lib.Settled (.obj (T.document cfg')) := settled_of_setKey hset
    have hdocument : some (Json.obj (T.document cfg')) = some (.obj (T.document cfg)) :=
      Except.ok.inj halike.get
    rwa [Option.some.inj hdocument] at hsettled
  · intro hsettled
    obtain ⟨raw, cfg', hraw, hnew, halike⟩ := restores_of_settled hreadable hsettled
    obtain rfl : some (.obj (T.document cfg)) = raw := Except.ok.inj hraw
    exact ⟨cfg', (setKey_getKey hget cfg').mpr hnew, halike⟩

end ConfigType

/-- With a watermark of 90, setting it to what is read there leaves it. -/
theorem setKey_getKey_alike_iff_ninety :
    (∃ cfg', Config.setKey (nodeType.library .eof) (nodeConfig 90)
        (text "Datastore.StorageGCWatermark") (some (.num 90)) = .ok cfg' ∧
        nodeType.Alike .eof (nodeConfig 90) cfg') ↔
      ∀ q ∈ nodeFields.numbers (nodeConfig 90), encodingJson.float.round q = q := by
  have hget : Config.getKey (nodeType.library .eof) (nodeConfig 90)
      (text "Datastore.StorageGCWatermark") = .ok (some (.num 90)) := rfl
  exact ConfigType.setKey_getKey_alike_iff ConfigStore.readable_nodeFields hget

/-- Setting the peer id to what is read there rounds the watermark. -/
example :
    Config.setKey (nodeType.library .eof) (nodeConfig 9007199254740993) (text "Identity.PeerID")
      (some (.str (text "QmPeer"))) = .ok (nodeConfig 9007199254740992) := rfl

namespace ConfigStore

variable {init s s' : ConfigStore T.Cfg}
  {calls : List (ConfigOp T.Cfg Text JsonText × ConfigResult JsonText)}

/-- The changes of a handle in a run are of one key. -/
def OneKey (c : ℕ) (key : Text)
    (calls : List (ConfigOp T.Cfg Text JsonText × ConfigResult JsonText)) : Prop :=
  ∀ op, (op, .done) ∈ calls → Updates c op → ∃ v, op = .setKey c key (some v)

/-- As long as a handle is changed at one key only, the next `SetKey` of it does the same. -/
theorem setsAlike_of_steps (hreadable : T.fields.Readable lib) {c : ℕ} {key : Text}
    (hexact : T.ty.Exact lib (splitKey key)) (h : (system (T.library fault) init).Steps s calls s')
    (hone : OneKey c key calls) (hlen : c < s.handles.length) {cfg : T.Cfg}
    (hcfg : s.shows c = some cfg) :
    c < s'.handles.length ∧ ∃ cfg', s'.shows c = some cfg' ∧ T.SetsAlike fault key cfg cfg' := by
  induction h with
  | refl => exact ⟨hlen, cfg, hcfg, .refl key cfg⟩
  | @snoc calls a t s' hprev hnext ih =>
    obtain ⟨hlen', cfg', hcfg', halike⟩ := ih fun op hop => hone op (List.mem_append_left _ hop)
    have hexec := exec_of_step hnext
    obtain ⟨hlen'', hsame | ⟨hdone, hupdates⟩⟩ := (effect_of_exec hexec).shows hlen'
    · exact ⟨hlen'', cfg', hsame.trans hcfg', halike⟩
    · obtain ⟨op, result⟩ := a
      obtain rfl : result = .done := hdone
      obtain ⟨v, rfl⟩ := hone op (by simp) hupdates
      obtain ⟨old, new, hold, hnew, -, hset⟩ := setKey_of_exec hexec
      obtain rfl : cfg' = old := Option.some.inj (hcfg'.symm.trans hold)
      exact ⟨hlen'', new, hnew, halike.trans (ConfigType.setsAlike_of_setKey hreadable hexact hset)⟩

/-- A call that returns its result is a step. -/
theorem step_of_exec {op : ConfigOp T.Cfg Text JsonText} {result : ConfigResult JsonText}
    (h : exec (T.library fault) s op = some (result, s')) :
    (system (T.library fault) init).step s (op, result) = some s' := by
  simp only [system, h, if_true]

/-- What `SetKey` on a handle does if the configuration takes the value. -/
theorem exec_setKey {c : ℕ} {cfg cfg' : T.Cfg} (hcfg : s.shows c = some cfg) {key : Text}
    {raw : JsonText} (h : Config.setKey (T.library fault) cfg key raw = .ok cfg') :
    exec (T.library fault) s (.setKey c key raw) = some (.done, s.repoint c cfg') := by
  simp only [exec, hcfg]
  change some (s.commit (s.repoint c) _) = _
  rw [h]
  rfl

/-- `SetKey` on a handle is done exactly if the configuration takes the value. -/
theorem exists_exec_setKey_iff {c : ℕ} {cfg : T.Cfg} (hcfg : s.shows c = some cfg) {key : Text}
    {v : Json} :
    (∃ t, exec (T.library fault) s (.setKey c key (some v)) = some (.done, t)) ↔
      ∃ a, Config.setKey (T.library fault) cfg key (some v) = .ok a := by
  constructor
  · rintro ⟨t, ht⟩
    obtain ⟨old, new, hold, -, -, hset⟩ := setKey_of_exec ht
    obtain rfl : cfg = old := Option.some.inj (hcfg.symm.trans hold)
    exact ⟨new, hset⟩
  · rintro ⟨a, ha⟩
    exact ⟨_, exec_setKey hcfg ha⟩

/-- In every run of calls on any handles and the repository in which a handle is changed at one
key only, what was set there makes no difference: `SetKey` of the key is done at the end exactly
if it would have been done at the start, and no call on the handle tells the two results apart. -/
theorem rewrites_of_steps (hreadable : T.fields.Readable lib) {c : ℕ} {key : Text}
    (hexact : T.ty.Exact lib (splitKey key)) (h : (system (T.library fault) init).Steps s calls s')
    (hone : OneKey c key calls) (hc : c < s.handles.length) (v : Json) :
    ((∃ t', exec (T.library fault) s' (.setKey c key (some v)) = some (.done, t')) ↔
        ∃ t, exec (T.library fault) s (.setKey c key (some v)) = some (.done, t)) ∧
      ∀ t t', exec (T.library fault) s (.setKey c key (some v)) = some (.done, t) →
        exec (T.library fault) s' (.setKey c key (some v)) = some (.done, t') →
          ∃ a a', t.shows c = some a ∧ t'.shows c = some a' ∧ T.Alike fault a a' := by
  have hshows : ∃ cfg, s.shows c = some cfg := by
    rw [shows_eq hc]
    exact ⟨_, Heap.read_eq_get (s.valid_handles _ (List.getElem_mem hc))⟩
  obtain ⟨cfg, hcfg⟩ := hshows
  obtain ⟨-, cfg', hcfg', halike⟩ := setsAlike_of_steps hreadable hexact h hone hc hcfg
  constructor
  · rw [exists_exec_setKey_iff hcfg, exists_exec_setKey_iff hcfg']
    exact halike.taken v
  · intro t t' ht ht'
    obtain ⟨old, a, hold, ha, -, hset⟩ := setKey_of_exec ht
    obtain ⟨old', a', hold', ha', -, hset'⟩ := setKey_of_exec ht'
    obtain rfl : cfg = old := Option.some.inj (hcfg.symm.trans hold)
    obtain rfl : cfg' = old' := Option.some.inj (hcfg'.symm.trans hold')
    exact ⟨a, a', ha, ha', halike.alike v a a' hset hset'⟩

/-- A key of a gateway. -/
def useSubdomains : Text := text "Gateway.PublicGateways.one.UseSubdomains"

/-- The gateway was made and changed, with another handle between. -/
def gatewayStore : ConfigStore nodeType.Cfg :=
  (nodeStore.repoint 0 (gatewaysWith [gateway none true (text "one")])).share.repoint 0
    (gatewaysWith [gateway none false (text "one")])

/-- After this the gateway is set as if it had not been there. -/
theorem rewrites_of_steps_gateway :
    ((∃ t', exec (nodeType.library .eof) gatewayStore
          (.setKey 0 useSubdomains (some (.bool true))) = some (.done, t')) ↔
        ∃ t, exec (nodeType.library .eof) nodeStore
          (.setKey 0 useSubdomains (some (.bool true))) = some (.done, t)) ∧
      ∀ t t', exec (nodeType.library .eof) nodeStore
          (.setKey 0 useSubdomains (some (.bool true))) = some (.done, t) →
        exec (nodeType.library .eof) gatewayStore
          (.setKey 0 useSubdomains (some (.bool true))) = some (.done, t') →
          ∃ a a', t.shows 0 = some a ∧ t'.shows 0 = some a' ∧ nodeType.Alike .eof a a' := by
  have hkey : splitKey useSubdomains =
      [text "Gateway", text "PublicGateways", text "one", text "UseSubdomains"] := by
    decide
  have hmade : Config.setKey (nodeType.library .eof) (nodeConfig 90) useSubdomains
      (some (.bool true)) = .ok (gatewaysWith [gateway none true (text "one")]) := rfl
  have hchanged : Config.setKey (nodeType.library .eof)
      (gatewaysWith [gateway none true (text "one")]) useSubdomains (some .null) =
        .ok (gatewaysWith [gateway none false (text "one")]) := rfl
  have hrun : (system (nodeType.library .eof) nodeStore).Steps nodeStore
      [(.setKey 0 useSubdomains (some (.bool true)), .done), (.getConfig none, .done),
        (.setKey 0 useSubdomains (some .null), .done)] gatewayStore := by
    change (system (nodeType.library .eof) nodeStore).Steps nodeStore (([] ++ [_]) ++ [_] ++ [_]) _
    exact .snoc (.snoc (.snoc .refl (step_of_exec (exec_setKey rfl hmade))) (step_of_exec rfl))
      (step_of_exec (exec_setKey rfl hchanged))
  have hexact : nodeType.ty.Exact encodingJson (splitKey useSubdomains) := by
    rw [hkey]
    exact exact_gateway _
  refine rewrites_of_steps readable_nodeFields hexact hrun (fun op hop hupdates => ?_)
    Nat.zero_lt_one (.bool true)
  simp only [List.mem_cons, Prod.mk.injEq, List.not_mem_nil, or_false] at hop
  rcases hop with ⟨rfl, -⟩ | ⟨rfl, -⟩ | ⟨rfl, -⟩
  · exact ⟨_, rfl⟩
  · exact absurd hupdates id
  · exact ⟨_, rfl⟩

end ConfigStore

end IpfsMobile.Core
