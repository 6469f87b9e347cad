import IpfsMobile.Concurrent.Reorder
import IpfsMobile.Core.ConfigRuns
import IpfsMobile.Go.JsonCommute

/-!
# The order of single keys

Keys of a configuration that are apart can be set in every order: what `Get` returns in the end
is the same up to the order of members. This takes keys that spell the fields as the
configuration type does, since another spelling may replace what was set before.
-/

namespace IpfsMobile.Core

open Go Members Concurrent

variable {lib : EncodingJson} {T : ConfigType lib} {fault : Err}

namespace ConfigType

/-- `SetKey` is a step in the document of the configuration. -/
theorem setKey_eq_ok_iff {cfg cfg' : T.Cfg} {key : Text} {v : Json} :
    Config.setKey (T.library fault) cfg key (some v) = .ok cfg' ↔
      T.ty.Step lib (lib.generic (.obj (T.document cfg))) (splitKey key) (lib.generic v) cfg' := by
  constructor
  · intro h
    obtain ⟨map, hset, hread⟩ := setKey_cases h
    exact ⟨_, hset, hread⟩
  · rintro ⟨j, hset, hread⟩
    have hobj : ∃ map, j = .obj map := by
      obtain ⟨p, ps, hkey⟩ := List.exists_cons_of_ne_nil (List.splitOn_ne_nil '.' key)
      rw [splitKey, hkey] at hset
      obtain ⟨ms, w, -, -, rfl⟩ := Json.set_opened_cons hset
      exact ⟨_, rfl⟩
    obtain ⟨map, rfl⟩ := hobj
    rw [generic_obj] at hset
    have hset' : Json.set (.obj (mapValues lib.generic (T.document cfg))) (lib.generic v)
        (splitKey key) = some (.obj map) := hset
    have hsetKey : Config.setKey (T.library fault) cfg key (some v) = (do
        let map ← orFault fault ((Json.set (.obj (mapValues lib.generic (T.document cfg)))
          (lib.generic v) (splitKey key)).bind Json.members)
        (T.library fault).fromMap map) := by
      rw [Config.setKey, toMap_eq]
      rfl
    rw [hsetKey, hset']
    exact orFault_eq_ok.mpr hread

/-- Two keys that are apart are set in either order, with the same in the end. -/
theorem readsAlike_of_setKey {cfg a ab b ba : T.Cfg} {key key' : Text} {v v' : Json}
    (hexact : T.ty.Exact lib (splitKey key)) (hexact' : T.ty.Exact lib (splitKey key'))
    (hapart : Json.Apart lib.fold (splitKey key) (splitKey key'))
    (ha : Config.setKey (T.library fault) cfg key (some v) = .ok a)
    (hab : Config.setKey (T.library fault) a key' (some v') = .ok ab)
    (hb : Config.setKey (T.library fault) cfg key' (some v') = .ok b)
    (hba : Config.setKey (T.library fault) b key (some v) = .ok ba) :
    (Json.obj (T.document ab)).ReadsAlike (.obj (T.document ba)) := by
  have hsettled : lib.generic (.obj (T.document a)) = .obj (T.document a) := settled_of_setKey ha
  have hsettled' : lib.generic (.obj (T.document b)) = .obj (T.document b) := settled_of_setKey hb
  rw [setKey_eq_ok_iff] at ha hab hb hba
  rw [hsettled] at hab
  rw [hsettled'] at hba
  exact Ty.swaps (t := T.ty) T.wf _ _ _ _ _ a ab b ba
    ⟨Or.inr ⟨cfg, rfl⟩, ⟨generic_generic v, generic_generic v'⟩, ⟨hexact, hexact'⟩, hapart,
      ⟨ha, hab⟩, ⟨hb, hba⟩⟩

/-- Of two keys that are apart and can be set, the one can be set after the other. -/
theorem exists_setKey_of_setKey (hreadable : T.fields.Readable lib) {cfg a b : T.Cfg}
    {key key' : Text} {v v' : Json} (hexact : T.ty.Exact lib (splitKey key))
    (hexact' : T.ty.Exact lib (splitKey key'))
    (hapart : Json.Apart lib.fold (splitKey key) (splitKey key'))
    (ha : Config.setKey (T.library fault) cfg key (some v) = .ok a)
    (hb : Config.setKey (T.library fault) cfg key' (some v') = .ok b) :
    ∃ ab, Config.setKey (T.library fault) a key' (some v') = .ok ab := by
  have hsettled : lib.generic (.obj (T.document a)) = .obj (T.document a) := settled_of_setKey ha
  rw [setKey_eq_ok_iff] at ha hb
  simp only [setKey_eq_ok_iff, hsettled]
  exact Ty.joins (t := T.ty) T.wf hreadable _ _ _ _ _ a b
    ⟨Or.inr ⟨cfg, rfl⟩, ⟨generic_generic v, generic_generic v'⟩, ⟨hexact, hexact'⟩, hapart, ha, hb⟩

/-- A key is set alike in configurations that read alike. -/
theorem readsAlike_of_readsAlike {cfg cfg' a a' : T.Cfg} {key : Text} {v : Json}
    (hexact : T.ty.Exact lib (splitKey key))
    (halike : (Json.obj (T.document cfg)).ReadsAlike (.obj (T.document cfg')))
    (ha : Config.setKey (T.library fault) cfg key (some v) = .ok a)
    (ha' : Config.setKey (T.library fault) cfg' key (some v) = .ok a') :
    (Json.obj (T.document a)).ReadsAlike (.obj (T.document a')) := by
  rw [setKey_eq_ok_iff] at ha ha'
  exact Ty.respects (t := T.ty) T.wf _ _ _ _ a a' ⟨Or.inr ⟨cfg, rfl⟩, Or.inr ⟨cfg', rfl⟩⟩
    halike.generic (generic_generic v) hexact ha ha'

/-- `SetKey` on a configuration, of one key after the other. -/
def keySystem (T : ConfigType lib) (fault : Err) (cfg : T.Cfg) : System T.Cfg (Text × Json) where
  init := cfg
  step cfg m := (Config.setKey (T.library fault) cfg m.1 (some m.2)).toOption

theorem step_keySystem {init cfg cfg' : T.Cfg} {m : Text × Json} :
    (T.keySystem fault init).step cfg m = some cfg' ↔
      Config.setKey (T.library fault) cfg m.1 (some m.2) = .ok cfg' := by
  change (Config.setKey (T.library fault) cfg m.1 (some m.2)).toOption = some cfg' ↔ _
  cases Config.setKey (T.library fault) cfg m.1 (some m.2) <;> simp [Except.toOption]

/-- Keys that are apart and spelled as the type does are set in any order. -/
theorem reorders_keySystem (hreadable : T.fields.Readable lib) (init : T.Cfg) :
    Reorders (T.keySystem fault init) (fun m => T.ty.Exact lib (splitKey m.1))
      (fun m n => Json.Apart lib.fold (splitKey m.1) (splitKey n.1))
      (fun a b => (Json.obj (T.document a)).ReadsAlike (.obj (T.document b))) where
  refl a := Json.readsAlike_refl _
  trans h h' path := (h path).trans (h' path)
  symm h := h.symm
  join hexact hexact' hapart ha hb := by
    rw [step_keySystem] at ha hb
    obtain ⟨ab, hab⟩ := exists_setKey_of_setKey hreadable hexact hexact' hapart ha hb
    obtain ⟨ba, hba⟩ := exists_setKey_of_setKey hreadable hexact' hexact hapart.symm hb ha
    exact ⟨ab, ba, step_keySystem.mpr hab, step_keySystem.mpr hba,
      readsAlike_of_setKey hexact hexact' hapart ha hab hb hba⟩
  respects hexact halike ha ha' :=
    readsAlike_of_readsAlike hexact halike (step_keySystem.mp ha) (step_keySystem.mp ha')

/-- Any number of keys that are apart, each of which can be set by itself, can be set one after
the other in every order, with the same in the end. -/
theorem readsAlike_of_perm (hreadable : T.fields.Readable lib) {cfg : T.Cfg}
    {sets sets' : List (Text × Json)} (hperm : sets.Perm sets')
    (hexact : ∀ m ∈ sets, T.ty.Exact lib (splitKey m.1))
    (hapart : sets.Pairwise fun m n => Json.Apart lib.fold (splitKey m.1) (splitKey n.1))
    (hset : ∀ m ∈ sets, ∃ a, Config.setKey (T.library fault) cfg m.1 (some m.2) = .ok a) :
    ∃ a b x y, (T.keySystem fault cfg).replay cfg sets = some a ∧
      (T.keySystem fault cfg).replay cfg sets' = some b ∧
      Config.get (T.library fault) a = .ok (some x) ∧
      Config.get (T.library fault) b = .ok (some y) ∧ x.ReadsAlike y := by
  have henabled : ∀ m ∈ sets, ∃ a, (T.keySystem fault cfg).step cfg m = some a := by
    intro m hm
    obtain ⟨a, ha⟩ := hset m hm
    exact ⟨a, step_keySystem.mpr ha⟩
  obtain ⟨a, b, ha, hb, halike⟩ := (reorders_keySystem hreadable cfg).replay_perm hperm
    ⟨hexact, hapart, henabled⟩
  exact ⟨a, b, _, _, ha, hb, rfl, rfl, halike⟩

end ConfigType

/-- A gateway of the configuration. -/
def gateway (paths : Option (List Text)) (useSubdomains : Bool) (name : Text) :
    Text × Option (Option (List Text) × Bool × Unit) :=
  (name, some (paths, useSubdomains, ()))

/-- The configuration with a watermark of 90 and these gateways. -/
def gatewaysWith (gateways : List (Text × Option (Option (List Text) × Bool × Unit))) :
    nodeType.Cfg :=
  ((nodeConfig 90).1, (nodeConfig 90).2.1, (nodeConfig 90).2.2.1, (some gateways, ()), ())

/-- The keys of a gateway are spelled as its fields are. -/
theorem exact_gateway (name : Text) :
    nodeType.ty.Exact encodingJson
      [text "Gateway", text "PublicGateways", name, text "UseSubdomains"] := by
  have hfolds : ∀ name ∈ [text "Identity", text "Datastore", text "Bootstrap"],
      encodingJson.fold name ≠ encodingJson.fold (text "Gateway") := by
    decide
  have hidentity := hfolds (text "Identity") (by simp)
  have hdatastore := hfolds (text "Datastore") (by simp)
  have hbootstrap := hfolds (text "Bootstrap") (by simp)
  have hpaths : encodingJson.fold (text "Paths") ≠ encodingJson.fold (text "UseSubdomains") := by
    decide
  change nodeFields.Exact encodingJson (text "Gateway")
    [text "PublicGateways", name, text "UseSubdomains"]
  simp [nodeFields, Fields.Exact, Ty.Exact, hidentity, hdatastore, hbootstrap, hpaths]

/-- The watermark is spelled as its fields are. -/
theorem exact_watermark :
    nodeType.ty.Exact encodingJson [text "Datastore", text "StorageGCWatermark"] := by
  have hfolds : ∀ name ∈ [text "Identity", text "Bootstrap", text "Gateway"],
      encodingJson.fold name ≠ encodingJson.fold (text "Datastore") := by
    decide
  have hidentity := hfolds (text "Identity") (by simp)
  have hbootstrap := hfolds (text "Bootstrap") (by simp)
  have hgateway := hfolds (text "Gateway") (by simp)
  have hspec : encodingJson.fold (text "Spec") ≠ encodingJson.fold (text "StorageGCWatermark") := by
    decide
  change nodeFields.Exact encodingJson (text "Datastore") [text "StorageGCWatermark"]
  simp [nodeFields, Fields.Exact, Ty.Exact, hidentity, hbootstrap, hgateway, hspec]

/-- A watermark and two gateways. -/
def watermarkAndGateways : List (Text × Json) :=
  [(text "Datastore.StorageGCWatermark", .num 80),
    (text "Gateway.PublicGateways.one.UseSubdomains", .bool true),
    (text "Gateway.PublicGateways.two.UseSubdomains", .bool true)]

/-- They can be set in the opposite order. -/
theorem readsAlike_of_perm_gateways :
    ∃ a b x y,
      (nodeType.keySystem .eof (nodeConfig 90)).replay (nodeConfig 90) watermarkAndGateways =
        some a ∧
      (nodeType.keySystem .eof (nodeConfig 90)).replay (nodeConfig 90)
        watermarkAndGateways.reverse = some b ∧
      Config.get (nodeType.library .eof) a = .ok (some x) ∧
      Config.get (nodeType.library .eof) b = .ok (some y) ∧ x.ReadsAlike y := by
  have hwatermark : splitKey (text "Datastore.StorageGCWatermark") =
      [text "Datastore", text "StorageGCWatermark"] := by
    decide
  have hone : splitKey (text "Gateway.PublicGateways.one.UseSubdomains") =
      [text "Gateway", text "PublicGateways", text "one", text "UseSubdomains"] := by
    decide
  have htwo : splitKey (text "Gateway.PublicGateways.two.UseSubdomains") =
      [text "Gateway", text "PublicGateways", text "two", text "UseSubdomains"] := by
    decide
  have hsetWatermark : Config.setKey (nodeType.library .eof) (nodeConfig 90)
      (text "Datastore.StorageGCWatermark") (some (.num 80)) = .ok (nodeConfig 80) := rfl
  have hsetOne : Config.setKey (nodeType.library .eof) (nodeConfig 90)
      (text "Gateway.PublicGateways.one.UseSubdomains") (some (.bool true)) =
        .ok (gatewaysWith [gateway none true (text "one")]) := rfl
  have hsetTwo : Config.setKey (nodeType.library .eof) (nodeConfig 90)
      (text "Gateway.PublicGateways.two.UseSubdomains") (some (.bool true)) =
        .ok (gatewaysWith [gateway none true (text "two")]) := rfl
  refine ConfigType.readsAlike_of_perm ConfigStore.readable_nodeFields
    (List.reverse_perm watermarkAndGateways).symm (fun m hm => ?_) ?_ (fun m hm => ?_)
  · simp only [watermarkAndGateways, List.mem_cons, List.not_mem_nil, or_false] at hm
    rcases hm with rfl | rfl | rfl
    · exact hwatermark ▸ exact_watermark
    · exact hone ▸ exact_gateway _
    · exact htwo ▸ exact_gateway _
  · simp only [watermarkAndGateways, List.pairwise_cons, List.mem_cons, List.not_mem_nil, or_false,
      forall_eq_or_imp, forall_eq, hwatermark, hone, htwo]
    refine ⟨⟨?_, ?_⟩, ?_, by simp, .nil⟩
    · constructor <;> decide
    · constructor <;> decide
    · constructor <;> decide
  · simp only [watermarkAndGateways, List.mem_cons, List.not_mem_nil, or_false] at hm
    rcases hm with rfl | rfl | rfl
    · exact ⟨_, hsetWatermark⟩
    · exact ⟨_, hsetOne⟩
    · exact ⟨_, hsetTwo⟩

/-- In another spelling the map of gateways is made anew, so the order makes a difference. -/
example :
    Config.setKey (nodeType.library .eof) (gatewaysWith [gateway (some []) false (text "one")])
        (text "Gateway.publicgateways.one.UseSubdomains") (some (.bool true)) =
      .ok (gatewaysWith [gateway none true (text "one")]) ∧
    Config.setKey (nodeType.library .eof) (gatewaysWith [gateway none true (text "one")])
        (text "Gateway.PublicGateways.one.Paths") (some (.arr [])) =
      .ok (gatewaysWith [gateway (some []) true (text "one")]) :=
  ⟨rfl, rfl⟩

end IpfsMobile.Core
