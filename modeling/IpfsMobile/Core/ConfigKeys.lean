import IpfsMobile.Core.ConfigJson
import IpfsMobile.Go.JsonFrame

/-!
# Single keys of a configuration

`SetKey` sets a path in the generic map that a configuration is written as, and reads the
whole map into the configuration type again. `GetKey` reads the path in the generic map of
the new configuration. What is seen there, and what changes elsewhere, follows from what
setting a path does to a typed value.
-/

namespace IpfsMobile.Core

open Go Members

variable {lib : EncodingJson} {T : ConfigType lib} {fault : Err}

namespace ConfigType

/-- The generic map of a configuration. -/
theorem toMap_eq (cfg : T.Cfg) :
    (T.library fault).toMap cfg = .ok (mapValues lib.generic (T.document cfg)) := by
  simp only [library, members_generic]
  rfl

/-- A successful `SetKey` sets the path of the key in what was written for the configuration
and reads the result. -/
theorem setKey_cases {cfg cfg' : T.Cfg} {key : Text} {v : Json}
    (h : Config.setKey (T.library fault) cfg key (some v) = .ok cfg') :
    ∃ map, (lib.generic (.obj (T.document cfg))).opened.set (lib.generic v) (splitKey key) =
        some (.obj map) ∧
      T.fields.decode lib T.fields.zero map = some cfg' := by
  have hset : (do
      let map ← orFault fault ((Json.set (.obj (mapValues lib.generic (T.document cfg)))
        (lib.generic v) (splitKey key)).bind Json.members)
      (T.library fault).fromMap map) = Except.ok cfg' := by
    rw [← h, Config.setKey, toMap_eq]
    rfl
  cases hfound : (Json.set (.obj (mapValues lib.generic (T.document cfg)))
      (lib.generic v) (splitKey key)).bind Json.members with
  | none =>
    rw [hfound] at hset
    cases hset
  | some map =>
    rw [hfound] at hset
    obtain ⟨j, hj, hmembers⟩ := Option.bind_eq_some_iff.mp hfound
    obtain rfl := Json.eq_obj_of_members hmembers
    refine ⟨map, ?_, orFault_eq_ok.mp hset⟩
    rw [generic_obj]
    exact hj

/-- After a successful `SetKey` the document is settled. -/
theorem settled_of_setKey {cfg cfg' : T.Cfg} {key : Text} {v : Json}
    (h : Config.setKey (T.library fault) cfg key (some v) = .ok cfg') :
    lib.Settled (.obj (T.document cfg')) := by
  obtain ⟨map, hset, hread⟩ := setKey_cases h
  have hdocument : lib.Settled (lib.generic (.obj (T.document cfg))).opened := by
    rw [generic_obj]
    change lib.Settled (.obj (mapValues lib.generic (T.document cfg)))
    rw [← generic_obj]
    exact generic_generic _
  have hmap : lib.Settled (.obj map) := Json.mapNum_of_set hdocument (generic_generic v) hset
  exact Fields.keepSettled T.fields T.fields.zero map cfg' (Fields.settled_zero T.fields) hmap hread

/-- `GetKey` returns what is at the path of the key. -/
theorem getKey_eq_ok_iff {cfg : T.Cfg} {key : Text} {w : Json} :
    Config.getKey (T.library fault) cfg key = .ok (some w) ↔
      (lib.generic (.obj (T.document cfg))).get (splitKey key) = some w := by
  have hget : Config.getKey (T.library fault) cfg key = (do
      let val ← orFault fault ((lib.generic (.obj (T.document cfg))).get (splitKey key))
      return some val) := by
    rw [Config.getKey, toMap_eq, generic_obj]
    rfl
  rw [hget]
  cases (lib.generic (.obj (T.document cfg))).get (splitKey key) with
  | none => simp [orFault]
  | some u =>
    change Except.ok (some u) = Except.ok (some w) ↔ some u = some w
    rw [Except.ok.injEq]

variable (fault)

/-- After a successful `SetKey` the same key reads as the value exactly if the value is
observable at this path of the configuration type. -/
theorem getKey_setKey_iff {cfg cfg' : T.Cfg} {key : Text} {v : Json}
    (h : Config.setKey (T.library fault) cfg key (some v) = .ok cfg') :
    (∃ w, Config.getKey (T.library fault) cfg' key = .ok (some w) ∧ w.Same v) ↔
      T.ty.Observable lib (splitKey key) v := by
  obtain ⟨map, hset, hread⟩ := setKey_cases h
  have hsettled : lib.generic (.obj (T.document cfg')) = .obj (T.document cfg') :=
    settled_of_setKey h
  have hfits : T.ty.Fits lib (lib.generic (.obj (T.document cfg))) := Or.inr ⟨cfg, rfl⟩
  simp only [getKey_eq_ok_iff, hsettled]
  exact Ty.shows (t := T.ty) T.wf _ v _ _ cfg' hfits hset hread

end ConfigType

/-- A watermark of 80 is observable if it is there afterwards, and only then. -/
theorem getKey_setKey_iff_eighty :
    (∃ w, Config.getKey (nodeType.library .eof) (nodeConfig 80)
        (text "Datastore.StorageGCWatermark") = .ok (some w) ∧ w.Same (.num 80)) ↔
      nodeType.ty.Observable encodingJson (splitKey (text "Datastore.StorageGCWatermark"))
        (.num 80) := by
  have hset : Config.setKey (nodeType.library .eof) (nodeConfig 90)
      (text "Datastore.StorageGCWatermark") (some (.num 80)) = .ok (nodeConfig 80) := rfl
  exact ConfigType.getKey_setKey_iff .eof hset

/-- What is set under a name that no field has is dropped. -/
theorem not_getKey_setKey_unknown :
    ¬∀ (cfg cfg' : nodeType.Cfg) (key : Text) (v : Json),
      Config.setKey (nodeType.library .eof) cfg key (some v) = .ok cfg' →
        ∃ w, Config.getKey (nodeType.library .eof) cfg' key = .ok (some w) ∧ w.Same v := by
  intro h
  obtain ⟨w, hw, -⟩ := h (nodeConfig 90) (nodeConfig 90) (text "Unknown") (.bool true) rfl
  have hfails : Config.getKey (nodeType.library .eof) (nodeConfig 90) (text "Unknown") =
    .error .eof := rfl
  rw [hfails] at hw
  cases hw

namespace ConfigType

variable (fault)

end ConfigType

end IpfsMobile.Core
