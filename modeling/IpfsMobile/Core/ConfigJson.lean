import IpfsMobile.Core.Config
import IpfsMobile.Go.JsonRoundTrip

/-!
# Configurations in JSON

The library functions for a configuration type: `ToMap` and `FromMap` go through
`encoding/json`, and so do `Get` and `Set`, but `Get` writes the typed configuration and
`Set` reads a generic map first. The detour loses nothing but the numbers that change when
they are read into a float64 and written again, and the file shows that it loses those.
-/

namespace IpfsMobile.Core

open Go Members

/-- The configuration type of the library: a struct with fields that can be told apart. -/
structure ConfigType (lib : EncodingJson) where
  fields : Fields
  /-- The fields are of the kind that is meant for JSON. -/
  wf : fields.WF lib

/-- A text that is to be JSON, by the value it has. A text that `json.Unmarshal` rejects for
an `interface{}`, because of its syntax or of a number without a float64, has none. -/
abbrev JsonText := Option Json

/-- `strings.Split(key, ".")`. -/
def splitKey (key : Text) : List Text := key.splitOn '.'

/-- The result of a library function, or its error, whatever that is. -/
def orFault {α : Type} (fault : Err) : Option α → Except Err α
  | some a => .ok a
  | none => .error fault

namespace ConfigType

variable {lib : EncodingJson} (T : ConfigType lib)

/-- The struct type of the configurations. -/
def ty : Ty := .struct T.fields

/-- A configuration. -/
abbrev Cfg : Type := T.fields.Val

/-- The members of the document that is written for a configuration. -/
def document (cfg : T.Cfg) : List (Text × Json) := T.fields.encode cfg

/-- The functions of `encoding/json`, `ipfs_config` and `ipfs_common` for a configuration
type. A map that is null has no members. -/
def library (fault : Err) : ConfigLibrary T.Cfg (List (Text × Json)) Json Text JsonText where
  unmarshalMap
    | some .null => .ok []
    | some j => orFault fault (lib.generic j).members
    | none => .error fault
  unmarshalValue raw := orFault fault (raw.map lib.generic)
  marshalConfig cfg := .ok (some (.obj (T.document cfg)))
  marshalValue v := .ok (some v)
  toMap cfg := orFault fault (lib.generic (.obj (T.document cfg))).members
  fromMap map := orFault fault (T.fields.decode lib T.fields.zero map)
  mapSetKV map key v := orFault fault ((Json.set (.obj map) v (splitKey key)).bind Json.members)
  mapGetKV map key := orFault fault (Json.get (.obj map) (splitKey key))

variable {T}

@[simp] theorem members_generic (ms : List (Text × Json)) :
    (lib.generic (.obj ms)).members = some (mapValues lib.generic ms) := by
  rw [generic_obj]
  rfl

theorem orFault_eq_ok {α : Type} {fault : Err} {x : Option α} {a : α} :
    orFault fault x = .ok a ↔ x = some a := by
  cases x <;> simp [orFault]

/-- What `Set` reads from what `Get` has written. -/
theorem set_document (fault : Err) (cfg : T.Cfg) :
    Config.set (T.library fault) (some (.obj (T.document cfg))) =
      orFault fault
        (T.fields.decode lib T.fields.zero (mapValues lib.generic (T.document cfg))) := by
  have hmap : (T.library fault).unmarshalMap (some (.obj (T.document cfg))) =
      .ok (mapValues lib.generic (T.document cfg)) := by
    simp only [library, members_generic]
    rfl
  rw [Config.set, hmap]
  rfl

/-- Reading a configuration through a generic map gives it back exactly if every number in it
is unchanged by being read into a float64 and written again, provided that reading the document
as it is gives it back. -/
theorem decode_generic_iff {cfg : T.Cfg}
    (hdirect : T.fields.decode lib T.fields.zero (T.document cfg) = some cfg) :
    T.fields.decode lib T.fields.zero (mapValues lib.generic (T.document cfg)) = some cfg ↔
      ∀ q ∈ T.fields.numbers cfg, lib.float.round q = q := by
  have hsettled : (∀ q ∈ T.fields.numbers cfg, lib.float.round q = q) ↔
      mapValues lib.generic (T.document cfg) = T.document cfg := by
    rw [← Fields.settled_iff T.fields cfg, EncodingJson.Settled, generic_obj, Json.obj.injEq]
    rfl
  rw [hsettled]
  constructor
  · intro h
    exact (Fields.writeBack T.fields T.wf cfg cfg _ (reads_encode T.wf cfg) h).symm
  · intro h
    rw [h]
    exact hdirect

variable (T)

/-- `NewConfig` makes a configuration of what `Get` returns, and `Set` leaves it, exactly if
every number in the configuration is unchanged by being read into a float64 and written
again. -/
theorem newConfig_get_iff (fault : Err) (cfg : T.Cfg)
    (hdirect : T.fields.decode lib T.fields.zero (T.document cfg) = some cfg) :
    ((do let raw ← Config.get (T.library fault) cfg; Config.newConfig (T.library fault) raw) =
          .ok cfg ∧
      (do let raw ← Config.get (T.library fault) cfg; Config.set (T.library fault) raw) =
          .ok cfg) ↔
      ∀ q ∈ T.fields.numbers cfg, lib.float.round q = q := by
  have hset : (do let raw ← Config.get (T.library fault) cfg; Config.set (T.library fault) raw) =
      Config.set (T.library fault) (some (.obj (T.document cfg))) := rfl
  have hnew : (do let raw ← Config.get (T.library fault) cfg
                  Config.newConfig (T.library fault) raw) =
      Config.set (T.library fault) (some (.obj (T.document cfg))) := rfl
  rw [hset, hnew, and_self, set_document, orFault_eq_ok]
  exact decode_generic_iff hdirect

end ConfigType

/-- The case folding of ASCII letters, and of the two other letters that match one of them:
U+017F matches `s`, and U+212A matches `k`. -/
def foldChar (c : Char) : Char :=
  if c.val = 0x17f then 's' else if c.val = 0x212a then 'k' else c.toLower

/-- Names match up to the case of letters, and integers are rounded. -/
def encodingJson : EncodingJson := ⟨fun p => p.map foldChar, .nearest⟩

/-- Some of the fields of the configuration of a node. -/
def nodeFields : Fields :=
  .cons (text "Identity") false
    (.struct (.cons (text "PeerID") false (.scalar .string)
      (.cons (text "PrivKey") true (.scalar .string) .nil)))
  (.cons (text "Datastore") false
    (.struct (.cons (text "StorageGCWatermark") false (.scalar (.int 64))
      (.cons (text "Spec") false (.map .any) .nil)))
  (.cons (text "Bootstrap") false (.list (.scalar .string))
  (.cons (text "Gateway") false
    (.struct (.cons (text "PublicGateways") false
      (.map (.ptr (.struct (.cons (text "Paths") false (.list (.scalar .string))
        (.cons (text "UseSubdomains") false (.scalar .boolean) .nil))))) .nil)) .nil)))

/-- The configuration type with these fields. -/
def nodeType : ConfigType encodingJson where
  fields := nodeFields
  wf := by
    simp only [nodeFields, Fields.WF, Ty.WF, Fields.names]
    refine ⟨by decide, ⟨by decide, trivial, by decide, trivial, trivial⟩, by decide,
      ⟨by decide, trivial, by decide, trivial, trivial⟩, by decide, trivial, by decide,
      ⟨by decide, ⟨⟨by decide, trivial, by decide, trivial, trivial⟩, fun a h => ?_⟩, trivial⟩,
      trivial⟩
    cases h

/-- A configuration with a watermark, a free-form specification and no gateways. -/
def nodeConfig (watermark : BitVec 64) : nodeType.Cfg :=
  ((text "QmPeer", [], ()),
    (watermark, some [(text "type", .str (text "mount")),
      (text "mounts", .arr [.obj [(text "sync", .bool true)]])], ()),
    some [text "/dnsaddr/bootstrap"], (none, ()), ())

/-- What `Get` and `Set` do to a configuration with a watermark of 90. -/
theorem newConfig_get_iff_ninety :
    ((do let raw ← Config.get (nodeType.library .eof) (nodeConfig 90)
         Config.newConfig (nodeType.library .eof) raw) = .ok (nodeConfig 90) ∧
      (do let raw ← Config.get (nodeType.library .eof) (nodeConfig 90)
          Config.set (nodeType.library .eof) raw) = .ok (nodeConfig 90)) ↔
      ∀ q ∈ nodeFields.numbers (nodeConfig 90), encodingJson.float.round q = q :=
  nodeType.newConfig_get_iff .eof (nodeConfig 90) rfl

/-- With a watermark of `2 ^ 53 + 1`, `Set` reads `2 ^ 53` from what `Get` has written. -/
theorem not_set_get_watermark :
    ¬∀ cfg : nodeType.Cfg,
      nodeType.fields.decode encodingJson nodeType.fields.zero (nodeType.document cfg) = some cfg →
      (do let raw ← Config.get (nodeType.library .eof) cfg
          Config.newConfig (nodeType.library .eof) raw) = .ok cfg ∧
        (do let raw ← Config.get (nodeType.library .eof) cfg
            Config.set (nodeType.library .eof) raw) = .ok cfg := by
  intro h
  have hset := (h (nodeConfig 9007199254740993) rfl).2
  have hrounded : (do
      let raw ← Config.get (nodeType.library .eof) (nodeConfig 9007199254740993)
      Config.set (nodeType.library .eof) raw) = .ok (nodeConfig 9007199254740992) := rfl
  rw [hrounded] at hset
  have hcfg := Except.ok.inj hset
  have hwatermark : (9007199254740992 : BitVec 64) = 9007199254740993 :=
    congrArg (fun cfg : nodeType.Cfg => cfg.2.1.1) hcfg
  exact absurd hwatermark (by decide)

end IpfsMobile.Core
