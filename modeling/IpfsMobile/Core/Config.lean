import IpfsMobile.Go.Call
import Mathlib.Tactic.Common

/-!
# Configurations

`Config` is a handle on a configuration. It is read and changed as a whole or by a
dotted key, and always as JSON: a change goes through a generic map and makes a new
configuration of it. The library functions that do the work are parameters here.
-/

namespace IpfsMobile.Core

open Go

/-- The library functions that `config.go` calls, for any types of configurations,
generic maps, generic values, keys and JSON texts. `MapSetKV` works on a map of its caller's own, so
that only its result counts. -/
structure ConfigLibrary (Cfg Map Val Key Doc : Type) where
  /-- `json.Unmarshal` into a `map[string]interface{}`. -/
  unmarshalMap : Doc → Except Err Map
  /-- `json.Unmarshal` into an `interface{}`. -/
  unmarshalValue : Doc → Except Err Val
  /-- `json.Marshal` of a configuration. -/
  marshalConfig : Cfg → Except Err Doc
  /-- `json.Marshal` of a generic value. -/
  marshalValue : Val → Except Err Doc
  /-- `ipfs_config.ToMap`. -/
  toMap : Cfg → Except Err Map
  /-- `ipfs_config.FromMap`. -/
  fromMap : Map → Except Err Cfg
  /-- `ipfs_common.MapSetKV`. -/
  mapSetKV : Map → Key → Val → Except Err Map
  /-- `ipfs_common.MapGetKV`. -/
  mapGetKV : Map → Key → Except Err Val

namespace Config

variable {Cfg Map Val Key Doc : Type} (lib : ConfigLibrary Cfg Map Val Key Doc)

/-- `Config.Set`: the new configuration of the handle, or the error that leaves it as it was. -/
def set (raw_json : Doc) : Except Err Cfg := do
  let mapcfg ← lib.unmarshalMap raw_json
  lib.fromMap mapcfg

/-- `NewConfig`: the configuration of the new handle. A handle that comes with an error
has none. -/
def newConfig (raw_json : Doc) : Except Err Cfg := set lib raw_json

/-- `Config.Get`. -/
def get (cfg : Cfg) : Except Err Doc := lib.marshalConfig cfg

/-- `Config.SetKey`: the new configuration of the handle, or the error that leaves it as
it was. -/
def setKey (cfg : Cfg) (key : Key) (raw_value : Doc) : Except Err Cfg := do
  let val ← lib.unmarshalValue raw_value
  let map ← lib.toMap cfg
  let map ← lib.mapSetKV map key val
  lib.fromMap map

/-- `Config.GetKey`. -/
def getKey (cfg : Cfg) (key : Key) : Except Err Doc := do
  let map ← lib.toMap cfg
  let val ← lib.mapGetKV map key
  lib.marshalValue val

end Config

end IpfsMobile.Core
