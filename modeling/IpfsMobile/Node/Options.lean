import IpfsMobile.Node.Chain

/-!
# The host and routing options of a node

`NewHostConfigOption` and `NewRoutingConfigOption` make a new option of an option and a
configuration. The result is an option again, so they stack. However high the stack, a node
comes out as from one configuration: the functions run in the order in which they were put on,
up to the first error, which is wrapped once, and the p2p options are handed on with the last
configuration first.
-/

namespace IpfsMobile.Node

open Go

/-- `fmt.Errorf` of a text that ends in `%w` or `%s`, with an error for it. -/
def errorf (text : String) (err : Err) : Err := .other (str text ++ err.error)

variable {Id Peerstore Opt Host Ctx Dstore Validator AddrInfo Routing Repo IpfsNode : Type}

/-- `ipfs_p2p.HostOption`: makes a host for a peer. -/
abbrev HostOption (Id Peerstore Opt Host : Type) :=
  Id → Peerstore → List Opt → Except Err Host

/-- `HostConfig`. No options and nil are the same. -/
structure HostConfig (Opt Host : Type) where
  configFunc : Option (HostConfigFunc Host) := none
  options : List Opt := []

/-- `NewHostConfigOption`. -/
def newHostConfigOption (hopt : HostOption Id Peerstore Opt Host) (cfg : HostConfig Opt Host) :
    HostOption Id Peerstore Opt Host := fun id ps options =>
  Fallible.applyTo (errorf "unable to apply host config: ")
    (hopt id ps (options ++ cfg.options)) cfg.configFunc

/-- `RoutingConfigFunc`: a change of a host and its routing in place. -/
abbrev RoutingConfigFunc (Host Routing : Type) := Fallible (Host × Routing) Err

/-- `ipfs_p2p.RoutingOption`: makes a routing for a host, which it may change. What it leaves of
the host when it fails is left out. -/
abbrev RoutingOption (Ctx Host Dstore Validator AddrInfo Routing : Type) :=
  Ctx → Host → Dstore → Validator → List AddrInfo → Except Err (Host × Routing)

/-- `RoutingConfig`. -/
structure RoutingConfig (Host Routing : Type) where
  configFunc : Option (RoutingConfigFunc Host Routing) := none

/-- `NewRoutingConfigOption`. -/
def newRoutingConfigOption (ro : RoutingOption Ctx Host Dstore Validator AddrInfo Routing)
    (rc : RoutingConfig Host Routing) :
    RoutingOption Ctx Host Dstore Validator AddrInfo Routing :=
  fun ctx host dstore validator bootstrapPeers =>
    Fallible.applyTo (errorf "failed to config routing: ")
      (ro ctx host dstore validator bootstrapPeers) rc.configFunc

/-- One configuration in the place of a stack, the one put on first at the head. -/
def HostConfig.flat (cfgs : List (HostConfig Opt Host)) : HostConfig Opt Host where
  configFunc := some (chainHostConfig (cfgs.map HostConfig.configFunc))
  options := cfgs.reverse.flatMap HostConfig.options

/-- One configuration in the place of a stack, the one put on first at the head. -/
def RoutingConfig.flat (rcs : List (RoutingConfig Host Routing)) : RoutingConfig Host Routing where
  configFunc := some (Fallible.chain (rcs.map RoutingConfig.configFunc))

/-- A function that fails, however many configurations are put on after it. -/
example :
    [⟨some fun _ => (0, some .eof), [1]⟩, ⟨none, [2, 3]⟩, ⟨some fun n => (n + 1, none), []⟩].foldl
      newHostConfigOption (fun _ _ options => .ok options.length) () () [] =
        (.error (errorf "unable to apply host config: " .eof) : Except Err ℕ) := rfl

section NewNode

variable (Id Peerstore Opt Host Ctx Dstore Validator AddrInfo Routing Repo : Type)

/-- `IpfsConfig`. -/
structure IpfsConfig where
  online : Bool
  hostConfig : Option (HostConfig Opt Host)
  hostOption : Option (HostOption Id Peerstore Opt Host)
  routingConfig : Option (RoutingConfig Host Routing)
  routingOption : Option (RoutingOption Ctx Host Dstore Validator AddrInfo Routing)
  repoMobile : Option Repo
  extraOpts : Option (List (Str × Bool))

/-- An `IpfsConfig` in which nothing is nil. -/
structure FilledConfig where
  online : Bool
  hostConfig : HostConfig Opt Host
  hostOption : HostOption Id Peerstore Opt Host
  routingConfig : RoutingConfig Host Routing
  routingOption : RoutingOption Ctx Host Dstore Validator AddrInfo Routing
  repoMobile : Repo
  extraOpts : List (Str × Bool)

/-- `ipfs_core.BuildCfg`. -/
structure BuildCfg where
  online : Bool
  permanent : Bool := false
  disableEncryptedConnections : Bool := false
  repo : Repo
  host : HostOption Id Peerstore Opt Host
  routing : RoutingOption Ctx Host Dstore Validator AddrInfo Routing
  extraOpts : List (Str × Bool)

end NewNode

/-- `IpfsMobile`, with what its command context has of it. -/
structure IpfsMobileNode (Repo IpfsNode : Type) where
  ipfsNode : IpfsNode
  repo : Repo
  configRoot : Str
  constructNode : Except Err IpfsNode

/-- The defaults that `ipfs_p2p` has, `ipfs_core.NewNode` and the path of a repo. -/
structure Ipfs (Id Peerstore Opt Host Ctx Dstore Validator AddrInfo Routing Repo IpfsNode : Type)
    where
  dhtOption : RoutingOption Ctx Host Dstore Validator AddrInfo Routing
  defaultHostOption : HostOption Id Peerstore Opt Host
  newNode : Ctx → BuildCfg Id Peerstore Opt Host Ctx Dstore Validator AddrInfo Routing Repo →
    Except Err IpfsNode
  path : Repo → Str

variable (ipfs : Ipfs Id Peerstore Opt Host Ctx Dstore Validator AddrInfo Routing Repo IpfsNode)

/-- `fillDefault`. -/
def IpfsConfig.fillDefault
    (c : IpfsConfig Id Peerstore Opt Host Ctx Dstore Validator AddrInfo Routing Repo) :
    Except Err (FilledConfig Id Peerstore Opt Host Ctx Dstore Validator AddrInfo Routing Repo) :=
  match c.repoMobile with
  | none => .error (.other (str "repo cannot be nil"))
  | some repo => .ok
    { online := c.online
      extraOpts := c.extraOpts.getD []
      routingOption := c.routingOption.getD ipfs.dhtOption
      routingConfig := c.routingConfig.getD {}
      hostOption := c.hostOption.getD ipfs.defaultHostOption
      hostConfig := c.hostConfig.getD {}
      repoMobile := repo }

/-- `NewNode`. -/
def newNode (ctx : Ctx)
    (cfg : IpfsConfig Id Peerstore Opt Host Ctx Dstore Validator AddrInfo Routing Repo) :
    Except Err (IpfsMobileNode Repo IpfsNode) :=
  match cfg.fillDefault ipfs with
  | .error e => .error (errorf "invalid configuration: " e)
  | .ok cfg =>
    let buildcfg : BuildCfg Id Peerstore Opt Host Ctx Dstore Validator AddrInfo Routing Repo :=
      { online := cfg.online
        repo := cfg.repoMobile
        host := newHostConfigOption cfg.hostOption cfg.hostConfig
        routing := newRoutingConfigOption cfg.routingOption cfg.routingConfig
        extraOpts := cfg.extraOpts }
    match ipfs.newNode ctx buildcfg with
    | .error e => .error (errorf "failed to init ipfs node: " e)
    | .ok inode => .ok
      { ipfsNode := inode
        repo := cfg.repoMobile
        configRoot := ipfs.path cfg.repoMobile
        constructNode := .ok inode }

end IpfsMobile.Node
