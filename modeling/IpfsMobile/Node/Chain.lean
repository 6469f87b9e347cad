import IpfsMobile.Go.Fallible
import Mathlib.Tactic.Common

/-!
# Chains of patches

`ChainIpfsConfigPatch` and `ChainHostConfig` make one function of a list of functions:
nil is skipped, and the first error ends the loop. A chain is a function of the same
type, so chains nest. A nested chain does the same as the flat list of what stands in
it, in order, whatever the functions do to the state before they fail.
-/

namespace IpfsMobile.Node

open Go

/-- `RepoConfigPatch`: a change of a configuration in place. -/
abbrev RepoConfigPatch (Cfg : Type) := Fallible Cfg Err

/-- `HostConfigFunc`: a change of a host in place. -/
abbrev HostConfigFunc (Host : Type) := Fallible Host Err

/-- `ChainIpfsConfigPatch`. -/
def chainIpfsConfigPatch {Cfg : Type} (patchs : List (Option (RepoConfigPatch Cfg))) :
    RepoConfigPatch Cfg :=
  Fallible.chain patchs

/-- `ChainHostConfig`. -/
def chainHostConfig {Host : Type} (cfgs : List (Option (HostConfigFunc Host))) :
    HostConfigFunc Host :=
  Fallible.chain cfgs

/-- An argument of a chain: nil, a function known by its name, or a chain of arguments. -/
inductive Item (ι : Type) where
  | nil
  | leaf (i : ι)
  | nested (items : List (Item ι))

section Items

variable {ι σ : Type} (chain : List (Option (Fallible σ Err)) → Fallible σ Err)
  (run : ι → Fallible σ Err)

mutual

/-- The function an argument stands for, with the given constructor of chains. -/
def Item.func : Item ι → Option (Fallible σ Err)
  | .nil => none
  | .leaf i => some (run i)
  | .nested items => some (chain (Item.funcs items))

/-- The functions of a list of arguments. -/
def Item.funcs : List (Item ι) → List (Option (Fallible σ Err))
  | [] => []
  | x :: items => x.func :: Item.funcs items

end

mutual

/-- The names in an argument, in order. -/
def Item.leaves : Item ι → List ι
  | .nil => []
  | .leaf i => [i]
  | .nested items => Item.leavesOf items

/-- The names in a list of arguments, in order. -/
def Item.leavesOf : List (Item ι) → List ι
  | [] => []
  | x :: items => x.leaves ++ Item.leavesOf items

end

mutual

/-- A chain of one argument runs the names in it. -/
theorem Item.chain_func (x : Item ι) :
    Fallible.chain [x.func Fallible.chain run] =
      Fallible.chain (x.leaves.map fun i => some (run i)) := by
  cases x with
  | nil => rfl
  | leaf i => rfl
  | nested items =>
    rw [Item.func, Item.leaves, ← Item.chain_funcs items, Fallible.chain_cons_some,
      Fallible.chain_nil, Fallible.andThen_skip]

/-- A chain of arguments runs the names in them. -/
theorem Item.chain_funcs (items : List (Item ι)) :
    Fallible.chain (Item.funcs Fallible.chain run items) =
      Fallible.chain ((Item.leavesOf items).map fun i => some (run i)) := by
  cases items with
  | nil => rfl
  | cons x items =>
    have hfront := Item.chain_func x
    have hrest := Item.chain_funcs items
    rw [Item.funcs, ← List.singleton_append, Fallible.chain_append, hfront, hrest,
      Item.leavesOf, List.map_append, Fallible.chain_append]

end

end Items

/-- A constructor of chains flattens: a nested chain does to the state what the flat list
of its names does, with the same error and the same functions called, and these are the
names in order up to and including the first that fails. -/
structure Flattens {ι σ : Type}
    (chain : List (Option (Fallible (σ × List ι) Err)) → Fallible (σ × List ι) Err)
    (run : ι → Fallible σ Err) (items : List (Item ι)) : Prop where
  /-- The nested chain is the flat chain. -/
  flat : chain (Item.funcs chain (Fallible.recorded run) items) =
    chain ((Item.leavesOf items).map fun i => some (Fallible.recorded run i))
  /-- It calls the functions up to and including the first that fails, and no other. -/
  upToFailure : ∀ s log, ∃ executed s' err,
    Fallible.RunsTo run (Item.leavesOf items) s executed s' err ∧
      chain (Item.funcs chain (Fallible.recorded run) items) (s, log) =
        ((s', log ++ executed), err)
  /-- A chain without a function changes nothing and succeeds. -/
  empty : Item.leavesOf items = [] → ∀ s,
    chain (Item.funcs chain (Fallible.recorded run) items) s = (s, none)

/-- The loop of the chains flattens. -/
theorem flattens_chain {ι σ : Type} (run : ι → Fallible σ Err) (items : List (Item ι)) :
    Flattens Fallible.chain run items := by
  have hflat := Item.chain_funcs (Fallible.recorded run) items
  refine ⟨hflat, fun s log => ?_, fun hempty s => ?_⟩
  · rw [hflat]
    exact Fallible.runsTo_chain run (Item.leavesOf items) s log
  · rw [hflat, hempty]
    rfl

/-- Chains of patches and chains of host functions flatten, for all trees of arguments,
all functions and all states. -/
theorem chains_flatten {ι κ Cfg Host : Type} (patch : ι → RepoConfigPatch Cfg)
    (patchs : List (Item ι)) (cfg : κ → HostConfigFunc Host) (cfgs : List (Item κ)) :
    Flattens chainIpfsConfigPatch patch patchs ∧ Flattens chainHostConfig cfg cfgs :=
  ⟨flattens_chain patch patchs, flattens_chain cfg cfgs⟩

end IpfsMobile.Node
