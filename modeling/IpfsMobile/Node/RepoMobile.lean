import IpfsMobile.Go.Heap
import IpfsMobile.Node.Chain

/-!
# `RepoMobile.ApplyPatchs`

The patches run on the object that `Repo.Config` hands out, which is the one the
repository uses, and `SetConfig` comes after them. What a failing patch, or one before
it, has done to the object stays there. The file determines when the configuration is
nevertheless the same as before.
-/

namespace IpfsMobile.Node

open Go

/-- The embedded `ipfs_repo.Repo`: the configurations in memory, and which one is in use. -/
structure RepoMobile (Cfg : Type) where
  objects : Heap Cfg
  live : Ref
  /-- There is a configuration in use. -/
  valid : objects.Valid live

namespace RepoMobile

variable {Cfg : Type}

/-- What `Repo.Config` and `Repo.SetConfig` return, nil if they succeed. -/
structure Answers where
  config : Option Err := none
  setConfig : Option Err := none

/-- The configuration that the repository reports. -/
def reported (mr : RepoMobile Cfg) : Cfg := mr.objects.get mr.live mr.valid

/-- The repository after the configuration in use was changed in place. -/
def inPlace (mr : RepoMobile Cfg) (cfg : Cfg) : RepoMobile Cfg where
  objects := mr.objects.write mr.live cfg
  live := mr.live
  valid := mr.valid.write cfg

/-- `ApplyPatchs`. The patches get the object in use. When `SetConfig` succeeds it keeps
the object it is given, which is that one, and when it fails it changes nothing. -/
def applyPatchs (answers : Answers) (patchs : List (Option (RepoConfigPatch Cfg)))
    (mr : RepoMobile Cfg) : Option Err × RepoMobile Cfg :=
  match answers.config with
  | some e => (some e, mr)
  | none =>
    match chainIpfsConfigPatch patchs mr.reported with
    | (cfg, some e) => (some e, mr.inPlace cfg)
    | (cfg, none) => (answers.setConfig, mr.inPlace cfg)

/-- All patches but nil, applied in order. -/
def applyAll (patchs : List (Option (RepoConfigPatch Cfg))) (cfg : Cfg) : Cfg :=
  patchs.reduceOption.foldl (fun cfg patch => (patch cfg).1) cfg

/-- With an error the configuration is the one before, without one it is the result of
all patches. -/
structure Atomic (answers : Answers) (patchs : List (Option (RepoConfigPatch Cfg)))
    (mr : RepoMobile Cfg) : Prop where
  failed : (mr.applyPatchs answers patchs).1 ≠ none →
    (mr.applyPatchs answers patchs).2.reported = mr.reported
  succeeded : (mr.applyPatchs answers patchs).1 = none →
    (mr.applyPatchs answers patchs).2.reported = applyAll patchs mr.reported

/-- The patches up to and including the first that fails, run in order, make the second
configuration of the first, with this error. -/
def Leads (patchs : List (Option (RepoConfigPatch Cfg))) (cfg cfg' : Cfg) (err : Option Err) :
    Prop :=
  ∃ executed, Fallible.RunsTo id patchs.reduceOption cfg executed cfg' err

/-- What changes was done in place is reported. -/
theorem reported_inPlace (mr : RepoMobile Cfg) (cfg : Cfg) : (mr.inPlace cfg).reported = cfg :=
  Heap.get_write mr.valid cfg

/-- A chain does what its patches lead to. -/
theorem Leads.chain_eq {patchs : List (Option (RepoConfigPatch Cfg))} {cfg cfg' : Cfg}
    {err : Option Err} (h : Leads patchs cfg cfg' err) :
    chainIpfsConfigPatch patchs cfg = (cfg', err) := by
  obtain ⟨executed, hruns⟩ := h
  have hchain := hruns.chain_eq
  rwa [Fallible.chain_reduceOption] at hchain

/-- Every list of patches leads somewhere. -/
theorem exists_leads (patchs : List (Option (RepoConfigPatch Cfg))) (cfg : Cfg) :
    ∃ cfg' err, Leads patchs cfg cfg' err := by
  obtain ⟨executed, cfg', err, hruns⟩ := Fallible.exists_runsTo id patchs.reduceOption cfg
  exact ⟨cfg', err, executed, hruns⟩

/-- Patches lead to one configuration only. -/
theorem Leads.unique {patchs : List (Option (RepoConfigPatch Cfg))} {cfg cfg' cfg'' : Cfg}
    {err err' : Option Err} (h : Leads patchs cfg cfg' err) (h' : Leads patchs cfg cfg'' err') :
    cfg' = cfg'' ∧ err = err' :=
  Prod.mk.inj (h.chain_eq.symm.trans h'.chain_eq)

/-- Without an error the patches lead to the result of all of them. -/
theorem Leads.eq_applyAll {patchs : List (Option (RepoConfigPatch Cfg))} {cfg cfg' : Cfg}
    (h : Leads patchs cfg cfg' none) : cfg' = applyAll patchs cfg := by
  obtain ⟨executed, hruns⟩ := h
  exact hruns.of_none.2

/-- What `ApplyPatchs` returns and leaves behind, when the configuration can be read. -/
theorem applyPatchs_eq {answers : Answers} {patchs : List (Option (RepoConfigPatch Cfg))}
    {mr : RepoMobile Cfg} {cfg : Cfg} {err : Option Err} (hconfig : answers.config = none)
    (h : Leads patchs mr.reported cfg err) :
    mr.applyPatchs answers patchs = (err.or answers.setConfig, mr.inPlace cfg) := by
  rw [applyPatchs, hconfig, h.chain_eq]
  cases err <;> rfl

/-- The condition under which `ApplyPatchs` is atomic: the configuration cannot be read,
everything succeeds, or the patches that run leave the configuration as they found it. -/
def Harmless (answers : Answers) (patchs : List (Option (RepoConfigPatch Cfg))) (cfg : Cfg) :
    Prop :=
  answers.config ≠ none ∨ (∃ cfg', Leads patchs cfg cfg' none) ∧ answers.setConfig = none ∨
    ∃ err, Leads patchs cfg cfg err

/-- `ApplyPatchs` is atomic exactly if the configuration cannot be read, everything
succeeds, or the patches up to and including the first that fails undo each other. -/
theorem applyPatchs_atomic_iff (answers : Answers) (patchs : List (Option (RepoConfigPatch Cfg)))
    (mr : RepoMobile Cfg) :
    mr.Atomic answers patchs ↔ Harmless answers patchs mr.reported := by
  cases hconfig : answers.config with
  | some e =>
    have happly : mr.applyPatchs answers patchs = (some e, mr) := by rw [applyPatchs, hconfig]
    refine iff_of_true ⟨fun _ => by rw [happly], fun hnone => ?_⟩ (Or.inl (by simp [hconfig]))
    rw [happly] at hnone
    cases hnone
  | none =>
    obtain ⟨cfg, err, hleads⟩ := exists_leads patchs mr.reported
    have happly := applyPatchs_eq hconfig hleads
    constructor
    · rintro ⟨hfailed, hsucceeded⟩
      rw [happly, reported_inPlace] at hfailed
      by_cases hnone : err.or answers.setConfig = none
      · obtain ⟨rfl, hset⟩ := Option.or_eq_none_iff.mp hnone
        exact Or.inr (Or.inl ⟨⟨cfg, hleads⟩, hset⟩)
      · obtain rfl := hfailed hnone
        exact Or.inr (Or.inr ⟨err, hleads⟩)
    · rintro (hread | ⟨⟨cfg', hall⟩, hset⟩ | ⟨err', hundone⟩)
      · exact absurd hconfig hread
      · obtain ⟨rfl, rfl⟩ := hleads.unique hall
        refine ⟨fun herr => absurd ?_ herr, fun _ => ?_⟩
        · rw [happly, hset]
          rfl
        · rw [happly, reported_inPlace]
          exact hleads.eq_applyAll
      · obtain ⟨hsame, rfl⟩ := hleads.unique hundone
        refine ⟨fun _ => ?_, fun herr => ?_⟩
        · rw [happly, reported_inPlace, hsame]
        · rw [happly] at herr ⊢
          rw [reported_inPlace]
          obtain ⟨rfl, -⟩ := Option.or_eq_none_iff.mp herr
          exact hleads.eq_applyAll

/-- Two of the settings of a configuration. -/
structure Settings where
  storageMax : Str
  gcPeriod : Str
  deriving DecidableEq, Repr

/-- A repository with the default settings. -/
def defaultRepo : RepoMobile Settings where
  objects := ⟨[⟨str "500MB", str "1h"⟩]⟩
  live := 0
  valid := by decide

/-- A patch that changes a setting, nil, and a patch that fails. -/
def changeAndFail : List (Option (RepoConfigPatch Settings)) :=
  [some fun cfg => ({ cfg with storageMax := str "1GB" }, none), none,
    some fun cfg => (cfg, some (.other (str "no such setting")))]

/-- The last patch fails, and the change of the first is reported from then on. -/
theorem not_atomic_changeAndFail : ¬defaultRepo.Atomic {} changeAndFail := by
  intro h
  exact absurd (h.failed (by decide)) (by decide)

end RepoMobile

end IpfsMobile.Node
