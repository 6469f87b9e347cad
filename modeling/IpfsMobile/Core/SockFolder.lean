import IpfsMobile.Core.SockPaths
import IpfsMobile.Go.FileTree

/-!
# The folder of the sockets

`NewSockManager` starts with an empty folder, whatever an earlier run has left there.
Files come and go at paths that were returned, and no path is returned twice, so that
`os.Stat` finds nothing at a new path. The calls succeed in the order in which they take
the mutex, until the counter is at its maximum.
-/

namespace IpfsMobile.Core.SockFolder

open Go Concurrent SockPaths

/-- `os.Stat` says of a path that does not exist only that it does not. -/
def Faithful (os : Os) (tree : FileTree) : Prop := ∀ p e, os.stat p = .notExist e → p ∉ tree.paths

/-- The calls of `NewSockPath`, and the files in the folder. -/
structure State (C : Type) where
  calls : SockPaths.State C
  files : List Str

/-- A step of a call, or something done to the file at the path that a call has returned. -/
inductive Event (C : Type) where
  | step (a : Action C)
  | create (c : C)
  | remove (c : C)

/-- An answer of `os.Stat` that reports the presence of a file. -/
def Reports (files : List Str) (p : Str) : StatResult → Prop
  | .present => p ∈ files
  | .notExist _ => p ∉ files
  | .failed _ => False

instance (files : List Str) (p : Str) : (answer : StatResult) → Decidable (Reports files p answer)
  | .present => inferInstanceAs (Decidable (p ∈ files))
  | .notExist _ => inferInstanceAs (Decidable (p ∉ files))
  | .failed _ => inferInstanceAs (Decidable False)

/-- The path that a phase of a call asks `os.Stat` about. -/
def asks (sm : SockManager) : Phase → Str
  | .unlocked filename => sm.sockPath filename
  | _ => []

section Runs

variable {C : Type} [DecidableEq C]

/-- A step of the call `c` is allowed unless it is a wrong answer of `os.Stat`. -/
def Allowed (sm : SockManager) (s : State C) (c : C) : Op → Prop
  | .stat answer => Reports s.files (asks sm (s.calls.phase c)) answer
  | _ => True

instance (sm : SockManager) (s : State C) (c : C) : (op : Op) → Decidable (Allowed sm s c op)
  | .stat answer =>
    inferInstanceAs (Decidable (Reports s.files (asks sm (s.calls.phase c)) answer))
  | .call | .lock | .check | .format | .increment | .unlock => inferInstanceAs (Decidable True)

/-- The effect of an event. -/
def occur (sm : SockManager) (s : State C) : Event C → Option (State C)
  | .step a =>
    if Allowed sm s a.call a.op then
      (step sm s.calls a.call a.op).map fun calls => { s with calls := calls }
    else none
  | .create c =>
    match s.calls.phase c with
    | .done (.ok p) => some { s with files := p :: s.files }
    | _ => none
  | .remove c =>
    match s.calls.phase c with
    | .done (.ok p) => some { s with files := s.files.filter (· ≠ p) }
    | _ => none

/-- The calls of a manager and its folder as a system. -/
def system (C : Type) [DecidableEq C] (sm : SockManager) (files : List Str) :
    System (State C) (Event C) where
  init := { calls := { counter := sm.counter }, files := files }
  step := occur sm

/-- The call that takes the mutex in an event. -/
def Event.locker : Event C → Option C
  | .step ⟨c, .lock⟩ => some c
  | _ => none

/-- The calls in the order in which they take the mutex. -/
def lockOrder (es : List (Event C)) : List C := es.filterMap Event.locker

/-- The error of a call that finds the counter at its maximum. -/
def maxExceeded : Err := .other (str "max number of socket exceeded")

/-- The result of the call that takes the mutex after `i` others. -/
def result (sm : SockManager) (i : ℕ) : Except Err Str :=
  if i < maxUint32.toNat then .ok (sm.sockPath (sockFilename i)) else .error maxExceeded

/-- What the phase of the call `c` says about its place among the calls that have taken
the mutex, and about the counter. -/
def Placed (sm : SockManager) (order : List C) (counter : ℕ) (c : C) : Phase → Prop
  | .idle | .locking => c ∉ order
  | .locked =>
    ∃ i, order[i]? = some c ∧ order.length = i + 1 ∧ counter = min i maxUint32.toNat
  | .checked =>
    ∃ i, order[i]? = some c ∧ order.length = i + 1 ∧ counter = i ∧ i < maxUint32.toNat
  | .formatted filename =>
    ∃ i, order[i]? = some c ∧ order.length = i + 1 ∧ counter = i ∧ i < maxUint32.toNat ∧
      filename = sockFilename i
  | .exhausted =>
    ∃ i, order[i]? = some c ∧ maxUint32.toNat ≤ i ∧ counter = min order.length maxUint32.toNat
  | .counted filename =>
    ∃ i, order[i]? = some c ∧ i < maxUint32.toNat ∧ filename = sockFilename i ∧
      counter = min order.length maxUint32.toNat
  | .unlocked filename =>
    ∃ i, order[i]? = some c ∧ i < maxUint32.toNat ∧ filename = sockFilename i
  | .done r => ∃ i, order[i]? = some c ∧ r = result sm i

/-- The calls succeed in the order in which they have taken the mutex. -/
structure Ordered (sm : SockManager) (order : List C) (s : SockPaths.State C) : Prop where
  /-- The phases agree with the holder of the mutex. -/
  mutex : Excludes Phase.Held s.muCounter s.phase
  /-- A call takes the mutex once. -/
  nodup : order.Nodup
  /-- While no call holds the mutex the counter is the number of calls that have had it,
  up to the maximum. -/
  free : s.muCounter = none → s.counter.toNat = min order.length maxUint32.toNat
  /-- Each call is where its place in the order has brought it. -/
  placed : ∀ c, Placed sm order s.counter.toNat c (s.phase c)

omit [DecidableEq C] in
/-- A call without the mutex says nothing of the counter. -/
theorem placed_of_not_held {sm : SockManager} {order : List C} {k : ℕ} {c : C} {p : Phase}
    (h : ¬p.Held) (hplaced : Placed sm order k c p) (k' : ℕ) : Placed sm order k' c p := by
  cases p <;> simp_all [Phase.Held, Placed]

omit [DecidableEq C] in
/-- Another call that takes the mutex later does not change the place of a call. -/
theorem placed_append {sm : SockManager} {order : List C} {k : ℕ} {c d : C} {p : Phase}
    (h : ¬p.Held) (hne : c ≠ d) (hplaced : Placed sm order k c p) :
    Placed sm (order ++ [d]) k c p := by
  have hget : ∀ i : ℕ, order[i]? = some c → (order ++ [d])[i]? = some c := by
    intro i hi
    obtain ⟨hlt, -⟩ := List.getElem?_eq_some_iff.mp hi
    rw [List.getElem?_append_left hlt, hi]
  cases p with
  | idle | locking =>
    have hnot : c ∉ order := hplaced
    have hnot' : c ∉ order ++ [d] := by simp [hnot, hne]
    exact hnot'
  | locked | checked | formatted _ | exhausted | counted _ => exact absurd trivial h
  | unlocked filename | done r =>
    obtain ⟨i, hi, hrest⟩ := hplaced
    exact ⟨i, hget i hi, hrest⟩

namespace Ordered

variable {sm : SockManager} {order : List C} {s : SockPaths.State C} {c : C}

/-- A step other than taking the mutex. The counter is changed under the mutex only. -/
theorem move (h : Ordered sm order s) {q : Phase} {holder : Option C} {counter : BitVec 32}
    (hmutex : Excludes Phase.Held holder (Function.update s.phase c q))
    (hfree : holder = none → counter.toNat = min order.length maxUint32.toNat)
    (hcounter : counter = s.counter ∨ (s.phase c).Held)
    (hplaced : Placed sm order counter.toNat c q) :
    Ordered sm order ⟨counter, holder, Function.update s.phase c q⟩ where
  mutex := hmutex
  nodup := h.nodup
  free := hfree
  placed := by
    refine (Function.forall_update_iff s.phase fun d p => Placed sm order counter.toNat d p).mpr
      ⟨hplaced, fun d hd => ?_⟩
    rcases hcounter with rfl | hheld
    · exact h.placed d
    · have hnot : ¬(s.phase d).Held := fun hheld' => hd (h.mutex.unique hheld' hheld)
      exact placed_of_not_held hnot (h.placed d) _

/-- Taking the mutex gives a call the next place. -/
theorem lock (h : Ordered sm order s) (hphase : s.phase c = .locking) (hnone : s.muCounter = none) :
    Ordered sm (order ++ [c]) { s.goto c .locked with muCounter := some c } := by
  have hmutex := h.mutex
  have hnew := h.placed c
  rw [hnone] at hmutex
  rw [hphase] at hnew
  have hnew : c ∉ order := hnew
  have hnotHeld : ∀ d, ¬(s.phase d).Held := fun d hheld => by cases (hmutex d).mp hheld
  refine ⟨hmutex.acquire trivial, ?_, ?_, ?_⟩
  · rw [List.nodup_append]
    refine ⟨h.nodup, List.nodup_singleton c, fun d hd e he => ?_⟩
    rw [List.mem_singleton.mp he]
    rintro rfl
    exact hnew hd
  · intro hnone'
    cases hnone'
  · refine (Function.forall_update_iff s.phase fun d p =>
      Placed sm (order ++ [c]) s.counter.toNat d p).mpr ⟨?_, fun d hd => ?_⟩
    · exact ⟨order.length, by simp, by simp, h.free hnone⟩
    · exact placed_append (hnotHeld d) hd (h.placed d)

/-- The other steps of a call keep the order, if `os.Stat` finds nothing at a new path. -/
theorem step (h : Ordered sm order s) {op : Op} {s' : SockPaths.State C}
    (hstep : SockPaths.step sm s c op = some s') (hlock : op ≠ .lock)
    (hstat : ∀ answer, op = .stat answer → ∃ e, answer = .notExist e) : Ordered sm order s' := by
  have hmutex := h.mutex
  have hplaced := h.placed c
  cases op with
  | call =>
    simp only [SockPaths.step] at hstep
    split at hstep <;> cases hstep
    rename_i hphase
    rw [hphase] at hplaced
    exact h.move (hmutex.update (by simp [hphase, Phase.Held])) h.free (Or.inl rfl) hplaced
  | lock => exact absurd rfl hlock
  | check =>
    simp only [SockPaths.step] at hstep
    split at hstep <;> cases hstep
    rename_i hphase
    rw [hphase] at hplaced
    obtain ⟨i, hi, hlen, hcounter⟩ := hplaced
    have hheld : (s.phase c).Held := by simp [hphase, Phase.Held]
    refine h.move (hmutex.update ?_) h.free (Or.inl rfl) ?_
    · refine iff_of_true ?_ hheld
      split <;> trivial
    · split
      · rename_i hmax
        have hle : maxUint32.toNat ≤ i := by
          rw [hmax] at hcounter
          omega
        exact ⟨i, hi, hle, by omega⟩
      · rename_i hmax
        have hne : s.counter.toNat ≠ maxUint32.toNat := fun heq => hmax (BitVec.eq_of_toNat_eq heq)
        exact ⟨i, hi, hlen, by omega, by omega⟩
  | format =>
    simp only [SockPaths.step] at hstep
    split at hstep <;> cases hstep
    rename_i hphase
    rw [hphase] at hplaced
    obtain ⟨i, hi, hlen, hcounter, hlt⟩ := hplaced
    refine h.move (hmutex.update (by simp [hphase, Phase.Held])) h.free (Or.inl rfl) ?_
    exact ⟨i, hi, hlen, hcounter, hlt, by rw [hcounter]⟩
  | increment =>
    simp only [SockPaths.step] at hstep
    split at hstep <;> cases hstep
    rename_i filename hphase
    rw [hphase] at hplaced
    obtain ⟨i, hi, hlen, hcounter, hlt, hname⟩ := hplaced
    have hheld : (s.phase c).Held := by simp [hphase, Phase.Held]
    have hne : s.counter ≠ maxUint32 := by
      intro hmax
      rw [hmax] at hcounter
      omega
    have hnext := (toNat_increment hne).1
    refine h.move (hmutex.update (iff_of_true trivial hheld)) ?_ (Or.inr hheld) ?_
    · intro hnone
      omega
    · exact ⟨i, hi, hlt, hname, by omega⟩
  | unlock =>
    simp only [SockPaths.step] at hstep
    split at hstep <;> cases hstep
    · rename_i hphase
      rw [hphase] at hplaced
      obtain ⟨i, hi, hle, hcounter⟩ := hplaced
      refine h.move (hmutex.release (by simp [hphase, Phase.Held]) id) (fun _ => hcounter)
        (Or.inl rfl) ⟨i, hi, ?_⟩
      rw [result, if_neg (by omega)]
      rfl
    · rename_i filename hphase
      rw [hphase] at hplaced
      obtain ⟨i, hi, hlt, hname, hcounter⟩ := hplaced
      exact h.move (hmutex.release (by simp [hphase, Phase.Held]) id) (fun _ => hcounter)
        (Or.inl rfl) ⟨i, hi, hlt, hname⟩
  | stat answer =>
    simp only [SockPaths.step] at hstep
    split at hstep <;> cases hstep
    rename_i filename hphase
    rw [hphase] at hplaced
    obtain ⟨i, hi, hlt, hname⟩ := hplaced
    obtain ⟨e, rfl⟩ := hstat answer rfl
    refine h.move (hmutex.update (by simp [hphase, Phase.Held])) h.free (Or.inl rfl) ⟨i, hi, ?_⟩
    rw [result, if_pos hlt, hname]
    rfl

end Ordered

/-- The calls are in order, and the files are at paths that were returned. -/
structure Tidy (sm : SockManager) (order : List C) (s : State C) : Prop where
  calls : Ordered sm order s.calls
  files : ∀ p ∈ s.files, ∃ c, s.calls.phase c = .done (.ok p)

/-- A call that has returned does not move. -/
theorem ne_done_of_step {sm : SockManager} {s s' : SockPaths.State C} {c : C} {op : Op}
    (h : SockPaths.step sm s c op = some s') (r : Except Err Str) : s.phase c ≠ .done r := by
  intro hdone
  cases op <;> simp [SockPaths.step, hdone] at h

namespace Tidy

variable {sm : SockManager} {order : List C} {s : State C}

omit [DecidableEq C] in
/-- There is no file at the path of a call that is about to return: the call that has
returned it would have the same place. -/
theorem not_mem_files (h : Tidy sm order s) {abspath : Str} (hdir : SockDir abspath sm.sockDirPath)
    {c : C} {filename : Str} (hphase : s.calls.phase c = .unlocked filename) :
    sm.sockPath filename ∉ s.files := by
  intro hmem
  obtain ⟨d, hdone⟩ := h.files _ hmem
  have hplaced := h.calls.placed c
  have hplaced' := h.calls.placed d
  rw [hphase] at hplaced
  rw [hdone] at hplaced'
  obtain ⟨i, hi, hlt, rfl⟩ := hplaced
  obtain ⟨j, hj, hresult⟩ := hplaced'
  rw [result] at hresult
  split at hresult
  · rename_i hlt'
    have hpath := Except.ok.inj hresult
    have hmax : maxUint32.toNat < 2 ^ 32 := maxUint32.isLt
    have hsame : i = j := sockPath_injective hdir (hlt.trans hmax) (hlt'.trans hmax) (by rw [hpath])
    rw [hsame, hj] at hi
    obtain rfl := Option.some.inj hi
    rw [hphase] at hdone
    cases hdone
  · cases hresult

/-- Every event keeps the calls in order and the files at returned paths. -/
theorem occur (h : Tidy sm order s) {abspath : Str} (hdir : SockDir abspath sm.sockDirPath)
    {e : Event C} {s' : State C} (hoccur : SockFolder.occur sm s e = some s') :
    Tidy sm (order ++ lockOrder [e]) s' := by
  cases e with
  | step a =>
    obtain ⟨c, op⟩ := a
    simp only [SockFolder.occur] at hoccur
    split at hoccur
    · rename_i hallowed
      obtain ⟨calls, hstep, rfl⟩ := Option.map_eq_some_iff.mp hoccur
      refine ⟨?_, fun p hp => ?_⟩
      · by_cases hlock : op = .lock
        · subst hlock
          simp only [SockPaths.step] at hstep
          split at hstep
          · split at hstep <;> cases hstep
            exact h.calls.lock ‹_› ‹_›
          · cases hstep
        · have hnone : lockOrder [Event.step ⟨c, op⟩] = [] := by
            cases op <;> first | rfl | exact absurd rfl hlock
          rw [hnone, List.append_nil]
          refine h.calls.step hstep hlock fun answer hop => ?_
          subst hop
          cases hphase : s.calls.phase c with
          | unlocked filename =>
            simp only [Allowed, hphase, asks] at hallowed
            cases answer with
            | present => exact absurd hallowed (h.not_mem_files hdir hphase)
            | notExist e => exact ⟨e, rfl⟩
            | failed e => exact hallowed.elim
          | _ => simp [SockPaths.step, hphase] at hstep
      · obtain ⟨d, hdone⟩ := h.files p hp
        have hne : d ≠ c := by
          rintro rfl
          exact ne_done_of_step hstep _ hdone
        exact ⟨d, (phase_of_step hstep hne).trans hdone⟩
    · cases hoccur
  | create c =>
    simp only [SockFolder.occur] at hoccur
    split at hoccur <;> cases hoccur
    rename_i p hdone
    have hnone : lockOrder [Event.create c] = [] := rfl
    rw [hnone, List.append_nil]
    refine ⟨h.calls, fun p' hp' => ?_⟩
    rcases List.mem_cons.mp hp' with rfl | hold
    · exact ⟨c, hdone⟩
    · exact h.files p' hold
  | remove c =>
    simp only [SockFolder.occur] at hoccur
    split at hoccur <;> cases hoccur
    have hnone : lockOrder [Event.remove c] = [] := rfl
    rw [hnone, List.append_nil]
    exact ⟨h.calls, fun p' hp' => h.files p' (List.mem_of_mem_filter hp')⟩

end Tidy

/-- The calls take the steps of the manager here too: there is always an answer of `os.Stat` that
reports the files. -/
theorem carries {sm : SockManager} (files : List Str) {abspath : Str}
    (hdir : SockDir abspath sm.sockDirPath) :
    Carries sm (system C sm files) State.calls fun s => ∃ order, Tidy sm order s where
  keeps := by
    rintro s e s' ⟨order, htidy⟩ hstep
    exact ⟨_, htidy.occur hdir hstep⟩
  mutex := by
    rintro s ⟨order, htidy⟩
    exact htidy.calls.mutex
  can := by
    intro s c hready
    obtain ⟨op, calls, hstep, hanswer⟩ := exists_step sm (fun p =>
      if p ∈ s.files then .present else .notExist .eof) hready
    have hallowed : Allowed sm s c op := by
      cases op with
      | stat answer =>
        obtain ⟨filename, hphase, rfl⟩ := hanswer answer rfl
        simp only [Allowed, hphase, asks]
        split <;> simpa only [Reports]
      | call | lock | check | format | increment | unlock => trivial
    refine ⟨.step ⟨c, op⟩, { s with calls := calls }, op, ?_, hstep⟩
    change occur sm s (.step ⟨c, op⟩) = _
    simp only [occur, if_pos hallowed, hstep, Option.map_some]

end Runs

end IpfsMobile.Core.SockFolder
