import IpfsMobile.Seq.RefTrackerSpec

/-!
# Objects that Go holds

Go is handed numbers for Java objects, counts them up and gives them back, in any order and
from any thread. As long as it has not given a number back as often as it got it, the number
stands for the same object; afterwards it stands for nothing, and never for another object.
-/

namespace IpfsMobile.Seq.RefTracker

open Concurrent Go

variable {O : Type} [DecidableEq O]

/-- How often Go was handed a number or counted it up. -/
def sent (n : ℤ) (calls : List (TrackerCall O)) : ℕ := Ledger.given n (calls.flatMap postings)

/-- How often Go gave a number back. -/
def dropped (n : ℤ) (calls : List (TrackerCall O)) : ℕ :=
  Ledger.taken n (calls.flatMap postings)

/-- Go holds a number that it has not given back as often as it got it. -/
def Holds (calls : List (TrackerCall O)) (n : ℤ) : Prop := dropped n calls < sent n calls

instance (calls : List (TrackerCall O)) (n : ℤ) : Decidable (Holds calls n) :=
  inferInstanceAs (Decidable (_ < _))

/-- Every call advances the tracker. -/
theorem Kept.step {t t' : RefTracker O} (h : Kept t) {call : TrackerCall O}
    (hstep : (system O).step t call = some t') : Advances t call t' := by
  cases call with
  | inc p result =>
    simp only [system, returned] at hstep
    split at hstep <;> cases hstep
    rename_i hresult
    exact hresult ▸ h.inc p
  | incRefnum n result =>
    simp only [system, returned] at hstep
    split at hstep <;> cases hstep
    rename_i hresult
    exact hresult ▸ h.incRefnum n
  | dec n result =>
    simp only [system, returned] at hstep
    split at hstep <;> cases hstep
    rename_i hresult
    exact hresult ▸ h.dec n
  | get n result =>
    simp only [system, returned] at hstep
    split at hstep <;> cases hstep
    exact h.stays rfl (by simp)

/-- The tracker keeps a ledger of its calls. -/
theorem performs_ledger : System.Performs (system O) (Ledger.system ℤ O) postings
    fun t l => Kept t ∧ l = t.ledger where
  init := by
    refine ⟨kept_init, congrArg Ledger.mk (funext fun n => ?_)⟩
    exact (Kept.entry_eq_none (t := {}) rfl).symm
  step := by
    rintro calls t call t' l - ⟨hkept, rfl⟩ hstep
    have hadvances := hkept.step hstep
    exact ⟨t'.ledger, hadvances.posts, hadvances.kept, rfl⟩

variable {calls : List (TrackerCall O)} {t : RefTracker O}

/-- In every state that the tracker reaches the ledger is balanced. -/
theorem kept_of_trace (h : (system O).Trace calls t) :
    Kept t ∧ Ledger.Balanced (calls.flatMap postings) t.ledger := by
  obtain ⟨l, htrace, hkept, rfl⟩ := performs_ledger.trace h
  exact ⟨hkept, Ledger.balanced_of_trace htrace⟩

/-- Go holds the numbers in the map, as often as their `Ref`s say. -/
theorem holds_iff (h : (system O).Trace calls t) (n : ℤ) :
    (Holds calls n ↔ ∃ r, t.javaObjs.get n = some r) ∧
      ∀ r, t.javaObjs.get n = some r → ∃ o k, t.refs.read r = some ⟨n, k, some o⟩ ∧
        1 ≤ k ∧ k ≤ maxValue ∧ t.javaRefs o = some n ∧ k + dropped n calls = sent n calls := by
  obtain ⟨hkept, hbalanced⟩ := kept_of_trace h
  have hcount := hbalanced.count_add n
  rw [Ledger.count] at hcount
  rw [Holds]
  cases hget : t.javaObjs.get n with
  | none =>
    rw [Kept.entry_eq_none hget] at hcount
    refine ⟨iff_of_false ?_ (by simp), by simp⟩
    change 0 + dropped n calls = sent n calls at hcount
    omega
  | some r =>
    obtain ⟨o, k, hread, hpos, hle, hn⟩ := hkept.ref n r hget
    rw [Kept.entry_eq hget hread] at hcount
    change k.toNat + dropped n calls = sent n calls at hcount
    refine ⟨iff_of_true (by omega) ⟨r, rfl⟩, fun r' hr' => ?_⟩
    obtain rfl := Option.some.inj hr'
    exact ⟨o, k, hread, hpos, hle, hn, by omega⟩

/-- A number that is held was handed out with the object of its `Ref`. -/
theorem handed_of_holds (h : (system O).Trace calls t) {n : ℤ} (hn : Holds calls n) :
    ∃ o, .inc (.object o) (.ok n) ∈ calls ∧ t.javaRefs o = some n ∧ t.resolve n = .ok (some o) := by
  obtain ⟨hkept, hbalanced⟩ := kept_of_trace h
  obtain ⟨r, hget⟩ := (holds_iff h n).1.mp hn
  obtain ⟨o, k, hread, -, -, hrefs⟩ := hkept.ref n r hget
  have hbound := (hkept.refnum o n hrefs).1
  refine ⟨o, ?_, hrefs, ?_⟩
  · have hcredit := hbalanced.credited n o _ (Kept.entry_eq hget hread)
    obtain ⟨call, hmem, hpost⟩ := List.mem_flatMap.mp hcredit
    rwa [inc_of_credit hpost] at hmem
  · have hnull : n ≠ nullRefnum := by
      rw [nullRefnum]
      omega
    rw [resolve, get, if_neg (by omega), if_neg hnull, hget]
    simp only [hread]

/-- What is true of every number that was handed out with an object. -/
structure Owned (calls : List (TrackerCall O)) (t : RefTracker O) (o : O) (n : ℤ) : Prop where
  lt_next : n < t.next
  /-- The object keeps the number to itself. -/
  owner : ∀ o', t.javaRefs o' = some n → o' = o
  once : ∀ o', .inc (.object o') (.ok n) ∈ calls → o' = o
  /-- The object loses the number when it is given back. -/
  held : t.javaRefs o = some n → t.ledger.entry n ≠ none

/-- A step keeps what is true of a number. -/
theorem Owned.step {t' : RefTracker O} {call : TrackerCall O} {o : O} {n : ℤ}
    (h : Owned calls t o n) (hadvances : Advances t call t') : Owned (calls ++ [call]) t' o n := by
  have hold : ∀ o', t'.javaRefs o' = some n → t.javaRefs o' = some n := fun o' ho' =>
    (hadvances.renumbers o' n ho').resolve_right (not_le.mpr h.lt_next)
  refine ⟨lt_of_lt_of_le h.lt_next hadvances.next_le.1, fun o' ho' => h.owner o' (hold o' ho'),
    fun o' hin => ?_, fun ho hnone => ?_⟩
  · rcases List.mem_append.mp hin with hbefore | hnow
    · exact h.once o' hbefore
    · have ho' := (hadvances.numbered o' n (List.mem_singleton.mp hnow).symm).1
      exact h.owner o' (hold o' ho')
  · exact h.held (hold o ho) (hadvances.unheld o n ho hnone).1

/-- Numbers are never handed out with a second object. -/
theorem owned_of_trace (h : (system O).Trace calls t) :
    ∀ o n, .inc (.object o) (.ok n) ∈ calls → Owned calls t o n := by
  unfold System.Trace at h
  induction h with
  | refl => simp
  | snoc hprev hnext ih =>
    rename_i calls call t t'
    have hadvances := (kept_of_trace hprev).1.step hnext
    intro o n hin
    rcases List.mem_append.mp hin with hold | hnew
    · exact (ih o n hold).step hadvances
    · obtain ⟨hn, hheld⟩ := hadvances.numbered o n (List.mem_singleton.mp hnew).symm
      refine ⟨(hadvances.kept.refnum o n hn).2,
        fun o' ho' => hadvances.kept.injective o' o n ho' hn, fun o' hin' => ?_, fun _ => hheld⟩
      rcases List.mem_append.mp hin' with hold' | hnew'
      · exact (((ih o' n hold').step hadvances).owner o hn).symm
      · have hn' := (hadvances.numbered o' n (List.mem_singleton.mp hnew').symm).1
        exact hadvances.kept.injective o' o n hn' hn

/-- Go gets two objects, counts the first up and gives it back; it is passed again later. -/
def returnedLate : List (TrackerCall ℕ) :=
  [.inc (.object 7) (.ok 42), .inc (.object 8) (.ok 43), .incRefnum 42 (.ok ()),
    .dec 42 (.ok ()), .dec 42 (.ok ()), .get 42 (.error (.unknown 42)),
    .inc (.object 7) (.ok 44), .inc .null (.ok 41)]

/-- The tracker makes these calls. -/
theorem trace_returnedLate : (system ℕ).Trace returnedLate ((system ℕ).after returnedLate) :=
  System.trace_after rfl

/-- While Go holds a number, it stands for the object that it was handed out with. A number
that Go does not hold stands for nothing, whatever it stood for before. -/
theorem resolve_of_trace (h : (system O).Trace calls t) :
    (∀ o n, .inc (.object o) (.ok n) ∈ calls → Holds calls n → t.resolve n = .ok (some o)) ∧
      ∀ n, 0 ≤ n → n ≠ nullRefnum → ¬Holds calls n → t.resolve n = .error (.unknown n) := by
  refine ⟨fun o n hin hn => ?_, fun n hpos hnull hn => ?_⟩
  · obtain ⟨o', hin', -, hresolve⟩ := handed_of_holds h hn
    rw [hresolve, (owned_of_trace h o n hin).once o' hin']
  · rw [(holds_iff h n).1] at hn
    rw [resolve, get, if_neg (by omega), if_neg hnull]
    cases hget : t.javaObjs.get n with
    | none => rfl
    | some r => exact absurd ⟨r, hget⟩ hn

/-- The second object is found, and the first number is dead. -/
theorem resolve_of_trace_returnedLate :
    ((system ℕ).after returnedLate).resolve 43 = .ok (some 8) ∧
      ((system ℕ).after returnedLate).resolve 42 = .error (.unknown 42) :=
  ⟨(resolve_of_trace trace_returnedLate).1 8 43 (by decide) (by decide),
    (resolve_of_trace trace_returnedLate).2 42 (by decide) (by decide) (by decide)⟩

/-- A number that Go has given back is not used again. It stands for nothing from then on, so
that a proxy which is used too late meets no other object. -/
theorem retired_of_trace (h : (system O).Trace calls t) {o : O} {n : ℤ}
    (hin : .inc (.object o) (.ok n) ∈ calls) (hn : ¬Holds calls n)
    {more : List (TrackerCall O)} {t' : RefTracker O} (hmore : (system O).Steps t more t') :
    ¬Holds (calls ++ more) n ∧ ∀ o', .inc (.object o') (.ok n) ∉ more := by
  have howned := owned_of_trace h o n hin
  have hfree : ∀ o', t.javaRefs o' ≠ some n := by
    intro o' ho'
    obtain rfl := howned.owner o' ho'
    obtain ⟨hkept, -⟩ := kept_of_trace h
    refine howned.held ho' (Kept.entry_eq_none ?_)
    rw [(holds_iff h n).1] at hn
    exact Option.eq_none_iff_forall_ne_some.mpr fun r hr => hn ⟨r, hr⟩
  have hkeeps : n < t'.next ∧ (∀ o', t'.javaRefs o' ≠ some n) ∧
      ∀ o', .inc (.object o') (.ok n) ∉ more := by
    clear hn hin
    induction hmore with
    | refl => exact ⟨howned.lt_next, hfree, by simp⟩
    | snoc hprev hnext ih =>
      obtain ⟨hlt, hnone, hnot⟩ := ih
      have hadvances := (kept_of_trace (System.Steps.append h hprev)).1.step hnext
      have hnone' : ∀ o', _ ≠ some n := fun o' ho' =>
        (hadvances.renumbers o' n ho').elim (hnone o') (not_le.mpr hlt)
      refine ⟨lt_of_lt_of_le hlt hadvances.next_le.1, hnone', fun o' hin' => ?_⟩
      rcases List.mem_append.mp hin' with hold | hnew
      · exact hnot o' hold
      · exact hnone' o' (hadvances.numbered o' n (List.mem_singleton.mp hnew).symm).1
  refine ⟨fun hholds => ?_, hkeeps.2.2⟩
  obtain ⟨o', -, hrefs, -⟩ := handed_of_holds (System.Steps.append h hmore) hholds
  exact hkeeps.2.1 o' hrefs

/-- The first number stays dead when its object is passed again. -/
theorem retired_of_trace_returnedLate :
    ¬Holds (returnedLate.take 5 ++ returnedLate.drop 5) 42 := by
  have hfirst : (system ℕ).Trace (returnedLate.take 5) ((system ℕ).after (returnedLate.take 5)) :=
    System.trace_after rfl
  have hin : TrackerCall.inc (.object 7) (.ok 42) ∈ returnedLate.take 5 := by decide
  have hrest : (system ℕ).Steps ((system ℕ).after (returnedLate.take 5)) (returnedLate.drop 5)
      ((system ℕ).after returnedLate) := System.steps_of_replay rfl
  exact (retired_of_trace hfirst hin (by decide) hrest).1

/-- Numbers that are held are counted up and given back. A count does not go beyond the
greatest integer, and for other numbers there is an exception. -/
theorem answers_of_trace (h : (system O).Trace calls t) (n : ℤ) :
    ((t.incRefnum n).1 =
      if ¬Holds calls n then .error (.notFound n)
      else if (sent n calls : ℤ) = dropped n calls + maxValue then .error (.overflow n)
      else .ok ()) ∧
    (0 < n → n ≠ nullRefnum → (t.dec n).1 =
      if Holds calls n then .ok () else .error (.notFound n)) := by
  obtain ⟨hiff, hcounts⟩ := holds_iff h n
  rw [RefTracker.incRefnum]
  cases hget : t.javaObjs.get n with
  | none =>
    have hn : ¬Holds calls n := by
      rw [hiff, hget]
      simp
    refine ⟨(if_pos hn).symm, fun hpos hnull => ?_⟩
    rw [RefTracker.dec, if_neg (by omega), if_neg hnull, if_neg hn, hget]
  | some r =>
    obtain ⟨o, k, hread, hlow, hhigh, -, hsum⟩ := hcounts r hget
    have hn : Holds calls n := hiff.mpr ⟨r, hget⟩
    refine ⟨?_, fun hpos hnull => ?_⟩
    · rw [if_neg (not_not.mpr hn)]
      simp only [incRef_eq hread]
      by_cases hk : k = maxValue
      · rw [if_pos hk, if_pos (by omega)]
      · rw [if_neg hk, if_neg (by omega)]
    · rw [RefTracker.dec, if_neg (by omega), if_neg hnull, if_pos hn, hget]
      simp only [hread]
      split <;> rfl

/-- The second number is counted up, and the first one is not found. -/
theorem answers_of_trace_returnedLate :
    (((system ℕ).after returnedLate).incRefnum 43).1 = .ok () ∧
      (((system ℕ).after returnedLate).dec 42).1 = .error (.notFound 42) :=
  ⟨(answers_of_trace trace_returnedLate 43).1.trans (by decide),
    (answers_of_trace trace_returnedLate 42).2 (by decide) (by decide)⟩

/-- As many numbers are held as are in the map. -/
theorem live_eq_ncard (h : (system O).Trace calls t) :
    t.javaObjs.live = {n | Holds calls n}.ncard := by
  rw [(kept_of_trace h).1.sound.ncard]
  refine congrArg (fun s : Set ℤ => (s.ncard : ℤ)) (Set.ext fun n => ?_)
  rw [Set.mem_ofPred_eq, Set.mem_ofPred_eq, (holds_iff h n).1, Option.isSome_iff_exists]

/-- An object that Go holds is counted up under the number that it has. -/
theorem inc_of_holds (h : (system O).Trace calls t) {o : O} {n : ℤ}
    (hin : .inc (.object o) (.ok n) ∈ calls) (hn : Holds calls n) :
    (t.inc (.object o)).1 =
      if (sent n calls : ℤ) = dropped n calls + maxValue then .error (.overflow n) else .ok n := by
  obtain ⟨hiff, hcounts⟩ := holds_iff h n
  obtain ⟨r, hget⟩ := hiff.mp hn
  obtain ⟨o', hin', hrefs, -⟩ := handed_of_holds h hn
  obtain rfl : o = o' := ((owned_of_trace h o n hin).once o' hin').symm
  obtain ⟨_, k, hread, -, -, -, hsum⟩ := hcounts r hget
  have hinc : t.inc (.object o) = t.countUp n o := by rw [inc, refnumOf, hrefs]
  have hcount := (kept_of_trace h).1.countsUp hrefs
  rw [hinc]
  generalize t.countUp n o = c at hcount
  -- The `Ref` of the number has the count.
  have hsame : ∀ {r' : Go.Ref} {k' : ℤ}, t.javaObjs.get n = some r' →
      t.refs.read r' = some ⟨n, k', some o⟩ → k' = k := by
    intro r' k' hget' hread'
    obtain rfl := Option.some.inj (hget.symm.trans hget')
    exact congrArg RefObject.refcnt (Option.some.inj (hread'.symm.trans hread))
  cases hcount with
  | again hget' hread' _ hlt =>
    obtain rfl := hsame hget' hread'
    exact (if_neg (by omega)).symm
  | overflow hget' hread' =>
    obtain rfl := hsame hget' hread'
    exact (if_pos (by omega)).symm
  | first hnone | full hnone =>
    rw [hget] at hnone
    cases hnone

/-- An object that Go does not hold gets a number that was never handed out, while there are
numbers left and there is room in the map. -/
theorem inc_of_not_holds (h : (system O).Trace calls t) {o : O}
    (hfree : ∀ n, .inc (.object o) (.ok n) ∈ calls → ¬Holds calls n) (hleft : t.next < maxValue)
    (hroom : {n | Holds calls n}.ncard < 2 ^ 30) :
    ∃ n, (t.inc (.object o)).1 = .ok n ∧ ∀ o', .inc (.object o') (.ok n) ∉ calls := by
  have hkept := (kept_of_trace h).1
  obtain ⟨hlast, -⟩ | ⟨t₁, n, hnumbers, hinc⟩ := hkept.inc_cases o
  · omega
  have hnew : ∀ o', .inc (.object o') (.ok n) ∉ calls := by
    intro o' hin
    have howned := owned_of_trace h o' n hin
    obtain hn | ⟨-, hle⟩ := hnumbers.old o n hnumbers.number
    · obtain rfl := howned.owner o hn
      refine hfree n hin ((holds_iff h n).1.mpr ?_)
      exact Option.ne_none_iff_exists'.mp fun hnone => howned.held hn (Kept.entry_eq_none hnone)
    · exact absurd howned.lt_next (not_lt.mpr hle)
  refine ⟨n, ?_, hnew⟩
  rw [hinc]
  have hcount := hnumbers.kept.countsUp hnumbers.number
  have hheld : ∀ {r}, t₁.javaObjs.get n ≠ some r := by
    intro r hget
    rw [hnumbers.javaObjs] at hget
    obtain ⟨o', hin, -⟩ := handed_of_holds h ((holds_iff h n).1.mpr ⟨r, hget⟩)
    exact hnew o' hin
  generalize t₁.countUp n o = c at hcount
  cases hcount with
  | first => rfl
  | again hget | overflow hget => exact absurd hget hheld
  | full _ hlive =>
    rw [hnumbers.javaObjs, live_eq_ncard h] at hlive
    omega

/-- Which objects can be passed to Go. One that Go holds is passed under its number, until that
was counted up to the greatest integer. One that Go does not hold is passed under a new number,
while there are numbers left and fewer than 2³⁰ are held. -/
theorem passes_of_trace (h : (system O).Trace calls t) (o : O) :
    (∀ n, .inc (.object o) (.ok n) ∈ calls → Holds calls n → (t.inc (.object o)).1 =
      if (sent n calls : ℤ) = dropped n calls + maxValue then .error (.overflow n) else .ok n) ∧
    ((∀ n, .inc (.object o) (.ok n) ∈ calls → ¬Holds calls n) → t.next < maxValue →
      {n | Holds calls n}.ncard < 2 ^ 30 →
        ∃ n, (t.inc (.object o)).1 = .ok n ∧ ∀ o', .inc (.object o') (.ok n) ∉ calls) :=
  ⟨fun _ => inc_of_holds h, inc_of_not_holds h⟩

/-- The second object can be passed again, and a third one. -/
theorem passes_of_trace_returnedLate :
    (((system ℕ).after returnedLate).inc (.object 8)).1 = .ok 43 ∧
      ∃ n, (((system ℕ).after returnedLate).inc (.object 9)).1 = .ok n := by
  have hcard := live_eq_ncard trace_returnedLate
  have hlive : ((system ℕ).after returnedLate).javaObjs.live = 2 := rfl
  constructor
  · exact ((passes_of_trace trace_returnedLate 8).1 43 (by decide) (by decide)).trans (by decide)
  · obtain ⟨n, hn, -⟩ := (passes_of_trace trace_returnedLate 9).2 (by simp [returnedLate])
      (by decide) (by omega)
    exact ⟨n, hn⟩

/-- Unless the map was ever full, exactly the objects that Go holds are kept from the garbage
collector, each once. -/
theorem kept_exactly_of_trace (h : (system O).Trace calls t)
    (hroom : ∀ p, .inc p (.error (.inMap .indexOutOfBounds)) ∉ calls) :
    (∀ o, t.javaRefs o ≠ none ↔ ∃ n, .inc (.object o) (.ok n) ∈ calls ∧ Holds calls n) ∧
      t.javaObjs.live = {n | Holds calls n}.ncard := by
  have htight : ∀ o n, t.javaRefs o = some n → t.ledger.entry n ≠ none := by
    unfold System.Trace at h
    induction h with
    | refl => exact fun o n hn => by cases hn
    | snoc hprev hnext ih =>
      have hadvances := (kept_of_trace hprev).1.step hnext
      intro o n hn hnone
      obtain ⟨hbefore, hold | ⟨p, hfull⟩⟩ := hadvances.unheld o n hn hnone
      · exact ih (fun p hin => hroom p (List.mem_append_left _ hin)) o n hold hbefore
      · exact hroom p (hfull ▸ by simp)
  refine ⟨fun o => ⟨fun hne => ?_, fun ⟨n, hin, hn⟩ => ?_⟩, live_eq_ncard h⟩
  · obtain ⟨n, hn⟩ := Option.ne_none_iff_exists'.mp hne
    have hholds : Holds calls n := (holds_iff h n).1.mpr
      (Option.ne_none_iff_exists'.mp fun hnone => htight o n hn (Kept.entry_eq_none hnone))
    obtain ⟨o', hin, -⟩ := handed_of_holds h hholds
    obtain rfl := (owned_of_trace h o' n hin).owner o hn
    exact ⟨n, hin, hholds⟩
  · obtain ⟨o', hin', hrefs, -⟩ := handed_of_holds h hn
    obtain rfl := (owned_of_trace h o n hin).once o' hin'
    rw [hrefs]
    exact Option.some_ne_none _

/-- The two objects that Go holds at last are kept, the first one under its new number. -/
theorem kept_exactly_of_trace_returnedLate :
    ((system ℕ).after returnedLate).javaRefs 7 ≠ none :=
  ((kept_exactly_of_trace trace_returnedLate (by simp [returnedLate])).1 7).mpr
    ⟨44, by decide, by decide⟩

end IpfsMobile.Seq.RefTracker
