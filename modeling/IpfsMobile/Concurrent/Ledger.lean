import IpfsMobile.Concurrent.Transition
import Mathlib.Tactic.Common

/-!
# A ledger of counted references

One party hands out objects under numbers, and another holds them: it may be handed an
object again, count it once more, and give it back. The ledger has an entry for a number as
long as it is held. What it says at the end of a run is what the postings add up to.
-/

namespace Concurrent

/-- The object under each number that is held, and how often it is. -/
structure Ledger (N O : Type) where
  entry : N → Option (O × ℕ)

/-- What happens to a number. -/
inductive Posting (N O : Type) where
  /-- The object is handed out under the number. -/
  | credit (n : N) (o : O)
  /-- The number is counted once more. -/
  | raise (n : N)
  /-- The number is given back once. -/
  | debit (n : N)
  deriving DecidableEq, Repr

namespace Posting

variable {N O : Type} [DecidableEq N]

/-- The posting counts a number up. -/
def gives (n : N) : Posting N O → Bool
  | credit n' _ => n' = n
  | raise n' => n' = n
  | debit _ => false

/-- The posting counts a number down. -/
def takes (n : N) : Posting N O → Bool
  | debit n' => n' = n
  | _ => false

end Posting

namespace Ledger

variable {N O : Type} [DecidableEq N]

/-- How often a number was counted up. -/
def given (n : N) (ps : List (Posting N O)) : ℕ := ps.countP (·.gives n)

/-- How often a number was counted down. -/
def taken (n : N) (ps : List (Posting N O)) : ℕ := ps.countP (·.takes n)

/-- A number gets a new entry. -/
def write (l : Ledger N O) (n : N) (e : Option (O × ℕ)) : Ledger N O :=
  ⟨Function.update l.entry n e⟩

/-- Make a posting. Another object is not handed out under a number that is held, and a number
that is not held is neither raised nor given back. -/
def post [DecidableEq O] (l : Ledger N O) : Posting N O → Option (Ledger N O)
  | .credit n o =>
    match l.entry n with
    | none => some (l.write n (some (o, 1)))
    | some (o', k) => if o' = o then some (l.write n (some (o, k + 1))) else none
  | .raise n =>
    match l.entry n with
    | none => none
    | some (o, k) => some (l.write n (some (o, k + 1)))
  | .debit n =>
    match l.entry n with
    | none => none
    | some (o, k) => some (l.write n (if k ≤ 1 then none else some (o, k - 1)))

/-- A ledger that starts empty. -/
def system (N O : Type) [DecidableEq N] [DecidableEq O] : System (Ledger N O) (Posting N O) where
  init := ⟨fun _ => none⟩
  step := post

/-- How often a number is held. -/
def count (l : Ledger N O) (n : N) : ℕ := (l.entry n).elim 0 Prod.snd

/-- The entries are what the postings add up to. -/
structure Balanced (ps : List (Posting N O)) (l : Ledger N O) : Prop where
  /-- A number with an entry is held. -/
  pos : ∀ n o k, l.entry n = some (o, k) → 0 < k
  /-- The object of an entry was handed out under the number. -/
  credited : ∀ n o k, l.entry n = some (o, k) → .credit n o ∈ ps
  /-- A number is held as often as it was counted up and not down. -/
  count_add : ∀ n, l.count n + taken n ps = given n ps

/-- What a posting does: one number gets a new entry, for the object it has or is handed out
with, and is held once more or once less. -/
inductive Posts (l : Ledger N O) : Posting N O → N → Option (O × ℕ) → Prop
  | first {n o} : l.entry n = none → Posts l (.credit n o) n (some (o, 1))
  | again {n o k} : l.entry n = some (o, k) → Posts l (.credit n o) n (some (o, k + 1))
  | raise {n o k} : l.entry n = some (o, k) → Posts l (.raise n) n (some (o, k + 1))
  | last {n o k} : l.entry n = some (o, k) → k ≤ 1 → Posts l (.debit n) n none
  | debit {n o k} : l.entry n = some (o, k) → 1 < k → Posts l (.debit n) n (some (o, k - 1))

/-- Every posting that is made does one of these. -/
theorem posts_of_post [DecidableEq O] {l l' : Ledger N O} {p : Posting N O}
    (h : l.post p = some l') : ∃ n e, Posts l p n e ∧ l' = l.write n e := by
  cases p with
  | credit n o =>
    simp only [post] at h
    split at h
    · exact ⟨n, _, .first ‹_›, (Option.some.inj h).symm⟩
    · split at h
      · rename_i heq
        subst heq
        exact ⟨n, _, .again ‹_›, (Option.some.inj h).symm⟩
      · cases h
  | raise n =>
    simp only [post] at h
    split at h
    · cases h
    · exact ⟨n, _, .raise ‹_›, (Option.some.inj h).symm⟩
  | debit n =>
    simp only [post] at h
    split at h
    · cases h
    · rename_i o k hentry
      by_cases hk : k ≤ 1
      · rw [if_pos hk] at h
        exact ⟨n, _, .last hentry hk, (Option.some.inj h).symm⟩
      · rw [if_neg hk] at h
        exact ⟨n, _, .debit hentry (by omega), (Option.some.inj h).symm⟩

/-- The entry of a number after a new one is written. -/
theorem entry_write (l : Ledger N O) (n m : N) (e : Option (O × ℕ)) :
    (l.write n e).entry m = if m = n then e else l.entry m := Function.update_apply ..

/-- What has no entry after another was written had none before. -/
theorem entry_none_of_write {l : Ledger N O} {n m : N} {e : O × ℕ}
    (h : (l.write n (some e)).entry m = none) : l.entry m = none := by
  rw [entry_write] at h
  split at h
  · cases h
  · exact h

/-- The other numbers are neither counted up nor down. -/
theorem Posts.other {l : Ledger N O} {p : Posting N O} {n m : N} {e : Option (O × ℕ)}
    (h : Posts l p n e) (hm : m ≠ n) : p.gives m = false ∧ p.takes m = false := by
  cases h <;> simp [Posting.gives, Posting.takes, hm.symm]

/-- A posting keeps the books of its number. -/
theorem Posts.own {ps : List (Posting N O)} {l : Ledger N O} {p : Posting N O} {n : N}
    {e : Option (O × ℕ)} (h : Posts l p n e) (hl : Balanced ps l) :
    (∀ o k, e = some (o, k) → 0 < k ∧ .credit n o ∈ ps ++ [p]) ∧
      e.elim 0 Prod.snd + taken n (ps ++ [p]) = given n (ps ++ [p]) := by
  have hcount := hl.count_add n
  have hcredited : ∀ {o k}, l.entry n = some (o, k) → .credit n o ∈ ps ++ [p] :=
    fun hentry => List.mem_append_left _ (hl.credited n _ _ hentry)
  rw [count] at hcount
  rw [taken, given, List.countP_append, List.countP_append, ← taken, ← given]
  cases h with
  | first hentry =>
    rw [hentry] at hcount
    refine ⟨fun o k heq => ?_, ?_⟩
    · obtain ⟨rfl, rfl⟩ := Prod.mk.inj (Option.some.inj heq)
      exact ⟨Nat.zero_lt_one, by simp⟩
    · simp [Posting.gives, Posting.takes] at hcount ⊢
      omega
  | again hentry | raise hentry =>
    rw [hentry] at hcount
    refine ⟨fun o k heq => ?_, ?_⟩
    · obtain ⟨rfl, rfl⟩ := Prod.mk.inj (Option.some.inj heq)
      exact ⟨Nat.succ_pos _, hcredited hentry⟩
    · simp [Posting.gives, Posting.takes] at hcount ⊢
      omega
  | last hentry hk =>
    have hpos := hl.pos n _ _ hentry
    rw [hentry] at hcount
    refine ⟨fun o k heq => (by cases heq), ?_⟩
    simp [Posting.gives, Posting.takes] at hcount ⊢
    omega
  | debit hentry hk =>
    rw [hentry] at hcount
    refine ⟨fun o k heq => ?_, ?_⟩
    · obtain ⟨rfl, rfl⟩ := Prod.mk.inj (Option.some.inj heq)
      exact ⟨by omega, hcredited hentry⟩
    · simp [Posting.gives, Posting.takes] at hcount ⊢
      omega

/-- Every posting keeps the balance. -/
theorem Balanced.post [DecidableEq O] {ps : List (Posting N O)} {l l' : Ledger N O}
    {p : Posting N O} (h : Balanced ps l) (hpost : l.post p = some l') :
    Balanced (ps ++ [p]) l' := by
  obtain ⟨n, e, hposts, rfl⟩ := posts_of_post hpost
  obtain ⟨hown, hcount⟩ := hposts.own h
  refine ⟨fun m o k hentry => ?_, fun m o k hentry => ?_, fun m => ?_⟩
  · rw [entry_write] at hentry
    split at hentry
    · exact (hown o k hentry).1
    · exact h.pos m o k hentry
  · rw [entry_write] at hentry
    split at hentry
    · rename_i heq
      subst heq
      exact (hown o k hentry).2
    · exact List.mem_append_left _ (h.credited m o k hentry)
  · rw [count, entry_write]
    split
    · rename_i heq
      subst heq
      exact hcount
    · rename_i hne
      obtain ⟨hgives, htakes⟩ := hposts.other hne
      have hold := h.count_add m
      rw [taken, given, List.countP_append, List.countP_append, ← taken, ← given]
      simpa [count, hgives, htakes] using hold

/-- The ledger is balanced in every state it reaches. -/
theorem balanced_of_trace [DecidableEq O] {ps : List (Posting N O)} {l : Ledger N O}
    (h : (system N O).Trace ps l) : Balanced ps l := by
  unfold System.Trace at h
  induction h with
  | refl =>
    refine ⟨fun n o k hentry => ?_, fun n o k hentry => ?_, fun n => rfl⟩ <;> cases hentry
  | snoc _ hnext ih => exact ih.post hnext

end Ledger

end Concurrent
