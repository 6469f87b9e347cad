import Mathlib.Data.List.Basic
import Mathlib.Tactic.Common

/-!
# Objects behind pointers

Two variables of a Go program may point to the same object, so that a change through
one is seen through the other. A heap keeps the objects apart from the pointers to them:
a new object gets a pointer that nobody holds, and a change in place reaches whoever
holds the pointer.
-/

namespace Go

/-- A pointer that is not nil. -/
abbrev Ref := ℕ

/-- The objects of one type, each under its pointer. -/
structure Heap (α : Type) where
  cells : List α
  deriving DecidableEq, Repr

namespace Heap

variable {α : Type}

/-- The object behind a pointer. -/
def read (h : Heap α) (r : Ref) : Option α := h.cells[r]?

/-- The pointer of the next object. -/
def fresh (h : Heap α) : Ref := h.cells.length

/-- A new object under the next pointer. -/
def alloc (h : Heap α) (a : α) : Heap α := ⟨h.cells ++ [a]⟩

/-- Change the object behind a pointer in place. -/
def write (h : Heap α) (r : Ref) (a : α) : Heap α := ⟨h.cells.set r a⟩

/-- There is an object behind the pointer. -/
def Valid (h : Heap α) (r : Ref) : Prop := r < h.cells.length

instance (h : Heap α) (r : Ref) : Decidable (h.Valid r) := inferInstanceAs (Decidable (_ < _))

/-- The object behind a valid pointer. -/
def get (h : Heap α) (r : Ref) (hr : h.Valid r) : α := h.cells.get ⟨r, hr⟩

/-- A valid pointer has an object behind it. -/
theorem read_eq_get {h : Heap α} {r : Ref} (hr : h.Valid r) : h.read r = some (h.get r hr) :=
  List.getElem?_eq_getElem hr

/-- A new object changes nothing behind the other pointers. -/
theorem read_alloc {h : Heap α} {r : Ref} (hr : h.Valid r) (a : α) :
    (h.alloc a).read r = h.read r := by
  simp [read, alloc, List.getElem?_append_left hr]

/-- The pointer of a new object is valid. -/
theorem valid_fresh (h : Heap α) (a : α) : (h.alloc a).Valid h.fresh := by
  simp [Valid, alloc, fresh]

/-- A new object leaves the other pointers valid. -/
theorem Valid.alloc {h : Heap α} {r : Ref} (hr : h.Valid r) (a : α) : (h.alloc a).Valid r := by
  have hlen : (h.alloc a).cells.length = h.cells.length + 1 := by simp [Heap.alloc]
  rw [Valid, hlen]
  exact Nat.lt_succ_of_lt hr

/-- A new object is behind its pointer. -/
theorem read_fresh (h : Heap α) (a : α) : (h.alloc a).read h.fresh = some a := by
  simp [read, alloc, fresh]

/-- What is read after a new object was made is this object or was there before. -/
theorem read_alloc_cases {h : Heap α} {r : Ref} {a b : α} (hr : (h.alloc a).read r = some b) :
    h.read r = some b ∨ b = a := by
  by_cases hvalid : h.Valid r
  · rw [read_alloc hvalid] at hr
    exact Or.inl hr
  · rw [read, alloc, List.getElem?_append_right (Nat.le_of_not_lt hvalid)] at hr
    exact Or.inr (List.mem_singleton.mp (List.mem_of_getElem? hr))

/-- A new object that is changed at once is a new object. -/
theorem write_fresh (h : Heap α) (a b : α) : (h.alloc a).write h.fresh b = h.alloc b := by
  simp [write, alloc, fresh]

/-- A change in place is a change behind one pointer. -/
theorem read_write {h : Heap α} {r : Ref} (hr : h.Valid r) (a : α) (r' : Ref) :
    (h.write r a).read r' = if r' = r then some a else h.read r' := by
  have hlt : r < h.cells.length := hr
  simp only [read, write, List.getElem?_set]
  split <;> simp_all [eq_comm]

/-- A pointer with an object behind it is valid. -/
theorem valid_of_read {h : Heap α} {r : Ref} {a : α} (hr : h.read r = some a) : h.Valid r :=
  (List.getElem?_eq_some_iff.mp hr).1

/-- A change in place leaves all pointers valid. -/
theorem Valid.write {h : Heap α} {r r' : Ref} (hr : h.Valid r') (a : α) :
    (h.write r a).Valid r' := by
  simpa only [Valid, Heap.write, List.length_set] using hr

/-- A change in place is seen behind its pointer. -/
theorem get_write {h : Heap α} {r : Ref} (hr : h.Valid r) (a : α) :
    (h.write r a).get r (hr.write a) = a := by
  simp [get, write]

end Heap

end Go
