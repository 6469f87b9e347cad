import IpfsMobile.Java.Arrays

/-!
# The map of references

`RefMap` maps reference numbers to `Ref` objects with two parallel arrays, sorted by key. A
removed entry leaves its key behind without an object. Only when the arrays are full are
they compacted, and made longer if most of the entries are in use. An object is known by
its identity here, in any type.
-/

namespace IpfsMobile.Seq

open Java

/-- How a call on the map ends that does not return. -/
inductive MapFault where
  /-- "put a null ref (with key " + key + ")" -/
  | nullRef (key : ℤ)
  /-- "replacing an existing ref (with key " + key + ")" -/
  | replacing (key : ℤ)
  /-- "bad state: live=" + live + ", next=" + next -/
  | badState (live : ℤ) (next : ℕ)
  | indexOutOfBounds
  | negativeArraySize
  /-- A loop that does not end. -/
  | noReturn
  deriving DecidableEq, Repr

/-- The map, with the arrays `keys` and `objs`. -/
structure RefMap (α : Type) where
  /-- The number of entries, those without an object included. -/
  next : ℕ := 0
  /-- The number of entries with an object. -/
  live : ℤ := 0
  keys : List ℤ := List.replicate 16 0
  objs : List (Option α) := List.replicate 16 none
  deriving DecidableEq, Repr

/-- The loop of `roundPow2`; it has gone through all values of `p` after 32 turns. -/
def roundPow2Loop (x : ℤ) : ℕ → ℤ → Option ℤ
  | 0, _ => none
  | fuel + 1, p => if p < x then roundPow2Loop x fuel (int32 (p * 2)) else some p

/-- `roundPow2`, undefined where the loop does not end. -/
def roundPow2 (x : ℤ) : Option ℤ := roundPow2Loop x 34 1

namespace RefMap

variable {α : Type}

/-- `get`. -/
def get (m : RefMap α) (key : ℤ) : Option α :=
  let i := binarySearch m.keys m.next key
  if 0 ≤ i then m.objs[i.toNat]?.join else none

/-- `remove`. -/
def remove (m : RefMap α) (key : ℤ) : RefMap α :=
  let i := binarySearch m.keys m.next key
  if 0 ≤ i then
    if m.objs[i.toNat]?.join.isSome then
      { m with objs := m.objs.set i.toNat none, live := m.live - 1 }
    else m
  else m

/-- The loop of `grow` that moves the entries with an object to the front of the new arrays.
These may be the old ones, so that what a turn reads is what the turns before have left. -/
def compactLoop (inPlace : Bool) (keys : List ℤ) (objs : List (Option α)) :
    ℕ → List ℤ × List (Option α) × ℕ → List ℤ × List (Option α) × ℕ
  | 0, new => new
  | turns + 1, new =>
    let (newKeys, newObjs, j) := compactLoop inPlace keys objs turns new
    let (fromKeys, fromObjs) := if inPlace then (newKeys, newObjs) else (keys, objs)
    match fromObjs[turns]?.join with
    | some obj => (newKeys.set j (fromKeys[turns]?.getD 0), newObjs.set j (some obj), j + 1)
    | none => (newKeys, newObjs, j)

/-- The rest of `grow`, once the new arrays are chosen. -/
def compact (m : RefMap α) (inPlace : Bool) (newKeys : List ℤ) (newObjs : List (Option α)) :
    Except MapFault Unit × RefMap α :=
  let (newKeys, newObjs, j) :=
    compactLoop inPlace m.keys m.objs m.keys.length (newKeys, newObjs, 0)
  let m := { m with keys := fill newKeys j 0, objs := fill newObjs j none, next := j }
  if m.live ≠ m.next then (.error (.badState m.live m.next), m) else (.ok (), m)

/-- `grow`. -/
def grow (m : RefMap α) : Except MapFault Unit × RefMap α :=
  match roundPow2 m.live with
  | none => (.error .noReturn, m)
  | some p =>
    if m.keys.length < int32 (2 * p) then
      let length := int32 (m.keys.length * 2)
      if length < 0 then (.error .negativeArraySize, m)
      else m.compact false (List.replicate length.toNat 0) (List.replicate length.toNat none)
    else m.compact true m.keys m.objs

section Put

variable [DecidableEq α]

/-- `put` where the key has an entry. -/
def putAt (m : RefMap α) (i : ℕ) (key : ℤ) (obj : α) : Except MapFault Unit × RefMap α :=
  let m := if m.objs[i]?.join = none then
    { m with objs := m.objs.set i (some obj), live := m.live + 1 } else m
  if m.objs[i]?.join ≠ some obj then (.error (.replacing key), m) else (.ok (), m)

/-- `put` where the key gets an entry. -/
def insertAt (m : RefMap α) (i : ℕ) (key : ℤ) (obj : α) : Except MapFault Unit × RefMap α :=
  match shift m.keys i m.next, shift m.objs i m.next with
  | some keys, some objs =>
    if i < m.keys.length then
      (.ok (), { m with keys := keys.set i key, objs := objs.set i (some obj),
                        live := m.live + 1, next := m.next + 1 })
    else (.error .indexOutOfBounds, m)
  | _, _ => (.error .indexOutOfBounds, m)

/-- `put`. The complement of a negative index is an index. -/
def put (m : RefMap α) (key : ℤ) : Option α → Except MapFault Unit × RefMap α
  | none => (.error (.nullRef key), m)
  | some obj =>
    let i := binarySearch m.keys m.next key
    if 0 ≤ i then m.putAt i.toNat key obj
    else if m.keys.length ≤ m.next then
      match m.grow with
      | (.error e, m) => (.error e, m)
      | (.ok (), m) => m.insertAt (-binarySearch m.keys m.next key - 1).toNat key obj
    else m.insertAt (-i - 1).toNat key obj

end Put

end RefMap

end IpfsMobile.Seq
