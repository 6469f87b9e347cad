import IpfsMobile.Go.Heap
import IpfsMobile.Seq.RefMapRuns

/-!
# Tracking references

`RefTracker` hands out numbers for the Java objects that are passed to Go, and counts in a
`Ref` how often each was. The map from numbers keeps the objects alive; the map from objects
finds the number of one that is passed again. The methods are synchronized, so that each is
a step. A `Ref` is an object that the tracker and its callers share.
-/

namespace IpfsMobile.Seq

open Concurrent Go

/-- `NULL_REFNUM`. -/
def nullRefnum : ℤ := 41

/-- `Integer.MAX_VALUE`. -/
def maxValue : ℤ := 2 ^ 31 - 1

/-- How a method of the tracker ends that does not return. -/
inductive Thrown (O : Type) where
  | inMap (fault : MapFault)
  /-- "Ref instantiated with a Go refnum " + refnum -/
  | instantiated (refnum : ℤ)
  /-- "refnum " + refnum + " overflow" -/
  | overflow (refnum : ℤ)
  /-- "createRef overflow for " + o -/
  | createRefOverflow (o : O)
  /-- "referenced Java object is not found: refnum=" + refnum -/
  | notFound (refnum : ℤ)
  /-- "ref called with Go refnum " + refnum -/
  | goRefnum (refnum : ℤ)
  /-- "unknown java Ref: " + refnum -/
  | unknown (refnum : ℤ)
  /-- A pointer without an object, which no `Ref` variable is. -/
  | nullPointer
  deriving DecidableEq, Repr

/-- A `Ref`. -/
structure RefObject (O : Type) where
  refnum : ℤ
  /-- How often the object was sent to Go. -/
  refcnt : ℤ
  /-- The object, or null. -/
  obj : Option O
  deriving DecidableEq, Repr

/-- What is passed to Go: null, a proxy for a Go object of this number, or another object. -/
inductive Passed (O : Type) where
  | null
  | proxy (refnum : ℤ)
  | object (o : O)
  deriving DecidableEq, Repr

namespace RefObject

variable {O : Type}

/-- `new Ref(refnum, o)`. -/
def new (refnum : ℤ) (o : O) : Except (Thrown O) (RefObject O) :=
  if refnum < 0 then .error (.instantiated refnum) else .ok ⟨refnum, 0, some o⟩

/-- `inc`. -/
def inc (ref : RefObject O) : Except (Thrown O) (RefObject O) :=
  if ref.refcnt = maxValue then .error (.overflow ref.refnum)
  else .ok { ref with refcnt := ref.refcnt + 1 }

/-- `nullRef`. -/
def null : RefObject O := ⟨nullRefnum, 0, none⟩

end RefObject

/-- The fields of the tracker, and the objects of class `Ref` behind their pointers; the
first is `nullRef`. -/
structure RefTracker (O : Type) where
  /-- The next number, from `REF_OFFSET` on. -/
  next : ℤ := 42
  javaObjs : RefMap Go.Ref := {}
  javaRefs : O → Option ℤ := fun _ => none
  refs : Heap (RefObject O) := ⟨[.null]⟩

namespace RefTracker

variable {O : Type}

/-- `ref.inc()`. -/
def incRef (t : RefTracker O) (r : Go.Ref) : Except (Thrown O) Unit × RefTracker O :=
  match t.refs.read r with
  | none => (.error .nullPointer, t)
  | some ref =>
    match ref.inc with
    | .error e => (.error e, t)
    | .ok ref => (.ok (), { t with refs := t.refs.write r ref })

/-- The part of `inc` that gets the `Ref` of a number, or makes one for the object. -/
def refOf (t : RefTracker O) (refnum : ℤ) (o : O) : Except (Thrown O) Go.Ref × RefTracker O :=
  match t.javaObjs.get refnum with
  | some r => (.ok r, t)
  | none =>
    match RefObject.new refnum o with
    | .error e => (.error e, t)
    | .ok ref =>
      let r := t.refs.fresh
      let put := t.javaObjs.put refnum (some r)
      let t := { t with javaObjs := put.2, refs := t.refs.alloc ref }
      match put.1 with
      | .error fault => (.error (.inMap fault), t)
      | .ok () => (.ok r, t)

/-- The part of `inc` that counts an object with a number once more. -/
def countUp (t : RefTracker O) (refnum : ℤ) (o : O) : Except (Thrown O) ℤ × RefTracker O :=
  match t.refOf refnum o with
  | (.error e, t) => (.error e, t)
  | (.ok r, t) =>
    match t.incRef r with
    | (.error e, t) => (.error e, t)
    | (.ok (), t) => (.ok refnum, t)

/-- `incRefnum`. -/
def incRefnum (t : RefTracker O) (refnum : ℤ) : Except (Thrown O) Unit × RefTracker O :=
  match t.javaObjs.get refnum with
  | none => (.error (.notFound refnum), t)
  | some r => t.incRef r

/-- `get`: the `Ref` of a number. -/
def get (t : RefTracker O) (refnum : ℤ) : Except (Thrown O) Go.Ref :=
  if refnum < 0 then .error (.goRefnum refnum)
  else if refnum = nullRefnum then .ok 0
  else
    match t.javaObjs.get refnum with
    | none => .error (.unknown refnum)
    | some r => .ok r

/-- `getRef(refnum).obj`: the object that a number stands for. -/
def resolve (t : RefTracker O) (refnum : ℤ) : Except (Thrown O) (Option O) :=
  match t.get refnum with
  | .error e => .error e
  | .ok r =>
    match t.refs.read r with
    | none => .error .nullPointer
    | some ref => .ok ref.obj

variable [DecidableEq O]

/-- The part of `inc` that finds the number of an object, or gives it the next one. -/
def refnumOf (t : RefTracker O) (o : O) : Except (Thrown O) (ℤ × RefTracker O) :=
  match t.javaRefs o with
  | some refnum => .ok (refnum, t)
  | none =>
    if t.next = maxValue then .error (.createRefOverflow o)
    else .ok (t.next, { t with next := t.next + 1,
                               javaRefs := Function.update t.javaRefs o (some t.next) })

/-- `inc`. A proxy counts the Go object up by itself. -/
def inc (t : RefTracker O) : Passed O → Except (Thrown O) ℤ × RefTracker O
  | .null => (.ok nullRefnum, t)
  | .proxy refnum => (.ok refnum, t)
  | .object o =>
    match t.refnumOf o with
    | .error e => (.error e, t)
    | .ok (refnum, t) => t.countUp refnum o

/-- `dec`. -/
def dec (t : RefTracker O) (refnum : ℤ) : Except (Thrown O) Unit × RefTracker O :=
  if refnum ≤ 0 then (.ok (), t) -- a Go object, which is logged
  else if refnum = nullRefnum then (.ok (), t)
  else
    match t.javaObjs.get refnum with
    | none => (.error (.notFound refnum), t)
    | some r =>
      match t.refs.read r with
      | none => (.error .nullPointer, t)
      | some ref =>
        let refcnt := ref.refcnt - 1
        let t := { t with refs := t.refs.write r { ref with refcnt := refcnt } }
        if refcnt ≤ 0 then
          (.ok (), { t with
            javaObjs := t.javaObjs.remove refnum
            javaRefs := match ref.obj with
              | some o => Function.update t.javaRefs o none
              | none => t.javaRefs })
        else (.ok (), t)

end RefTracker

/-- A call on the tracker, with what it returned. -/
inductive TrackerCall (O : Type) where
  | inc (o : Passed O) (result : Except (Thrown O) ℤ)
  | incRefnum (refnum : ℤ) (result : Except (Thrown O) Unit)
  | dec (refnum : ℤ) (result : Except (Thrown O) Unit)
  | get (refnum : ℤ) (result : Except (Thrown O) (Option O))
  deriving DecidableEq

namespace RefTracker

variable {O : Type} [DecidableEq O]

/-- Go on to the state after a call, if the call has returned this. -/
def returned {α : Type} [DecidableEq α] (call : α × RefTracker O) (result : α) :
    Option (RefTracker O) :=
  if call.1 = result then some call.2 else none

/-- The calls on a tracker, in any order. -/
def system (O : Type) [DecidableEq O] : System (RefTracker O) (TrackerCall O) where
  init := {}
  step t
    | .inc o result => returned (t.inc o) result
    | .incRefnum refnum result => returned (t.incRefnum refnum) result
    | .dec refnum result => returned (t.dec refnum) result
    | .get refnum result => returned (t.resolve refnum, t) result

end RefTracker

end IpfsMobile.Seq
