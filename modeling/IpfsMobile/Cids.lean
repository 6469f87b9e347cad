import IpfsMobile.Go.Call
import Mathlib.Tactic.Common

/-!
# The CID helpers

`DagCid`, `JsonToCbor` and `DagCidBytes` compute content identifiers of DAG-JSON and
DAG-CBOR documents. The codecs, the node builder and the hashing are a parameter.
`DagCid` and `JsonToCbor` overwrite the decoder's error before they look at it, and
the file determines the inputs on which this shows.
-/

namespace IpfsMobile.Cids

open Go

/-- `cid.Prefix`: how a CID is computed from an encoded document. -/
structure CidPrefix where
  codec : ℕ
  mhLength : Int
  mhType : ℕ
  version : ℕ
  deriving DecidableEq, Repr

/-- `cidPrefix`: version 1, DAG-CBOR, SHA2-256 of its natural length. -/
def cidPrefix : CidPrefix where
  codec := 0x71
  mhLength := -1
  mhType := 0x12
  version := 1

/-- What a decoder leaves behind: the node if the builder is finished, and its error. -/
structure Decoded (Node : Type) where
  node : Option Node
  err : Option Err

/-- The library functions the helpers call. -/
structure Codecs (Node Cid : Type) where
  /-- `dagjson.Decode` into a fresh builder. -/
  jsonDecode : List Byte → Decoded Node
  /-- `dagcbor.Decode` into a fresh builder. -/
  cborDecode : List Byte → Decoded Node
  /-- `dagcbor.Encode`. -/
  cborEncode : Node → Except Err (List Byte)
  /-- `Prefix.Sum`. -/
  sum : CidPrefix → List Byte → Except Err Cid
  /-- `Cid.String`. -/
  cidString : Cid → Str

/-- `dagcbor.Decode` of an output of `dagcbor.Encode` succeeds with a node that
encodes to the same bytes. -/
def Codecs.CborRoundTrip {Node Cid : Type} (c : Codecs Node Cid) : Prop :=
  ∀ node bs, c.cborEncode node = .ok bs →
    ∃ node', c.cborDecode bs = ⟨some node', none⟩ ∧ c.cborEncode node' = .ok bs

section Helpers

variable {Node Cid : Type} (c : Codecs Node Cid)

/-- `if err != nil { panic(err) }` -/
def orPanic {α : Type} : Except Err α → Except Panic α
  | .ok a => .ok a
  | .error e => .error (.value e.error)

/-- `nb.Build()`: a builder that is not finished panics. -/
def Decoded.build (d : Decoded Node) : Except Panic Node :=
  match d.node with
  | some node => .ok node
  | none => .error .library

/-- The common end of `DagCid` and `DagCidBytes`: encode the node, hash it and write
the CID as a string. -/
def cidOf (node : Node) : Except Panic Str := do
  let buf ← orPanic (c.cborEncode node)
  let cid ← orPanic (c.sum cidPrefix buf)
  .ok (c.cidString cid)

/-- `JsonToCbor`. The error of decoding is overwritten by that of encoding. -/
def jsonToCbor (json : Str) : Except Panic (List Byte) := do
  let node ← (c.jsonDecode json).build
  orPanic (c.cborEncode node)

/-- `DagCid`. The error of decoding is overwritten by that of encoding. -/
def dagCid (data : Str) : Except Panic Str := do
  let node ← (c.jsonDecode data).build
  cidOf c node

/-- The decoder `DagCidBytes` chooses by its format argument. -/
def decoderOf (format : Str) : Except Panic (List Byte → Decoded Node) :=
  if format = str "json" then .ok c.jsonDecode
  else if format = str "cbor" then .ok c.cborDecode
  else .error (.value (str "format should be json or cbor"))

/-- `DagCidBytes`. Here the decoder's error is looked at. -/
def dagCidBytes (data : List Byte) (format : Str) : Except Panic Str := do
  let decode ← decoderOf c format
  let d := decode data
  match d.err with
  | some e => .error (.value e.error)
  | none =>
    let node ← d.build
    cidOf c node

/-- The three ways to the CID of a JSON text: directly, byte-wise, and through CBOR. -/
def cidPaths (s : Str) : List (Except Panic Str) :=
  [dagCid c s, dagCidBytes c s (str "json"), jsonToCbor c s >>= (dagCidBytes c · (str "cbor"))]

/-- The three ways all return one CID, or all fail. -/
def Agree (s : Str) : Prop :=
  (∃ cid, ∀ r ∈ cidPaths c s, r = .ok cid) ∨ ∀ r ∈ cidPaths c s, ∃ p, r = .error p

/-- Decoding `s` as JSON completes a node that has a CID, and yet reports an error. -/
def DecodesWithError (s : Str) : Prop :=
  ∃ node e buf cid, c.jsonDecode s = ⟨some node, some e⟩ ∧
    c.cborEncode node = .ok buf ∧ c.sum cidPrefix buf = .ok cid

/-- `DagCid` returns a CID exactly when the builder is finished with a node that has an
encoding and a hash. -/
theorem dagCid_ok_iff (s t : Str) :
    dagCid c s = .ok t ↔ ∃ node buf cid, (c.jsonDecode s).node = some node ∧
      c.cborEncode node = .ok buf ∧ c.sum cidPrefix buf = .ok cid ∧ c.cidString cid = t := by
  unfold dagCid Decoded.build cidOf
  cases (c.jsonDecode s).node with
  | none => simp [Bind.bind, Except.bind]
  | some node =>
    cases henc : c.cborEncode node with
    | error e => simp [orPanic, henc, Bind.bind, Except.bind]
    | ok buf =>
      cases hsum : c.sum cidPrefix buf with
      | error e => simp [orPanic, henc, hsum, Bind.bind, Except.bind]
      | ok cid => simp [orPanic, henc, hsum, Bind.bind, Except.bind]

/-- What `DagCidBytes` does with a JSON text: it is `DagCid` unless decoding reports an error. -/
theorem dagCidBytes_json (s : Str) :
    dagCidBytes c s (str "json") =
      match (c.jsonDecode s).err with
      | some e => .error (.value e.error)
      | none => dagCid c s := by
  have hformat : decoderOf c (str "json") = .ok c.jsonDecode := if_pos rfl
  simp only [dagCidBytes, hformat, dagCid, Bind.bind, Except.bind]

/-- The way through CBOR is `DagCid` again: it ignores the same error, and the decoded
node has the bytes it was decoded from. -/
theorem jsonToCbor_bind_dagCidBytes (h : c.CborRoundTrip) (s : Str) :
    (jsonToCbor c s >>= (dagCidBytes c · (str "cbor"))) = dagCid c s := by
  have hformat : decoderOf c (str "cbor") = .ok c.cborDecode := by
    rw [decoderOf, if_neg (by decide), if_pos rfl]
  unfold jsonToCbor dagCid Decoded.build
  cases (c.jsonDecode s).node with
  | none => rfl
  | some node =>
    cases henc : c.cborEncode node with
    | error e => simp [cidOf, orPanic, henc, Bind.bind, Except.bind]
    | ok buf =>
      obtain ⟨node', hdec, henc'⟩ := h node buf henc
      simp [dagCidBytes, hformat, hdec, Decoded.build, cidOf, orPanic, henc, henc', Bind.bind,
        Except.bind]

/-- The three helpers agree on a text exactly when decoding it does not both report an
error and complete a node that has a CID. -/
theorem agree_iff (h : c.CborRoundTrip) (s : Str) : Agree c s ↔ ¬DecodesWithError c s := by
  simp only [Agree, cidPaths, List.forall_mem_cons, List.not_mem_nil, false_imp_iff,
    implies_true, and_true, dagCidBytes_json, jsonToCbor_bind_dagCidBytes c h]
  cases herr : (c.jsonDecode s).err with
  | none =>
    refine iff_of_true ?_ ?_
    · cases hdag : dagCid c s with
      | ok cid => exact Or.inl ⟨cid, rfl, rfl, rfl⟩
      | error p => exact Or.inr ⟨⟨p, rfl⟩, ⟨p, rfl⟩, ⟨p, rfl⟩⟩
    · rintro ⟨node, e, buf, cid, hdec, -⟩
      simp [hdec] at herr
  | some e =>
    cases hdag : dagCid c s with
    | ok cid =>
      obtain ⟨node, buf, cid', hnode, henc, hsum, -⟩ := (dagCid_ok_iff c s cid).mp hdag
      have hdec : c.jsonDecode s = ⟨some node, some e⟩ := by
        rw [← hnode, ← herr]
      refine iff_of_false ?_ (not_not.mpr ⟨node, e, buf, cid', hdec, henc, hsum⟩)
      rintro (⟨t, -, hbytes, -⟩ | ⟨⟨p, hp⟩, -⟩)
      · cases hbytes
      · cases hp
    | error p =>
      refine iff_of_true (Or.inr ⟨⟨p, rfl⟩, ⟨_, rfl⟩, ⟨p, rfl⟩⟩) ?_
      rintro ⟨node, e', buf, cid, hdec, henc, hsum⟩
      have hok : dagCid c s = .ok (c.cidString cid) :=
        (dagCid_ok_iff c s _).mpr ⟨node, buf, cid, by rw [hdec], henc, hsum, rfl⟩
      rw [hdag] at hok
      cases hok

end Helpers

/-- The library functions on the texts of an empty JSON object, alone and with a
letter after it; the only node is the empty map. -/
def emptyMapCodecs : Codecs Unit Str where
  jsonDecode data :=
    if data = str "\x7b\x7d" then ⟨some (), none⟩
    else if data = str "\x7b\x7d x" then
      ⟨some (), some (.other (str "unexpected content after end of json object"))⟩
    else ⟨none, some .eof⟩
  cborDecode data := if data = [0xa0] then ⟨some (), none⟩ else ⟨none, some .eof⟩
  cborEncode _ := .ok [0xa0]
  sum _ _ := .ok (str "bafyreigbtj4x7ip5legnfznufuopl4sg4knzc2cof6duas4b3q2fy6swua")
  cidString cid := cid

/-- The empty map survives the way through CBOR. -/
theorem emptyMapCodecs_cborRoundTrip : emptyMapCodecs.CborRoundTrip := by
  intro node bs henc
  obtain rfl : [0xa0] = bs := Except.ok.inj henc
  exact ⟨(), rfl, rfl⟩

/-- The three helpers agree on the text of an empty object. -/
theorem agree_iff_empty_object :
    Agree emptyMapCodecs (str "\x7b\x7d") ↔ ¬DecodesWithError emptyMapCodecs (str "\x7b\x7d") :=
  agree_iff emptyMapCodecs emptyMapCodecs_cborRoundTrip (str "\x7b\x7d")

/-- An object followed by a letter has a CID for `DagCid` and makes `DagCidBytes` panic. -/
theorem not_agree_trailing_content :
    emptyMapCodecs.CborRoundTrip ∧ ¬Agree emptyMapCodecs (str "\x7b\x7d x") := by
  refine ⟨emptyMapCodecs_cborRoundTrip, ?_⟩
  rintro (⟨cid, h⟩ | h)
  · cases h _ (List.mem_cons_of_mem _ (List.mem_cons_self))
  · obtain ⟨p, hp⟩ := h _ List.mem_cons_self
    cases hp

end IpfsMobile.Cids
