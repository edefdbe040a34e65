import ProtobufEdit.Loop
import ProtobufEdit.Varint.Slice

/-!
# Grouped source designations

A designation names one complete record by its exact bytes and its framing facts, a group with
its whole closure and matching end tag. `tryCanonical` judges its framing words once against the
canonical-minimal standard: LEN interiors are opaque, group interiors are structural wire.
-/

namespace ProtobufEdit.Source.Grouped

open Wire Wire.Grouped Varint Loop

/-- Why a designation was refused; `pos` is `at`. -/
inductive Fault where
  | incompleteRecord (pos : Nat)
  | notSourceBacked
  | kindMismatch (actual : RecordKind)
  | dialectMismatch (actual : RecordKind)
  | standardMismatch (pos : Nat) (stage : Stage)
  deriving DecidableEq, Repr

/-- The framing partition: for a group the delimiter is the matching end tag. -/
structure Geometry where
  tagW : Nat
  delimW : Option Nat
  payloadLen : Nat
  deriving DecidableEq, Repr

structure RecordRef where
  bytes : List UInt8
  field : FieldNumber
  kind : RecordKind
  geometry : Geometry
  canonical : Bool
  groupDepth : Nat
  deriving DecidableEq, Repr

namespace RecordRef

/-- A walk of a group's closure; `depth` counts the open groups. -/
structure Closure where
  pos : Nat
  depth : Nat
  deriving DecidableEq, Repr

/-- A walk's verdict; nothing stands for an unreachable arm. -/
abbrev Verdict := Option (Except Fault Unit)

/-- A varint record's value, in a closure. -/
def closureValue (bytes : List UInt8) (c : Closure) (field : FieldNumber) (valueAt : Nat) :
    Turn Closure Verdict :=
  match Slice.value64 bytes valueAt bytes.length with
  | .error _ => .halt none
  | .ok (value, width) =>
    if encodedLen64 value < width then
      .halt (some (.error (.standardMismatch valueAt (.value field))))
    else .next { c with pos := valueAt + width }

/-- A LEN record, in a closure: its interior is skipped whole. -/
def closureLen (bytes : List UInt8) (c : Closure) (field : FieldNumber) (valueAt : Nat) :
    Turn Closure Verdict :=
  match Slice.lenWord bytes valueAt bytes.length with
  | .error _ => .halt none
  | .ok (len, width) =>
    if encodedLen32 len < width then
      .halt (some (.error (.standardMismatch valueAt (.lenPrefix field))))
    else .next { c with pos := valueAt + width + len }

/-- One turn of `canonical_closure`. -/
def closureTurn (bytes : List UInt8) (c : Closure) : Turn Closure Verdict :=
  if c.depth = 0 then .halt (some (.ok ()))
  else
    match Slice.tagWord bytes c.pos bytes.length with
    | .error _ => .halt none
    | .ok (word, width) =>
      if encodedLen32 word < width then .halt (some (.error (.standardMismatch c.pos .tag)))
      else
        match FieldNumber.fromWord word with
        | none => .halt none
        | some field =>
          let valueAt := c.pos + width
          match classify (Low3.fromWord word) with
          | .record .varint => closureValue bytes c field valueAt
          | .record .i32 => .next { c with pos := valueAt + 4 }
          | .record .i64 => .next { c with pos := valueAt + 8 }
          | .record .len => closureLen bytes c field valueAt
          | .record .group => .next ⟨valueAt, c.depth + 1⟩
          | .groupEnd => .next ⟨valueAt, c.depth - 1⟩
          | .unassigned => .halt none

/-- `canonical_closure`. Every turn but the last reads a byte. -/
def canonicalClosure (bytes : List UInt8) (pos : Nat) : Verdict :=
  (run (closureTurn bytes) (bytes.length + 1) ⟨pos, 1⟩).join

/-- What `try_canonical` judges behind the head tag. -/
def canonicalBody (ref : RecordRef) : Verdict :=
  let tagW := ref.geometry.tagW
  match ref.kind with
  | .varint =>
    match Slice.value64 ref.bytes tagW ref.bytes.length with
    | .error _ => none
    | .ok (value, width) =>
      if encodedLen64 value < width then some (.error (.standardMismatch tagW (.value ref.field)))
      else some (.ok ())
  | .len =>
    if encodedLen32 ref.geometry.payloadLen < ref.geometry.delimW.getD 0 then
      some (.error (.standardMismatch tagW (.lenPrefix ref.field)))
    else some (.ok ())
  | .group => canonicalClosure ref.bytes tagW
  | .i32 | .i64 => some (.ok ())

/-- The canonical proof that a designation carries. -/
def tryCanonical (ref : RecordRef) : Option (Except Fault RecordRef) :=
  if ref.canonical then some (.ok ref)
  else if encodedLen32 (headWord ref.field ref.kind) < ref.geometry.tagW then
    some (.error (.standardMismatch 0 .tag))
  else ref.canonicalBody.map fun verdict => verdict.map fun _ => { ref with canonical := true }

end RecordRef

end ProtobufEdit.Source.Grouped
