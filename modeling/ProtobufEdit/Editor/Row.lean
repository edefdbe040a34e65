import ProtobufEdit.Arena
import ProtobufEdit.Varint
import ProtobufEdit.Wire

/-!
# Rows and stores

What the one-shot editors keep of a record, and the columns their authored values stand in.
The two dialects' editors are one model: a groupless editor meets no group. So are the plain
and the transfer-capable: a plain editor holds no row of base `src` and no zone mark.
-/

namespace ProtobufEdit.Editor

open Wire Wire.Grouped Varint Arena

/-! ## Rows -/

inductive Dialect where
  | groupless
  | grouped
  deriving DecidableEq, Repr

/-- `Row.state` bits 0-1: which side speaks for the value. -/
inductive Base where
  | intact
  | replaced
  | inserted
  | src
  deriving DecidableEq, Repr

/-- `Row.state` bits 6-7: which bytes back the geometry. -/
inductive Zone where
  | document
  | aliased
  | aliasRoot
  | imported
  deriving DecidableEq, Repr

/-- A row, less its links. `tagWidth` and `delimWidth` are the tolerant editors' columns: the
canonical ones derive both widths. -/
structure Row where
  field : FieldNumber
  kind : RecordKind
  start : Nat
  payloadLen : Nat
  value : Nat
  tagWidth : Option Nat
  delimWidth : Option Nat
  base : Base
  zone : Zone
  deleted : Bool
  opened : Bool
  faulted : Bool
  dirty : Bool
  deriving DecidableEq, Repr

/-- `SRC_PAYLOAD`. -/
def srcPayload : Nat := 2147483648

/-- `SRC_PAYLOAD_NEW`. -/
def srcPayloadNew : Nat := 4294967295

/-- `RowId`'s top value. -/
def rowMax : Nat := 2147483646

/-- `u32::MAX`. -/
def u32Max : Nat := 4294967295

inductive SrcValue where
  | imported (slot : Nat)
  | payloadRe (row : Nat)
  | payloadNew
  deriving DecidableEq, Repr

/-- The minimal width of a record's head tag. -/
def headWidth (field : FieldNumber) (kind : RecordKind) : Nat := encodedLen32 (headWord field kind)

namespace Row

def scanned (field : FieldNumber) (kind : RecordKind) (start payloadLen : Nat)
    (tagWidth delimWidth : Option Nat) : Row :=
  ⟨field, kind, start, payloadLen, 0, tagWidth, delimWidth, .intact, .document,
    false, false, false, false⟩

def authored (field : FieldNumber) (kind : RecordKind) (value : Nat) : Row :=
  ⟨field, kind, 0, 0, value, none, none, .inserted, .document, false, false, false, false⟩

def srcValue (r : Row) : SrcValue :=
  if r.value < srcPayload then .imported r.value
  else if r.value = srcPayloadNew then .payloadNew
  else .payloadRe (r.value - srcPayload)

def isAlias (r : Row) : Bool := r.zone != .document

def importZone (r : Row) : Bool := r.zone == .imported

/-- The geometry columns name a span of the row's zone. -/
def hasGeometry (standard : Standard) (r : Row) : Bool :=
  match standard with
  | .tolerant => r.tagWidth.isSome
  | .canonicalMinimal =>
    match r.base with
    | .intact | .replaced => true
    | .inserted => false
    | .src => srcPayload ≤ r.value && r.value != srcPayloadNew

def tagW (standard : Standard) (r : Row) : Nat :=
  match standard with
  | .tolerant => r.tagWidth.getD 0
  | .canonicalMinimal => if r.hasGeometry .canonicalMinimal then headWidth r.field r.kind else 0

def delimW (standard : Standard) (r : Row) : Nat :=
  match standard with
  | .tolerant => r.delimWidth.getD 0
  | .canonicalMinimal =>
    if r.hasGeometry .canonicalMinimal then
      match r.kind with
      | .len => encodedLen32 r.payloadLen
      | .group => headWidth r.field r.kind
      | _ => 0
    else 0

def spanEnd (standard : Standard) (r : Row) : Nat :=
  r.start + r.tagW standard + r.delimW standard + r.payloadLen

def payloadAt (standard : Standard) (r : Row) : Nat :=
  match r.kind with
  | .len => r.start + r.tagW standard + r.delimW standard
  | _ => r.start + r.tagW standard

def ridesVerbatim (r : Row) : Bool :=
  r.base == .intact && !r.deleted && !r.dirty && r.zone == .document

def setReplaced (r : Row) : Row := { r with base := .replaced }

def setInserted (r : Row) : Row := { r with base := .inserted }

def setDeleted (r : Row) : Row := { r with deleted := true }

def setOpened (r : Row) : Row := { r with opened := true }

def setDirty (r : Row) : Row := { r with dirty := true }

/-- The base a payload command leaves a row in. -/
def reauthored (r : Row) : Base :=
  match r.base with
  | .intact | .replaced => .replaced
  | .inserted => .inserted
  | .src =>
    match r.srcValue with
    | .payloadRe _ => .replaced
    | .imported _ | .payloadNew => .inserted

end Row

instance : Inhabited Row := ⟨.authored default .varint 0⟩

instance : Inhabited (Cell Row) := ⟨⟨none, none, none, default⟩⟩

/-! ## Stores -/

inductive PayloadSlot where
  | borrowed (bytes : List UInt8)
  | borrowedParts (parts : List (List UInt8))
  | copied (start len : Nat)
  deriving DecidableEq, Repr

/-- How a command supplies a payload. -/
inductive Supply where
  | borrowed (bytes : List UInt8)
  | parts (pieces : List (List UInt8))
  | copied (bytes : List UInt8)
  deriving DecidableEq, Repr

def Supply.bytes : Supply → List UInt8
  | borrowed bytes => bytes
  | parts pieces => pieces.flatten
  | copied bytes => bytes

/-- The `u32` coordinate a column's next entry gets. -/
def mint (len : Nat) : Option Nat := if len ≤ u32Max then some len else none

structure PayloadStore where
  copied : List UInt8
  slots : List PayloadSlot
  deriving DecidableEq, Repr

namespace PayloadStore

def new : PayloadStore := ⟨[], []⟩

/-- A copied extent appended to the column. -/
def stage (s : PayloadStore) (payload : List UInt8) : Option (PayloadStore × PayloadSlot) :=
  let stop := s.copied.length + payload.length
  if stop ≤ u32Max then
    some ({ s with copied := s.copied ++ payload }, .copied (stop - payload.length) payload.length)
  else none

/-- What a supply puts in a slot; a copied one is staged first. -/
def shape (s : PayloadStore) : Supply → Option (PayloadStore × PayloadSlot)
  | .borrowed bytes => some (s, .borrowed bytes)
  | .parts pieces => some (s, .borrowedParts pieces)
  | .copied bytes => s.stage bytes

/-- `push_borrowed`, `push_parts` and `push_copied`. -/
def push (s : PayloadStore) (supply : Supply) : Option (PayloadStore × Nat) :=
  match mint s.slots.length with
  | none => none
  | some slot =>
    match s.shape supply with
    | none => none
    | some (s', entry) => some ({ s' with slots := s'.slots ++ [entry] }, slot)

/-- `set_borrowed`, `set_parts` and `set_copied`. -/
def set (s : PayloadStore) (slot : Nat) (supply : Supply) : Option PayloadStore :=
  match s.shape supply with
  | none => none
  | some (s', entry) => some { s' with slots := s'.slots.set slot entry }

/-- The payload's pieces, in the order they are emitted. -/
def pieces (s : PayloadStore) (slot : Nat) : List (List UInt8) :=
  match s.slots[slot]? with
  | some (.borrowed bytes) => [bytes]
  | some (.borrowedParts parts) => parts
  | some (.copied start len) => [(s.copied.drop start).take len]
  | none => []

def len (s : PayloadStore) (slot : Nat) : Nat :=
  match s.slots[slot]? with
  | some (.borrowed bytes) => bytes.length
  | some (.borrowedParts parts) => (parts.map List.length).sum
  | some (.copied _ len) => len
  | none => 0

def contiguous (s : PayloadStore) (slot : Nat) : Option (List UInt8) :=
  match s.slots[slot]? with
  | some (.borrowed bytes) => some bytes
  | some (.copied start len) => some ((s.copied.drop start).take len)
  | _ => none

def stageMark (s : PayloadStore) : Nat := s.copied.length

def stagedLen (s : PayloadStore) (mark : Nat) : Nat := s.copied.length - mark

def stageChunk (s : PayloadStore) (chunk : List UInt8) : Option PayloadStore :=
  if s.copied.length + chunk.length ≤ u32Max then some { s with copied := s.copied ++ chunk }
  else none

def stageChunkReserved (s : PayloadStore) (chunk : List UInt8) : PayloadStore :=
  { s with copied := s.copied ++ chunk }

def stageAbandon (s : PayloadStore) (mark : Nat) : PayloadStore :=
  { s with copied := s.copied.take mark }

def stageFinishPush (s : PayloadStore) (mark : Nat) : Option (PayloadStore × Nat) :=
  match mint s.slots.length with
  | none => none
  | some slot => some ({ s with slots := s.slots ++ [.copied mark (s.stagedLen mark)] }, slot)

def stageFinishSet (s : PayloadStore) (slot mark : Nat) : PayloadStore :=
  { s with slots := s.slots.set slot (.copied mark (s.stagedLen mark)) }

end PayloadStore

end ProtobufEdit.Editor
