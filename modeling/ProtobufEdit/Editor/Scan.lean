import ProtobufEdit.Cursor
import ProtobufEdit.Editor.Row
import ProtobufEdit.Loop

/-!
# The layer scan

One layer of bytes is scanned into rows behind the arena's end. The groups open around the
position are the arena's own parent links.
-/

namespace ProtobufEdit.Editor

open Wire Wire.Grouped Varint Arena Loop

/-! ## Faults -/

inductive FaultKind where
  | tag (fault : Slice.ReadFault)
  | fieldZero
  | unassigned (field : FieldNumber) (low3 : Low3)
  | len (field : FieldNumber) (fault : Slice.ReadFault)
  | value (field : FieldNumber) (fault : Slice.ReadFault)
  | payloadCut (field : FieldNumber) (need holds : Nat)
  | groupEndMismatch (opened found : FieldNumber)
  | groupEndOrphan (found : FieldNumber)
  | groupUnclosed (opened : FieldNumber)
  deriving DecidableEq, Repr

structure Fault where
  pos : Nat
  kind : FaultKind
  deriving DecidableEq, Repr

inductive Refusal where
  | nonMinimalTag (pos width : Nat)
  | nonMinimalLen (pos : Nat) (field : FieldNumber) (width : Nat)
  | nonMinimalValue (pos : Nat) (field : FieldNumber) (width : Nat)
  | depthExceeded (pos : Nat) (field : FieldNumber)
  | groupCode (pos : Nat) (field : FieldNumber) (low3 : Low3)
  deriving DecidableEq, Repr

/-- Why a layer scan halted. -/
inductive Halt where
  | wire (fault : Fault)
  | refused (refusal : Refusal)
  | exhausted
  deriving DecidableEq, Repr

def haltWire (pos : Nat) (kind : FaultKind) : Halt := .wire ⟨pos, kind⟩

inductive TagClass where
  | record (kind : RecordKind)
  | groupEnd
  | groupCode
  | unassigned
  deriving DecidableEq, Repr

def classify (dialect : Dialect) (low3 : Low3) : TagClass :=
  match dialect with
  | .grouped =>
    match Wire.Grouped.classify low3 with
    | .record kind => .record kind
    | .groupEnd => .groupEnd
    | .unassigned => .unassigned
  | .groupless =>
    match Wire.Groupless.classify low3 with
    | .record .varint => .record .varint
    | .record .i64 => .record .i64
    | .record .len => .record .len
    | .record .i32 => .record .i32
    | .groupCode => .groupCode
    | .unassigned => .unassigned

/-! ## One construct -/

/-- A tag at `pos`: its field, its code and its width. -/
def scanTag (standard : Standard) (data : List UInt8) (pos : Nat) :
    Except Halt (FieldNumber × Low3 × Nat) :=
  match Slice.tagWord data pos data.length with
  | .error fault => .error (haltWire pos (.tag fault))
  | .ok (word, tagWidth) =>
    if widthPadded tagWidth word standard encodedLen32 then
      .error (.refused (.nonMinimalTag pos tagWidth))
    else
      match FieldNumber.fromWord word with
      | none => .error (haltWire pos .fieldZero)
      | some field => .ok (field, Low3.fromWord word, tagWidth)

/-- What stands behind a tag: the payload's length, the prefix's width and the record's end. -/
structure Extent where
  payloadLen : Nat
  delimWidth : Option Nat
  recordEnd : Nat
  deriving DecidableEq, Repr

def scanFixed (need : Nat) (data : List UInt8) (valueAt : Nat) (field : FieldNumber) :
    Except Halt Extent :=
  if data.length - valueAt < need then
    .error (haltWire valueAt (.payloadCut field need (data.length - valueAt)))
  else .ok ⟨need, none, valueAt + need⟩

/-- A record's extent; a group's is patched at its end tag. -/
def scanExtent (standard : Standard) (data : List UInt8) (valueAt : Nat) (field : FieldNumber) :
    RecordKind → Except Halt Extent
  | .varint =>
    match Slice.value64 data valueAt data.length with
    | .error fault => .error (haltWire valueAt (.value field fault))
    | .ok (value, width) =>
      if widthPadded width value standard encodedLen64 then
        .error (.refused (.nonMinimalValue valueAt field width))
      else .ok ⟨width, none, valueAt + width⟩
  | .i32 => scanFixed 4 data valueAt field
  | .i64 => scanFixed 8 data valueAt field
  | .len =>
    match Slice.lenWord data valueAt data.length with
    | .error fault => .error (haltWire valueAt (.len field fault))
    | .ok (len, width) =>
      if widthPadded width len standard encodedLen32 then
        .error (.refused (.nonMinimalLen valueAt field width))
      else if data.length < valueAt + width + len then
        .error (haltWire (valueAt + width)
          (.payloadCut field len (data.length - (valueAt + width))))
      else .ok ⟨len, some width, valueAt + width + len⟩
  | .group => .ok ⟨0, none, valueAt⟩

/-! ## The loop -/

/-- A scan: the arena, the layer's first row, the innermost group it holds open, how many
containers are open, the previous sibling and the position. -/
structure Scan where
  rows : List (Cell Row)
  first : Option Nat
  opened : Option Nat
  openDepth : Nat
  last : Option Nat
  pos : Nat
  deriving DecidableEq, Repr

/-- `mint_row`, `mint_insert`. -/
def mintRow (rows : List (Cell Row)) : Option Nat :=
  if rows.length ≤ rowMax then some rows.length else none

/-- The columns a scanned width lands in. -/
def column (standard : Standard) (width : Option Nat) : Option Nat :=
  match standard with
  | .tolerant => width
  | .canonicalMinimal => none

/-- A group's end tag, `tagWidth` wide. -/
def Scan.close (standard : Standard) (parent : Option Nat) (field : FieldNumber) (tagWidth : Nat)
    (s : Scan) : Except Halt Scan :=
  match s.opened with
  | none => .error (haltWire s.pos (.groupEndOrphan field))
  | some group =>
    let c := s.rows.getD group default
    if c.body.field ≠ field then
      .error (haltWire s.pos (.groupEndMismatch c.body.field field))
    else
      .ok
        { s with
          rows := s.rows.modify group (Cell.map fun r =>
            { r with
              payloadLen := s.pos - (r.start + r.tagW standard)
              delimWidth := column standard (some tagWidth) })
          opened := if c.parent = parent then none else c.parent
          openDepth := s.openDepth - 1
          last := some group
          pos := s.pos + tagWidth }

/-- A record's row, linked behind the previous sibling. -/
def Scan.push (standard : Standard) (parent : Option Nat) (field : FieldNumber)
    (kind : RecordKind) (tagWidth : Nat) (e : Extent) (s : Scan) : Except Halt Scan :=
  match mintRow s.rows with
  | none => .error .exhausted
  | some id =>
    let row := Row.scanned field kind s.pos e.payloadLen (column standard (some tagWidth))
      (column standard e.delimWidth)
    let linked :=
      match s.last with
      | some prev => s.rows.modify prev fun c => { c with next := some id }
      | none =>
        match s.opened with
        | some group => s.rows.modify group fun c => { c with kid := some id }
        | none => s.rows
    .ok
      { rows := linked ++ [⟨s.opened.or parent, none, none, row⟩]
        first := if s.last = none ∧ s.opened = none then some id else s.first
        opened := if kind = .group then some id else s.opened
        openDepth := if kind = .group then s.openDepth + 1 else s.openDepth
        last := if kind = .group then none else some id
        pos := e.recordEnd }

/-- One construct. -/
def Scan.construct (dialect : Dialect) (standard : Standard) (data : List UInt8)
    (parent : Option Nat) (bound : Nat) (s : Scan) : Except Halt Scan :=
  match scanTag standard data s.pos with
  | .error halt => .error halt
  | .ok (field, low3, tagWidth) =>
    match classify dialect low3 with
    | .groupEnd => s.close standard parent field tagWidth
    | .groupCode => .error (.refused (.groupCode s.pos field low3))
    | .unassigned => .error (haltWire s.pos (.unassigned field low3))
    | .record kind =>
      if kind = .group ∧ s.openDepth = bound then
        .error (.refused (.depthExceeded s.pos field))
      else
        match scanExtent standard data (s.pos + tagWidth) field kind with
        | .error halt => .error halt
        | .ok e => s.push standard parent field kind tagWidth e

abbrev Scanned := Except Halt (List (Cell Row) × Option Nat)

def Scan.turn (dialect : Dialect) (standard : Standard) (data : List UInt8) (parent : Option Nat)
    (bound : Nat) (s : Scan) : Turn Scan Scanned :=
  if s.pos < data.length then
    match s.construct dialect standard data parent bound with
    | .error halt => .halt (.error halt)
    | .ok s' => .next s'
  else
    match s.opened with
    | some group =>
      let r := (s.rows.getD group default).body
      .halt (.error (haltWire r.start (.groupUnclosed r.field)))
    | none => .halt (.ok (s.rows, s.first))

/-- Scans `bytes[start..stop]` under `parent`; `depth` counts the containers open around it. -/
def scanLayer (dialect : Dialect) (standard : Standard) (rows : List (Cell Row))
    (bytes : List UInt8) (start stop : Nat) (parent : Option Nat) (depth : Nat)
    (limit : DepthLimit) : Scanned :=
  -- A turn reads at least one byte, so the loop never runs out.
  (run (Scan.turn dialect standard (bytes.take stop) parent limit.asInner) (stop - start + 1)
    ⟨rows, none, none, depth, none, start⟩).getD (.error .exhausted)

end ProtobufEdit.Editor
