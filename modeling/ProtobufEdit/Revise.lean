import ProtobufEdit.Revise.Scan

/-!
# The groupless revising machines

The arena of rows under the edit algebra: descents, the commands, the undo log, and the two
marks every row keeps of its subtree. Rows and values only grow; a record is edited by a
transition of its state, and the transition is what the log keeps.
-/

namespace ProtobufEdit.Revise

open Wire Wire.Groupless Varint Base128 Arena
open Editor (SlotFault Descent InsertAt project)
open Editor.Machine (slice importValueAt importLen)

/-! ## Vocabulary -/

inductive EditFault where
  | deadHandle
  | kindMismatch (kind : RecordKind)
  | deletedTarget
  | notDeleted
  | notClearable
  | targetUnopened
  | insideAuthoredBody
  | editedInterior
  | payloadTooLarge (len : Nat)
  | sourceNotBacked
  | sourceModified
  | moveIntoSource
  | indexSpaceExhausted
  /-- `FrameFault::OverDeclared`, `FrameFault::UnderDeclared`. -/
  | overDeclared (declared total : Nat)
  | underDeclared (declared staged : Nat)
  /-- The arena gate's panic at a handle that was never minted. -/
  | forged
  /-- The unchecked read of an offset the row does not have. -/
  | absent
  deriving DecidableEq, Repr

inductive EditStatus where
  | intact
  | replaced
  | deleted
  | inserted
  | insertedDeleted
  | moved
  deriving DecidableEq, Repr

inductive PayloadTarget where
  | replace (handle : Nat)
  | insert (anchor : InsertAt) (field : FieldNumber)
  deriving DecidableEq, Repr

/-- An insertion's resolved splice point. -/
structure Plan where
  parent : Option Nat
  prev : Option Nat
  deriving DecidableEq, Repr

/-- A designated external record: `RecordRef`, at a canonical host `CanonicalRecordRef`. -/
structure RecordRef (standard : Standard) where
  record : Cursor.Record
  lawful : record.Lawful standard

/-- `Session`, `Review` and their transfer twins are canonical, `Draft` and `Markup` tolerant.
`cap` is the most bytes a document weighs: `admission::MAX`, or the carrier's `DocBytes::CAP`.
`top` and `root` are the root layer, `layers` and `runs` how long the tables of layers and of
source runs are: a layer stands on the row that holds it. The log's newest step is its first. -/
structure Machine (standard : Standard) where
  cap : Nat
  source : List UInt8
  rows : List (Cell Row)
  store : Store
  faults : List SlotFault
  log : List Transition
  top : Option Nat
  root : Layer
  layers : Nat
  runs : Nat
  deriving DecidableEq, Repr

inductive OpenFault where
  | tooLarge (len : Nat)
  | wire (fault : Editor.Fault)
  | refused (refusal : Editor.Refusal)
  | resource
  deriving DecidableEq, Repr

/-- `open`. -/
def openSource (standard : Standard) (cap : Nat) (source : List UInt8) :
    Except OpenFault (Machine standard) :=
  if cap < source.length then .error (.tooLarge source.length)
  else
    match scanLayer standard [] source false 0 source.length none with
    | .error (.wire fault) => .error (.wire fault)
    | .error (.refused refusal) => .error (.refused refusal)
    | .error .exhausted => .error .resource
    | .ok (rows, first, last) =>
      .ok
        { cap, source, rows, store := .new, faults := [], log := [], top := first,
          root := ⟨last, 0, 0, first.map fun id => (id, rows.length)⟩, layers := 0,
          runs := if first.isSome then 1 else 0 }

namespace Machine

variable {standard : Standard}

/-! ## The arena -/

/-- A minted row. -/
def row (m : Machine standard) (id : Nat) : Cell Row := m.rows.getD id default

def gate (m : Machine standard) (handle : Nat) : Except EditFault (Cell Row) :=
  match m.rows[handle]? with
  | some c => .ok c
  | none => .error .forged

def live (m : Machine standard) (handle : Nat) : Except EditFault (Cell Row) :=
  match m.gate handle with
  | .error fault => .error fault
  | .ok c => if c.body.dead then .error .deadHandle else .ok c

def withStore (m : Machine standard) (store : Store) : Machine standard := { m with store }

def setRow (m : Machine standard) (id : Nat) (f : Row → Row) : Machine standard :=
  { m with rows := m.rows.modify id (Cell.map f) }

/-- `set_slot`, with the layer's first row. -/
def setSlot (m : Machine standard) (id : Nat) (slot : Slot) (first : Option Nat) :
    Machine standard :=
  { m with
    rows := m.rows.modify id fun c => { c with kid := first, body := { c.body with slot := slot } } }

def firstOf (m : Machine standard) : Option Nat → Option Nat
  | none => m.top
  | some id => (m.row id).kid

/-- The layer that holds the rows with this parent. Live rows sit in materialized layers. -/
def holdingLayer (m : Machine standard) : Option Nat → Layer
  | none => m.root
  | some id =>
    match (m.row id).body.slot with
    | .opened layer => layer
    | _ => ⟨none, 0, 0, none⟩

/-- `holding_layer_mut`, and what is done there. -/
def onLayer (m : Machine standard) (parent : Option Nat) (f : Layer → Layer) : Machine standard :=
  match parent with
  | none => { m with root := f m.root }
  | some id =>
    m.setRow id fun r =>
      match r.slot with
      | .opened layer => { r with slot := .opened (f layer) }
      | _ => r

/-! ## Zones -/

/-- The bytes a row's geometry indexes. -/
def backing (m : Machine standard) (r : Row) : List UInt8 :=
  if r.authoredZone then m.store.bytes else m.source

def scannedAt (r : Row) : Except EditFault Nat :=
  match r.start with
  | some start => .ok start
  | none => .error .absent

/-- A scanned LEN's payload: where it stands, and how long it is. -/
def lenGeometry (m : Machine standard) (r : Row) (start : Nat) : Nat × Nat :=
  match standard with
  | .tolerant =>
    let payloadAt := start + r.tagW .tolerant + r.delimWidth.getD 0
    (payloadAt, r.stop - payloadAt)
  | .canonicalMinimal =>
    let prefixAt := start + headWidth r.field .len
    let payloadAt :=
      prefixAt + encodedLen64 ((Slice.value64Unchecked (m.backing r) prefixAt).getD 0)
    (payloadAt, r.stop - payloadAt)

def designatedPayload (m : Machine standard) (src : Nat) : Except EditFault (Nat × Nat) :=
  let r := (m.row src).body
  (scannedAt r).map (m.lenGeometry r)

def importSlot (m : Machine standard) (value : Nat) : List UInt8 := m.store.spanBytes value

/-- The nearest slot-bearing row from a link up is an import. -/
def underImport (rows : List (Cell Row)) : Nat → Option Nat → Bool
  | 0, _ => false
  | _ + 1, none => false
  | fuel + 1, some id =>
    let c := rows.getD id default
    match c.body.edit with
    | .imported _ | .importedDeleted _ => true
    | .replaced _ | .deleted (some _) | .inserted _ | .insertedDeleted _ => false
    | _ => underImport rows fuel c.parent

def importZoneRow (m : Machine standard) (c : Cell Row) : Bool :=
  c.body.isAlias && underImport m.rows m.rows.length c.parent

/-- The gate of rows scanned out of an authored payload. -/
def browseOnly (m : Machine standard) (c : Cell Row) : Bool :=
  c.body.authoredZone && !m.importZoneRow c

/-! ## Reads -/

def status (m : Machine standard) (handle : Nat) : Except EditFault EditStatus :=
  (m.live handle).map fun c =>
    match c.body.edit with
    | .intact => if c.body.isAlias then .inserted else .intact
    | .replaced _ => if c.body.isAlias then .inserted else .replaced
    | .deleted _ => if c.body.isAlias then .insertedDeleted else .deleted
    | .sourcePayload _ => .replaced
    | .inserted _ | .sourceRecord | .sourceInserted _ | .imported _ => .inserted
    | .insertedDeleted _ | .sourceRecordDeleted | .sourceInsertedDeleted _
    | .importedDeleted _ => .insertedDeleted
    | .sourcePayloadDeleted _ => .deleted
    | .moved _ => .moved

/-- A scalar's bytes at a position, by its kind. -/
def readScalar (kind : RecordKind) (zone : List UInt8) (pos : Nat) : Nat :=
  match kind with
  | .varint => (Slice.value64Unchecked zone pos).getD 0
  | .i32 => fromLeBytes (slice zone pos (pos + 4))
  | _ => fromLeBytes (slice zone pos (pos + 8))

/-- `scan_varint`, `scan_bits32` and `scan_bits64`. -/
def scanScalar (m : Machine standard) (r : Row) (start : Nat) : Nat :=
  readScalar r.kind (m.backing r) (start + r.tagW standard)

def storeScalar (m : Machine standard) (kind : RecordKind) (value : Nat) : Nat :=
  match kind with
  | .varint => m.store.varint value
  | .i32 => m.store.bits32At value
  | _ => m.store.bits64At value

/-- `varint_word`, `i32_bits` and `i64_bits`. -/
def scalarOf (m : Machine standard) (want : RecordKind) (handle : Nat) : Except EditFault Nat :=
  match m.live handle with
  | .error fault => .error fault
  | .ok c =>
    let r := c.body
    if r.kind ≠ want then .error (.kindMismatch r.kind)
    else
      match r.edit with
      | .replaced v | .deleted (some v) | .inserted v | .insertedDeleted v =>
        .ok (m.storeScalar want v)
      | .imported v | .importedDeleted v =>
        .ok (readScalar want (m.importSlot v) (importValueAt (m.importSlot v)))
      -- Payload designations land on LEN rows alone.
      | .sourcePayload _ | .sourcePayloadDeleted _ | .sourceInserted _
      | .sourceInsertedDeleted _ => .error .forged
      | .intact | .deleted none | .moved _ | .sourceRecord | .sourceRecordDeleted =>
        (scannedAt r).map (m.scanScalar r)

/-- A window of bytes: where it stands and how long it is. -/
def window (zone : List UInt8) (span : Nat × Nat) : List UInt8 :=
  slice zone span.1 (span.1 + span.2)

/-- The payload inside an imported LEN's bytes. -/
def importPayload (m : Machine standard) (value : Nat) : List UInt8 :=
  let bytes := m.importSlot value
  window bytes (importValueAt bytes + (importLen bytes).1, (importLen bytes).2)

def payloadBytes (m : Machine standard) (handle : Nat) : Except EditFault (List UInt8) :=
  match m.live handle with
  | .error fault => .error fault
  | .ok c =>
    let r := c.body
    if r.kind ≠ .len then .error (.kindMismatch r.kind)
    else
      match r.edit with
      | .replaced v | .deleted (some v) | .inserted v | .insertedDeleted v =>
        .ok (m.store.spanBytes v)
      | .sourcePayload src | .sourcePayloadDeleted src | .sourceInserted src
      | .sourceInsertedDeleted src =>
        (m.designatedPayload src).map (window (m.backing (m.row src).body))
      | .imported v | .importedDeleted v => .ok (m.importPayload v)
      | .intact | .deleted none | .moved _ | .sourceRecord | .sourceRecordDeleted =>
        (scannedAt r).map fun start => window (m.backing r) (m.lenGeometry r start)

/-- `record_ref`: the record's source bytes. -/
def recordRef (m : Machine standard) (handle : Nat) : Except EditFault (List UInt8) :=
  match m.gate handle with
  | .error fault => .error fault
  | .ok c =>
    let r := c.body
    if r.dead ∨ r.authoredZone ∨ r.isAlias then .error .sourceNotBacked
    else
      match r.edit with
      | .intact | .replaced _ | .sourcePayload _ =>
        (scannedAt r).map fun start => slice (m.backing r) start r.stop
      | _ => .error .sourceNotBacked

end Machine

end ProtobufEdit.Revise
