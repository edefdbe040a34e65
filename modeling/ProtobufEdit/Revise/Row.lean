import ProtobufEdit.Editor.Save

/-!
# The edit algebra, rows and the store

What a revising machine keeps of a record. The plain and the transfer-capable machines are one
model: a plain machine holds no transfer state and no alias. The tolerant and the canonical
ones differ in what a row remembers of its widths.
-/

namespace ProtobufEdit.Revise

open Wire Wire.Groupless Varint Base128 Arena

/-! ## The edit algebra -/

/-- A row's edit state. A value is a coordinate of the store, a row one of the arena. -/
inductive Edit where
  | intact
  | replaced (value : Nat)
  | deleted (value : Option Nat)
  | inserted (value : Nat)
  | insertedDeleted (value : Nat)
  | moved (destination : Nat)
  | sourceRecord
  | sourceRecordDeleted
  | sourcePayload (row : Nat)
  | sourcePayloadDeleted (row : Nat)
  | sourceInserted (row : Nat)
  | sourceInsertedDeleted (row : Nat)
  | imported (value : Nat)
  | importedDeleted (value : Nat)
  deriving DecidableEq, Repr

/-- Which bytes speak for a row's value side. -/
inductive Speaker where
  | scanned
  | store (value : Nat)
  | sourceRow (row : Nat)
  deriving DecidableEq, Repr

namespace Edit

def speaker : Edit → Speaker
  | intact | deleted none | moved _ | sourceRecord | sourceRecordDeleted | imported _
  | importedDeleted _ => .scanned
  | replaced v | deleted (some v) | inserted v | insertedDeleted v => .store v
  | sourcePayload row | sourcePayloadDeleted row | sourceInserted row
  | sourceInsertedDeleted row => .sourceRow row

/-- The state alone makes the row dirty; a ghost is not. -/
def ownDirty : Edit → Bool
  | intact | insertedDeleted _ | sourceRecordDeleted | sourceInsertedDeleted _
  | importedDeleted _ => false
  | _ => true

end Edit

/-! ## The store -/

/-- `ValueAt`'s top value. -/
def valueMax : Nat := 4294967294

/-- `At32::MAX + 1`, where the byte column's end must stay. -/
def columnMax : Nat := 4294967295

/-- `mint`. -/
def mint (len : Nat) : Option Nat := if len ≤ valueMax then some len else none

structure Store where
  varints : List Nat
  bits32 : List Nat
  bits64 : List Nat
  bytes : List UInt8
  spans : List (Nat × Nat)
  deriving DecidableEq, Repr

namespace Store

def new : Store := ⟨[], [], [], [], []⟩

def pushVarint (s : Store) (word : Nat) : Option (Store × Nat) :=
  (mint s.varints.length).map fun value => ({ s with varints := s.varints ++ [word] }, value)

def pushBits32 (s : Store) (bits : Nat) : Option (Store × Nat) :=
  (mint s.bits32.length).map fun value => ({ s with bits32 := s.bits32 ++ [bits] }, value)

def pushBits64 (s : Store) (bits : Nat) : Option (Store × Nat) :=
  (mint s.bits64.length).map fun value => ({ s with bits64 := s.bits64 ++ [bits] }, value)

def pushBytes (s : Store) (payload : List UInt8) : Option (Store × Nat) :=
  match mint s.spans.length with
  | none => none
  | some value =>
    if columnMax < s.bytes.length + payload.length then none
    else
      some
        ({ s with
          bytes := s.bytes ++ payload
          spans := s.spans ++ [(s.bytes.length, payload.length)] }, value)

def stageMark (s : Store) : Nat := s.bytes.length

def stageChunk (s : Store) (chunk : List UInt8) : Option Store :=
  if columnMax < s.bytes.length + chunk.length then none
  else some { s with bytes := s.bytes ++ chunk }

def stageChunkReserved (s : Store) (chunk : List UInt8) : Store :=
  { s with bytes := s.bytes ++ chunk }

def stageAbandon (s : Store) (mark : Nat) : Store := { s with bytes := s.bytes.take mark }

/-- `stage_reserve`: the judgment alone. -/
def stageReserves (s : Store) (len : Nat) : Bool := s.bytes.length + len ≤ columnMax

def stageFinish (s : Store) (mark : Nat) : Option (Store × Nat) :=
  (mint s.spans.length).map fun value =>
    ({ s with spans := s.spans ++ [(mark, s.stageMark - mark)] }, value)

def varint (s : Store) (value : Nat) : Nat := s.varints.getD value 0

def bits32At (s : Store) (value : Nat) : Nat := s.bits32.getD value 0

def bits64At (s : Store) (value : Nat) : Nat := s.bits64.getD value 0

def span (s : Store) (value : Nat) : Nat × Nat := s.spans.getD value (0, 0)

def spanBytes (s : Store) (value : Nat) : List UInt8 :=
  (s.bytes.drop (s.span value).1).take (s.span value).2

/-- A scalar's authored word, as its kind emits it. -/
def word (s : Store) (kind : RecordKind) (value : Nat) : Editor.Word :=
  match kind with
  | .varint => .varint (s.varint value)
  | .i32 => .bits32 (s.bits32At value)
  | _ => .bits64 (s.bits64At value)

end Store

/-! ## Rows -/

/-- A subtree aggregate. -/
inductive Mark where
  | dirt
  | hist
  deriving DecidableEq, Repr

/-- A materialized layer, less its first row, which is its container's `kid`. `source` is the run
of rows a source scan minted: the first, and one past the last. -/
structure Layer where
  last : Option Nat
  dirtyKids : Nat
  historyKids : Nat
  source : Option (Nat × Nat)
  deriving DecidableEq, Repr

namespace Layer

def count : Mark → Layer → Nat
  | .dirt, layer => layer.dirtyKids
  | .hist, layer => layer.historyKids

def setCount (mark : Mark) (n : Nat) (layer : Layer) : Layer :=
  match mark with
  | .dirt => { layer with dirtyKids := n }
  | .hist => { layer with historyKids := n }

end Layer

inductive Slot where
  | unopened
  | opened (layer : Layer)
  | fault (index : Nat)
  deriving DecidableEq, Repr

/-- A row, less its links. The canonical machines keep no width: they derive both. -/
structure Row where
  field : FieldNumber
  /-- `at`. -/
  start : Option Nat
  /-- `end`. -/
  stop : Nat
  edit : Edit
  kind : RecordKind
  slot : Slot
  tagWidth : Option Nat
  delimWidth : Option Nat
  dirty : Bool
  dead : Bool
  authoredZone : Bool
  ownHist : Bool
  hist : Bool
  isAlias : Bool
  deriving DecidableEq, Repr

/-- The minimal width of a record's head tag. -/
def headWidth (field : FieldNumber) (kind : RecordKind) : Nat := encodedLen32 (headWord field kind)

namespace Row

def scanned (field : FieldNumber) (kind : RecordKind) (start stop : Nat)
    (tagWidth delimWidth : Option Nat) (authored : Bool) : Row :=
  { field, kind, stop, tagWidth, delimWidth, start := some start, edit := .intact,
    slot := .unopened, dirty := false, dead := false, authoredZone := authored, ownHist := false,
    hist := false, isAlias := false }

/-- A row born of a command, as its own ghost: `authored` and `transfer_authored`. -/
def authored (field : FieldNumber) (kind : RecordKind) (ghost : Edit) : Row :=
  { field, kind, stop := 0, tagWidth := none, delimWidth := none, start := none, edit := ghost,
    slot := .unopened, dirty := false, dead := false, authoredZone := false, ownHist := false,
    hist := false, isAlias := false }

def clonedAlias (r : Row) : Row :=
  { r with
    edit := .sourceRecordDeleted, slot := .unopened, dirty := false, dead := false
    authoredZone := false, ownHist := false, hist := false, isAlias := true }

def tagW (standard : Standard) (r : Row) : Nat :=
  match standard with
  | .tolerant => r.tagWidth.getD 0
  | .canonicalMinimal => headWidth r.field r.kind

def flag : Mark → Row → Bool
  | .dirt, r => r.dirty
  | .hist, r => r.hist

def setFlag (mark : Mark) (b : Bool) (r : Row) : Row :=
  match mark with
  | .dirt => { r with dirty := b }
  | .hist => { r with hist := b }

/-- The row holds the mark by itself. -/
def own : Mark → Row → Bool
  | .dirt, r => r.edit.ownDirty
  | .hist, r => r.ownHist

/-- How many rows of the row's opened layer hold the mark. -/
def kids (mark : Mark) (r : Row) : Nat :=
  match r.slot with
  | .opened layer => layer.count mark
  | _ => 0

def setDead (r : Row) : Row := { r with dead := true }

end Row

instance : Inhabited Row := ⟨.authored default .varint (.insertedDeleted 0)⟩

instance : Inhabited (Cell Row) := ⟨⟨none, none, none, default⟩⟩

/-- An undo step: the row, the state to restore, and whether the step opened the row's pending
history. -/
structure Transition where
  row : Nat
  past : Edit
  fresh : Bool
  deriving DecidableEq, Repr

end ProtobufEdit.Revise
