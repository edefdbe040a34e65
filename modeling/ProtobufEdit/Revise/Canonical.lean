import ProtobufEdit.Revise.Save

/-!
# The canonical save

A draft's second save: every record of the opened layers, written minimally. Its walks follow
what is visible, not what is dirty.
-/

namespace ProtobufEdit.Revise

open Wire Wire.Groupless Varint Base128 Arena Loop
open Editor (Word SaveFault)
open Editor.Machine (slice importValueAt importLen)

/-- Where a fixed-width value is read from. -/
inductive CanonicalValue where
  | doc (pos : Nat)
  | store (word : Word)
  deriving DecidableEq, Repr

/-- Where an opaque payload is read from. -/
inductive CanonicalPayload where
  | doc (pos len : Nat)
  | store (value : Nat)
  | imported (value : Nat)
  deriving DecidableEq, Repr

inductive CanonicalArm where
  | skip
  | varint (head word : Nat)
  | i32 (head : Nat) (value : CanonicalValue)
  | i64 (head : Nat) (value : CanonicalValue)
  | opaqueLen (head : Nat) (payload : CanonicalPayload)
  | openLen (head pos : Nat)
  deriving DecidableEq, Repr

/-- `CanonicalSrc`. -/
inductive CanonicalSrc where
  | store (value : Nat)
  | doc (start : Nat)
  deriving DecidableEq, Repr

namespace Machine

variable (m : Machine .tolerant)

/-- The rest of `settle_canonical`, by where the row's value stands. -/
def canonicalOf (r : Row) (head : Nat) (source : CanonicalSrc) : CanonicalArm :=
  match r.kind, source with
  | .varint, .store v => .varint head (m.store.varint v)
  | .varint, .doc start => .varint head (m.scanScalar r start)
  | .i32, .store v => .i32 head (.store (.bits32 (m.store.bits32At v)))
  | .i32, .doc start => .i32 head (.doc (start + r.tagW .tolerant))
  | .i64, .store v => .i64 head (.store (.bits64 (m.store.bits64At v)))
  | .i64, .doc start => .i64 head (.doc (start + r.tagW .tolerant))
  | .len, .store v => .opaqueLen head (.store v)
  | .len, .doc start =>
    if r.isOpened then .openLen head start
    else .opaqueLen head (.doc (m.lenGeometry r start).1 (m.lenGeometry r start).2)

/-- An import, whose framing is decoded from its bytes. -/
def canonicalImport (r : Row) (head value : Nat) : CanonicalArm :=
  let bytes := m.importSlot value
  let pos := importValueAt bytes
  match r.kind with
  | .varint => .varint head (readScalar .varint bytes pos)
  | .i32 => .i32 head (.store (.bits32 (readScalar .i32 bytes pos)))
  | .i64 => .i64 head (.store (.bits64 (readScalar .i64 bytes pos)))
  | .len =>
    if r.isOpened ∧ r.dirty then .openLen head (m.store.span value).1
    else .opaqueLen head (.imported value)

/-- `settle_canonical`. -/
def canonicalSettle (r : Row) : Option CanonicalArm :=
  let head := headWord r.field r.kind
  match r.edit with
  | .deleted _ | .insertedDeleted _ | .moved _ | .sourceRecordDeleted | .sourcePayloadDeleted _
  | .sourceInsertedDeleted _ | .importedDeleted _ => some .skip
  | .replaced value | .inserted value => some (m.canonicalOf r head (.store value))
  | .sourcePayload src | .sourceInserted src =>
    (m.designated src).map fun span =>
      if r.isOpened then .openLen head span.1 else .opaqueLen head (.doc span.1 span.2)
  | .imported value => some (m.canonicalImport r head value)
  | .intact | .sourceRecord => r.start.map fun start => m.canonicalOf r head (.doc start)

def canonicalLen : CanonicalPayload → Nat
  | .doc _ len => len
  | .store value => m.spanLen value
  | .imported value => (m.importPayload value).length

end Machine

/-! ## The walks -/

structure CanonicalFrame where
  next : Option Nat
  outer : Nat
  head : Nat
  slot : Nat
  pos : Nat
  deriving DecidableEq, Repr

structure CanonicalSizing where
  cur : Option Nat
  spine : List CanonicalFrame
  acc : Nat
  bodies : List Nat
  deriving DecidableEq, Repr

structure CanonicalEmitting where
  opened : Option Nat
  cur : Option Nat
  cursor : Nat
  emit : Emit
  deriving DecidableEq, Repr

namespace Machine

variable (m : Machine .tolerant)

def canonicalLeafSize : CanonicalArm → Nat
  | .varint head word => encodedLen32 head + encodedLen64 word
  | .i32 head _ => encodedLen32 head + 4
  | .i64 head _ => encodedLen32 head + 8
  | .opaqueLen head payload =>
    let len := m.canonicalLen payload
    encodedLen32 head + encodedLen32 len + len
  | .skip | .openLen .. => 0

def canonicalSizeTurn (s : CanonicalSizing) : Turn CanonicalSizing (Saved (Nat × List Nat)) :=
  match s.cur with
  | none =>
    match s.spine with
    | [] =>
      .halt (if m.cap < s.acc then .refused (.docOverCap s.acc) else .saved (s.acc, s.bodies))
    | frame :: spine =>
      if PayloadLen.max < s.acc then .halt (.refused (.bodyOverCap frame.pos))
      else
        .next ⟨frame.next, spine,
          s.acc + (frame.outer + encodedLen32 frame.head + encodedLen32 s.acc),
          s.bodies.set frame.slot s.acc⟩
  | some id =>
    let c := m.row id
    match m.canonicalSettle c.body with
    | none => .halt .absent
    | some (.openLen head pos) =>
      .next ⟨c.kid, ⟨c.next, s.acc, head, s.bodies.length, pos⟩ :: s.spine, 0, s.bodies ++ [0]⟩
    | some arm => .next ⟨c.next, s.spine, s.acc + m.canonicalLeafSize arm, s.bodies⟩

def canonicalSizePass : Saved (Nat × List Nat) :=
  (run m.canonicalSizeTurn m.walkFuel ⟨m.top, [], 0, []⟩).getD .panicked

def emitValue (zone : List UInt8) (width : Nat) (e : Emit) : CanonicalValue → Emit
  | .doc pos => e.verbatimIn zone pos (pos + width)
  | .store word => e.bytes word.bytes

/-- An opaque payload; a `doc` one is cut from the row's own zone. -/
def emitPayload (zone : List UInt8) (e : Emit) (payload : CanonicalPayload) : Emit :=
  let prefixed := e.varint (m.canonicalLen payload)
  match payload with
  | .doc pos len => prefixed.verbatimIn zone pos (pos + len)
  | .store value => prefixed.bytes (m.store.spanBytes value)
  | .imported value => prefixed.bytes (m.importPayload value)

def canonicalEmitLeaf (zone : List UInt8) (e : Emit) : CanonicalArm → Emit
  | .varint head word => (e.varint head).bytes (Word.varint word).bytes
  | .i32 head value => emitValue zone 4 (e.varint head) value
  | .i64 head value => emitValue zone 8 (e.varint head) value
  | .opaqueLen head payload => m.emitPayload zone (e.varint head) payload
  | .skip | .openLen .. => e

def canonicalEmitTurn (bodies : List Nat) (s : CanonicalEmitting) :
    Turn CanonicalEmitting (Saved (Emit × Nat)) :=
  match s.cur with
  | none =>
    match s.opened with
    | none => .halt (.saved (s.emit.flush, s.cursor))
    | some container =>
      let c := m.row container
      .next ⟨c.parent, c.next, s.cursor, s.emit⟩
  | some id =>
    let c := m.row id
    match m.canonicalSettle c.body with
    | none => .halt .absent
    | some (.openLen head _) =>
      .next ⟨some id, c.kid, s.cursor + 1, (s.emit.varint head).varint (bodies.getD s.cursor 0)⟩
    | some arm =>
      .next ⟨s.opened, c.next, s.cursor, m.canonicalEmitLeaf (m.backing c.body) s.emit arm⟩

def canonicalEmitPass (bodies : List Nat) : Saved (Emit × Nat) :=
  (run (m.canonicalEmitTurn bodies) m.walkFuel ⟨none, m.top, 0, ⟨[], none⟩⟩).getD .panicked

/-- `save_canonical`. -/
def saveCanonical : Saved (List UInt8) :=
  match m.canonicalSizePass with
  | .refused fault => .refused fault
  | .absent => .absent
  | .panicked => .panicked
  | .saved (total, bodies) =>
    match m.canonicalEmitPass bodies with
    | .refused fault => .refused fault
    | .absent => .absent
    | .panicked => .panicked
    | .saved (emit, consumed) =>
      let out := emit.pieces.flatten
      if consumed = bodies.length ∧ out.length = total then .saved out else .panicked

end Machine

end ProtobufEdit.Revise
