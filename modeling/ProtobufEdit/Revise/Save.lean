import ProtobufEdit.Revise.Command

/-!
# Saving

A save is two walks over the live rows. The first sizes every rewritten container bottom-up into
a table of bodies; the second writes, reads the table, and climbs the parent links. In both,
neighbouring rows without dirt are one run of their zone. A third walk names what each record
comes to stand at.
-/

namespace ProtobufEdit.Revise

open Wire Wire.Groupless Varint Base128 Arena Loop
open Editor (Word SaveFault)
open Editor.Machine (slice importValueAt importLen)

/-! ## Verdicts on rows -/

/-- The save passes' verdict for one row. The canonical machines' `Varint`, `Bits32` and `Bits64`
are `newValue`, their `Body`, `BodyAlias` and `Spine` the `new` arms. -/
inductive Arm where
  | skip
  | clean (pos stop : Nat)
  | reValue (tagAt tagEnd : Nat) (value : Word)
  | newValue (head : Nat) (value : Word)
  | reBody (tagAt tagEnd prefixEnd srcLen value : Nat)
  | newBody (head value : Nat)
  | reBodyAlias (tagAt tagEnd prefixEnd srcLen pos len : Nat)
  | newBodyAlias (head pos len : Nat)
  | imported (value : Nat)
  | spine (tagAt tagEnd prefixEnd srcLen : Nat)
  | importSpine (tagAt tagEnd prefixEnd srcLen value : Nat)
  | newSpine (head pos : Nat)
  deriving DecidableEq, Repr

namespace Row

/-- Where a scanned row's value side begins. -/
def tagEnd (start : Nat) (r : Row) : Nat := start + r.tagW .tolerant

def prefixEnd (start : Nat) (r : Row) : Nat := r.tagEnd start + r.delimWidth.getD 0

def srcLen (start : Nat) (r : Row) : Nat := r.stop - r.prefixEnd start

/-- The interior was opened, and holds dirt. -/
def dirtyKids (r : Row) : Bool := 0 < r.kids .dirt

def isOpened (r : Row) : Bool :=
  match r.slot with
  | .opened _ => true
  | _ => false

/-- The row joins a run. -/
def rides (r : Row) : Bool := r.edit = .intact && !r.dirty

def spine (start : Nat) (r : Row) : Arm :=
  .spine start (r.tagEnd start) (r.prefixEnd start) (r.srcLen start)

end Row

namespace Machine

variable {standard : Standard}

/-- A designated payload, where the designated row has an offset. -/
def designated (m : Machine standard) (src : Nat) : Option (Nat × Nat) :=
  (m.designatedPayload src).toOption

/-- `settle`, of a tolerant machine; nothing stands for the read of an offset the row lacks. -/
def settleTolerant (m : Machine standard) (r : Row) : Option Arm :=
  match r.edit with
  | .deleted _ | .insertedDeleted _ | .moved _ | .sourceRecordDeleted | .sourcePayloadDeleted _
  | .sourceInsertedDeleted _ | .importedDeleted _ => some .skip
  | .sourceRecord =>
    r.start.map fun start => if r.dirtyKids then r.spine start else .clean start r.stop
  | .sourcePayload src =>
    r.start.bind fun start =>
      if r.dirtyKids then some (r.spine start)
      else
        (m.designated src).map fun span =>
          .reBodyAlias start (r.tagEnd start) (r.prefixEnd start) (r.srcLen start) span.1 span.2
  | .sourceInserted src =>
    if r.dirtyKids then some (.newSpine (headWord r.field r.kind) 0)
    else (m.designated src).map fun span => .newBodyAlias (headWord r.field r.kind) span.1 span.2
  | .imported value =>
    if r.dirtyKids then
      let base := (m.store.span value).1
      let bytes := m.importSlot value
      let tagEnd := base + importValueAt bytes
      some (.importSpine base tagEnd (tagEnd + (importLen bytes).1) (importLen bytes).2 value)
    else some (.imported value)
  | .intact =>
    r.start.map fun start =>
      if r.dirty ∧ r.kind = .len ∧ r.isOpened then r.spine start else .clean start r.stop
  | .replaced value =>
    r.start.map fun start =>
      match r.kind with
      | .len =>
        .reBody start (r.tagEnd start) (r.prefixEnd start) (r.srcLen start) value
      | kind => .reValue start (r.tagEnd start) (m.store.word kind value)
  | .inserted value =>
    match r.kind with
    | .len => some (.newBody (headWord r.field .len) value)
    | kind => some (.newValue (headWord r.field kind) (m.store.word kind value))

/-- A scalar's bytes at a position, as its kind emits them. -/
def readWord (kind : RecordKind) (zone : List UInt8) (pos : Nat) : Word :=
  match kind with
  | .varint => .varint (readScalar .varint zone pos)
  | .i32 => .bits32 (readScalar .i32 zone pos)
  | _ => .bits64 (readScalar .i64 zone pos)

/-- `settle`, of a canonical machine. -/
def settleCanonical (m : Machine standard) (r : Row) : Option Arm :=
  let head := headWord r.field r.kind
  match r.edit with
  | .deleted _ | .insertedDeleted _ | .moved _ | .sourceRecordDeleted | .sourcePayloadDeleted _
  | .sourceInsertedDeleted _ | .importedDeleted _ => some .skip
  | .sourceRecord =>
    r.start.map fun start => if r.dirtyKids then .newSpine head start else .clean start r.stop
  | .sourcePayload src | .sourceInserted src =>
    (m.designated src).map fun span =>
      if r.dirtyKids then .newSpine head span.1 else .newBodyAlias head span.1 span.2
  | .imported value =>
    if r.dirtyKids then some (.newSpine head (m.store.span value).1) else some (.imported value)
  | .replaced value | .inserted value =>
    match r.kind with
    | .len => some (.newBody head value)
    | kind => some (.newValue head (m.store.word kind value))
  | .intact =>
    r.start.map fun start =>
      if r.dirty then
        match r.kind with
        | .len => .newSpine head start
        | kind =>
          .newValue head (readWord kind (m.backing r) (start + r.tagW .canonicalMinimal))
      else .clean start r.stop

def settle (m : Machine standard) (r : Row) : Option Arm :=
  match standard with
  | .tolerant => m.settleTolerant r
  | .canonicalMinimal => m.settleCanonical r

end Machine

/-! ## What a save comes to -/

/-- `absent` is the read of an offset a row lacks, `panicked` a seam's assertion. -/
inductive Saved (α : Type) where
  | saved (a : α)
  | refused (fault : SaveFault)
  | absent
  | panicked
  deriving DecidableEq, Repr

/-! ## The size walk -/

/-- What a frame closes with; `slot` is its place in the table of bodies. -/
inductive Close where
  | re (prefixW srcLen pos tagW slot : Nat)
  | new (head pos slot : Nat)
  deriving DecidableEq, Repr

structure SizeFrame where
  next : Option Nat
  outer : Nat
  close : Close
  deriving DecidableEq, Repr

/-- The pending run is where it starts, and its last row. -/
structure Sizing where
  cur : Option Nat
  spine : List SizeFrame
  acc : Nat
  bodies : List Nat
  run : Option (Nat × Nat)
  deriving DecidableEq, Repr

/-- How wide a prefix is: the source's while the body keeps the source's length. -/
def prefixWidth (prefixW srcLen len : Nat) : Nat :=
  if len = srcLen then prefixW else encodedLen32 len

namespace Machine

variable {standard : Standard}

def spanLen (m : Machine standard) (value : Nat) : Nat := (m.store.span value).2

/-- What an arm without an interior adds. -/
def leafSize (m : Machine standard) : Arm → Nat
  | .clean pos stop => stop - pos
  | .reValue tagAt tagEnd value => tagEnd - tagAt + value.width
  | .newValue head value => encodedLen32 head + value.width
  | .reBody tagAt tagEnd prefixEnd srcLen value =>
    let len := m.spanLen value
    tagEnd - tagAt + prefixWidth (prefixEnd - tagEnd) srcLen len + len
  | .newBody head value =>
    let len := m.spanLen value
    encodedLen32 head + encodedLen32 len + len
  | .reBodyAlias tagAt tagEnd prefixEnd srcLen _ len =>
    tagEnd - tagAt + prefixWidth (prefixEnd - tagEnd) srcLen len + len
  | .newBodyAlias head _ len => encodedLen32 head + encodedLen32 len + len
  | .imported value => m.spanLen value
  | _ => 0

/-- What an arm with an interior closes with. -/
def closing (slot : Nat) : Arm → Option Close
  | .spine tagAt tagEnd prefixEnd srcLen | .importSpine tagAt tagEnd prefixEnd srcLen _ =>
    some (.re (prefixEnd - tagEnd) srcLen tagAt (tagEnd - tagAt) slot)
  | .newSpine head pos => some (.new head pos slot)
  | _ => none

/-- A container closes over a body of `acc` bytes. -/
def closeFrame (bodies : List Nat) (acc : Nat) : Close → Except SaveFault (Nat × List Nat)
  | .re prefixW srcLen pos tagW slot =>
    if PayloadLen.max < acc then .error (.bodyOverCap pos)
    else .ok (tagW + prefixWidth prefixW srcLen acc + acc, bodies.set slot acc)
  | .new head pos slot =>
    if PayloadLen.max < acc then .error (.bodyOverCap pos)
    else .ok (encodedLen32 head + encodedLen32 acc + acc, bodies.set slot acc)

/-- The bytes counted, with a pending run's. -/
def counted (m : Machine standard) (acc : Nat) : Option (Nat × Nat) → Nat
  | some (start, last) => acc + ((m.row last).body.stop - start)
  | none => acc

/-- A row joins the pending run. -/
def joined (run : Option (Nat × Nat)) (start id : Nat) : Option (Nat × Nat) :=
  some (run.elim start Prod.fst, id)

def sizeTurn (m : Machine standard) (s : Sizing) : Turn Sizing (Saved (Nat × List Nat)) :=
  match s.cur with
  | none =>
    let acc := m.counted s.acc s.run
    match s.spine with
    | [] => .halt (if m.cap < acc then .refused (.docOverCap acc) else .saved (acc, s.bodies))
    | frame :: spine =>
      match closeFrame s.bodies acc frame.close with
      | .error fault => .halt (.refused fault)
      | .ok (closed, bodies) => .next ⟨frame.next, spine, frame.outer + closed, bodies, none⟩
  | some id =>
    let c := m.row id
    if c.body.rides then
      match c.body.start with
      | none => .halt .absent
      | some start => .next ⟨c.next, s.spine, s.acc, s.bodies, joined s.run start id⟩
    else
      let acc := m.counted s.acc s.run
      match m.settle c.body with
      | none => .halt .absent
      | some arm =>
        match closing s.bodies.length arm with
        | some close => .next ⟨c.kid, ⟨c.next, acc, close⟩ :: s.spine, 0, s.bodies ++ [0], none⟩
        | none => .next ⟨c.next, s.spine, acc + m.leafSize arm, s.bodies, none⟩

/-- Every row is met once and closed once. -/
def walkFuel (m : Machine standard) : Nat := 2 * m.rows.length + 1

def sizePass (m : Machine standard) : Saved (Nat × List Nat) :=
  (run m.sizeTurn m.walkFuel ⟨m.top, [], 0, [], none⟩).getD .panicked

end Machine

/-! ## The emit walk -/

/-- The emitter: the pieces written, and a pending stretch of one zone. A buffer takes the pieces
joined, a sink those that hold a byte. Stretches of zones with the same bytes are one wherever
they are joined. -/
structure Emit where
  pieces : List (List UInt8)
  run : Option (List UInt8 × Nat × Nat)
  deriving DecidableEq, Repr

namespace Emit

def flush (e : Emit) : Emit :=
  match e.run with
  | some (zone, pos, stop) => ⟨e.pieces ++ [slice zone pos stop], none⟩
  | none => e

/-- `verbatim_in`; `verbatim` is this on the source. -/
def verbatimIn (zone : List UInt8) (pos stop : Nat) (e : Emit) : Emit :=
  match e.run with
  | some (z, start, reached) =>
    if reached = pos ∧ z = zone then ⟨e.pieces, some (z, start, stop)⟩
    else ⟨e.flush.pieces, some (zone, pos, stop)⟩
  | none => ⟨e.pieces, some (zone, pos, stop)⟩

def bytes (piece : List UInt8) (e : Emit) : Emit := ⟨e.flush.pieces ++ [piece], none⟩

/-- `word` and `varint`. -/
def varint (v : Nat) (e : Emit) : Emit := e.bytes (emit64 v)

/-- A LEN's prefix: verbatim where the body keeps the source's length. -/
def lenPrefix (zone : List UInt8) (tagEnd prefixEnd srcLen len : Nat) (e : Emit) : Emit :=
  if len = srcLen then e.verbatimIn zone tagEnd prefixEnd else e.varint len

end Emit

structure Emitting where
  opened : Option Nat
  cur : Option Nat
  cursor : Nat
  emit : Emit
  run : Option (Nat × Nat)
  deriving DecidableEq, Repr

namespace Machine

variable {standard : Standard}

/-- What an arm without an interior writes; `zone` backs the row. -/
def emitLeaf (m : Machine standard) (zone : List UInt8) (e : Emit) : Arm → Emit
  | .clean pos stop => e.verbatimIn zone pos stop
  | .reValue tagAt tagEnd value => (e.verbatimIn zone tagAt tagEnd).bytes value.bytes
  | .newValue head value => (e.varint head).bytes value.bytes
  | .reBody tagAt tagEnd prefixEnd srcLen value =>
    ((e.verbatimIn zone tagAt tagEnd).lenPrefix zone tagEnd prefixEnd srcLen
      (m.spanLen value)).bytes (m.store.spanBytes value)
  | .newBody head value =>
    ((e.varint head).varint (m.spanLen value)).bytes (m.store.spanBytes value)
  | .reBodyAlias tagAt tagEnd prefixEnd srcLen pos len =>
    ((e.verbatimIn zone tagAt tagEnd).lenPrefix zone tagEnd prefixEnd srcLen len).verbatimIn
      m.source pos (pos + len)
  | .newBodyAlias head pos len =>
    ((e.varint head).varint len).verbatimIn m.source pos (pos + len)
  | .imported value => e.bytes (m.store.spanBytes value)
  | _ => e

/-- What an arm with an interior writes in front of a body of `len` bytes. -/
def emitOpening (m : Machine standard) (zone : List UInt8) (len : Nat) (e : Emit) :
    Arm → Option Emit
  | .spine tagAt tagEnd prefixEnd srcLen =>
    some ((e.verbatimIn zone tagAt tagEnd).lenPrefix zone tagEnd prefixEnd srcLen len)
  | .importSpine tagAt tagEnd prefixEnd srcLen _ =>
    let zone := m.store.bytes
    some ((e.verbatimIn zone tagAt tagEnd).lenPrefix zone tagEnd prefixEnd srcLen len)
  | .newSpine head _ => some ((e.varint head).varint len)
  | _ => none

/-- The pending run, written. -/
def endRun (m : Machine standard) (e : Emit) : Option (Nat × Nat) → Emit
  | some (start, last) =>
    let r := (m.row last).body
    e.verbatimIn (m.backing r) start r.stop
  | none => e

def emitTurn (m : Machine standard) (bodies : List Nat) (s : Emitting) :
    Turn Emitting (Saved Emit) :=
  match s.cur with
  | none =>
    let emit := m.endRun s.emit s.run
    match s.opened with
    | none => .halt (.saved emit.flush)
    | some container =>
      let c := m.row container
      .next ⟨c.parent, c.next, s.cursor, emit, none⟩
  | some id =>
    let c := m.row id
    if c.body.rides then
      match c.body.start with
      | none => .halt .absent
      | some start => .next ⟨s.opened, c.next, s.cursor, s.emit, joined s.run start id⟩
    else
      let emit := m.endRun s.emit s.run
      match m.settle c.body with
      | none => .halt .absent
      | some arm =>
        match m.emitOpening (m.backing c.body) (bodies.getD s.cursor 0) emit arm with
        | some emit => .next ⟨some id, c.kid, s.cursor + 1, emit, none⟩
        | none => .next ⟨s.opened, c.next, s.cursor, m.emitLeaf (m.backing c.body) emit arm, none⟩

def emitPass (m : Machine standard) (bodies : List Nat) : Saved Emit :=
  (run (m.emitTurn bodies) m.walkFuel ⟨none, m.top, 0, ⟨[], none⟩, none⟩).getD .panicked

/-! ## The faces of a save -/

/-- The pieces of a machine that holds dirt, and how many bytes they weigh. -/
def written (m : Machine standard) : Saved (List (List UInt8)) :=
  match m.sizePass with
  | .refused fault => .refused fault
  | .absent => .absent
  | .panicked => .panicked
  | .saved (total, bodies) =>
    match m.emitPass bodies with
    | .refused fault => .refused fault
    | .absent => .absent
    | .panicked => .panicked
    | .saved emit =>
      if emit.pieces.flatten.length = total then .saved emit.pieces else .panicked

def clean (m : Machine standard) : Bool := m.root.dirtyKids = 0

/-- `save_into`: what becomes of the buffer, and the answer. -/
def saveInto (m : Machine standard) (out : List UInt8) : List UInt8 × Saved Unit :=
  if m.clean then (out ++ m.source, .saved ())
  else
    match m.written with
    | .saved pieces => (out ++ pieces.flatten, .saved ())
    | .refused fault => (out, .refused fault)
    | .absent => (out, .absent)
    | .panicked => (out, .panicked)

/-- `save`. -/
def save (m : Machine standard) : Saved (List UInt8) :=
  match m.saveInto [] with
  | (out, .saved ()) => .saved out
  | (_, .refused fault) => .refused fault
  | (_, .absent) => .absent
  | (_, .panicked) => .panicked

/-- `hand`: an empty slice is not handed. -/
def handed (pieces : List (List UInt8)) : List (List UInt8) := pieces.filter (· ≠ [])

/-- `save_sink`: the slices handed, and the answer. -/
def saveSink (m : Machine standard) : List (List UInt8) × Saved Unit :=
  if m.clean then (handed [m.source], .saved ())
  else
    match m.written with
    | .saved pieces => (handed pieces, .saved ())
    | .refused fault => ([], .refused fault)
    | .absent => ([], .absent)
    | .panicked => ([], .panicked)

/-- `save_len`. -/
def saveLen (m : Machine standard) : Saved Nat :=
  if m.clean then .saved m.source.length
  else
    match m.sizePass with
    | .saved (total, _) => .saved total
    | .refused fault => .refused fault
    | .absent => .absent
    | .panicked => .panicked

end Machine

/-! ## The span walk -/

/-- A record, and where the save puts it. -/
structure SpanEntry where
  handle : Nat
  start : Nat
  stop : Nat
  deriving DecidableEq, Repr

/-- `frames` are the open containers' places in the table of entries. -/
structure Spanning where
  out : Nat
  cursor : Nat
  frames : List Nat
  opened : Option Nat
  cur : Option Nat
  entries : List SpanEntry
  deriving DecidableEq, Repr

namespace Machine

variable {standard : Standard}

def verbatimFrom (m : Machine standard) (root base out : Nat) :
    Nat → Option Nat → List SpanEntry → Option (List SpanEntry)
  | 0, _, entries => some entries
  | _ + 1, none, entries => some entries
  | fuel + 1, some id, entries =>
    let c := m.row id
    if c.body.edit = .intact then
      match c.body.start with
      | none => none
      | some start =>
        let entries := entries ++ [⟨id, start - base + out, c.body.stop - base + out⟩]
        match (if c.body.isOpened then c.kid else none) with
        | some kid => m.verbatimFrom root base out fuel (some kid) entries
        | none =>
          m.verbatimFrom root base out fuel (preorderClimb m.rows root (m.rows.length + 1) id)
            entries
    else
      m.verbatimFrom root base out fuel (preorderClimb m.rows root (m.rows.length + 1) id) entries

/-- `verbatim_spans`: the entries of a subtree that the save copies. -/
def verbatimSpans (m : Machine standard) (root start out : Nat) (entries : List SpanEntry) :
    Option (List SpanEntry) :=
  m.verbatimFrom root start out (m.rows.length + 1) (some root) entries

/-- What an arm's framing weighs in front of a body of `len` bytes. -/
def openingSize (len : Nat) : Arm → Option Nat
  | .spine tagAt tagEnd prefixEnd srcLen | .importSpine tagAt tagEnd prefixEnd srcLen _ =>
    some (tagEnd - tagAt + prefixWidth (prefixEnd - tagEnd) srcLen len)
  | .newSpine head _ => some (encodedLen32 head + encodedLen32 len)
  | _ => none

def spanArm (m : Machine standard) (bodies : List Nat) (s : Spanning) (id : Nat) (c : Cell Row) :
    Arm → Turn Spanning (Saved (Nat × List SpanEntry))
  | .skip => .next { s with cur := c.next }
  | .clean pos stop =>
    match m.verbatimSpans id pos s.out s.entries with
    | none => .halt .absent
    | some entries => .next { s with cur := c.next, out := s.out + (stop - pos), entries }
  | arm =>
    match openingSize (bodies.getD s.cursor 0) arm with
    | some width =>
      .next
        { out := s.out + width, cursor := s.cursor + 1, frames := s.entries.length :: s.frames,
          opened := some id, cur := c.kid, entries := s.entries ++ [⟨id, s.out, s.out⟩] }
    | none =>
      let stop := s.out + m.leafSize arm
      .next { s with cur := c.next, out := stop, entries := s.entries ++ [⟨id, s.out, stop⟩] }

def spanTurn (m : Machine standard) (bodies : List Nat) (s : Spanning) :
    Turn Spanning (Saved (Nat × List SpanEntry)) :=
  match s.cur with
  | none =>
    match s.opened, s.frames with
    | none, _ => .halt (.saved (s.out, s.entries))
    | some _, [] => .halt .panicked
    | some container, place :: frames =>
      let c := m.row container
      .next
        { s with
          frames, opened := c.parent, cur := c.next
          entries := s.entries.modify place fun entry => { entry with stop := s.out } }
  | some id =>
    let c := m.row id
    if c.body.rides then
      match c.body.start with
      | none => .halt .absent
      | some start => m.spanArm bodies s id c (.clean start c.body.stop)
    else
      match m.settle c.body with
      | none => .halt .absent
      | some arm => m.spanArm bodies s id c arm

def spanWalk (m : Machine standard) (bodies : List Nat) : Saved (Nat × List SpanEntry) :=
  (run (m.spanTurn bodies) m.walkFuel ⟨0, 0, [], none, m.top, []⟩).getD .panicked

/-- `save_spans`. -/
def saveSpans (m : Machine standard) : Saved (List SpanEntry) :=
  match (if m.clean then Saved.saved (m.source.length, []) else m.sizePass) with
  | .refused fault => .refused fault
  | .absent => .absent
  | .panicked => .panicked
  | .saved (total, bodies) =>
    match m.spanWalk bodies with
    | .refused fault => .refused fault
    | .absent => .absent
    | .panicked => .panicked
    | .saved (covered, entries) => if covered = total then .saved entries else .panicked

end Machine

end ProtobufEdit.Revise
