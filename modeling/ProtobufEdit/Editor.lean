import ProtobufEdit.Editor.Scan

/-!
# The one-shot editors

The machine both dialects' one-shot editors are, and its commands: descents, value
replacements, deletions, insertions and staged payload frames. Rows, words and payload slots
only grow; a record is edited in place, and every edit marks its row and the rows above it.
-/

namespace ProtobufEdit.Editor

open Wire Wire.Grouped Varint Arena

/-! ## Vocabulary -/

inductive EditFault where
  | kindMismatch (kind : RecordKind)
  | deletedTarget
  | openedTarget
  | targetUnopened
  | authoredPayload
  | payloadTooLarge (len : Nat)
  | sourceNotBacked
  | sourceModified
  | moveIntoSource
  | depthExceeded (limit need : Nat)
  | indexSpaceExhausted
  /-- `FrameFault::OverDeclared`, `FrameFault::UnderDeclared`. -/
  | overDeclared (declared total : Nat)
  | underDeclared (declared staged : Nat)
  /-- The arena gate's panic at a handle that was never minted. -/
  | forged
  deriving DecidableEq, Repr

inductive InsertAt where
  | headOf (container : Option Nat)
  | tailOf (container : Option Nat)
  | after (sibling : Nat)
  deriving DecidableEq, Repr

/-- A resident descend verdict. -/
inductive SlotFault where
  | wire (fault : Fault)
  | refused (refusal : Refusal)
  deriving DecidableEq, Repr

inductive Descent where
  | opened (first : Option Nat)
  | faulted (fault : Fault)
  | refused (refusal : Refusal)
  deriving DecidableEq, Repr

def project : SlotFault → Descent
  | .wire fault => .faulted fault
  | .refused refusal => .refused refusal

/-- An insertion's resolved splice point. -/
structure Plan where
  parent : Option Nat
  prev : Option Nat
  deriving DecidableEq, Repr

structure Machine where
  dialect : Dialect
  standard : Standard
  source : List UInt8
  limit : DepthLimit
  rows : List (Cell Row)
  words : List Nat
  payloads : PayloadStore
  faults : List SlotFault
  top : Option Nat
  dirty : Bool
  deriving DecidableEq, Repr

inductive OpenFault where
  | tooLarge (len : Nat)
  | wire (fault : Fault)
  | refused (refusal : Refusal)
  deriving DecidableEq, Repr

/-- `open`. -/
def openSource (dialect : Dialect) (standard : Standard) (source : List UInt8)
    (limit : DepthLimit) : Except OpenFault Machine :=
  if PayloadLen.max < source.length then .error (.tooLarge source.length)
  else
    match scanLayer dialect standard [] source 0 source.length none 0 limit with
    | .ok (rows, top) =>
      .ok ⟨dialect, standard, source, limit, rows, [], .new, [], top, false⟩
    | .error (.wire fault) => .error (.wire fault)
    | .error (.refused refusal) => .error (.refused refusal)
    -- Every root-scanned record costs a byte: the row domain holds them all.
    | .error .exhausted => .error (.tooLarge source.length)

namespace Machine

/-! ## The arena -/

/-- A minted row. -/
def row (m : Machine) (id : Nat) : Cell Row := m.rows.getD id default

def gate (m : Machine) (handle : Nat) : Except EditFault (Cell Row) :=
  match m.rows[handle]? with
  | some c => .ok c
  | none => .error .forged

def setRow (m : Machine) (id : Nat) (f : Row → Row) : Machine :=
  { m with rows := m.rows.modify id (Cell.map f) }

/-- How many rows there are from a link up. -/
def climbed (rows : List (Cell Row)) : Nat → Option Nat → Nat
  | 0, _ => 0
  | _ + 1, none => 0
  | fuel + 1, some id => climbed rows fuel (rows.getD id default).parent + 1

/-- Containers enclosing a row. -/
def depthOf (m : Machine) (id : Nat) : Nat := climbed m.rows m.rows.length (m.row id).parent

/-- Marks a row and the rows above it, up to the first that is marked. -/
def markDirty (m : Machine) (id : Option Nat) : Machine :=
  { m with
    dirty := true
    rows := climb Row.dirty Row.setDirty (m.rows.length + 1) id m.rows }

/-! ## Import zones -/

/-- The end tag's offset inside an imported group's bytes: the shortest suffix that decodes,
whole, as the end word. -/
def importGroupEnd (bytes : List UInt8) (field : FieldNumber) : Nat :=
  let ends (width : Nat) : Bool :=
    match Slice.value64 bytes (bytes.length - width) bytes.length with
    | .ok (word, met) => met == width && word == groupEndWord field
    | .error _ => false
  match ((List.range (min bytes.length 10)).map (· + 1)).find? ends with
  | some width => bytes.length - width
  | none => bytes.length

/-- Past an imported record's head tag. -/
def importValueAt (bytes : List UInt8) : Nat :=
  match Slice.tagWord bytes 0 bytes.length with
  | .ok (_, width) => width
  | .error _ => 0

/-- An imported LEN's prefix: its width and the length it states. -/
def importLen (bytes : List UInt8) : Nat × Nat :=
  let pos := importValueAt bytes
  match Slice.lenWord bytes pos bytes.length with
  | .ok (len, width) => (width, len)
  | .error _ => (0, 0)

def importSlot (m : Machine) (slot : Nat) : List UInt8 := (m.payloads.contiguous slot).getD []

/-- The slot of the nearest `src` row from a link up. -/
def importRoot (rows : List (Cell Row)) : Nat → Option Nat → Nat
  | 0, _ => 0
  | _ + 1, none => 0
  | fuel + 1, some id =>
    let c := rows.getD id default
    if c.body.base = .src then c.body.value else importRoot rows fuel c.parent

/-- The byte zone a row's geometry indexes. -/
def zoneOf (m : Machine) (c : Cell Row) : List UInt8 :=
  if c.body.importZone then m.importSlot (importRoot m.rows m.rows.length c.parent) else m.source

/-- A designated payload's subspan of the source. -/
def designatedSpan (m : Machine) (r : Row) : Nat × Nat :=
  match r.srcValue with
  | .payloadRe id =>
    let src := (m.row id).body
    (src.payloadAt m.standard, src.payloadLen)
  | .payloadNew => (r.start, r.payloadLen)
  | .imported _ => (0, 0)

/-! ## Reads -/

def word (m : Machine) (slot : Nat) : Nat := m.words.getD slot 0

/-- The bytes of a zone between two offsets. -/
def slice (zone : List UInt8) (pos stop : Nat) : List UInt8 := (zone.take stop).drop pos

/-! ## Descents -/

/-- Parks a resident verdict on a row. -/
def park (m : Machine) (id : Nat) (fault : SlotFault) : Machine × Except EditFault Descent :=
  match mint m.faults.length with
  | none => (m, .error .indexSpaceExhausted)
  | some index =>
    ({ m.setRow id (fun r => { r with value := index, faulted := true }) with
        faults := m.faults ++ [fault] },
      .ok (project fault))

/-- What a descent scans: the bytes, the window and the zone its rows are marked with. -/
structure Window where
  bytes : List UInt8
  pos : Nat
  stop : Nat
  zone : Zone
  deriving DecidableEq, Repr

def window (m : Machine) (r : Row) : Window :=
  if r.base = .src then
    let bytes := m.importSlot r.value
    let pos := importValueAt bytes
    if r.kind = .group then ⟨bytes, pos, importGroupEnd bytes r.field, .imported⟩
    else
      let body := pos + (importLen bytes).1
      ⟨bytes, body, body + (importLen bytes).2, .imported⟩
  else
    let pos := r.payloadAt m.standard
    ⟨m.source, pos, pos + r.payloadLen, if r.isAlias then .aliased else .document⟩

/-- The descent past its gates. -/
def enter (m : Machine) (id : Nat) (r : Row) : Machine × Except EditFault Descent :=
  let depth := m.depthOf id
  if m.limit.asInner ≤ depth then m.park id (.refused (.depthExceeded r.start r.field))
  else
    let w := m.window r
    match scanLayer m.dialect m.standard m.rows w.bytes w.pos w.stop (some id) (depth + 1)
        m.limit with
    | .ok (rows, first) =>
      let marked :=
        rows.take m.rows.length ++
          (rows.drop m.rows.length).map (Cell.map fun r => { r with zone := w.zone })
      ({ m with rows := marked.modify id fun c => { c with kid := first, body := c.body.setOpened } },
        .ok (.opened first))
    | .error (.wire fault) => m.park id (.wire fault)
    | .error (.refused refusal) => m.park id (.refused refusal)
    | .error .exhausted => (m, .error .indexSpaceExhausted)

def descend (m : Machine) (handle : Nat) : Machine × Except EditFault Descent :=
  match m.gate handle with
  | .error fault => (m, .error fault)
  | .ok c =>
    let r := c.body
    if r.deleted then (m, .error .deletedTarget)
    else if r.kind ≠ .len ∧ r.kind ≠ .group then (m, .error (.kindMismatch r.kind))
    else if r.kind = .group ∧ r.base ≠ .src then (m, .ok (.opened c.kid))
    else if r.base ≠ .intact ∧ ¬ (r.base = .src ∧ r.value < srcPayload) then
      (m, .error .authoredPayload)
    else if r.opened then (m, .ok (.opened c.kid))
    else if r.faulted then
      (m, .ok (project (m.faults.getD r.value (.refused (.nonMinimalTag 0 0)))))
    else m.enter handle r

/-! ## Replacements -/

def setScalar (m : Machine) (handle : Nat) (want : RecordKind) (value : Nat) :
    Machine × Except EditFault Unit :=
  match m.gate handle with
  | .error fault => (m, .error fault)
  | .ok c =>
    let r := c.body
    if r.kind ≠ want then (m, .error (.kindMismatch r.kind))
    else if r.deleted then (m, .error .deletedTarget)
    else
      match r.base with
      | .replaced | .inserted =>
        ({ m with words := m.words.set r.value value }.markDirty (some handle), .ok ())
      | .intact | .src =>
        match mint m.words.length with
        | none => (m, .error .indexSpaceExhausted)
        | some slot =>
          let m' := { m with words := m.words ++ [value] }
          let flip := if r.base = .intact then Row.setReplaced else Row.setInserted
          ((m'.setRow handle fun r => flip { r with value := slot }).markDirty (some handle),
            .ok ())

def setVarint (m : Machine) (handle : Nat) (value : UInt64) : Machine × Except EditFault Unit :=
  m.setScalar handle .varint value.toNat

def setI32 (m : Machine) (handle : Nat) (bits : UInt32) : Machine × Except EditFault Unit :=
  m.setScalar handle .i32 bits.toNat

def setI64 (m : Machine) (handle : Nat) (bits : UInt64) : Machine × Except EditFault Unit :=
  m.setScalar handle .i64 bits.toNat

def payloadSetGate (m : Machine) (handle len : Nat) : Except EditFault (Cell Row) :=
  match m.gate handle with
  | .error fault => .error fault
  | .ok c =>
    if c.body.kind ≠ .len then .error (.kindMismatch c.body.kind)
    else if c.body.deleted then .error .deletedTarget
    else if c.body.opened then .error .openedTarget
    else if PayloadLen.max < len then .error (.payloadTooLarge len)
    else .ok c

/-- `payload_set_commit`, behind the re-authoring of a transfer-designated row. -/
def payloadSetCommit (m : Machine) (handle slot : Nat) : Machine :=
  (m.setRow handle fun r =>
    { r with value := slot, faulted := false, base := r.reauthored }).markDirty (some handle)

/-- `set_payload`, `set_payload_parts` and `set_payload_copy`. -/
def setPayload (m : Machine) (handle : Nat) (supply : Supply) : Machine × Except EditFault Unit :=
  match m.payloadSetGate handle supply.bytes.length with
  | .error fault => (m, .error fault)
  | .ok c =>
    match c.body.base with
    | .intact | .src =>
      match m.payloads.push supply with
      | none => (m, .error .indexSpaceExhausted)
      | some (payloads, slot) => ({ m with payloads }.payloadSetCommit handle slot, .ok ())
    | .replaced | .inserted =>
      match m.payloads.set c.body.value supply with
      | none => (m, .error .indexSpaceExhausted)
      | some payloads => ({ m with payloads }.payloadSetCommit handle c.body.value, .ok ())

def delete (m : Machine) (handle : Nat) : Machine × Except EditFault Unit :=
  match m.gate handle with
  | .error fault => (m, .error fault)
  | .ok c =>
    if c.body.deleted then (m, .error .deletedTarget)
    else ((m.setRow handle Row.setDeleted).markDirty (some handle), .ok ())

/-! ## Insertions -/

def containerGate (m : Machine) : Option Nat → Except EditFault (Option Nat)
  | none => .ok none
  | some handle =>
    match m.gate handle with
    | .error fault => .error fault
    | .ok c =>
      let r := c.body
      if r.deleted then .error .deletedTarget
      else
        match r.kind with
        | .group =>
          if r.base = .src ∧ r.opened = false then .error .targetUnopened else .ok (some handle)
        | .len =>
          if r.base ≠ .intact ∧ ¬ (r.base = .src ∧ r.value < srcPayload) then
            .error .authoredPayload
          else if r.opened then .ok (some handle)
          else .error .targetUnopened
        | kind => .error (.kindMismatch kind)

def firstOf (m : Machine) : Option Nat → Option Nat
  | none => m.top
  | some id => (m.row id).kid

/-- The last row of the chain from `id`. -/
def lastFrom (rows : List (Cell Row)) : Nat → Nat → Nat
  | 0, id => id
  | fuel + 1, id =>
    match (rows.getD id default).next with
    | some next => lastFrom rows fuel next
    | none => id

def tailOf (m : Machine) (parent : Option Nat) : Option Nat :=
  (m.firstOf parent).map (lastFrom m.rows m.rows.length)

def resolveAnchor (m : Machine) : InsertAt → Except EditFault Plan
  | .headOf container =>
    match m.containerGate container with
    | .error fault => .error fault
    | .ok parent => .ok ⟨parent, none⟩
  | .tailOf container =>
    match m.containerGate container with
    | .error fault => .error fault
    | .ok parent => .ok ⟨parent, m.tailOf parent⟩
  | .after anchor =>
    match m.gate anchor with
    | .error fault => .error fault
    | .ok c => .ok ⟨c.parent, some anchor⟩

/-- The row that will follow the splice. -/
def planNext (m : Machine) (plan : Plan) : Option Nat :=
  match plan.prev with
  | some prev => (m.row prev).next
  | none => m.firstOf plan.parent

/-- Links a pushed row into its plan. -/
def linkRow (m : Machine) (plan : Plan) (id : Nat) : Machine :=
  match plan.prev with
  | some prev => { m with rows := m.rows.modify prev fun c => { c with next := some id } }
  | none =>
    match plan.parent with
    | some parent => { m with rows := m.rows.modify parent fun c => { c with kid := some id } }
    | none => { m with top := some id }

/-- Pushes a row and links it. -/
def splice (m : Machine) (plan : Plan) (id : Nat) (r : Row) : Machine :=
  let pushed : Machine := { m with rows := m.rows ++ [⟨plan.parent, m.planNext plan, none, r⟩] }
  pushed.linkRow plan id

def applyInsert (m : Machine) (plan : Plan) (id : Nat) (field : FieldNumber) (kind : RecordKind)
    (value : Nat) : Machine :=
  (m.splice plan id (.authored field kind value)).markDirty (some id)

/-- `insert_varint`, `insert_i32` and `insert_i64`. -/
def insertScalar (m : Machine) (anchor : InsertAt) (field : FieldNumber) (kind : RecordKind)
    (value : Nat) : Machine × Except EditFault Nat :=
  match m.resolveAnchor anchor with
  | .error fault => (m, .error fault)
  | .ok plan =>
    match mintRow m.rows with
    | none => (m, .error .indexSpaceExhausted)
    | some id =>
      match mint m.words.length with
      | none => (m, .error .indexSpaceExhausted)
      | some slot =>
        ({ m with words := m.words ++ [value] }.applyInsert plan id field kind slot, .ok id)

def insertVarint (m : Machine) (anchor : InsertAt) (field : FieldNumber) (value : UInt64) :
    Machine × Except EditFault Nat :=
  m.insertScalar anchor field .varint value.toNat

def insertI32 (m : Machine) (anchor : InsertAt) (field : FieldNumber) (bits : UInt32) :
    Machine × Except EditFault Nat :=
  m.insertScalar anchor field .i32 bits.toNat

def insertI64 (m : Machine) (anchor : InsertAt) (field : FieldNumber) (bits : UInt64) :
    Machine × Except EditFault Nat :=
  m.insertScalar anchor field .i64 bits.toNat

/-- `insert_payload`, `insert_payload_parts` and `insert_payload_copy`. -/
def insertPayload (m : Machine) (anchor : InsertAt) (field : FieldNumber) (supply : Supply) :
    Machine × Except EditFault Nat :=
  match m.resolveAnchor anchor with
  | .error fault => (m, .error fault)
  | .ok plan =>
    match mintRow m.rows with
    | none => (m, .error .indexSpaceExhausted)
    | some id =>
      if PayloadLen.max < supply.bytes.length then
        (m, .error (.payloadTooLarge supply.bytes.length))
      else
        match m.payloads.push supply with
        | none => (m, .error .indexSpaceExhausted)
        | some (payloads, slot) =>
          ({ m with payloads }.applyInsert plan id field .len slot, .ok id)

/-- The grouped editors' alone. -/
def insertGroup (m : Machine) (anchor : InsertAt) (field : FieldNumber) :
    Machine × Except EditFault Nat :=
  match m.resolveAnchor anchor with
  | .error fault => (m, .error fault)
  | .ok plan =>
    match mintRow m.rows with
    | none => (m, .error .indexSpaceExhausted)
    | some id => (m.applyInsert plan id field .group 0, .ok id)

/-! ## Staged frames -/

/-- What a frame's finish applies. -/
inductive WriteOp where
  | set (handle : Nat)
  | insert (plan : Plan) (field : FieldNumber)
  deriving DecidableEq, Repr

/-- Where a frame is opened. -/
inductive Door where
  | set (handle : Nat)
  | insert (anchor : InsertAt) (field : FieldNumber)
  deriving DecidableEq, Repr

/-- The gates of a door, for a payload declared to be `len` bytes. -/
def admitDoor (m : Machine) (door : Door) (len : Nat) : Except EditFault WriteOp :=
  match door with
  | .set handle =>
    match m.payloadSetGate handle len with
    | .error fault => .error fault
    | .ok _ => .ok (.set handle)
  | .insert anchor field =>
    match m.resolveAnchor anchor with
    | .error fault => .error fault
    | .ok plan =>
      if PayloadLen.max < len then .error (.payloadTooLarge len) else .ok (.insert plan field)

/-- `begin_set_payload`, `begin_insert_payload` and their sized twins, with `stage_declare`. -/
def beginFrame (m : Machine) (door : Door) (declared : Option Nat) : Except EditFault WriteOp :=
  match m.admitDoor door (declared.getD 0) with
  | .error fault => .error fault
  | .ok op =>
    if declared.any fun len => u32Max < m.payloads.stageMark + len then
      .error .indexSpaceExhausted
    else .ok op

/-- A frame's write; a refused chunk is not staged. -/
def write (mark : Nat) (declared : Option Nat) (payloads : PayloadStore) (chunk : List UInt8) :
    PayloadStore × Except EditFault Unit :=
  let total := payloads.stagedLen mark + chunk.length
  match declared with
  | none =>
    if PayloadLen.max < total then (payloads, .error (.payloadTooLarge total))
    else
      match payloads.stageChunk chunk with
      | none => (payloads, .error .indexSpaceExhausted)
      | some payloads => (payloads, .ok ())
  | some len =>
    if len < total then (payloads, .error (.overDeclared len total))
    else (payloads.stageChunkReserved chunk, .ok ())

/-- A frame's writes, and what each answered. -/
def writes (mark : Nat) (declared : Option Nat) :
    PayloadStore → List (List UInt8) → PayloadStore × List (Except EditFault Unit)
  | payloads, [] => (payloads, [])
  | payloads, chunk :: chunks =>
    let written := write mark declared payloads chunk
    let rest := writes mark declared written.1 chunks
    (rest.1, written.2 :: rest.2)

/-- The publishing close. -/
def apply (m : Machine) (op : WriteOp) (mark : Nat) : Machine × Except EditFault Nat :=
  match op with
  | .set handle =>
    let r := (m.row handle).body
    match r.base with
    | .intact | .src =>
      match m.payloads.stageFinishPush mark with
      | none => (m, .error .indexSpaceExhausted)
      | some (payloads, slot) => ({ m with payloads }.payloadSetCommit handle slot, .ok handle)
    | .replaced | .inserted =>
      ({ m with payloads := m.payloads.stageFinishSet r.value mark }.payloadSetCommit handle
        r.value, .ok handle)
  | .insert plan field =>
    match mintRow m.rows with
    | none => (m, .error .indexSpaceExhausted)
    | some id =>
      match m.payloads.stageFinishPush mark with
      | none => (m, .error .indexSpaceExhausted)
      | some (payloads, slot) =>
        ({ m with payloads }.applyInsert plan id field .len slot, .ok id)

/-- Drops a frame, or what a refused finish leaves of it. -/
def abandon (m : Machine) (mark : Nat) : Machine :=
  { m with payloads := m.payloads.stageAbandon mark }

def finish (m : Machine) (op : WriteOp) (mark : Nat) (declared : Option Nat) :
    Machine × Except EditFault Nat :=
  let staged := m.payloads.stagedLen mark
  if declared.any (· != staged) then
    (m.abandon mark, .error (.underDeclared (declared.getD 0) staged))
  else
    match m.apply op mark with
    | (m', .ok id) => (m', .ok id)
    | (m', .error fault) => (m'.abandon mark, .error fault)

/-- What a frame that was opened answers: its writes, and the record its finish names. -/
structure Framed where
  writes : List (Except EditFault Unit)
  handle : Option Nat

/-- A frame's life: its door, its writes, and the finish, or the drop. A frame borrows the
machine, so no other command falls between. -/
def frame (m : Machine) (door : Door) (declared : Option Nat) (chunks : List (List UInt8))
    (finished : Bool) : Machine × Except EditFault Framed :=
  match m.beginFrame door declared with
  | .error fault => (m, .error fault)
  | .ok op =>
    let mark := m.payloads.stageMark
    let written := writes mark declared m.payloads chunks
    let staged := { m with payloads := written.1 }
    if finished then
      match staged.finish op mark declared with
      | (m', .ok id) => (m', .ok ⟨written.2, some id⟩)
      | (m', .error fault) => (m', .error fault)
    else (staged.abandon mark, .ok ⟨written.2, none⟩)

end Machine

/-! ## Commands -/

inductive Command where
  | descend (handle : Nat)
  | setVarint (handle : Nat) (value : UInt64)
  | setI32 (handle : Nat) (bits : UInt32)
  | setI64 (handle : Nat) (bits : UInt64)
  | setPayload (handle : Nat) (supply : Supply)
  | delete (handle : Nat)
  | insertVarint (anchor : InsertAt) (field : FieldNumber) (value : UInt64)
  | insertI32 (anchor : InsertAt) (field : FieldNumber) (bits : UInt32)
  | insertI64 (anchor : InsertAt) (field : FieldNumber) (bits : UInt64)
  | insertPayload (anchor : InsertAt) (field : FieldNumber) (supply : Supply)
  | insertGroup (anchor : InsertAt) (field : FieldNumber)
  | frame (door : Machine.Door) (declared : Option Nat) (chunks : List (List UInt8))
      (finished : Bool)
  deriving DecidableEq, Repr

/-- What an accepted command answers. -/
inductive Reply where
  | done
  | descent (d : Descent)
  | minted (handle : Nat)
  | framed (f : Machine.Framed)

def answer {α : Type} (f : α → Reply) (r : Machine × Except EditFault α) :
    Machine × Except EditFault Reply :=
  (r.1, r.2.map f)

def Machine.perform (m : Machine) : Command → Machine × Except EditFault Reply
  | .descend handle => answer .descent (m.descend handle)
  | .setVarint handle value => answer (fun _ => .done) (m.setVarint handle value)
  | .setI32 handle bits => answer (fun _ => .done) (m.setI32 handle bits)
  | .setI64 handle bits => answer (fun _ => .done) (m.setI64 handle bits)
  | .setPayload handle supply => answer (fun _ => .done) (m.setPayload handle supply)
  | .delete handle => answer (fun _ => .done) (m.delete handle)
  | .insertVarint anchor field value => answer .minted (m.insertVarint anchor field value)
  | .insertI32 anchor field bits => answer .minted (m.insertI32 anchor field bits)
  | .insertI64 anchor field bits => answer .minted (m.insertI64 anchor field bits)
  | .insertPayload anchor field supply => answer .minted (m.insertPayload anchor field supply)
  | .insertGroup anchor field => answer .minted (m.insertGroup anchor field)
  | .frame door declared chunks finished =>
    answer .framed (m.frame door declared chunks finished)

end ProtobufEdit.Editor
