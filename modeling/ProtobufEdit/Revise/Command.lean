import ProtobufEdit.Revise.State

/-!
# Commands

Descents, value commands, shrouds, insertions, staged frames, the transfer faces and undo. A
refused command leaves the machine; an accepted one logs one step.
-/

namespace ProtobufEdit.Revise

open Wire Wire.Groupless Varint Arena
open Editor (Descent InsertAt SlotFault project)
open Editor.Machine (importValueAt importLen)

namespace Machine

variable {standard : Standard}

/-! ## Descents -/

/-- What a descent scans: a window of a zone, whether it is the byte column's, and whether the
rows are aliases. -/
structure Interior where
  authored : Bool
  isAlias : Bool
  start : Nat
  len : Nat
  deriving DecidableEq, Repr

def interior (m : Machine standard) (r : Row) : Except EditFault Interior :=
  match r.edit with
  | .replaced v | .deleted (some v) | .inserted v | .insertedDeleted v =>
    .ok ⟨true, false, (m.store.span v).1, (m.store.span v).2⟩
  | .sourcePayload src | .sourcePayloadDeleted src | .sourceInserted src
  | .sourceInsertedDeleted src =>
    (m.designatedPayload src).map fun span => ⟨false, true, span.1, span.2⟩
  | .imported v | .importedDeleted v =>
    let bytes := m.importSlot v
    .ok ⟨true, true, (m.store.span v).1 + (importValueAt bytes + (importLen bytes).1),
      (importLen bytes).2⟩
  | .sourceRecord | .sourceRecordDeleted =>
    (scannedAt r).map fun start =>
      ⟨false, true, (m.lenGeometry r start).1, (m.lenGeometry r start).2⟩
  | .intact | .deleted none | .moved _ =>
    (scannedAt r).map fun start =>
      ⟨r.authoredZone, false, (m.lenGeometry r start).1, (m.lenGeometry r start).2⟩

/-- `seal_scan`: publishes a scanned interior. `source` says that a run is minted. -/
def sealScan (m : Machine standard) (id : Nat) (rows : List (Cell Row)) (first last : Option Nat)
    (source : Bool) : Option (Machine standard) :=
  let run := if source then first.map fun id => (id, rows.length) else none
  if run.isSome ∧ mint m.runs = none then none
  else if mint m.layers = none then none
  else
    some
      (({ m with
          rows
          runs := if run.isSome then m.runs + 1 else m.runs
          layers := m.layers + 1 } : Machine standard).setSlot id
        (.opened ⟨last, 0, 0, run⟩) first)

/-- `push_fault`, and the slot that holds it. -/
def park (m : Machine standard) (id : Nat) (fault : SlotFault) :
    Machine standard × Except EditFault Descent :=
  match Editor.mint m.faults.length with
  | none => (m, .error .indexSpaceExhausted)
  | some index =>
    ({ m with faults := m.faults ++ [fault] }.setSlot id (.fault index) none, .ok (project fault))

/-- The descent into a slot that was never parsed. -/
def enter (m : Machine standard) (id : Nat) (r : Row) :
    Machine standard × Except EditFault Descent :=
  match m.interior r with
  | .error fault => (m, .error fault)
  | .ok w =>
    let isAlias := w.isAlias || r.isAlias
    let zone := if w.authored then m.store.bytes else m.source
    match scanLayer standard m.rows zone w.authored w.start (w.start + w.len) (some id) with
    | .ok (rows, first, last) =>
      let marked :=
        rows.take m.rows.length ++ (rows.drop m.rows.length).map (Cell.map fun r =>
          { r with isAlias := r.isAlias || isAlias })
      match m.sealScan id marked first last (!w.authored && !isAlias) with
      | none => (m, .error .indexSpaceExhausted)
      | some m' => (m', .ok (.opened first))
    | .error (.wire fault) => m.park id (.wire fault)
    | .error (.refused refusal) => m.park id (.refused refusal)
    | .error .exhausted => (m, .error .indexSpaceExhausted)

def descend (m : Machine standard) (handle : Nat) :
    Machine standard × Except EditFault Descent :=
  match m.live handle with
  | .error fault => (m, .error fault)
  | .ok c =>
    if c.body.kind ≠ .len then (m, .error (.kindMismatch c.body.kind))
    else
      match c.body.slot with
      | .opened _ => (m, .ok (.opened c.kid))
      | .fault index => (m, .ok (project (m.faults.getD index (.refused (.nonMinimalTag 0 0)))))
      | .unopened => m.enter handle c.body

/-! ## Value commands -/

/-- A live witness for value commands. -/
inductive LiveEdit where
  | virgin
  | replaced
  | inserted
  deriving DecidableEq, Repr

def LiveEdit.set : LiveEdit → Nat → Edit
  | virgin, value | replaced, value => .replaced value
  | inserted, value => .inserted value

def valueGate (m : Machine standard) (handle : Nat) (want : RecordKind) :
    Except EditFault LiveEdit :=
  match m.live handle with
  | .error fault => .error fault
  | .ok c =>
    if m.browseOnly c then .error .insideAuthoredBody
    else if c.body.kind ≠ want then .error (.kindMismatch c.body.kind)
    else
      match c.body.edit with
      | .intact => .ok .virgin
      | .replaced _ | .sourcePayload _ | .sourceRecord => .ok .replaced
      | .inserted _ | .sourceInserted _ | .imported _ => .ok .inserted
      | _ => .error .deletedTarget

/-- No backing flips over an interior that carries undo history. -/
def interiorGate (m : Machine standard) (id : Nat) : Except EditFault Unit :=
  match (m.row id).body.slot with
  | .opened layer => if 0 < layer.historyKids then .error .editedInterior else .ok ()
  | _ => .ok ()

/-- `set_varint`, `set_i32` and `set_i64`, by the store's push. -/
def setScalar (m : Machine standard) (handle : Nat) (want : RecordKind)
    (pushed : Option (Store × Nat)) : Machine standard × Except EditFault Unit :=
  match m.valueGate handle want with
  | .error fault => (m, .error fault)
  | .ok witness =>
    match pushed with
    | none => (m, .error .indexSpaceExhausted)
    | some (store, value) => ((m.withStore store).applyEdit handle (witness.set value), .ok ())

def setVarint (m : Machine standard) (handle : Nat) (value : UInt64) :
    Machine standard × Except EditFault Unit :=
  m.setScalar handle .varint (m.store.pushVarint value.toNat)

def setI32 (m : Machine standard) (handle : Nat) (bits : UInt32) :
    Machine standard × Except EditFault Unit :=
  m.setScalar handle .i32 (m.store.pushBits32 bits.toNat)

def setI64 (m : Machine standard) (handle : Nat) (bits : UInt64) :
    Machine standard × Except EditFault Unit :=
  m.setScalar handle .i64 (m.store.pushBits64 bits.toNat)

/-- The gates of a payload replacement. -/
def payloadGate (m : Machine standard) (handle : Nat) : Except EditFault LiveEdit :=
  match m.valueGate handle .len with
  | .error fault => .error fault
  | .ok witness =>
    match m.interiorGate handle with
    | .error fault => .error fault
    | .ok _ => .ok witness

def setPayload (m : Machine standard) (handle : Nat) (payload : List UInt8) :
    Machine standard × Except EditFault Unit :=
  match m.payloadGate handle with
  | .error fault => (m, .error fault)
  | .ok witness =>
    if PayloadLen.max < payload.length then (m, .error (.payloadTooLarge payload.length))
    else
      match m.store.pushBytes payload with
      | none => (m, .error .indexSpaceExhausted)
      | some (store, value) => ((m.withStore store).applyEdit handle (witness.set value), .ok ())

/-! ## Shrouds -/

def shrouded : Edit → Option Edit
  | .intact => some (.deleted none)
  | .replaced value => some (.deleted (some value))
  | .inserted value => some (.insertedDeleted value)
  | .sourceRecord => some .sourceRecordDeleted
  | .sourcePayload src => some (.sourcePayloadDeleted src)
  | .sourceInserted src => some (.sourceInsertedDeleted src)
  | .imported value => some (.importedDeleted value)
  | _ => none

def lifted : Edit → Option Edit
  | .deleted none => some .intact
  | .deleted (some value) => some (.replaced value)
  | .insertedDeleted value => some (.inserted value)
  | .sourceRecordDeleted => some .sourceRecord
  | .sourcePayloadDeleted src => some (.sourcePayload src)
  | .sourceInsertedDeleted src => some (.sourceInserted src)
  | .importedDeleted value => some (.imported value)
  | _ => none

/-- The state a record is cleared to. -/
def cleared (r : Row) : Option Edit :=
  match r.edit with
  | .replaced _ | .sourcePayload _ => if r.isAlias then none else some .intact
  | _ => none

/-- A command that is one transition of its target. -/
def transit (m : Machine standard) (handle : Nat) (to? : Row → Option Edit) (fault : EditFault) :
    Machine standard × Except EditFault Unit :=
  match m.live handle with
  | .error fault => (m, .error fault)
  | .ok c =>
    if m.browseOnly c then (m, .error .insideAuthoredBody)
    else
      match to? c.body with
      | none => (m, .error fault)
      | some edit => (m.applyEdit handle edit, .ok ())

def delete (m : Machine standard) (handle : Nat) : Machine standard × Except EditFault Unit :=
  m.transit handle (fun r => shrouded r.edit) .deletedTarget

def undelete (m : Machine standard) (handle : Nat) : Machine standard × Except EditFault Unit :=
  m.transit handle (fun r => lifted r.edit) .notDeleted

def clearEdit (m : Machine standard) (handle : Nat) : Machine standard × Except EditFault Unit :=
  m.transit handle cleared .notClearable

/-! ## Insertions -/

/-- The containers that accept insertions. -/
def admitsKids : Edit → Except EditFault Unit
  | .replaced _ | .deleted (some _) | .inserted _ | .insertedDeleted _ =>
    .error .insideAuthoredBody
  | .importedDeleted _ => .error .deletedTarget
  | _ => .ok ()

/-- Gates an insertion container and yields its layer. -/
def containerGate (m : Machine standard) : Option Nat → Except EditFault Layer
  | none => .ok m.root
  | some handle =>
    match m.live handle with
    | .error fault => .error fault
    | .ok c =>
      if m.browseOnly c then .error .insideAuthoredBody
      else if c.body.kind ≠ .len then .error (.kindMismatch c.body.kind)
      else
        match admitsKids c.body.edit with
        | .error fault => .error fault
        | .ok _ =>
          match c.body.slot with
          | .opened layer => .ok layer
          | _ => .error .targetUnopened

def resolveAnchor (m : Machine standard) : InsertAt → Except EditFault Plan
  | .headOf container => (m.containerGate container).map fun _ => ⟨container, none⟩
  | .tailOf container => (m.containerGate container).map fun layer => ⟨container, layer.last⟩
  | .after anchor =>
    match m.live anchor with
    | .error fault => .error fault
    | .ok c => if m.browseOnly c then .error .insideAuthoredBody else .ok ⟨c.parent, some anchor⟩

/-- The row that will follow the splice. -/
def planNext (m : Machine standard) (plan : Plan) : Option Nat :=
  match plan.prev with
  | some prev => (m.row prev).next
  | none => m.firstOf plan.parent

/-- `splice_ghost`: pushes a row that is its own ghost, and links it. -/
def splice (m : Machine standard) (plan : Plan) (id : Nat) (r : Row) : Machine standard :=
  let next := m.planNext plan
  let pushed : Machine standard := { m with rows := m.rows ++ [⟨plan.parent, next, none, r⟩] }
  let linked : Machine standard :=
    match plan.prev with
    | some prev => { pushed with rows := pushed.rows.modify prev fun c => { c with next := some id } }
    | none =>
      match plan.parent with
      | some parent =>
        { pushed with rows := pushed.rows.modify parent fun c => { c with kid := some id } }
      | none => { pushed with top := some id }
  if next = none then linked.onLayer plan.parent fun layer => { layer with last := some id }
  else linked

/-- `apply_insert` and `apply_transfer`: splices a ghost, logs it and awakens it. -/
def applyInsert (m : Machine standard) (plan : Plan) (id : Nat) (r : Row) (edit : Edit) :
    Machine standard :=
  ((m.splice plan id r).logPush id r.edit).writeState id edit

/-- A stored value's record put at an anchor. -/
def insertStored (m : Machine standard) (plan : Plan) (id : Nat) (field : FieldNumber)
    (kind : RecordKind) (value : Nat) : Machine standard :=
  m.applyInsert plan id (.authored field kind (.insertedDeleted value)) (.inserted value)

/-- `insert_varint`, `insert_i32` and `insert_i64`, by the store's push. -/
def insertScalar (m : Machine standard) (anchor : InsertAt) (field : FieldNumber)
    (kind : RecordKind) (pushed : Option (Store × Nat)) :
    Machine standard × Except EditFault Nat :=
  match m.resolveAnchor anchor with
  | .error fault => (m, .error fault)
  | .ok plan =>
    match mintRow m.rows with
    | none => (m, .error .indexSpaceExhausted)
    | some id =>
      match pushed with
      | none => (m, .error .indexSpaceExhausted)
      | some (store, value) =>
        ((m.withStore store).insertStored plan id field kind value, .ok id)

def insertVarint (m : Machine standard) (anchor : InsertAt) (field : FieldNumber)
    (value : UInt64) : Machine standard × Except EditFault Nat :=
  m.insertScalar anchor field .varint (m.store.pushVarint value.toNat)

def insertI32 (m : Machine standard) (anchor : InsertAt) (field : FieldNumber)
    (bits : UInt32) : Machine standard × Except EditFault Nat :=
  m.insertScalar anchor field .i32 (m.store.pushBits32 bits.toNat)

def insertI64 (m : Machine standard) (anchor : InsertAt) (field : FieldNumber)
    (bits : UInt64) : Machine standard × Except EditFault Nat :=
  m.insertScalar anchor field .i64 (m.store.pushBits64 bits.toNat)

def insertPayload (m : Machine standard) (anchor : InsertAt) (field : FieldNumber)
    (payload : List UInt8) : Machine standard × Except EditFault Nat :=
  match m.resolveAnchor anchor with
  | .error fault => (m, .error fault)
  | .ok plan =>
    match mintRow m.rows with
    | none => (m, .error .indexSpaceExhausted)
    | some id =>
      if PayloadLen.max < payload.length then (m, .error (.payloadTooLarge payload.length))
      else
        match m.store.pushBytes payload with
        | none => (m, .error .indexSpaceExhausted)
        | some (store, value) => ((m.withStore store).insertStored plan id field .len value, .ok id)

/-! ## Staged frames -/

/-- What a frame's finish applies. -/
inductive FrameOp where
  | set (handle : Nat) (witness : LiveEdit)
  | insert (plan : Plan) (field : FieldNumber)
  deriving DecidableEq, Repr

/-- Where a frame is opened. -/
inductive Door where
  | set (handle : Nat)
  | insert (anchor : InsertAt) (field : FieldNumber)
  deriving DecidableEq, Repr

def admitDoor (m : Machine standard) : Door → Except EditFault FrameOp
  | .set handle => (m.payloadGate handle).map fun witness => .set handle witness
  | .insert anchor field => (m.resolveAnchor anchor).map fun plan => .insert plan field

/-- `begin_set_payload`, `begin_insert_payload` and their sized twins, with `stage_declare`. -/
def beginFrame (m : Machine standard) (door : Door) (declared : Option Nat) :
    Except EditFault FrameOp :=
  match m.admitDoor door with
  | .error fault => .error fault
  | .ok op =>
    match declared with
    | none => .ok op
    | some len =>
      if PayloadLen.max < len then .error (.payloadTooLarge len)
      else if m.store.stageReserves len then .ok op
      else .error .indexSpaceExhausted

/-- A frame's write; a refused chunk is not staged. -/
def write (mark : Nat) (declared : Option Nat) (store : Store) (chunk : List UInt8) :
    Store × Except EditFault Unit :=
  let total := store.stageMark - mark + chunk.length
  match declared with
  | none =>
    if PayloadLen.max < total then (store, .error (.payloadTooLarge total))
    else
      match store.stageChunk chunk with
      | none => (store, .error .indexSpaceExhausted)
      | some store => (store, .ok ())
  | some len =>
    if len < total then (store, .error (.overDeclared len total))
    else (store.stageChunkReserved chunk, .ok ())

/-- A frame's writes, and what each answered. -/
def writes (mark : Nat) (declared : Option Nat) :
    Store → List (List UInt8) → Store × List (Except EditFault Unit)
  | store, [] => (store, [])
  | store, chunk :: chunks =>
    let written := write mark declared store chunk
    let rest := writes mark declared written.1 chunks
    (rest.1, written.2 :: rest.2)

/-- The publishing close. -/
def publish (m : Machine standard) (op : FrameOp) (mark : Nat) :
    Machine standard × Except EditFault Nat :=
  match op with
  | .set handle witness =>
    match m.store.stageFinish mark with
    | none => (m, .error .indexSpaceExhausted)
    | some (store, value) => ((m.withStore store).applyEdit handle (witness.set value), .ok handle)
  | .insert plan field =>
    match mintRow m.rows with
    | none => (m, .error .indexSpaceExhausted)
    | some id =>
      match m.store.stageFinish mark with
      | none => (m, .error .indexSpaceExhausted)
      | some (store, value) => ((m.withStore store).insertStored plan id field .len value, .ok id)

/-- Drops a frame, or what a refused finish leaves of it. -/
def abandon (m : Machine standard) (mark : Nat) : Machine standard :=
  m.withStore (m.store.stageAbandon mark)

def finish (m : Machine standard) (op : FrameOp) (mark : Nat) (declared : Option Nat) :
    Machine standard × Except EditFault Nat :=
  let staged := m.store.stageMark - mark
  if declared.any (· != staged) then
    (m.abandon mark, .error (.underDeclared (declared.getD 0) staged))
  else
    match m.publish op mark with
    | (m', .ok id) => (m', .ok id)
    | (m', .error fault) => (m'.abandon mark, .error fault)

/-- What a frame that was opened answers: its writes, and the record its finish names. -/
structure Framed where
  writes : List (Except EditFault Unit)
  handle : Option Nat

/-- A frame's life: its door, its writes, and the finish, or the drop. A frame borrows the
machine, so no other command falls between. -/
def frame (m : Machine standard) (door : Door) (declared : Option Nat)
    (chunks : List (List UInt8)) (finished : Bool) : Machine standard × Except EditFault Framed :=
  match m.beginFrame door declared with
  | .error fault => (m, .error fault)
  | .ok op =>
    let mark := m.store.stageMark
    let written := writes mark declared m.store chunks
    let staged := m.withStore written.1
    if finished then
      match staged.finish op mark declared with
      | (m', .ok id) => (m', .ok ⟨written.2, some id⟩)
      | (m', .error fault) => (m', .error fault)
    else (staged.abandon mark, .ok ⟨written.2, none⟩)

/-! ## Transfers -/

/-- The row is an original source occurrence. -/
def transferSource (m : Machine standard) (source : Nat) : Except EditFault (Cell Row) :=
  match m.live source with
  | .error fault => .error fault
  | .ok c =>
    if c.body.authoredZone ∨ c.body.isAlias then .error .sourceNotBacked
    else
      match c.body.edit with
      | .intact | .replaced _ | .deleted _ | .sourcePayload _ | .sourcePayloadDeleted _ => .ok c
      | _ => .error .sourceNotBacked

def moveSource (m : Machine standard) (source : Nat) : Except EditFault (Cell Row) :=
  match m.transferSource source with
  | .error fault => .error fault
  | .ok c =>
    if c.body.edit ≠ .intact ∨ c.body.dirty then .error .sourceModified else .ok c

/-- Some row from a link up is `source`. -/
def stands (rows : List (Cell Row)) (source : Nat) : Nat → Option Nat → Bool
  | 0, _ => false
  | _ + 1, none => false
  | fuel + 1, some id =>
    if id = source then true else stands rows source fuel (rows.getD id default).parent

def moveGapGate (m : Machine standard) (plan : Plan) (source : Nat) : Except EditFault Unit :=
  if stands m.rows source (m.rows.length + 1) plan.parent then .error .moveIntoSource else .ok ()

/-- The gates of a transfer that puts a row at an anchor. -/
def landing (m : Machine standard) (anchor : InsertAt) : Except EditFault (Plan × Nat) :=
  match m.resolveAnchor anchor with
  | .error fault => .error fault
  | .ok plan =>
    match mintRow m.rows with
    | none => .error .indexSpaceExhausted
    | some id => .ok (plan, id)

def copyRecord (m : Machine standard) (source : Nat) (anchor : InsertAt) :
    Machine standard × Except EditFault Nat :=
  match m.transferSource source with
  | .error fault => (m, .error fault)
  | .ok src =>
    match m.landing anchor with
    | .error fault => (m, .error fault)
    | .ok (plan, id) => (m.applyInsert plan id src.body.clonedAlias .sourceRecord, .ok id)

/-- The gates of a move, in their order. -/
def departure (m : Machine standard) (source : Nat) (anchor : InsertAt) (payload : Bool) :
    Except EditFault (Cell Row × Plan × Nat) :=
  match m.moveSource source with
  | .error fault => .error fault
  | .ok src =>
    if payload ∧ src.body.kind ≠ .len then .error (.kindMismatch src.body.kind)
    else
      match m.resolveAnchor anchor with
      | .error fault => .error fault
      | .ok plan =>
        match m.moveGapGate plan source with
        | .error fault => .error fault
        | .ok _ =>
          match mintRow m.rows with
          | none => .error .indexSpaceExhausted
          | some id => .ok (src, plan, id)

def moveRecord (m : Machine standard) (source : Nat) (anchor : InsertAt) :
    Machine standard × Except EditFault Nat :=
  match m.departure source anchor false with
  | .error fault => (m, .error fault)
  | .ok (src, plan, id) =>
    ((m.splice plan id src.body.clonedAlias).applyMove source id, .ok id)

def movePayload (m : Machine standard) (source : Nat) (anchor : InsertAt)
    (field : FieldNumber) : Machine standard × Except EditFault Nat :=
  match m.departure source anchor true with
  | .error fault => (m, .error fault)
  | .ok (_, plan, id) =>
    ((m.splice plan id (.authored field .len (.sourceInsertedDeleted source))).applyMove source id,
      .ok id)

def copyPayload (m : Machine standard) (source : Nat) (target : PayloadTarget) :
    Machine standard × Except EditFault Nat :=
  match m.transferSource source with
  | .error fault => (m, .error fault)
  | .ok src =>
    if src.body.kind ≠ .len then (m, .error (.kindMismatch src.body.kind))
    else
      match target with
      | .replace handle =>
        match m.payloadGate handle with
        | .error fault => (m, .error fault)
        | .ok _ => (m.applyEdit handle (.sourcePayload source), .ok handle)
      | .insert anchor field =>
        match m.landing anchor with
        | .error fault => (m, .error fault)
        | .ok (plan, id) =>
          (m.applyInsert plan id (.authored field .len (.sourceInsertedDeleted source))
            (.sourceInserted source), .ok id)

def copyRecordFrom (m : Machine standard) (source : RecordRef standard) (anchor : InsertAt) :
    Machine standard × Except EditFault Nat :=
  match m.landing anchor with
  | .error fault => (m, .error fault)
  | .ok (plan, id) =>
    match m.store.pushBytes source.record.bytes with
    | none => (m, .error .indexSpaceExhausted)
    | some (store, value) =>
      ((m.withStore store).applyInsert plan id
        (.authored source.record.field source.record.payload.kind (.importedDeleted value))
        (.imported value), .ok id)

end Machine

/-! ## Runs -/

inductive Command (standard : Standard) where
  | descend (handle : Nat)
  | setVarint (handle : Nat) (value : UInt64)
  | setI32 (handle : Nat) (bits : UInt32)
  | setI64 (handle : Nat) (bits : UInt64)
  | setPayload (handle : Nat) (payload : List UInt8)
  | delete (handle : Nat)
  | undelete (handle : Nat)
  | clearEdit (handle : Nat)
  | insertVarint (anchor : InsertAt) (field : FieldNumber) (value : UInt64)
  | insertI32 (anchor : InsertAt) (field : FieldNumber) (bits : UInt32)
  | insertI64 (anchor : InsertAt) (field : FieldNumber) (bits : UInt64)
  | insertPayload (anchor : InsertAt) (field : FieldNumber) (payload : List UInt8)
  | frame (door : Machine.Door) (declared : Option Nat) (chunks : List (List UInt8))
      (finished : Bool)
  | copyRecord (source : Nat) (anchor : InsertAt)
  | moveRecord (source : Nat) (anchor : InsertAt)
  | copyPayload (source : Nat) (target : PayloadTarget)
  | movePayload (source : Nat) (anchor : InsertAt) (field : FieldNumber)
  | copyRecordFrom (source : RecordRef standard) (anchor : InsertAt)
  | revert

/-- The plain machines have the command. -/
def Command.plain {standard : Standard} : Command standard → Bool
  | copyRecord .. | moveRecord .. | copyPayload .. | movePayload .. | copyRecordFrom .. => false
  | _ => true

/-- What an accepted command answers. -/
inductive Reply where
  | done
  | descent (d : Descent)
  | minted (handle : Nat)
  | framed (f : Machine.Framed)
  | reverted (handle : Option Nat)

section Perform

variable {standard : Standard}

def answer {α : Type} (f : α → Reply) (r : Machine standard × Except EditFault α) :
    Machine standard × Except EditFault Reply :=
  (r.1, r.2.map f)

def Machine.perform (m : Machine standard) :
    Command standard → Machine standard × Except EditFault Reply
  | .descend handle => answer .descent (m.descend handle)
  | .setVarint handle value => answer (fun _ => .done) (m.setVarint handle value)
  | .setI32 handle bits => answer (fun _ => .done) (m.setI32 handle bits)
  | .setI64 handle bits => answer (fun _ => .done) (m.setI64 handle bits)
  | .setPayload handle payload => answer (fun _ => .done) (m.setPayload handle payload)
  | .delete handle => answer (fun _ => .done) (m.delete handle)
  | .undelete handle => answer (fun _ => .done) (m.undelete handle)
  | .clearEdit handle => answer (fun _ => .done) (m.clearEdit handle)
  | .insertVarint anchor field value => answer .minted (m.insertVarint anchor field value)
  | .insertI32 anchor field bits => answer .minted (m.insertI32 anchor field bits)
  | .insertI64 anchor field bits => answer .minted (m.insertI64 anchor field bits)
  | .insertPayload anchor field payload => answer .minted (m.insertPayload anchor field payload)
  | .frame door declared chunks finished =>
    answer .framed (m.frame door declared chunks finished)
  | .copyRecord source anchor => answer .minted (m.copyRecord source anchor)
  | .moveRecord source anchor => answer .minted (m.moveRecord source anchor)
  | .copyPayload source target => answer .minted (m.copyPayload source target)
  | .movePayload source anchor field => answer .minted (m.movePayload source anchor field)
  | .copyRecordFrom source anchor => answer .minted (m.copyRecordFrom source anchor)
  | .revert => (m.revert.1, .ok (.reverted m.revert.2))

/-- The machine behind some commands. -/
def Machine.performAll (m : Machine standard) (commands : List (Command standard)) :
    Machine standard :=
  commands.foldl (fun m command => (m.perform command).1) m

end Perform

end ProtobufEdit.Revise
