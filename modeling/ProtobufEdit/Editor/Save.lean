import ProtobufEdit.Editor

/-!
# Saving

The save walks the top layer: runs of rows without an edit are copied as one stretch of the
source, and a row with one is sized bottom-up into a table of bodies, then emitted by a second
walk that reads the table and climbs the parent links.
-/

namespace ProtobufEdit.Editor

open Wire Wire.Grouped Varint Arena Loop

/-! ## Verdicts on rows -/

/-- A scalar value headed for the output. -/
inductive Word where
  | varint (word : Nat)
  | bits32 (bits : Nat)
  | bits64 (bits : Nat)
  deriving DecidableEq, Repr

def Word.width : Word → Nat
  | varint word => encodedLen64 word
  | bits32 _ => 4
  | bits64 _ => 8

def Word.bytes : Word → List UInt8
  | varint word => emit64 word
  | bits32 bits => toLeBytes 4 bits
  | bits64 bits => toLeBytes 8 bits

/-- The save passes' verdict for one row. -/
inductive Arm where
  | skip
  | clean (pos stop : Nat)
  | reValue (tagAt tagEnd : Nat) (value : Word)
  | newValue (head : Nat) (value : Word)
  | reBody (tagAt tagEnd prefixEnd srcLen slot : Nat)
  | newBody (head slot : Nat)
  | spine (tagAt tagEnd prefixEnd srcLen : Nat)
  | reGroup (tagAt tagEnd endAt endEnd : Nat)
  | newGroup (head endWord : Nat)
  | imported (slot : Nat)
  | importSpine (tagAt tagEnd prefixEnd srcLen slot : Nat)
  | importGroup (tagAt tagEnd endAt endEnd slot : Nat)
  | reSrcBody (tagAt tagEnd prefixEnd srcLen pos len : Nat)
  | newSrcBody (head pos len : Nat)
  deriving DecidableEq, Repr

namespace Machine

/-- A row's authored word, as its kind emits it. -/
def authoredWord (m : Machine) (r : Row) : Word :=
  match r.kind with
  | .varint => .varint (m.word r.value)
  | .i32 => .bits32 (m.word r.value % 2 ^ 32)
  | _ => .bits64 (m.word r.value)

def settleIntact (m : Machine) (r : Row) : Arm :=
  let tagEnd := r.start + r.tagW m.standard
  if r.dirty = false then .clean r.start (r.spanEnd m.standard)
  else if r.kind = .len ∧ r.opened then
    .spine r.start tagEnd (tagEnd + r.delimW m.standard) r.payloadLen
  else if r.kind = .group then
    .reGroup r.start tagEnd (tagEnd + r.payloadLen) (r.spanEnd m.standard)
  else .clean r.start (r.spanEnd m.standard)

def settleSrc (m : Machine) (r : Row) : Arm :=
  let tagEnd := r.start + r.tagW m.standard
  match r.srcValue with
  | .imported slot =>
    if r.opened ∧ r.dirty then
      let bytes := m.importSlot slot
      let pos := importValueAt bytes
      if r.kind = .group then .importGroup 0 pos (importGroupEnd bytes r.field) bytes.length slot
      else .importSpine 0 pos (pos + (importLen bytes).1) (importLen bytes).2 slot
    else .imported slot
  | .payloadRe _ =>
    .reSrcBody r.start tagEnd (tagEnd + r.delimW m.standard) r.payloadLen
      (m.designatedSpan r).1 (m.designatedSpan r).2
  | .payloadNew => .newSrcBody (headWord r.field .len) r.start r.payloadLen

/-- `settle`. A row's interior is its own `kid`. -/
def settle (m : Machine) (r : Row) : Arm :=
  let tagEnd := r.start + r.tagW m.standard
  if r.deleted then .skip
  else
    match r.base with
    | .intact => m.settleIntact r
    | .replaced =>
      match r.kind with
      | .len => .reBody r.start tagEnd (tagEnd + r.delimW m.standard) r.payloadLen r.value
      -- The setters' kind gates keep groups out.
      | _ => .reValue r.start tagEnd (m.authoredWord r)
    | .src => m.settleSrc r
    | .inserted =>
      match r.kind with
      | .len => .newBody (headWord r.field .len) r.value
      | .group => .newGroup (headWord r.field .group) (groupEndWord r.field)
      | kind => .newValue (headWord r.field kind) (m.authoredWord r)

end Machine

/-! ## The size walk -/

inductive SaveFault where
  | bodyOverCap (pos : Nat)
  | docOverCap (total : Nat)
  deriving DecidableEq, Repr

/-- What a size-pass frame contributes at close. -/
inductive Close where
  | len (slot prefixW srcLen pos tagW : Nat)
  | reGroup (tagW endW : Nat)
  | newGroup (head endWord : Nat)
  deriving DecidableEq, Repr

structure SizeFrame where
  next : Option Nat
  outer : Nat
  close : Close
  deriving DecidableEq, Repr

structure Sizing where
  cur : Option Nat
  spine : List SizeFrame
  acc : Nat
  bodies : List Nat
  deriving DecidableEq, Repr

namespace Machine

/-- What an arm without an interior adds. -/
def leafSize (m : Machine) : Arm → Nat
  | .clean pos stop => stop - pos
  | .reValue tagAt tagEnd value => tagEnd - tagAt + value.width
  | .newValue head value => encodedLen32 head + value.width
  | .reBody tagAt tagEnd prefixEnd srcLen slot =>
    let len := m.payloads.len slot
    tagEnd - tagAt + (if len = srcLen then prefixEnd - tagEnd else encodedLen32 len) + len
  | .newBody head slot =>
    let len := m.payloads.len slot
    encodedLen32 head + encodedLen32 len + len
  | .imported slot => m.payloads.len slot
  | .reSrcBody tagAt tagEnd prefixEnd srcLen _ len =>
    tagEnd - tagAt + (if len = srcLen then prefixEnd - tagEnd else encodedLen32 len) + len
  | .newSrcBody head _ len => encodedLen32 head + encodedLen32 len + len
  | _ => 0

/-- What an arm with an interior closes with; `slot` is its place in the table of bodies. -/
def closing (slot : Nat) : Arm → Option Close
  | .spine tagAt tagEnd prefixEnd srcLen | .importSpine tagAt tagEnd prefixEnd srcLen _ =>
    some (.len slot (prefixEnd - tagEnd) srcLen tagAt (tagEnd - tagAt))
  | .reGroup tagAt tagEnd endAt endEnd | .importGroup tagAt tagEnd endAt endEnd _ =>
    some (.reGroup (tagEnd - tagAt) (endEnd - endAt))
  | .newGroup head endWord => some (.newGroup head endWord)
  | _ => none

/-- The table with a container's place taken. -/
def claimed (bodies : List Nat) : Close → List Nat
  | .len .. => bodies ++ [0]
  | _ => bodies

/-- A container closes over a body of `acc` bytes. -/
def closeFrame (bodies : List Nat) (acc : Nat) : Close → Except SaveFault (Nat × List Nat)
  | .len slot prefixW srcLen pos tagW =>
    if PayloadLen.max < acc then .error (.bodyOverCap pos)
    else
      .ok (tagW + (if acc = srcLen then prefixW else encodedLen32 acc) + acc, bodies.set slot acc)
  | .reGroup tagW endW => .ok (tagW + acc + endW, bodies)
  | .newGroup head endWord => .ok (encodedLen32 head + acc + encodedLen32 endWord, bodies)

def sizeTurn (m : Machine) (s : Sizing) : Turn Sizing (Except SaveFault (Nat × List Nat)) :=
  match s.cur with
  | none =>
    match s.spine with
    | [] => .halt (.ok (s.acc, s.bodies))
    | frame :: spine =>
      match closeFrame s.bodies s.acc frame.close with
      | .error fault => .halt (.error fault)
      | .ok (closed, bodies) => .next ⟨frame.next, spine, frame.outer + closed, bodies⟩
  | some id =>
    let c := m.row id
    let arm := m.settle c.body
    -- The root takes no sibling step.
    let next := if s.spine = [] then none else c.next
    match closing s.bodies.length arm with
    | some close => .next ⟨c.kid, ⟨next, s.acc, close⟩ :: s.spine, 0, claimed s.bodies close⟩
    | none => .next ⟨next, s.spine, s.acc + m.leafSize arm, s.bodies⟩

/-- Every row is met once and closed once. -/
def walkFuel (m : Machine) : Nat := 2 * m.rows.length + 1

def sizeSubtree (m : Machine) (root : Nat) : Except SaveFault (Nat × List Nat) :=
  (run m.sizeTurn m.walkFuel ⟨some root, [], 0, []⟩).getD (.ok (0, []))

end Machine

/-! ## The emit walk -/

/-- The forward emitter: a pending stretch of one zone rides between writes. A zone is known by
its bytes: stretches of equal zones are one wherever they are joined. -/
structure Emit where
  out : List UInt8
  run : Option (List UInt8 × Nat × Nat)
  deriving DecidableEq, Repr

namespace Emit

def flush (e : Emit) : Emit :=
  match e.run with
  | some (zone, pos, stop) => ⟨e.out ++ Machine.slice zone pos stop, none⟩
  | none => e

/-- `verbatim_in`; `verbatim` is this on the source. -/
def verbatimIn (zone : List UInt8) (pos stop : Nat) (e : Emit) : Emit :=
  match e.run with
  | some (z, start, reached) =>
    if reached = pos ∧ z = zone then ⟨e.out, some (z, start, stop)⟩
    else ⟨e.flush.out, some (zone, pos, stop)⟩
  | none => ⟨e.out, some (zone, pos, stop)⟩

def bytes (piece : List UInt8) (e : Emit) : Emit := ⟨e.flush.out ++ piece, none⟩

/-- `word` and `varint`. -/
def varint (v : Nat) (e : Emit) : Emit := e.bytes (emit64 v)

end Emit

structure Emitting where
  opened : Option Nat
  cur : Option Nat
  cursor : Nat
  emit : Emit
  deriving DecidableEq, Repr

namespace Machine

/-- A LEN's prefix: verbatim where the body keeps the source's length. -/
def emitPrefix (zone : List UInt8) (tagEnd prefixEnd srcLen len : Nat) (e : Emit) : Emit :=
  if len = srcLen then e.verbatimIn zone tagEnd prefixEnd else e.varint len

def emitPayload (m : Machine) (slot : Nat) (e : Emit) : Emit :=
  (m.payloads.pieces slot).foldl (fun e piece => e.bytes piece) e

/-- What an arm without an interior writes. -/
def emitLeaf (m : Machine) (zone : List UInt8) (e : Emit) : Arm → Emit
  | .clean pos stop => e.verbatimIn zone pos stop
  | .reValue tagAt tagEnd value => (e.verbatimIn zone tagAt tagEnd).bytes value.bytes
  | .newValue head value => (e.varint head).bytes value.bytes
  | .reBody tagAt tagEnd prefixEnd srcLen slot =>
    m.emitPayload slot
      (emitPrefix zone tagEnd prefixEnd srcLen (m.payloads.len slot)
        (e.verbatimIn zone tagAt tagEnd))
  | .newBody head slot => m.emitPayload slot ((e.varint head).varint (m.payloads.len slot))
  | .imported slot => m.emitPayload slot e
  | .reSrcBody tagAt tagEnd prefixEnd srcLen pos len =>
    (emitPrefix zone tagEnd prefixEnd srcLen len (e.verbatimIn zone tagAt tagEnd)).verbatimIn
      m.source pos (pos + len)
  | .newSrcBody head pos len => ((e.varint head).varint len).verbatimIn m.source pos (pos + len)
  | _ => e

/-- What an arm with an interior writes in front of it, and how many bodies it reads. -/
def emitOpening (m : Machine) (zone : List UInt8) (body : Nat) (e : Emit) :
    Arm → Option (Emit × Nat)
  | .spine tagAt tagEnd prefixEnd srcLen =>
    some (emitPrefix zone tagEnd prefixEnd srcLen body (e.verbatimIn zone tagAt tagEnd), 1)
  | .importSpine tagAt tagEnd prefixEnd srcLen slot =>
    let zone := m.importSlot slot
    some (emitPrefix zone tagEnd prefixEnd srcLen body (e.verbatimIn zone tagAt tagEnd), 1)
  | .reGroup tagAt tagEnd _ _ => some (e.verbatimIn zone tagAt tagEnd, 0)
  | .importGroup tagAt tagEnd _ _ slot =>
    some (e.verbatimIn (m.importSlot slot) tagAt tagEnd, 0)
  | .newGroup head _ => some (e.varint head, 0)
  | _ => none

/-- The end tag written at a climb out of a container. -/
def emitClosing (m : Machine) (c : Cell Row) (e : Emit) : Emit :=
  let r := c.body
  if r.kind = .group then
    match r.base with
    | .intact =>
      e.verbatimIn (m.zoneOf c) (r.start + r.tagW m.standard + r.payloadLen)
        (r.spanEnd m.standard)
    | .replaced | .inserted => e.varint (groupEndWord r.field)
    | .src =>
      let bytes := m.importSlot r.value
      e.verbatimIn bytes (importGroupEnd bytes r.field) bytes.length
  else e

def emitTurn (m : Machine) (root : Nat) (bodies : List Nat) (s : Emitting) :
    Turn Emitting Emit :=
  match s.cur with
  | none =>
    match s.opened with
    | none => .halt s.emit
    | some container =>
      let c := m.row container
      .next ⟨c.parent, if container = root then none else c.next, s.cursor,
        m.emitClosing c s.emit⟩
  | some id =>
    let c := m.row id
    let arm := m.settle c.body
    match m.emitOpening (m.zoneOf c) (bodies.getD s.cursor 0) s.emit arm with
    | some (emit, read) => .next ⟨some id, c.kid, s.cursor + read, emit⟩
    | none =>
      .next ⟨s.opened, if id = root then none else c.next, s.cursor,
        m.emitLeaf (m.zoneOf c) s.emit arm⟩

def emitSubtree (m : Machine) (root : Nat) (bodies : List Nat) (e : Emit) : Emit :=
  (run (m.emitTurn root bodies) m.walkFuel ⟨none, some root, 0, e⟩).getD e

/-! ## The save -/

end Machine

/-- What a save comes to; `panicked` is the seam's assertion. -/
inductive Saved where
  | saved (out : List UInt8)
  | refused (fault : SaveFault)
  | panicked
  deriving DecidableEq, Repr

structure Saving where
  cur : Option Nat
  /-- The pending run of verbatim rows: where it starts, and its last row. -/
  run : Option (Nat × Nat)
  emit : Emit
  deriving DecidableEq, Repr

namespace Machine

/-- The pending run, published. -/
def endRun (m : Machine) (s : Saving) : Emit :=
  match s.run with
  | some (start, last) => s.emit.verbatimIn m.source start ((m.row last).body.spanEnd m.standard)
  | none => s.emit

def saveTurn (m : Machine) (s : Saving) : Turn Saving Saved :=
  match s.cur with
  | none =>
    let out := (m.endRun s).flush.out
    .halt (if PayloadLen.max < out.length then .refused (.docOverCap out.length) else .saved out)
  | some id =>
    let c := m.row id
    if c.body.ridesVerbatim then
      .next ⟨c.next, some (s.run.elim c.body.start Prod.fst, id), s.emit⟩
    else if c.body.deleted then .next ⟨c.next, none, m.endRun s⟩
    else
      match m.sizeSubtree id with
      | .error fault => .halt (.refused fault)
      | .ok (size, bodies) =>
        let flushed := (m.endRun s).flush
        let emit := (m.emitSubtree id bodies flushed).flush
        if emit.out.length - flushed.out.length = size then .next ⟨c.next, none, emit⟩
        else .halt .panicked

/-- `save`: `save_into` a fresh vector. -/
def save (m : Machine) : Saved :=
  if m.dirty = false then .saved m.source
  else (run m.saveTurn (m.rows.length + 1) ⟨m.top, none, ⟨[], none⟩⟩).getD .panicked

/-! ## The price -/

end Machine

structure Pricing where
  cur : Option Nat
  run : Option (Nat × Nat)
  total : Nat
  deriving DecidableEq, Repr

namespace Machine

def priceRun (m : Machine) (s : Pricing) : Nat :=
  match s.run with
  | some (start, last) => s.total + ((m.row last).body.spanEnd m.standard - start)
  | none => s.total

def priceTurn (m : Machine) (s : Pricing) : Turn Pricing (Except SaveFault Nat) :=
  match s.cur with
  | none =>
    let total := m.priceRun s
    .halt (if PayloadLen.max < total then .error (.docOverCap total) else .ok total)
  | some id =>
    let c := m.row id
    if c.body.ridesVerbatim then
      .next ⟨c.next, some (s.run.elim c.body.start Prod.fst, id), s.total⟩
    else if c.body.deleted then .next ⟨c.next, none, m.priceRun s⟩
    else
      match m.sizeSubtree id with
      | .error fault => .halt (.error fault)
      | .ok (size, _) => .next ⟨c.next, none, m.priceRun s + size⟩

/-- `save_len`. -/
def saveLen (m : Machine) : Except SaveFault Nat :=
  if m.dirty = false then .ok m.source.length
  else (run m.priceTurn (m.rows.length + 1) ⟨m.top, none, 0⟩).getD (.ok 0)

end Machine

end ProtobufEdit.Editor
