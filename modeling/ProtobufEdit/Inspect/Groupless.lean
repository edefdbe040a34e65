import ProtobufEdit.Loop
import ProtobufEdit.Varint.Slice

/-!
# The groupless inspector

One parse over admitted bytes builds a table of rows in preorder, and at most one fault. The
caller's advice says of every LEN whether its payload is read as a message; a fault inside a
payload that was only tried concludes that it is bytes.
-/

namespace ProtobufEdit.Inspect

open Wire Varint Loop

/-- The caller's reading of a LEN payload: `opaqueBytes` is `Opaque`. -/
inductive Advice where
  | speculate
  | commit
  | opaqueBytes
  deriving DecidableEq, Repr

structure Admitted where
  bytes : List UInt8
  le_max : bytes.length ≤ 2147483647

namespace Groupless

open Wire.Groupless

/-! ## Faults -/

inductive FaultKind where
  | read (stage : Stage) (cause : Slice.ReadFault)
  | fieldZero (code : Low3)
  | unassigned (field : FieldNumber) (code : Low3)
  | lenOverrun (field : FieldNumber) (declared zoneLeft : Nat)
  | fixedTruncated (field : FieldNumber) (needed : Nat)
  | depthExceeded (field : FieldNumber) (limit : DepthLimit)
  | nonMinimalTag
  | nonMinimalLen (field : FieldNumber)
  | nonMinimalValue (field : FieldNumber)
  | groupCode (field : FieldNumber) (code : Low3)
  deriving DecidableEq, Repr

/-- `pos` is `at`. -/
structure Fault where
  pos : Nat
  kind : FaultKind
  deriving DecidableEq, Repr

/-- A judged violation, and the head of the record it struck. -/
structure Failure where
  fault : Fault
  cut : Nat
  deriving DecidableEq, Repr

/-! ## Rows -/

structure Row where
  start : Nat
  payloadLen : Nat
  parent : Option Nat
  descendants : Nat
  field : FieldNumber
  kind : RecordKind
  tagWidth : Nat
  delimWidth : Option Nat
  deriving DecidableEq, Repr

/-- The end of the record's span. -/
def Row.stop (r : Row) : Nat := r.start + (r.tagWidth + r.delimWidth.getD 0 + r.payloadLen)

def Row.holds (pos : Nat) (r : Row) : Bool := r.start ≤ pos && pos < r.stop

/-! ## One record -/

/-- A record as it was met, with no place in the tree. -/
structure Met where
  start : Nat
  field : FieldNumber
  kind : RecordKind
  tagWidth : Nat
  delimWidth : Option Nat
  payloadLen : Nat
  deriving DecidableEq, Repr

namespace Met

def payloadStart (r : Met) : Nat := r.start + r.tagWidth + r.delimWidth.getD 0

def stop (r : Met) : Nat := r.payloadStart + r.payloadLen

def row (parent : Option Nat) (descendants : Nat) (r : Met) : Row :=
  { start := r.start, payloadLen := r.payloadLen, parent, descendants, field := r.field,
    kind := r.kind, tagWidth := r.tagWidth, delimWidth := r.delimWidth }

end Met

def refuse {α : Type} (pos cut : Nat) (kind : FaultKind) : Except Failure α :=
  .error ⟨⟨pos, kind⟩, cut⟩

/-- The value's width: a tolerant parse only sizes it. -/
def valueWidth (standard : Standard) (bytes : List UInt8) (zone valueAt start : Nat)
    (field : FieldNumber) : Except Failure Nat :=
  match standard with
  | .canonicalMinimal =>
    match Slice.value64 bytes valueAt zone with
    | .error cause => refuse valueAt start (.read (.value field) cause)
    | .ok (value, width) =>
      if encodedLen64 value < width then refuse valueAt start (.nonMinimalValue field)
      else .ok width
  | .tolerant =>
    match Slice.width64Trusted bytes valueAt zone with
    | .error cause => refuse valueAt start (.read (.value field) cause)
    | .ok width => .ok width

/-- `varint_record`. -/
def varintRecord (standard : Standard) (bytes : List UInt8) (zone start : Nat)
    (field : FieldNumber) (tagWidth : Nat) : Except Failure Met :=
  match valueWidth standard bytes zone (start + tagWidth) start field with
  | .error failure => .error failure
  | .ok width => .ok ⟨start, field, .varint, tagWidth, none, width⟩

/-- `fixed_record`. -/
def fixedRecord (zone start : Nat) (field : FieldNumber) (kind : RecordKind) (tagWidth : Nat) :
    Except Failure Met :=
  let needed := if kind = .i64 then 8 else 4
  if zone < start + tagWidth + needed then
    refuse (start + tagWidth) start (.fixedTruncated field needed)
  else .ok ⟨start, field, kind, tagWidth, none, needed⟩

/-- `len_record`, up to the advice. -/
def lenRecord (standard : Standard) (bytes : List UInt8) (zone start : Nat)
    (field : FieldNumber) (tagWidth : Nat) : Except Failure Met :=
  let afterTag := start + tagWidth
  match Slice.lenWord bytes afterTag zone with
  | .error cause => refuse afterTag start (.read (.lenPrefix field) cause)
  | .ok (declared, prefixWidth) =>
    if standard = .canonicalMinimal ∧ encodedLen32 declared < prefixWidth then
      refuse afterTag start (.nonMinimalLen field)
    else
      let payloadStart := afterTag + prefixWidth
      if zone < payloadStart + declared then
        refuse afterTag start (.lenOverrun field declared (zone - payloadStart))
      else .ok ⟨start, field, .len, tagWidth, some prefixWidth, declared⟩

/-- What `record` judges at a position, blind to what the parse has committed to. -/
def judge (standard : Standard) (bytes : List UInt8) (zone start : Nat) : Except Failure Met :=
  match Slice.tagWord bytes start zone with
  | .error cause => refuse start start (.read .tag cause)
  | .ok (word, tagWidth) =>
    if standard = .canonicalMinimal ∧ encodedLen32 word < tagWidth then
      refuse start start .nonMinimalTag
    else
      match FieldNumber.fromWord word with
      | none => refuse start start (.fieldZero (Low3.fromWord word))
      | some field =>
        match classify (Low3.fromWord word) with
        | .record .varint => varintRecord standard bytes zone start field tagWidth
        | .record .i64 => fixedRecord zone start field .i64 tagWidth
        | .record .i32 => fixedRecord zone start field .i32 tagWidth
        | .record .len => lenRecord standard bytes zone start field tagWidth
        | .groupCode => refuse start start (.groupCode field (Low3.fromWord word))
        | .unassigned => refuse start start (.unassigned field (Low3.fromWord word))

/-! ## The machine -/

/-- What a parse is asked: the advisor answers from the enclosing fields and the field. -/
structure Job where
  input : Admitted
  standard : Standard
  limit : DepthLimit
  advise : List FieldNumber → FieldNumber → Advice

/-- An open LEN, and the registers it restores. -/
structure Frame where
  row : Nat
  field : FieldNumber
  prevZone : Nat
  prevAbsorber : Option Nat
  deriving DecidableEq, Repr

structure Machine where
  cursor : Nat
  zone : Nat
  nearestAbsorber : Option Nat
  stack : List Frame
  path : List FieldNumber
  rows : List Row
  deriving DecidableEq, Repr

structure Tree where
  rows : List Row
  indexedEnd : Nat
  fault : Option Fault
  deriving DecidableEq, Repr

/-- `seal_descendants`. -/
def sealDescendants (row : Nat) (rows : List Row) : List Row :=
  rows.modify row fun r => { r with descendants := rows.length - 1 - row }

namespace Machine

def parentRow (m : Machine) : Option Nat := m.stack.getLast?.map Frame.row

def atDepthLimit (j : Job) (m : Machine) : Bool := j.limit.asInner ≤ m.stack.length

/-- The enclosing fields, materialized for the advisor. -/
def lend (m : Machine) : Machine :=
  if m.path.length < m.stack.length then
    { m with path := m.path ++ (m.stack.drop m.path.length).map Frame.field }
  else m

def pushLeaf (r : Met) (m : Machine) : Machine :=
  { m with rows := m.rows ++ [r.row m.parentRow 0] }

/-- A record whose payload is not read. -/
def leaf (r : Met) (m : Machine) : Machine := { m.pushLeaf r with cursor := r.stop }

/-- `open`, behind the row it opens. -/
def enter (r : Met) (absorbing : Bool) (m : Machine) : Machine :=
  { m.pushLeaf r with
    cursor := r.payloadStart
    zone := r.stop
    nearestAbsorber := if absorbing then some m.stack.length else m.nearestAbsorber
    stack := m.stack ++ [⟨m.rows.length, r.field, m.zone, m.nearestAbsorber⟩] }

/-- `clip`. -/
def clip (failure : Failure) (m : Machine) : Tree :=
  ⟨m.stack.foldr (fun frame rows => sealDescendants frame.row rows) m.rows, failure.cut,
    some failure.fault⟩

/-- `dispose`: unwinds to the nearest absorbing frame, or stops; nothing stands for an index past
the stack. -/
def dispose (failure : Failure) (m : Machine) : Turn Machine (Option Tree) :=
  match m.nearestAbsorber with
  | none => .halt (some (m.clip failure))
  | some idx =>
    match m.stack[idx]? with
    | none => .halt none
    | some absorber =>
      .next
        { cursor := (m.stack[idx + 1]?.map Frame.prevZone).getD m.zone
          zone := absorber.prevZone
          nearestAbsorber := absorber.prevAbsorber
          stack := m.stack.take idx
          path := m.path.take idx
          rows := m.rows.take (absorber.row + 1) }

/-- `close_frame`, behind the pop. -/
def closeFrame (frame : Frame) (m : Machine) : Machine :=
  { m with
    rows := sealDescendants frame.row m.rows
    zone := frame.prevZone
    nearestAbsorber := frame.prevAbsorber
    path := m.path.take m.stack.length }

/-- A LEN by its advice. -/
def lenAdvised (j : Job) (r : Met) (m : Machine) : Turn Machine (Option Tree) :=
  let lent := m.lend
  match j.advise lent.path r.field with
  | .opaqueBytes => .next (lent.leaf r)
  | .speculate => if lent.atDepthLimit j then .next (lent.leaf r) else .next (lent.enter r true)
  | .commit =>
    if lent.atDepthLimit j then
      lent.dispose ⟨⟨r.start, .depthExceeded r.field j.limit⟩, r.start⟩
    else .next (lent.enter r false)

def record (j : Job) (m : Machine) : Turn Machine (Option Tree) :=
  match judge j.standard j.input.bytes m.zone m.cursor with
  | .error failure => m.dispose failure
  | .ok r => if r.kind = .len then m.lenAdvised j r else .next (m.leaf r)

def turn (j : Job) (m : Machine) : Turn Machine (Option Tree) :=
  if m.cursor = m.zone then
    match m.stack.getLast? with
    | none => .halt (some ⟨m.rows, j.input.bytes.length, none⟩)
    | some frame => .next (closeFrame frame { m with stack := m.stack.dropLast })
  else m.record j

def start (j : Job) : Machine := ⟨0, j.input.bytes.length, none, [], [], []⟩

end Machine

/-- `Tree::parse_standard`. A turn reads a byte or closes a frame. -/
def parseStandard (j : Job) : Option Tree :=
  (run (Machine.turn j) (2 * j.input.bytes.length + 1) (.start j)).join

/-! ## The lookup -/

/-- The climb of `narrowest`. -/
def climb (rows : List Row) (pos : Nat) : Nat → Nat → Option Nat
  | 0, _ => none
  | fuel + 1, cur =>
    match rows[cur]? with
    | none => none
    | some r =>
      if pos < r.stop then some cur
      else
        match r.parent with
        | none => none
        | some parent => climb rows pos fuel parent

/-- `narrowest`: the starts ascend, so their partition point is where the first one lies past
the position. -/
def Tree.narrowest (tree : Tree) (pos : Nat) : Option Nat :=
  match (tree.rows.takeWhile fun r => r.start ≤ pos).length with
  | 0 => none
  | last + 1 => climb tree.rows pos tree.rows.length last

end Groupless

end ProtobufEdit.Inspect
