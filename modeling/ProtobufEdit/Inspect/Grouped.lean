import ProtobufEdit.Source.Grouped
import ProtobufEdit.Inspect.Groupless

/-!
# The grouped inspector

One parse over admitted bytes builds a table of rows in preorder, and at most one fault. Groups
walk structurally; of every LEN the caller's advice says whether its payload is read as a message.
A fault inside a payload that was only tried concludes that it is bytes; any other fault stops the
parse, and clips what is open.
-/

namespace ProtobufEdit.Inspect.Grouped

open Wire Wire.Grouped Varint Loop

/-! ## Faults -/

inductive FaultKind where
  | read (stage : Stage) (cause : Slice.ReadFault)
  | fieldZero (code : Low3)
  | unassigned (field : FieldNumber) (code : Low3)
  | lenOverrun (field : FieldNumber) (declared zoneLeft : Nat)
  | fixedTruncated (field : FieldNumber) (needed : Nat)
  | groupEndOrphan (found : FieldNumber)
  | groupEndMismatch (opened found : FieldNumber)
  | groupUnclosed (opened : FieldNumber)
  | depthExceeded (field : FieldNumber) (limit : DepthLimit)
  | nonMinimalTag
  | nonMinimalLen (field : FieldNumber)
  | nonMinimalValue (field : FieldNumber)
  deriving DecidableEq, Repr

/-- `pos` is `at`. -/
structure Fault where
  pos : Nat
  kind : FaultKind
  deriving DecidableEq, Repr

/-- A judged violation, and the head of the record it struck. -/
structure Failure where
  fault : Fault
  cut : Nat
  deriving DecidableEq, Repr

def refuse {α : Type} (pos cut : Nat) (kind : FaultKind) : Except Failure α :=
  .error ⟨⟨pos, kind⟩, cut⟩

/-! ## Rows -/

structure Row where
  start : Nat
  payloadLen : Nat
  parent : Option Nat
  descendants : Nat
  field : FieldNumber
  kind : RecordKind
  tagWidth : Nat
  delimWidth : Option Nat
  deriving DecidableEq, Repr

/-- The end of the record's span. -/
def Row.stop (r : Row) : Nat := r.start + (r.tagWidth + r.delimWidth.getD 0 + r.payloadLen)

/-- A record as it was met, with no place in the tree. -/
structure Met where
  start : Nat
  field : FieldNumber
  kind : RecordKind
  tagWidth : Nat
  delimWidth : Option Nat
  payloadLen : Nat
  deriving DecidableEq, Repr

namespace Met

/-- A LEN's delimiter stands before its payload, a group's behind it. -/
def payloadStart (r : Met) : Nat :=
  if r.kind = .len then r.start + r.tagWidth + r.delimWidth.getD 0 else r.start + r.tagWidth

def stop (r : Met) : Nat := r.start + (r.tagWidth + r.delimWidth.getD 0 + r.payloadLen)

def row (parent : Option Nat) (descendants : Nat) (r : Met) : Row :=
  { start := r.start, payloadLen := r.payloadLen, parent, descendants, field := r.field,
    kind := r.kind, tagWidth := r.tagWidth, delimWidth := r.delimWidth }

end Met

/-! ## One construct -/

/-- What is judged at a position: a record, or a group's framing tag. -/
inductive Judged where
  | met (r : Met)
  | groupOpen (field : FieldNumber) (tagWidth : Nat)
  | groupClose (field : FieldNumber) (tagWidth : Nat)
  deriving DecidableEq, Repr

/-- The value's width: a tolerant parse only sizes it. -/
def valueWidth (standard : Standard) (bytes : List UInt8) (zone valueAt start : Nat)
    (field : FieldNumber) : Except Failure Nat :=
  match standard with
  | .canonicalMinimal =>
    match Slice.value64 bytes valueAt zone with
    | .error cause => refuse valueAt start (.read (.value field) cause)
    | .ok (value, width) =>
      if encodedLen64 value < width then refuse valueAt start (.nonMinimalValue field)
      else .ok width
  | .tolerant =>
    match Slice.width64Trusted bytes valueAt zone with
    | .error cause => refuse valueAt start (.read (.value field) cause)
    | .ok width => .ok width

/-- `varint_record`. -/
def varintRecord (standard : Standard) (bytes : List UInt8) (zone start : Nat)
    (field : FieldNumber) (tagWidth : Nat) : Except Failure Judged :=
  match valueWidth standard bytes zone (start + tagWidth) start field with
  | .error failure => .error failure
  | .ok width => .ok (.met ⟨start, field, .varint, tagWidth, none, width⟩)

/-- `fixed_record`. -/
def fixedRecord (zone start : Nat) (field : FieldNumber) (kind : RecordKind) (tagWidth : Nat) :
    Except Failure Judged :=
  let needed := if kind = .i64 then 8 else 4
  if zone < start + tagWidth + needed then
    refuse (start + tagWidth) start (.fixedTruncated field needed)
  else .ok (.met ⟨start, field, kind, tagWidth, none, needed⟩)

/-- `len_record`, up to the advice. -/
def lenRecord (standard : Standard) (bytes : List UInt8) (zone start : Nat)
    (field : FieldNumber) (tagWidth : Nat) : Except Failure Judged :=
  let afterTag := start + tagWidth
  match Slice.lenWord bytes afterTag zone with
  | .error cause => refuse afterTag start (.read (.lenPrefix field) cause)
  | .ok (declared, prefixWidth) =>
    if standard = .canonicalMinimal ∧ encodedLen32 declared < prefixWidth then
      refuse afterTag start (.nonMinimalLen field)
    else
      let payloadStart := afterTag + prefixWidth
      if zone < payloadStart + declared then
        refuse afterTag start (.lenOverrun field declared (zone - payloadStart))
      else .ok (.met ⟨start, field, .len, tagWidth, some prefixWidth, declared⟩)

/-- What `record` judges at a position, blind to what the parse has committed to. -/
def judge (standard : Standard) (bytes : List UInt8) (zone start : Nat) : Except Failure Judged :=
  match Slice.tagWord bytes start zone with
  | .error cause => refuse start start (.read .tag cause)
  | .ok (word, tagWidth) =>
    if standard = .canonicalMinimal ∧ encodedLen32 word < tagWidth then
      refuse start start .nonMinimalTag
    else
      match FieldNumber.fromWord word with
      | none => refuse start start (.fieldZero (Low3.fromWord word))
      | some field =>
        match classify (Low3.fromWord word) with
        | .record .varint => varintRecord standard bytes zone start field tagWidth
        | .record .i64 => fixedRecord zone start field .i64 tagWidth
        | .record .i32 => fixedRecord zone start field .i32 tagWidth
        | .record .len => lenRecord standard bytes zone start field tagWidth
        | .record .group => .ok (.groupOpen field tagWidth)
        | .groupEnd => .ok (.groupClose field tagWidth)
        | .unassigned => refuse start start (.unassigned field (Low3.fromWord word))

/-! ## The machine -/

/-- What a parse is asked. The advisor answers from the enclosing fields and the field, and keeps
a state of its own. -/
structure Job (α : Type) where
  input : Admitted
  standard : Standard
  limit : DepthLimit
  advise : List FieldNumber → FieldNumber → α → Advice × α
  advisor : α

inductive FrameKind where
  | group
  | len
  deriving DecidableEq, Repr

/-- An open container, and the registers it restores. -/
structure Frame where
  row : Nat
  field : FieldNumber
  prevZone : Nat
  prevAbsorber : Option Nat
  kind : FrameKind
  deriving DecidableEq, Repr

structure Machine (α : Type) where
  cursor : Nat
  zone : Nat
  nearestAbsorber : Option Nat
  stack : List Frame
  path : List FieldNumber
  rows : List Row
  advisor : α

structure Tree where
  input : Admitted
  rows : List Row
  indexedEnd : Nat
  fault : Option Fault

/-- `seal_descendants`. -/
def sealDescendants (row : Nat) (rows : List Row) : List Row :=
  rows.modify row fun r => { r with descendants := rows.length - 1 - row }

/-- `clip_group_row`. -/
def clipGroupRow (row cut : Nat) (rows : List Row) : List Row :=
  rows.modify row fun r =>
    { r with
      payloadLen := cut - (r.start + r.tagWidth)
      descendants := rows.length - 1 - row }

/-- A frame's terminal write at a fault. -/
def clipFrame (cut : Nat) (frame : Frame) (rows : List Row) : List Row :=
  match frame.kind with
  | .group => clipGroupRow frame.row cut rows
  | .len => sealDescendants frame.row rows

namespace Machine

variable {α : Type}

def parentRow (m : Machine α) : Option Nat := m.stack.getLast?.map Frame.row

def atDepthLimit (j : Job α) (m : Machine α) : Bool := j.limit.asInner ≤ m.stack.length

/-- The enclosing fields, materialized for the advisor. -/
def lend (m : Machine α) : Machine α :=
  if m.path.length < m.stack.length then
    { m with path := m.path ++ (m.stack.drop m.path.length).map Frame.field }
  else m

/-- `consult`. -/
def consult (j : Job α) (field : FieldNumber) (m : Machine α) : Advice × Machine α :=
  let lent := m.lend
  let answer := j.advise lent.path field lent.advisor
  (answer.1, { lent with advisor := answer.2 })

def pushLeaf (r : Met) (m : Machine α) : Machine α :=
  { m with rows := m.rows ++ [r.row m.parentRow 0] }

/-- A record whose payload is not read. -/
def leaf (r : Met) (m : Machine α) : Machine α := { m.pushLeaf r with cursor := r.stop }

/-- `open`, behind the row it opens. -/
def enter (r : Met) (kind : FrameKind) (zone : Nat) (absorbing : Bool) (m : Machine α) :
    Machine α :=
  { m.pushLeaf r with
    cursor := r.payloadStart
    zone
    nearestAbsorber := if absorbing then some m.stack.length else m.nearestAbsorber
    stack := m.stack ++ [⟨m.rows.length, r.field, m.zone, m.nearestAbsorber, kind⟩] }

/-- The frame popped, and the registers it restores. -/
def restore (frame : Frame) (m : Machine α) : Machine α :=
  let stack := m.stack.dropLast
  { m with
    stack
    zone := frame.prevZone
    nearestAbsorber := frame.prevAbsorber
    path := m.path.take stack.length }

/-- `clip`. -/
def clip (j : Job α) (failure : Failure) (m : Machine α) : Tree :=
  ⟨j.input, m.stack.foldr (clipFrame failure.cut) m.rows, failure.cut, some failure.fault⟩

/-- `dispose`: unwinds to the nearest absorbing frame, or stops; nothing stands for an index past
the stack. -/
def dispose (j : Job α) (failure : Failure) (m : Machine α) : Turn (Machine α) (Option Tree) :=
  match m.nearestAbsorber with
  | none => .halt (some (m.clip j failure))
  | some idx =>
    match m.stack[idx]? with
    | none => .halt none
    | some absorber =>
      .next
        { m with
          cursor := (m.stack[idx + 1]?.map Frame.prevZone).getD m.zone
          zone := absorber.prevZone
          nearestAbsorber := absorber.prevAbsorber
          stack := m.stack.take idx
          path := m.path.take idx
          rows := m.rows.take (absorber.row + 1) }

def halt (j : Job α) (pos cut : Nat) (kind : FaultKind) (m : Machine α) :
    Turn (Machine α) (Option Tree) :=
  m.dispose j ⟨⟨pos, kind⟩, cut⟩

/-- A LEN by its advice. -/
def lenAdvised (j : Job α) (r : Met) (m : Machine α) : Turn (Machine α) (Option Tree) :=
  match m.consult j r.field with
  | (.opaqueBytes, m) => .next (m.leaf r)
  | (.speculate, m) =>
    if m.atDepthLimit j then .next (m.leaf r) else .next (m.enter r .len r.stop true)
  | (.commit, m) =>
    if m.atDepthLimit j then m.halt j r.start r.start (.depthExceeded r.field j.limit)
    else .next (m.enter r .len r.stop false)

/-- `group_open`: a group inherits its opener's zone. -/
def groupOpen (j : Job α) (field : FieldNumber) (tagWidth : Nat) (m : Machine α) :
    Turn (Machine α) (Option Tree) :=
  if m.atDepthLimit j then m.halt j m.cursor m.cursor (.depthExceeded field j.limit)
  else .next (m.enter ⟨m.cursor, field, .group, tagWidth, none, 0⟩ .group m.zone false)

/-- The matching end tag's writes, behind the pop. -/
def sealGroup (frame : Frame) (tagWidth : Nat) (m : Machine α) : Machine α :=
  { m.restore frame with
    rows := m.rows.modify frame.row fun r =>
      { r with
        payloadLen := m.cursor - (r.start + r.tagWidth)
        delimWidth := some tagWidth
        descendants := m.rows.length - 1 - frame.row }
    cursor := m.cursor + tagWidth }

/-- `group_close`. -/
def groupClose (j : Job α) (found : FieldNumber) (tagWidth : Nat) (m : Machine α) :
    Turn (Machine α) (Option Tree) :=
  match m.stack.getLast? with
  | none => m.halt j m.cursor m.cursor (.groupEndOrphan found)
  | some frame =>
    if frame.kind ≠ .group then m.halt j m.cursor m.cursor (.groupEndOrphan found)
    else if frame.field ≠ found then
      m.halt j m.cursor m.cursor (.groupEndMismatch frame.field found)
    else .next (m.sealGroup frame tagWidth)

/-- `record`. -/
def record (j : Job α) (m : Machine α) : Turn (Machine α) (Option Tree) :=
  match judge j.standard j.input.bytes m.zone m.cursor with
  | .error failure => m.dispose j failure
  | .ok (.met r) => if r.kind = .len then m.lenAdvised j r else .next (m.leaf r)
  | .ok (.groupOpen field tagWidth) => m.groupOpen j field tagWidth
  | .ok (.groupClose field tagWidth) => m.groupClose j field tagWidth

/-- `close_frame`, at the end of the zone. -/
def closeFrame (j : Job α) (frame : Frame) (m : Machine α) : Turn (Machine α) (Option Tree) :=
  match frame.kind with
  | .len => .next { m.restore frame with rows := sealDescendants frame.row m.rows }
  | .group =>
    { m.restore frame with rows := clipGroupRow frame.row m.zone m.rows }.halt j m.zone m.zone
      (.groupUnclosed frame.field)

def turn (j : Job α) (m : Machine α) : Turn (Machine α) (Option Tree) :=
  if m.cursor = m.zone then
    match m.stack.getLast? with
    | none => .halt (some ⟨j.input, m.rows, j.input.bytes.length, none⟩)
    | some frame => m.closeFrame j frame
  else m.record j

def start (j : Job α) : Machine α := ⟨0, j.input.bytes.length, none, [], [], [], j.advisor⟩

end Machine

/-- `Tree::parse_standard`. A turn reads a byte or closes a frame. -/
def parseStandard {α : Type} (j : Job α) : Option Tree :=
  (run (Machine.turn j) (2 * j.input.bytes.length + 1) (.start j)).join

/-! ## Designations -/

namespace Tree

/-- `record_bytes`. -/
def recordBytes (tree : Tree) (r : Row) : List UInt8 :=
  (tree.input.bytes.drop r.start).take (r.stop - r.start)

/-- The climb of `structural_nesting`: the length of a chain of groups up to the root, or that
there is none. Nothing stands for a chain that leaves the root's subtree. -/
def chain (rows : List Row) (root : Nat) : Nat → Option Nat → Nat → Option (Option Nat)
  | 0, _, _ => none
  | _, none, _ => none
  | fuel + 1, some parent, depth =>
    if parent = root then some (some depth)
    else
      match rows[parent]? with
      | none => none
      | some up =>
        if up.kind ≠ .group then some none else chain rows root fuel up.parent (depth + 1)

/-- One row of the subtree. -/
def deepen (rows : List Row) (root : Nat) (deepest index : Nat) : Option Nat :=
  match rows[index]? with
  | none => none
  | some row =>
    if row.kind ≠ .group then some deepest
    else
      match chain rows root rows.length row.parent 2 with
      | none => none
      | some none => some deepest
      | some (some depth) => some (if deepest < depth then depth else deepest)

/-- `structural_nesting`. -/
def structuralNesting (tree : Tree) (id : Nat) : Option Nat :=
  match tree.rows[id]? with
  | none => none
  | some root =>
    if root.kind ≠ .group then some 0
    else (List.range' (id + 1) root.descendants).foldlM (deepen tree.rows id) 1

/-- `record_ref`: nothing stands for a panic. -/
def recordRef (tree : Tree) (id : Nat) : Option (Except Source.Grouped.Fault Source.Grouped.RecordRef) :=
  match tree.rows[id]? with
  | none => none
  | some r =>
    if tree.indexedEnd < r.stop ∨ (r.kind = .group ∧ r.delimWidth = none) then
      some (.error (.incompleteRecord tree.indexedEnd))
    else
      (tree.structuralNesting id).map fun groupDepth =>
        .ok ⟨tree.recordBytes r, r.field, r.kind, ⟨r.tagWidth, r.delimWidth, r.payloadLen⟩, false,
          groupDepth⟩

end Tree

end ProtobufEdit.Inspect.Grouped
