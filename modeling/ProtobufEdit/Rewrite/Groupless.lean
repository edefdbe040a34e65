import ProtobufEdit.Rewrite
import ProtobufEdit.TwoPass.Walk

/-!
# The groupless rewriter

One job in two passes: a measuring walk judges the document and seals a plan, and an emit walk
replays it over the plan's slots into a reservation or a caller's sink. Insertions fire at the
walk's own events: a container's descent, its exhaustion, the root's start and end.
-/

namespace ProtobufEdit.Rewrite.Groupless

open Wire ProtobufEdit.Path Cursor.Groupless Loop Emission TwoPass Wire.Groupless

/-- The rewriter's refusal classes. -/
inductive FaultKind where
  | wire (breach : WireBreach)
  | conflict (first second : Nat)
  | kindMismatch (rule : Nat)
  | growth (len : Nat)
  | output (len : Nat)
  | oversize
  deriving DecidableEq, Repr

/-- Layers carry the door's tail flag; the insert-free door's never pends. -/
abbrev State (σ : Type) := Walk Bool InsertStats σ

abbrev Turned (σ : Type) := Turn (State σ) (Outcome FaultKind InsertStats σ)

section Walk

variable {inserts : Bool} (set : Sets inserts) {σ : Type} (S : Sink σ) (standard : Standard)

/-- The hoisted gap gate: constant at the insert-free door. -/
def gapped : Bool := inserts && (Matcher.new set.provider).gapped

/-- An insertion's record: the head word is minimal, from the rule's field and its value's
kind. -/
def inserted (insert : InsertRule) : Authored UInt8 :=
  authoredRecord (headWord insert.field insert.value.kind) insert.value

/-- One inserted record fires. -/
def fireGap (insert : InsertRule) (st : σ × InsertStats) : Except Trap (σ × InsertStats) := do
  let s ← S.author (inserted insert) st.1
  return (s, { st.2 with inserted := st.2.inserted + 1 })

/-- Insertions fired in turn. -/
def fireAll : List InsertRule → σ × InsertStats → Except Trap (σ × InsertStats)
  | [], st => .ok st
  | insert :: rest, st => do
    let st ← fireGap S insert st
    fireAll rest st

/-- The rules a gap lane hits, fired in rule order. Gap lanes quote insertions. -/
def fireHits : List Nat → σ × InsertStats → Except Trap (σ × InsertStats)
  | [], st => .ok st
  | rule :: rest, st =>
    match set.action rule with
    | none => .error .undefined
    | some (.insert insert) => do
      let st ← fireGap S insert st
      fireHits rest st
    | some _ => .error .panic

/-- Every insertion of a lane at a field of the matcher's current layer. -/
def fireLane (matcher : Matcher) (field : FieldNumber) (lane : Lane) (st : σ × InsertStats) :
    Except Trap (σ × InsertStats) :=
  fireHits set S (matcher.visitGaps field lane) st

attribute [grind =] fireAll fireHits

/-- A layer exhausted cleanly. Its tail gaps fire inside it, before the ascent settles it, from
the entries of the layer under it. -/
def exhausted (w : State σ) : Turned σ :=
  match w.below with
  | [] =>
    match fireAll S (set.rootInserts .tailOf) (w.sink, w.stats) with
    | .ok (sink, stats) => .halt (.done stats sink)
    | .error trap => .halt (lapse trap)
  | layer :: below =>
    let done := w.layer
    let w := { w with layer, below, matcher := w.matcher.exit }
    match done.crossing with
    | none => .halt .undefined
    | some crossing =>
      let fired :=
        if inserts && done.kind then fireLane set S w.matcher crossing.field .tail (w.sink, w.stats)
        else .ok (w.sink, w.stats)
      match fired with
      | .error trap => .halt (lapse trap)
      | .ok (sink, stats) =>
        match S.ascend done.head done.tagEnd done.payloadStart done.payloadEnd sink with
        | .ok sink => .next { w with sink, stats }
        | .error (.outgrown len) => .halt (S.refuse ⟨done.head, w.trail, .growth len⟩)
        | .error trap => .halt (lapse trap)

/-- A replacement of the record's own kind. -/
def agrees : Cursor.Value → Value → Bool
  | .varint _, .varint _ | .i32 _, .i32 _ | .i64 _, .i64 _ => true
  | .len _, .len _ | .len _, .lenParts _ => true
  | _, _ => false

/-- A record delivered at `w`'s head, `here` behind it: the action that owns it. -/
def act (w here : State σ) (entry : Entry) (rule : Nat) : Turned σ :=
  match set.action rule with
  | none => .halt .undefined
  | some .delete =>
    { here with stats := { w.stats with deleted := w.stats.deleted + 1 } }.event S.delete
  | some (.replace value) =>
    if agrees entry.value value then
      { here with stats := { w.stats with replaced := w.stats.replaced + 1 } }.event
        (S.replace w.head (w.head + here.layer.cursor.tagWidth) value.authored)
    else .halt (S.refuse ⟨w.head, w.trail, .kindMismatch rule⟩)
  | some .normalize =>
    let value := Value.own entry.value
    { here with stats := { w.stats with normalized := w.stats.normalized + 1 } }.event
      (S.author (authoredRecord (headWord entry.field value.kind) value))
  | some (.insert _) => .halt .panic

/-- A container no action owns, committed: its head gaps fire behind its own head's emission,
and its tail gaps are left pending. -/
def cross (w here : State σ) (field : FieldNumber) (payload : List UInt8) (interior : Bool) :
    Turned σ :=
  let head := w.head
  let stop := here.head
  let payloadStart := stop - payload.length
  if w.layer.remaining = 0 then .halt (S.refuse ⟨head, w.trail, .wire .depth⟩)
  else
    let tagEnd := head + here.layer.cursor.tagWidth
    match S.descend head tagEnd payloadStart stop here.sink with
    | .error trap => .halt (lapse trap)
    | .ok (.skip, sink) => { here with sink }.event (S.verbatim head stop)
    | .ok (.walk, sink) =>
      let stats := { w.stats with descended := w.stats.descended + 1 }
      let gaps := here.matcher.probeGaps field
      let fired :=
        if interior && gaps.1 then fireLane set S here.matcher field .head (sink, stats)
        else .ok (sink, stats)
      match fired with
      | .error trap => .halt (lapse trap)
      | .ok (sink, stats) =>
        { here with sink, stats }.enter field head tagEnd payloadStart stop payload
          (inserts && interior && gaps.2)

/-- A delivered record. A gap anchor commits its terminal to be a container; an action owns a
container whole, gaps included. -/
def deliver (w : State σ) (cursor : Cursor) (entry : Entry) : Turned σ :=
  let head := w.head
  let field := entry.field
  let here := w.moved cursor
  match entry.value with
  | .varint _ | .i32 _ | .i64 _ =>
    match w.matcher.probeTarget field with
    | .conflict first second => .halt (S.refuse ⟨head, w.trail, .conflict first second⟩)
    | hits =>
      match (if gapped set then w.matcher.firstInteriorGap field else none) with
      | some rule => .halt (S.refuse ⟨head, w.trail, .kindMismatch rule⟩)
      | none =>
        match hits with
        | .one rule => act set S w here entry rule
        | .none => here.event (S.verbatim head here.head)
        | .conflict _ _ => .halt .panic
  | .len payload =>
    let (hits, routed, matcher) := w.matcher.probe field
    let here := { here with matcher }
    match hits with
    | .conflict first second => .halt (S.refuse ⟨head, w.trail, .conflict first second⟩)
    | .one rule => act set S w here entry rule
    | .none =>
      let gaps := matcher.probeGaps field
      let interior := gapped set && (gaps.1 || gaps.2)
      if interior || routed then cross set S w here field payload interior
      else here.event (S.verbatim head here.head)

/-- One turn of the walk. -/
def turn (w : State σ) : Turned σ :=
  match step standard w.layer.cursor with
  | (none, _) => exhausted set S w
  | (some (.error fault), _) =>
    .halt (S.refuse ⟨w.layer.base + fault.pos, w.trail, .wire (breach fault.kind)⟩)
  | (some (.ok entry), cursor) => deliver set S w cursor entry

variable (limit : DepthLimit) (input : List UInt8)

def start (root : Cursor) (st : σ × InsertStats) : State σ :=
  ⟨⟨root, 0, none, 0, 0, 0, 0, limit.asInner, false⟩, [], .new set.provider, st.2, st.1⟩

/-- One pass. The root's head gaps fire before the first step; the fuel is never exhausted
(`walk_of_yields`). -/
def walk (sink : σ) : Outcome FaultKind InsertStats σ :=
  match Cursor.over input with
  | none => S.refuse ⟨0, [], .oversize⟩
  | some root =>
    match fireAll S (set.rootInserts .headOf) (sink, .zero) with
    | .error trap => lapse trap
    | .ok st =>
      (run (turn set S standard) (2 * input.length + 2) (start set limit root st)).getD .undefined

end Walk

/-- The measuring pass's sealed verdict. -/
structure Plan (inserts : Bool) where
  input : List UInt8
  rules : Sets inserts
  limit : DepthLimit
  stats : InsertStats
  slots : SlotTable
  total : Nat

def Plan.new {inserts : Bool} (input : List UInt8) (rules : Sets inserts) (limit : DepthLimit)
    (stats : InsertStats) (slots : SlotTable) (total : Nat) : Option (Plan inserts) :=
  if PayloadLen.max < total then none else some ⟨input, rules, limit, stats, slots, total⟩

section Jobs

variable {inserts : Bool} (standard : Standard)

/-- The emit pass over a sealed plan. -/
def Plan.replay (plan : Plan inserts) (face : Face) : Outcome FaultKind InsertStats Emit :=
  walk plan.rules Emit.sink standard plan.limit plan.input
    (.new face plan.input plan.slots plan.total)

variable (rules : Sets inserts) (limit : DepthLimit) (input : List UInt8)

/-- A job on a face: what the caller is `left` with on a refusal, and what the pieces written
or handed over come to. A debug build asserts that the passes' tallies agree, and that the
insert-free door fired no gap. -/
def job {α : Type} (build : Build) (face : Face) (left : α) (into : List (List UInt8) → α) :
    Job FaultKind (Receipt inserts) α :=
  match walk rules Measure.sink standard limit input .new with
  | .refused fault => .err fault left
  | .panic => .panic
  | .undefined => .undefined
  | .done stats measure =>
    let total := measure.rootTotal
    match Plan.new input rules limit stats measure.slots total with
    | none => .err ⟨0, [], .output total⟩ left
    | some plan =>
      match plan.replay standard face with
      | .refused _ => .undefined
      | .panic => .panic
      | .undefined => .undefined
      | .done repeated emit =>
        if build = .debug ∧ repeated.judged ≠ plan.stats.judged then .panic
        else
          match emit.finish with
          | .error _ => .panic
          | .ok emit =>
            if build = .debug ∧ inserts = false ∧ plan.stats.inserted ≠ 0 then .panic
            else .ok (receipt inserts plan.stats) (into emit.pieces)

/-- The buffered job, and the caller's vector behind it. -/
def runInto (build : Build) (out : List UInt8) :
    Job FaultKind (Receipt inserts) (List UInt8) :=
  job standard rules limit input build .buffer out fun pieces => out ++ pieces.flatten

/-- The sink twin, and the slices handed over. -/
def runSink (build : Build) : Job FaultKind (Receipt inserts) (List (List UInt8)) :=
  job standard rules limit input build .sink [] id

end Jobs

end ProtobufEdit.Rewrite.Groupless
