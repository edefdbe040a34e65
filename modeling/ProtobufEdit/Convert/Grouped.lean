import ProtobufEdit.TwoPass.Seam
import ProtobufEdit.TwoPass.Walk

/-!
# The grouped-output converter

Groupless input, the records a program designates re-framed as groups: a measuring walk, a
sealed plan, and an emit walk over the plan's slots. `commit` is what a committed interior
becomes, and `walk_commit` says that the walk of it sends its consumer the events of that
document.
-/

namespace ProtobufEdit.Convert.Grouped

open Wire ProtobufEdit.Path Cursor.Groupless Loop Emission TwoPass Wire.Grouped

/-! ## The code -/

/-- The converter's refusal classes. -/
inductive FaultKind where
  | wire (breach : WireBreach)
  | kindMismatch (path : Nat)
  | growth (len : Nat)
  | output (len : Nat)
  | oversize
  deriving DecidableEq, Repr

/-- The job receipt. -/
structure Stats where
  converted : Nat
  descended : Nat
  deriving DecidableEq, Repr

/-- What opened a walk layer: a crossing, or a conversion. -/
inductive LayerKind where
  | cross
  | convert
  deriving DecidableEq, Repr

section Walk

variable {σ : Type} (S : Sink σ) (standard : Standard)

abbrev State (σ : Type) := Walk LayerKind Stats σ

abbrev Turned (σ : Type) := Turn (State σ) (Outcome FaultKind Stats σ)

/-- A layer exhausted cleanly. -/
def exhausted (w : State σ) : Turned σ :=
  match w.below with
  | [] => .halt (.done w.stats w.sink)
  | layer :: below =>
    let done := w.layer
    let w := { w with layer, below, matcher := w.matcher.exit }
    match done.kind with
    | .cross =>
      match S.ascend done.head done.tagEnd done.payloadStart done.payloadEnd w.sink with
      | .ok sink => .next { w with sink }
      | .error (.outgrown len) => .halt (S.refuse ⟨done.head, w.trail, .growth len⟩)
      | .error trap => .halt (lapse trap)
    | .convert =>
      match done.crossing with
      | none => .halt .undefined
      | some crossing => w.event (S.frameExit (authoredWord (groupEndWord crossing.field)))

/-- A delivered record. -/
def deliver (w : State σ) (cursor : Cursor) (entry : Entry) : Turned σ :=
  let head := w.head
  let field := entry.field
  let here := w.moved cursor
  let stop := here.head
  match entry.value with
  | .varint _ | .i32 _ | .i64 _ =>
    match w.matcher.firstTarget field with
    | some path => .halt (S.refuse ⟨head, w.trail, .kindMismatch path⟩)
    | none => here.event (S.verbatim head stop)
  | .len payload =>
    let payloadStart := stop - payload.length
    let designated := (w.matcher.firstTarget field).isSome
    let (routed, matcher) := w.matcher.probeRoutes field
    let here := { here with matcher }
    if !designated && !routed then here.event (S.verbatim head stop)
    else if w.layer.remaining = 0 then .halt (S.refuse ⟨head, w.trail, .wire .depth⟩)
    else
      let tagEnd := head + cursor.tagWidth
      if designated then
        match S.frameEnter (authoredWord (headWord field .group)) here.sink with
        | .error trap => .halt (lapse trap)
        | .ok sink =>
          let stats := { w.stats with converted := w.stats.converted + 1 }
          { here with stats, sink }.enter field head tagEnd payloadStart stop payload .convert
      else
        match S.descend head tagEnd payloadStart stop here.sink with
        | .error trap => .halt (lapse trap)
        | .ok (.skip, sink) => { here with sink }.event (S.verbatim head stop)
        | .ok (.walk, sink) =>
          let stats := { w.stats with descended := w.stats.descended + 1 }
          { here with stats, sink }.enter field head tagEnd payloadStart stop payload .cross

/-- One turn of the walk. -/
def turn (w : State σ) : Turned σ :=
  match step standard w.layer.cursor with
  | (none, _) => exhausted S w
  | (some (.error fault), _) =>
    .halt (S.refuse ⟨w.layer.base + fault.pos, w.trail, .wire (breach fault.kind)⟩)
  | (some (.ok entry), cursor) => deliver S w cursor entry

variable (program : Program) (limit : DepthLimit) (input : List UInt8)

def start (root : Cursor) (sink : σ) : State σ :=
  ⟨⟨root, 0, none, 0, 0, 0, 0, limit.asInner, .cross⟩, [], .new program.provider, ⟨0, 0⟩, sink⟩

/-- One pass. The fuel is never exhausted (`walk_of_yields`). -/
def walk (sink : σ) : Outcome FaultKind Stats σ :=
  match Cursor.over input with
  | none => S.refuse ⟨0, [], .oversize⟩
  | some root =>
    (run (turn S standard) (2 * input.length + 2) (start program limit root sink)).getD .undefined

end Walk

/-- The measuring pass's sealed verdict. -/
structure Plan where
  input : List UInt8
  program : Program
  limit : DepthLimit
  stats : Stats
  slots : SlotTable
  total : Nat

def Plan.new (input : List UInt8) (program : Program) (limit : DepthLimit) (stats : Stats)
    (slots : SlotTable) (total : Nat) : Option Plan :=
  if PayloadLen.max < total then none else some ⟨input, program, limit, stats, slots, total⟩

section Jobs

variable (standard : Standard)

/-- The emit pass over a sealed plan. -/
def Plan.replay (plan : Plan) (face : Face) : Outcome FaultKind Stats Emit :=
  walk Emit.sink standard plan.program plan.limit plan.input
    (.new face plan.input plan.slots plan.total)

variable (program : Program) (limit : DepthLimit) (input : List UInt8)

/-- A job on a face: what the caller is `left` with on a refusal, and what the pieces written
or handed over come to. A debug build asserts that the passes' receipts agree. -/
def job {α : Type} (build : Build) (face : Face) (left : α) (into : List (List UInt8) → α) :
    Job FaultKind Stats α :=
  match walk Measure.sink standard program limit input .new with
  | .refused fault => .err fault left
  | .panic => .panic
  | .undefined => .undefined
  | .done stats measure =>
    let total := measure.rootTotal
    match Plan.new input program limit stats measure.slots total with
    | none => .err ⟨0, [], .output total⟩ left
    | some plan =>
      match plan.replay standard face with
      | .refused _ => .undefined
      | .panic => .panic
      | .undefined => .undefined
      | .done repeated emit =>
        if build = .debug ∧ repeated ≠ plan.stats then .panic
        else
          match emit.finish with
          | .error _ => .panic
          | .ok emit => .ok plan.stats (into emit.pieces)

/-- The buffered job, and the caller's vector behind it. -/
def runInto (build : Build) (out : List UInt8) : Job FaultKind Stats (List UInt8) :=
  job standard program limit input build .buffer out fun pieces => out ++ pieces.flatten

/-- The sink twin, and the slices handed over. -/
def runSink (build : Build) : Job FaultKind Stats (List (List UInt8)) :=
  job standard program limit input build .sink [] id

end Jobs

end ProtobufEdit.Convert.Grouped
