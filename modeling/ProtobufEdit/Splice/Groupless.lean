import ProtobufEdit.Splice
import ProtobufEdit.TwoPass.Walk

/-!
# The groupless splicer

One ask a delivered record drives everything: the walk asks the rule, and hands the verdict's
consequences to a back-end.
-/

namespace ProtobufEdit.Splice.Groupless

open Wire ProtobufEdit.Path Cursor.Groupless Loop TwoPass

/-- The consumer's per-record verdicts, one ask a wire kind. An ask is a state, the record's
whole-input offset, its field and its value, and leaves a state behind. -/
structure Rule (σ : Type) where
  onVarint : σ → Nat → FieldNumber → Nat → Scalar UInt64 × σ
  onI32 : σ → Nat → FieldNumber → Nat → Scalar UInt32 × σ
  onI64 : σ → Nat → FieldNumber → Nat → Scalar UInt64 × σ
  onLen : σ → Nat → FieldNumber → List UInt8 → Len × σ

inductive FaultKind where
  | wire (breach : WireBreach)
  | growth (len : Nat)
  | output (len : Nat)
  | oversize
  deriving DecidableEq, Repr

/-- How a job ends. -/
inductive Ended where
  | ok
  | err (fault : TwoPass.Fault FaultKind)
  | panic
  | undefined
  deriving DecidableEq, Repr

/-- One committed LEN layer; `remaining` LEN commits are still allowed below it. -/
structure Layer where
  cursor : Cursor
  base : Nat
  crossing : Option Crossing
  remaining : Nat
  deriving DecidableEq, Repr

/-- The promise chain: one crossing per committed LEN layer. -/
def trail (layers : List Layer) : List Crossing := layers.reverse.filterMap Layer.crossing

/-- The walk's state; the layers under the current one stand innermost first. -/
structure Walk (σ β : Type) where
  layer : Layer
  below : List Layer
  rule : σ
  back : β
  deriving DecidableEq, Repr

abbrev Turned (σ β : Type) := Turn (Walk σ β) (Ended × σ × β)

section Walks

variable {σ β ν : Type}

namespace Walk

def halt (w : Walk σ β) (ended : Ended) : Turned σ β := .halt (ended, w.rule, w.back)

def refuse (w : Walk σ β) (pos : Nat) (kind : FaultKind) : Turned σ β :=
  w.halt (.err ⟨pos, trail (w.layer :: w.below), kind⟩)

/-- An event that failed at `pos`. -/
def lapse (w : Walk σ β) (pos : Nat) : Trap → Turned σ β
  | .outgrown len => w.refuse pos (.output len)
  | .panic => w.halt .panic
  | .undefined => w.halt .undefined

/-- The back-end's events at a record, and on to the next turn. -/
def flow (w : Walk σ β) (head : Nat) (d : Did β) : Turned σ β :=
  match d with
  | (.ok (), back) => .next { w with back }
  | (.error trap, back) => { w with back }.lapse head trap

/-- Judges an answer slice against the LEN class at the ask. -/
def judgeAnswer (w : Walk σ β) (bytes : List UInt8) (head : Nat) (judged : Turned σ β) :
    Turned σ β :=
  if bytes.length > PayloadLen.max then w.refuse head (.growth bytes.length) else judged

/-- A scalar arm; `author` is what its rewrite writes. -/
def scalar (B : Back β) (author : ν → β → Did β) (w : Walk σ β) (head tagEnd stop : Nat) :
    Scalar ν → Turned σ β
  | .keep => w.flow head (B.verbatim head stop w.back)
  | .rewrite value => w.flow head ((B.verbatim head tagEnd w.back).andThen (author value))
  | .drop => w.flow head (.ok (), B.dirty w.back)
  | .insert bytes => w.judgeAnswer bytes head
      (w.flow head ((B.author bytes w.back).andThen (B.verbatim head stop)))

/-- The entering verdict, judged: the container opens, and its layer stands on the stack. -/
def enter (B : Back β) (w : Walk σ β) (head tagEnd stop : Nat) (field : FieldNumber)
    (payload : List UInt8) (tail : Option (List UInt8)) (remaining : Nat) : Turned σ β :=
  let payloadStart := stop - payload.length
  match B.commit head tagEnd payloadStart tail w.back with
  | (.error trap, back) => { w with back }.lapse head trap
  | (.ok (), back) =>
    match within payload with
    | none => { w with back }.halt .panic
    | some cursor => .next { w with
        layer := ⟨cursor, payloadStart, some ⟨field, head⟩, remaining⟩
        below := w.layer :: w.below
        back }

def len (B : Back β) (w : Walk σ β) (head tagEnd stop : Nat) (field : FieldNumber)
    (payload : List UInt8) : Len → Turned σ β
  | .pass => w.flow head (B.verbatim head stop w.back)
  | .commit tail =>
    match w.layer.remaining with
    | 0 => w.refuse head (.wire .depth)
    | remaining + 1 =>
      let entered := w.enter B head tagEnd stop field payload tail remaining
      match tail with
      | some bytes => w.judgeAnswer bytes head entered
      | none => entered
  | .replace bytes => w.judgeAnswer bytes head
      (w.flow head (((B.verbatim head tagEnd w.back).andThen (B.authorVarint bytes.length)).andThen
        (B.author bytes)))
  | .drop => w.flow head (.ok (), B.dirty w.back)
  | .insert bytes => w.judgeAnswer bytes head
      (w.flow head ((B.author bytes w.back).andThen (B.verbatim head stop)))

/-- A delivered record, its head at `head`: the ask, and what its verdict brings. -/
def deliver (rule : Rule σ) (B : Back β) (w : Walk σ β) (head : Nat) (entry : Entry) :
    Turned σ β :=
  let stop := w.layer.base + w.layer.cursor.pos
  let tagEnd := head + w.layer.cursor.tagWidth
  match entry.value with
  | .varint value =>
    let (verdict, s) := rule.onVarint w.rule head entry.field value
    { w with rule := s }.scalar B (fun word : UInt64 => B.authorVarint word.toNat) head tagEnd stop verdict
  | .i32 bits =>
    let (verdict, s) := rule.onI32 w.rule head entry.field bits
    { w with rule := s }.scalar B (fun word : Word => B.author word.bytes) head tagEnd stop
      (verdict.map Word.w32)
  | .i64 bits =>
    let (verdict, s) := rule.onI64 w.rule head entry.field bits
    { w with rule := s }.scalar B (fun word : Word => B.author word.bytes) head tagEnd stop
      (verdict.map Word.w64)
  | .len payload =>
    let (verdict, s) := rule.onLen w.rule head entry.field payload
    { w with rule := s }.len B head tagEnd stop entry.field payload verdict

/-- The current layer exhausted: the job is done, or the container closes. The settle's
coordinate is the container's head. -/
def exhaust (B : Back β) (w : Walk σ β) : Turned σ β :=
  match w.below with
  | [] => w.halt .ok
  | layer :: below =>
    match B.close w.layer.cursor.pos w.back with
    | (.ok (), back) => .next { w with layer, below, back }
    | (.error trap, back) =>
      { w with layer, below, back }.lapse ((w.layer.crossing.map Crossing.pos).getD 0) trap

def turn (rule : Rule σ) (standard : Standard) (B : Back β) (w : Walk σ β) : Turned σ β :=
  let head := w.layer.base + w.layer.cursor.pos
  match step standard w.layer.cursor with
  | (none, cursor) => { w with layer := { w.layer with cursor } }.exhaust B
  | (some (.error fault), cursor) =>
    { w with layer := { w.layer with cursor } }.refuse (w.layer.base + fault.pos)
      (.wire (breach fault.kind))
  | (some (.ok entry), cursor) =>
    { w with layer := { w.layer with cursor } }.deliver rule B head entry

end Walk

/-- Runs one job. Every turn passes a byte of the input, the last one apart. -/
def walk (input : List UInt8) (rule : Rule σ) (standard : Standard) (limit : DepthLimit)
    (B : Back β) (s : σ) (back : β) : Option (Ended × σ × β) :=
  match Cursor.over input with
  | none => some (.err ⟨0, [], .oversize⟩, s, back)
  | some root =>
    run (Walk.turn rule standard B) (input.length + 1) ⟨⟨root, 0, none, limit.asInner⟩, [], s, back⟩

/-- Splices `input` under the rule, appending to `out`. -/
def spliceInto (input : List UInt8) (rule : Rule σ) (standard : Standard) (limit : DepthLimit)
    (s : σ) (out : List UInt8) : Option (Ended × σ × List UInt8) :=
  let mark := out.length
  match walk input rule standard limit Emit.back s (Emit.new input out) with
  | none => none
  | some (.err fault, s, back) => some (.err fault, s, back.out.take mark)
  | some (ended, s, back) => some (ended, s, back.out)

end Walks

end ProtobufEdit.Splice.Groupless
