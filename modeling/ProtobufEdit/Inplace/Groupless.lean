import ProtobufEdit.Cursor.Groupless
import ProtobufEdit.Inplace
import ProtobufEdit.Loop

/-!
# The groupless in-place editor

The judge walk plans every write over the bytes as they stand; only a walk that met no fault
reaches the write loop.
-/

namespace ProtobufEdit.Inplace.Groupless

open Wire Wire.Groupless Varint ProtobufEdit.Path Cursor Cursor.Groupless Loop

abbrev FaultKind := Inplace.FaultKind WireBreach

/-- One committed LEN layer. -/
structure Layer where
  cursor : Cursor
  base : Nat
  remaining : Nat

/-- `below` stands innermost first. -/
structure Walk where
  layer : Layer
  below : List Layer
  matcher : Matcher
  writes : List Write
  stats : Stats

abbrev Turned := Turn Walk (Outcome WireBreach)

namespace Walk

def head (w : Walk) : Nat := w.layer.base + w.layer.cursor.pos

def moved (w : Walk) (cursor : Cursor) : Walk := { w with layer := { w.layer with cursor } }

def plan (w : Walk) (write : Write) (action : Action) : Walk :=
  { w with writes := w.writes ++ [write], stats := w.stats.note action }

end Walk

def refuse (pos : Nat) (kind : FaultKind) : Turned := .halt (some (.error ⟨pos, kind⟩))

section Judgment

variable (standard : Standard)

/-- The whole-record replacement judgment: exact extent, then one record under the standard;
`none` is the panic over an empty window. -/
def judgeReplacement (rule : Nat) (bytes : List UInt8) (met : Nat) :
    Option (Except FaultKind Unit) :=
  let need := bytes.length
  if need ≠ met then some (.error (.replacementLength rule need met))
  else
    match step standard ⟨bytes, 0, 0, 0⟩ with
    | (some (.ok _), probe) =>
      if probe.pos = met then some (.ok ()) else some (.error (.replacementShape rule))
    | (some (.error fault), _) =>
      some (.error (.replacementWire rule fault.pos (breach fault.kind)))
    | (none, _) => none

end Judgment

section Walking

variable (standard : Standard) (set : RuleSet)

/-- A rule judged over the record just delivered; `go` goes on behind its write. -/
def judged (w : Walk) (rule head tagW stop : Nat) (met : Value)
    (go : Action → Walk → Turned) : Turned :=
  match action set rule with
  | none => .halt none
  | some action =>
    match judgeAction standard (judgeReplacement standard rule) rule action head tagW stop met with
    | none => .halt none
    | some (.error kind) => refuse head kind
    | some (.ok write) => go action (w.plan write action)

/-- The descent into a payload the paths go on through. -/
def descend (w : Walk) (head payloadStart : Nat) (payload : List UInt8) : Turned :=
  if w.layer.remaining = 0 then refuse head (.wire .depth)
  else
    match within payload with
    | none => .halt none
    | some cursor => .next { w with
        matcher := w.matcher.commitDescent
        layer := ⟨cursor, payloadStart, w.layer.remaining - 1⟩
        below := w.layer :: w.below }

/-- A delivered record. -/
def deliver (w : Walk) (cursor : Cursor) (entry : Entry) : Turned :=
  let head := w.head
  let here := w.moved cursor
  let stop := here.head
  let tagW := cursor.tagWidth
  match entry.value with
  | .varint _ | .i32 _ | .i64 _ =>
    match w.matcher.probeTarget entry.field with
    | .none => .next here
    | .conflict first second => refuse head (.conflict first second)
    | .one rule => judged standard set here rule head tagW stop entry.value fun _ w => .next w
  | .len payload =>
    let payloadStart := stop - payload.length
    let (hits, routed, matcher) := w.matcher.probe entry.field
    let here := { here with matcher }
    match hits with
    | .conflict first second => refuse head (.conflict first second)
    | .none => if routed then descend here head payloadStart payload else .next here
    | .one rule =>
      judged standard set here rule head tagW stop entry.value fun action w =>
        match action with
        -- a renumber touches the tag alone, and the interior stays live
        | .renumber _ => if routed then descend w head payloadStart payload else .next w
        | _ => .next w

/-- One turn of the judge walk. -/
def turn (w : Walk) : Turned :=
  match step standard w.layer.cursor with
  | (none, _) =>
    match w.below with
    | [] => .halt (some (.ok (w.writes, w.stats)))
    | layer :: below => .next { w with layer, below, matcher := w.matcher.exit }
  | (some (.error fault), _) => refuse (w.layer.base + fault.pos) (.wire (breach fault.kind))
  | (some (.ok entry), cursor) => deliver standard set w cursor entry

variable (limit : DepthLimit)

def start (root : Cursor) : Walk :=
  ⟨⟨root, 0, limit.asInner⟩, [], .new set.provider, [], .zero⟩

/-- Phase one. The fuel is never exhausted (`walk_spec`). -/
def walk (input : List UInt8) : Outcome WireBreach :=
  match Cursor.over input with
  | none => some (.error ⟨0, .oversize⟩)
  | some root => (run (turn standard set) (input.length + 2) (start set limit root)).getD none

/-- The job, and the buffer behind it; `none` is a panic or an access outside its bounds. -/
def applyStandard (buf : List UInt8) : Option (Except (Fault WireBreach) Stats × List UInt8) :=
  match walk standard set limit buf with
  | none => none
  | some (.error fault) => some (.error fault, buf)
  | some (.ok (writes, stats)) => (commit standard buf writes).map fun buf => (.ok stats, buf)

end Walking

end ProtobufEdit.Inplace.Groupless
