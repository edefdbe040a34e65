import ProtobufEdit.Cursor.Grouped
import ProtobufEdit.Inplace
import ProtobufEdit.Loop

/-!
# The grouped in-place editor

Groups cross by syntax. A group's renumbering is held back until its end tag passes, and a group
its rule owns whole is judged at its verified exit, its interior walked for its pairing alone.
-/

namespace ProtobufEdit.Inplace.Grouped

open Wire Wire.Grouped Varint ProtobufEdit.Path Cursor Cursor.Grouped Loop

abbrev FaultKind := Inplace.FaultKind WireBreach

/-- One committed LEN layer: groups and committed LEN crossings spend one account. -/
structure Layer where
  cursor : Cursor
  base : Nat
  remaining : Nat
  groupDepth : Nat

/-- A group renumber staged at its enter; `layer` and `depth` key its exit. -/
structure PendingPair where
  layer : Nat
  depth : Nat
  rule : Nat
  startAt : Nat
  startWidth : Nat
  startWord : Nat
  field : FieldNumber
  deriving DecidableEq, Repr

/-- A group wholly owned by its rule. -/
inductive Owned where
  | tombstone (rule head : Nat) (field : FieldNumber)
  | replace (rule head : Nat) (bytes : List UInt8) (budget : Nat)
  deriving DecidableEq, Repr

/-- `below` and `pending` stand innermost first; `suppress` is the depth inside the owned
group. -/
structure Walk where
  layer : Layer
  below : List Layer
  matcher : Matcher
  writes : List Write
  stats : Stats
  suppress : Nat
  owned : Option Owned
  pending : List PendingPair

abbrev Turned := Turn Walk (Outcome WireBreach)

namespace Walk

def head (w : Walk) : Nat := w.layer.base + w.layer.cursor.pos

def moved (w : Walk) (cursor : Cursor) : Walk := { w with layer := { w.layer with cursor } }

def layerCount (w : Walk) : Nat := w.below.length + 1

def plan (w : Walk) (write : Write) (action : Action) : Walk :=
  { w with writes := w.writes ++ [write], stats := w.stats.note action }

/-- One more group open in the layer, or one less. -/
def opened (w : Walk) : Walk :=
  { w with layer := { w.layer with groupDepth := w.layer.groupDepth + 1 } }

def closed (w : Walk) : Walk :=
  { w with layer := { w.layer with groupDepth := w.layer.groupDepth - 1 } }

end Walk

def refuse (pos : Nat) (kind : FaultKind) : Turned := .halt (some (.error ⟨pos, kind⟩))

section Judgment

variable (standard : Standard)

/-- One step of a replacement's re-parse, `depth` groups open; `none` is the panic over an
exhausted candidate. -/
def probeTurn (rule met budget : Nat) (s : Cursor × Nat) :
    Turn (Cursor × Nat) (Option (Except FaultKind Unit)) :=
  let (probe, depth) := s
  let settle (probe : Cursor) (depth : Nat) :
      Turn (Cursor × Nat) (Option (Except FaultKind Unit)) :=
    if depth = 0 then
      if probe.pos = met then .halt (some (.ok ()))
      else .halt (some (.error (.replacementShape rule)))
    else .next (probe, depth)
  match step standard probe with
  | (some (.ok ⟨_, .groupEnter⟩), behind) =>
    if depth = budget then .halt (some (.error (.replacementWire rule probe.pos .depth)))
    else settle behind (depth + 1)
  | (some (.ok ⟨_, .groupExit⟩), behind) => settle behind (depth - 1)
  | (some (.ok ⟨_, .value _⟩), behind) => settle behind depth
  | (some (.error fault), _) =>
    .halt (some (.error (.replacementWire rule fault.pos (breach fault.kind))))
  | (none, _) => .halt none

/-- The whole-record replacement judgment: exact extent, then one complete record under the
standard and the budget left. The fuel is never exhausted (`judgeReplacement_spec`). -/
def judgeReplacement (limit : DepthLimit) (budget rule : Nat) (bytes : List UInt8) (met : Nat) :
    Option (Except FaultKind Unit) :=
  let need := bytes.length
  if need ≠ met then some (.error (.replacementLength rule need met))
  else (run (probeTurn standard rule met budget) (bytes.length + 1)
    (⟨bytes, [], 0, limit, 0, 0⟩, 0)).getD none

variable (limit : DepthLimit)

/-- The exit judgment of an owned group that ends at `stop`: where it stands, and its write. -/
def judgeOwned (owned : Owned) (stop : Nat) : Nat × Action × Option (Except FaultKind Write) :=
  match owned with
  | .tombstone rule head field =>
    (head, .tombstone field, some (judgeTombstone rule field head stop))
  | .replace rule head bytes budget =>
    (head, .replaceRecord bytes,
      judgeReplaced (judgeReplacement standard limit budget rule bytes (stop - head)) bytes head)

end Judgment

section Walking

variable (standard : Standard) (set : RuleSet) (limit : DepthLimit)

/-- An event inside the owned group. -/
def suppressed (w : Walk) (cursor : Cursor) (entry : Entry) : Turned :=
  let here := w.moved cursor
  match entry.kind with
  | .value _ => .next here
  | .groupEnter =>
    if w.layer.groupDepth + w.suppress = w.layer.remaining then refuse w.head (.wire .depth)
    else .next { here with suppress := w.suppress + 1 }
  | .groupExit =>
    let here := { here with suppress := w.suppress - 1 }
    if here.suppress = 0 then
      match w.owned with
      | none => .halt none
      | some owned =>
        let here := { here with owned := none }
        match judgeOwned standard limit owned here.head with
        | (_, _, none) => .halt none
        | (head, _, some (.error kind)) => refuse head kind
        | (_, action, some (.ok write)) => .next (here.plan write action)
    else .next here

/-- A group's end tag, where a renumber keyed at the group completes. -/
def exitGroup (w : Walk) (head tagW : Nat) : Turned :=
  let w := { w with matcher := w.matcher.exit }
  match w.pending with
  | pair :: pending =>
    if pair.layer = w.layerCount ∧ pair.depth = w.layer.groupDepth then
      let word := groupEndWord pair.field
      let need := encodedLen32 word
      if widthFits standard need tagW then
        .next (Walk.closed { w with
          pending
          writes := w.writes ++
            [.tag pair.startAt pair.startWidth pair.startWord, .tag head tagW word]
          stats := w.stats.note (.renumber pair.field) })
      else refuse head (.tagWidth pair.rule need tagW)
    else .next w.closed
  | [] => .next w.closed

/-- A group's start tag. -/
def enterGroup (w : Walk) (hits : Hits) (head tagW : Nat) : Turned :=
  let full := w.layer.groupDepth = w.layer.remaining
  match hits with
  | .conflict first second => refuse head (.conflict first second)
  | .none =>
    if full then refuse head (.wire .depth)
    else .next (Walk.opened { w with matcher := w.matcher.commitDescent })
  | .one rule =>
    match action set rule with
    | none => .halt none
    | some (.renumber field) =>
      let word := headWord field .group
      let need := encodedLen32 word
      if full then refuse head (.wire .depth)
      else if widthFits standard need tagW then
        let w := Walk.opened { w with matcher := w.matcher.commitDescent }
        let pair := ⟨w.layerCount, w.layer.groupDepth, rule, head, tagW, word, field⟩
        .next { w with pending := pair :: w.pending }
      else refuse head (.tagWidth rule need tagW)
    | some (.tombstone field) =>
      if full then refuse head (.wire .depth)
      else .next { w with suppress := 1, owned := some (.tombstone rule head field) }
    | some (.replaceRecord bytes) =>
      if full then refuse head (.wire .depth)
      else .next { w with
        suppress := 1
        owned := some (.replace rule head bytes (w.layer.remaining - w.layer.groupDepth)) }
    | some _ => refuse head (.kindMismatch rule)

/-- A rule judged over the record just delivered; `go` goes on behind its write. -/
def judged (w : Walk) (rule head tagW stop : Nat) (met : Value)
    (go : Action → Walk → Turned) : Turned :=
  match action set rule with
  | none => .halt none
  | some action =>
    let budget := w.layer.remaining - w.layer.groupDepth
    match judgeAction standard (judgeReplacement standard limit budget rule) rule action head tagW
        stop met with
    | none => .halt none
    | some (.error kind) => refuse head kind
    | some (.ok write) => go action (w.plan write action)

/-- The descent into a payload the paths go on through. -/
def descend (w : Walk) (head payloadStart : Nat) (payload : List UInt8) : Turned :=
  if w.layer.groupDepth = w.layer.remaining then refuse head (.wire .depth)
  else
    match Cursor.within payload limit with
    | none => .halt none
    | some cursor => .next { w with
        matcher := w.matcher.commitDescent
        layer := ⟨cursor, payloadStart, w.layer.remaining - w.layer.groupDepth - 1, 0⟩
        below := w.layer :: w.below }

/-- A delivered entry outside any owned group. -/
def deliver (w : Walk) (cursor : Cursor) (entry : Entry) : Turned :=
  let head := w.head
  let here := w.moved cursor
  let stop := here.head
  let tagW := cursor.tagWidth
  match entry.kind with
  | .groupExit => exitGroup standard here head tagW
  | .groupEnter =>
    let (hits, _, matcher) := w.matcher.probe entry.field
    enterGroup standard set { here with matcher } hits head tagW
  | .value (.len payload) =>
    let payloadStart := stop - payload.length
    let (hits, routed, matcher) := w.matcher.probe entry.field
    let here := { here with matcher }
    match hits with
    | .conflict first second => refuse head (.conflict first second)
    | .none => if routed then descend limit here head payloadStart payload else .next here
    | .one rule =>
      judged standard set limit here rule head tagW stop (.len payload) fun action w =>
        match action with
        -- a renumber touches the tag alone, and the interior stays live
        | .renumber _ => if routed then descend limit w head payloadStart payload else .next w
        | _ => .next w
  | .value met =>
    match w.matcher.probeTarget entry.field with
    | .none => .next here
    | .conflict first second => refuse head (.conflict first second)
    | .one rule => judged standard set limit here rule head tagW stop met fun _ w => .next w

/-- One turn of the judge walk. -/
def turn (w : Walk) : Turned :=
  match step standard w.layer.cursor with
  | (none, _) =>
    match w.below with
    | [] => .halt (some (.ok (w.writes, w.stats)))
    | layer :: below => .next { w with layer, below, matcher := w.matcher.exit }
  | (some (.error fault), _) => refuse (w.layer.base + fault.pos) (.wire (breach fault.kind))
  | (some (.ok entry), cursor) =>
    if 0 < w.suppress then suppressed standard limit w cursor entry
    else deliver standard set limit w cursor entry

def start (root : Cursor) : Walk :=
  ⟨⟨root, 0, limit.asInner, 0⟩, [], .new set.provider, [], .zero, 0, none, []⟩

/-- Phase one. The fuel is never exhausted (`walk_spec`). -/
def walk (input : List UInt8) : Outcome WireBreach :=
  match Cursor.over input limit with
  | none => some (.error ⟨0, .oversize⟩)
  | some root =>
    (run (turn standard set limit) (input.length + 2) (start set limit root)).getD none

/-- The job, and the buffer behind it; `none` is a panic or an access outside its bounds. -/
def applyStandard (buf : List UInt8) :
    Option (Except (Fault WireBreach) Stats × List UInt8) :=
  match walk standard set limit buf with
  | none => none
  | some (.error fault) => some (.error fault, buf)
  | some (.ok (writes, stats)) => (commit standard buf writes).map fun buf => (.ok stats, buf)

end Walking

end ProtobufEdit.Inplace.Grouped
