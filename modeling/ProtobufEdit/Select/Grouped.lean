import ProtobufEdit.Cursor.Grouped
import ProtobufEdit.Loop.Pull
import ProtobufEdit.Path.Live

/-!
# The grouped selector

A pull of the match iterator drains the current record's deliveries, then steps the innermost
committed layer's cursor. LEN records deliver at their head and groups at their verified close;
the first refusal ends the iteration.
-/

namespace ProtobufEdit.Select.Grouped

open Wire ProtobufEdit.Path Cursor.Grouped Loop

/-! ## Deliveries and refusals -/

/-- A record's extent in the whole input. -/
structure Span where
  start : Nat
  width : Nat
  deriving DecidableEq, Repr

def Span.stop (s : Span) : Nat := s.start + s.width

def walkSpan (head stop : Nat) : Span := ⟨head, stop - head⟩

/-- The observation a match carries; `group` holds the interior. -/
inductive MatchKind where
  | varint (word : Nat)
  | i64 (bits : Nat)
  | len (payload : List UInt8)
  | group (interior : List UInt8)
  | i32 (bits : Nat)
  deriving DecidableEq, Repr

structure Match where
  path : Nat
  field : FieldNumber
  span : Span
  kind : MatchKind
  deriving DecidableEq, Repr

/-- A refusal: where, the promises crossed to reach it (outermost first), and which contract
broke. -/
structure Fault where
  pos : Nat
  trail : List Crossing
  breach : WireBreach
  deriving DecidableEq, Repr

abbrev Item := Except Fault Match

/-! ## The walk -/

/-- One committed LEN layer. `remaining` is the budget inside it, which its open groups spend
too. -/
structure Layer where
  cursor : Cursor
  base : Nat
  crossing : Option Crossing
  remaining : Nat
  groupDepth : Nat
  deriving DecidableEq, Repr

/-- One open group: its head, its interior's start, and where its ids start in the arena. -/
structure OpenGroup where
  head : Nat
  body : Nat
  idsAt : Nat
  deriving DecidableEq, Repr

/-- `layers` and `groups` stand innermost first. -/
structure Matches where
  input : List UInt8
  layers : List Layer
  matcher : Matcher
  limit : DepthLimit
  pending : List Match
  nextHit : Nat
  stalled : Option Fault
  groups : List OpenGroup
  groupIds : List Nat

/-- What ends a pull short. `undefined` is a group exit without its frame, or a slice past the
input. -/
inductive Trap where
  | panic
  | undefined
  deriving DecidableEq, Repr

/-- What a pull comes to: an item or the end, with the iterator behind it. -/
abbrev Pulled := Pull Trap Item Matches

def trail (layers : List Layer) : List Crossing := layers.reverse.filterMap Layer.crossing

/-- The admission cap: `i32::MAX` bytes. -/
def Matches.over (input : List UInt8) (program : Program) (limit : DepthLimit) : Option Matches :=
  match Cursor.over input limit with
  | none => none
  | some root => some
    ⟨input, [⟨root, 0, none, limit.asInner, 0⟩], .new program.provider, limit, [], 0, none, [], []⟩

namespace Matches

/-- One record's deliveries, every targeting path ascending. -/
def fanOut (m : Matches) (field : FieldNumber) (span : Span) (kind : MatchKind) : Matches :=
  { m with
    pending := m.pending ++ (m.matcher.visitTargets field).map fun id => ⟨id, field, span, kind⟩ }

/-- A refusal delivered: the iterator fuses. -/
def refuse (m : Matches) (layers : List Layer) (pos : Nat) (kind : WireBreach) : Pulled :=
  .ok (some (.error ⟨pos, trail layers, kind⟩), { m with layers := [] })

/-- The `GroupExit` arm. -/
def exitGroup (m : Matches) (layer : Layer) (below : List Layer) (head stop : Nat)
    (field : FieldNumber) : Turn Matches Pulled :=
  match layer.groupDepth, m.groups with
  | groupDepth + 1, opened :: groups =>
    let m := { m with
      layers := { layer with groupDepth } :: below, matcher := m.matcher.exit, groups }
    if opened.idsAt < m.groupIds.length then
      if opened.body ≤ head ∧ head ≤ m.input.length then
        let interior := (m.input.drop opened.body).take (head - opened.body)
        .next { m with
          pending := m.pending ++ (m.groupIds.drop opened.idsAt).map fun id =>
            ⟨id, field, walkSpan opened.head stop, .group interior⟩
          groupIds := m.groupIds.take opened.idsAt }
      else .halt (.error .undefined)
    else .next m
  | _, _ => .halt (.error .undefined)

/-- The `GroupEnter` arm. -/
def enterGroup (m : Matches) (layer : Layer) (below : List Layer) (head stop : Nat)
    (field : FieldNumber) : Turn Matches Pulled :=
  if layer.groupDepth = layer.remaining then .halt (m.refuse m.layers head .depth)
  else .next { m with
    layers := { layer with groupDepth := layer.groupDepth + 1 } :: below
    groups := ⟨head, stop, m.groupIds.length⟩ :: m.groups
    groupIds := m.groupIds ++ m.matcher.visitTargets field
    matcher := (m.matcher.probeRoutes field).2.commitDescent }

/-- The `Len` arm behind its fan-out. -/
def enterLen (m : Matches) (layer : Layer) (head stop : Nat) (field : FieldNumber)
    (payload : List UInt8) : Turn Matches Pulled :=
  let (routed, matcher) := m.matcher.probeRoutes field
  if routed = false then .next { m with matcher }
  else if layer.groupDepth = layer.remaining then
    .next { m with matcher, stalled := some ⟨head, trail m.layers, .depth⟩ }
  else
    match Cursor.within payload m.limit with
    | none => .halt (.error .panic)
    | some cursor => .next { m with
        matcher := matcher.commitDescent
        layers := ⟨cursor, stop - payload.length, some ⟨field, head⟩,
          layer.remaining - layer.groupDepth - 1, 0⟩ :: m.layers }

/-- A record of the current layer, its head at `head`. -/
def deliver (m : Matches) (layer : Layer) (below : List Layer) (head : Nat) (entry : Entry) :
    Turn Matches Pulled :=
  let stop := layer.base + layer.cursor.pos
  let span := walkSpan head stop
  let m := { m with layers := layer :: below, pending := [], nextHit := 0 }
  match entry.kind with
  | .groupExit => m.exitGroup layer below head stop entry.field
  | .groupEnter => m.enterGroup layer below head stop entry.field
  | .value (.varint word) => .next (m.fanOut entry.field span (.varint word))
  | .value (.i64 bits) => .next (m.fanOut entry.field span (.i64 bits))
  | .value (.i32 bits) => .next (m.fanOut entry.field span (.i32 bits))
  | .value (.len payload) =>
    (m.fanOut entry.field span (.len payload)).enterLen layer head stop entry.field payload

/-- One turn of a pull. -/
def turn (standard : Standard) (m : Matches) : Turn Matches Pulled :=
  match m.pending[m.nextHit]? with
  | some hit => .halt (.ok (some (.ok hit), { m with nextHit := m.nextHit + 1 }))
  | none =>
    match m.stalled with
    | some fault =>
      .halt (.ok (some (.error fault), { m with stalled := none, layers := [] }))
    | none =>
      match m.layers with
      | [] => .halt (.ok (none, m))
      | layer :: below =>
        match step standard layer.cursor with
        | (none, cursor) =>
          let layer := { layer with cursor }
          if below = [] then .halt (.ok (none, { m with layers := layer :: below }))
          else .next { m with layers := below, matcher := m.matcher.exit }
        | (some (.error fault), cursor) =>
          .halt (m.refuse ({ layer with cursor } :: below) (layer.base + fault.pos)
            (breach fault.kind))
        | (some (.ok entry), cursor) =>
          m.deliver { layer with cursor } below (layer.base + layer.cursor.pos) entry

/-- What a layer still has to read, its own end counted in. -/
def left (m : Matches) : Nat :=
  (m.layers.map fun layer => 2 * (layer.cursor.data.length - layer.cursor.pos) + 1).sum

/-- A pull. `next_yields` says that the bound is enough. -/
def next (standard : Standard) (m : Matches) : Option Pulled := run (turn standard) (m.left + 1) m

end Matches

end ProtobufEdit.Select.Grouped
