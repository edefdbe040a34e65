import ProtobufEdit.Cursor.Grouped
import ProtobufEdit.Revise.Row

/-!
# The layer scan

One flat layer of bytes scanned into rows behind the arena's end. The judgments on a record are
the one-shot editors' own; here a group code halts, and no depth is counted.
-/

namespace ProtobufEdit.Revise

open Wire Wire.Groupless Varint Arena Loop
open Editor (Halt Extent FaultKind haltWire scanTag scanExtent column)

/-- A scan: the arena, the layer's first row, the previous sibling and the position. -/
structure Scan where
  rows : List (Cell Row)
  first : Option Nat
  last : Option Nat
  pos : Nat
  deriving DecidableEq, Repr

/-- `mint_row`, `mint_insert`. -/
def mintRow (rows : List (Cell Row)) : Option Nat :=
  if rows.length ≤ Editor.rowMax then some rows.length else none

/-- The row of the record that stands at a position. -/
def rowAt (standard : Standard) (data : List UInt8) (authored : Bool) (pos : Nat) :
    Except Halt Row :=
  match scanTag standard data pos with
  | .error halt => .error halt
  | .ok (field, low3, tagWidth) =>
    match classify low3 with
    | .groupCode => .error (.refused (.groupCode pos field low3))
    | .unassigned => .error (haltWire pos (.unassigned field low3))
    | .record kind =>
      match scanExtent standard data (pos + tagWidth) field (Cursor.Grouped.ofBody kind) with
      | .error halt => .error halt
      | .ok e =>
        .ok (.scanned field kind pos e.recordEnd (column standard (some tagWidth))
          (column standard e.delimWidth) authored)

namespace Scan

/-- A record's row, linked behind the previous sibling. -/
def push (parent : Option Nat) (row : Row) (s : Scan) : Except Halt Scan :=
  match mintRow s.rows with
  | none => .error .exhausted
  | some id =>
    let linked :=
      match s.last with
      | some prev => s.rows.modify prev fun c => { c with next := some id }
      | none => s.rows
    .ok
      { rows := linked ++ [⟨parent, none, none, row⟩]
        first := if s.last = none then some id else s.first
        last := some id
        pos := row.stop }

/-- One record. -/
def record (standard : Standard) (data : List UInt8) (authored : Bool) (parent : Option Nat)
    (s : Scan) : Except Halt Scan :=
  match rowAt standard data authored s.pos with
  | .error halt => .error halt
  | .ok row => s.push parent row

end Scan

/-- The rows behind a scan, and the layer's first and last. -/
abbrev Scanned := Except Halt (List (Cell Row) × Option Nat × Option Nat)

def Scan.turn (standard : Standard) (data : List UInt8) (authored : Bool) (parent : Option Nat)
    (s : Scan) : Turn Scan Scanned :=
  if s.pos < data.length then
    match s.record standard data authored parent with
    | .error halt => .halt (.error halt)
    | .ok s' => .next s'
  else .halt (.ok (s.rows, s.first, s.last))

/-- Scans `bytes[start..stop]` under `parent`. -/
def scanLayer (standard : Standard) (rows : List (Cell Row)) (bytes : List UInt8)
    (authored : Bool) (start stop : Nat) (parent : Option Nat) : Scanned :=
  -- A turn reads at least one byte, so the loop never runs out.
  (run (Scan.turn standard (bytes.take stop) authored parent) (stop - start + 1)
    ⟨rows, none, none, start⟩).getD (.error .exhausted)

end ProtobufEdit.Revise
