import ProtobufEdit.Revise

/-!
# Transitions

How a row's state changes: the marks climb to the rows above it, a transition that changes what
speaks for the row orphans its interior, and the log keeps the state to restore. Every row's
parent stands in front of it in the arena, so a climb is shorter than the arena.
-/

namespace ProtobufEdit.Revise.Machine

open Wire Wire.Groupless Varint Arena

variable {standard : Standard}

/-! ## Marks -/

/-- A row's flag, and the count its layer keeps of it. -/
def reflag (m : Machine standard) (mark : Mark) (b : Bool) (n : Nat → Nat) (id : Nat) :
    Machine standard :=
  (m.setRow id (Row.setFlag mark b)).onLayer (m.row id).parent fun layer =>
    layer.setCount mark (n (layer.count mark))

/-- `raise_mark`. -/
def raiseMark (mark : Mark) : Nat → Nat → Machine standard → Machine standard
  | 0, _, m => m
  | fuel + 1, id, m =>
    if (m.row id).body.flag mark then m
    else
      match (m.row id).parent with
      | some parent => raiseMark mark fuel parent (m.reflag mark true (· + 1) id)
      | none => m.reflag mark true (· + 1) id

/-- `lower_mark`. -/
def lowerMark (mark : Mark) : Nat → Nat → Machine standard → Machine standard
  | 0, _, m => m
  | fuel + 1, id, m =>
    let r := (m.row id).body
    if r.flag mark = false ∨ r.own mark ∨ 0 < r.kids mark then m
    else
      match (m.row id).parent with
      | some parent => lowerMark mark fuel parent (m.reflag mark false (· - 1) id)
      | none => m.reflag mark false (· - 1) id

def raise (m : Machine standard) (mark : Mark) (id : Nat) : Machine standard :=
  raiseMark mark m.rows.length id m

def lower (m : Machine standard) (mark : Mark) (id : Nat) : Machine standard :=
  lowerMark mark m.rows.length id m

/-! ## Orphans -/

/-- The climb of `preorder_next`: across to a sibling, or up. -/
def preorderClimb (rows : List (Cell Row)) (root : Nat) : Nat → Nat → Option Nat
  | 0, _ => none
  | fuel + 1, cur =>
    if cur = root then none
    else
      let c := rows.getD cur default
      match c.next with
      | some next => some next
      | none =>
        match c.parent with
        | some parent => preorderClimb rows root fuel parent
        | none => none

/-- The next row of a preorder walk bounded to `root`'s subtree. -/
def preorderNext (rows : List (Cell Row)) (id root : Nat) : Option Nat :=
  match (rows.getD id default).kid with
  | some kid => some kid
  | none => preorderClimb rows root (rows.length + 1) id

def orphanFrom (root : Nat) : Nat → Option Nat → List (Cell Row) → List (Cell Row)
  | 0, _, rows => rows
  | _ + 1, none, rows => rows
  | fuel + 1, some id, rows =>
    let rows := rows.modify id (Cell.map Row.setDead)
    orphanFrom root fuel (preorderNext rows id root) rows

/-- Re-seals a container: its parsed interior is dead, and its slot is ready to parse what now
speaks for it. -/
def orphanInterior (m : Machine standard) (id : Nat) : Machine standard :=
  let sealed := m.setSlot id .unopened none
  { sealed with rows := orphanFrom id (m.rows.length + 1) (m.row id).kid sealed.rows }

/-! ## The log and the state -/

def setOwn (m : Machine standard) (id : Nat) (b : Bool) : Machine standard :=
  m.setRow id fun r => { r with ownHist := b }

def logPush (m : Machine standard) (id : Nat) (past : Edit) : Machine standard :=
  let fresh := !(m.row id).body.ownHist
  let pushed := { m with log := ⟨id, past, fresh⟩ :: m.log }
  if fresh then (pushed.setOwn id true).raise .hist id else pushed

/-- `log_pop`, of a log that is not empty. -/
def logPop (m : Machine standard) (step : Transition) (log : List Transition) :
    Machine standard :=
  let popped := { m with log }
  if step.fresh then (popped.setOwn step.row false).lower .hist step.row else popped

def setEdit (m : Machine standard) (id : Nat) (edit : Edit) : Machine standard :=
  m.setRow id fun r => { r with edit }

/-- The state written; a transition that changes what speaks for the row orphans its interior. -/
def turned (m : Machine standard) (id : Nat) (edit : Edit) : Machine standard :=
  let r := (m.row id).body
  let written := m.setEdit id edit
  if r.edit.speaker ≠ edit.speaker ∧ r.slot ≠ .unopened then written.orphanInterior id
  else written

def writeState (m : Machine standard) (id : Nat) (edit : Edit) : Machine standard :=
  let settled := m.turned id edit
  if edit.ownDirty then settled.raise .dirt id else settled.lower .dirt id

def applyEdit (m : Machine standard) (id : Nat) (edit : Edit) : Machine standard :=
  (m.logPush id (m.row id).body.edit).writeState id edit

/-- What a move's destination awakens to; it is its own ghost. -/
def awakened : Edit → Edit
  | .sourceRecordDeleted => .sourceRecord
  | .sourceInsertedDeleted src => .sourceInserted src
  | edit => edit

def ghosted : Edit → Edit
  | .sourceRecord => .sourceRecordDeleted
  | .sourceInserted src => .sourceInsertedDeleted src
  | edit => edit

def applyMove (m : Machine standard) (source destination : Nat) : Machine standard :=
  let moved := ((m.logPush source (.moved destination)).setEdit source (.moved destination)).raise
    .dirt source
  moved.writeState destination (awakened (moved.row destination).body.edit)

def revertMove (m : Machine standard) (source destination : Nat) : Machine standard :=
  let restored := (m.setEdit source .intact).lower .dirt source
  restored.writeState destination (ghosted (restored.row destination).body.edit)

/-- `revert`, and the row it touched. -/
def revert (m : Machine standard) : Machine standard × Option Nat :=
  match m.log with
  | [] => (m, none)
  | step :: log =>
    let popped := m.logPop step log
    match step.past with
    -- A move's step carries its `moved` state: it unwinds both sides.
    | .moved destination => (popped.revertMove step.row destination, some step.row)
    | past => (popped.writeState step.row past, some step.row)

end ProtobufEdit.Revise.Machine
