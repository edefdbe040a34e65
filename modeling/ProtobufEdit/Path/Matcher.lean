import Mathlib.Data.List.Sort
import Mathlib.Data.Prod.Lex
import ProtobufEdit.Path

/-!
# The compiled matcher

The path automaton, flattened layer by layer into flat tables: a descent appends a layer,
an exit truncates it. A layer is the live states of its chain (`Denotes`), so every probe is
a question about the paths' languages.
-/

namespace ProtobufEdit.Path

open Wire Pattern

/-! ## The code -/

/-- What a path's terminal entries are: an action, or an insertion at an interior's end. -/
inductive Lane where
  | target
  | head
  | tail
  deriving DecidableEq, Repr

/-- A path provider, with the admission contract. A laned provider may hold empty paths
(root gaps). -/
structure Paths where
  laned : Bool
  entries : List (Segments × Lane)
  lawful : ∀ e ∈ entries, EndsSym (pattern e.1) ∨ laned = true ∧ e.1 = []
  unlaned : laned = false → ∀ e ∈ entries, e.2 = .target

namespace Paths

def count (paths : Paths) : Nat := paths.entries.length

def path (paths : Paths) (id : Nat) : Segments := (paths.entries.getD id ([], .target)).1

def lane (paths : Paths) (id : Nat) : Lane := (paths.entries.getD id ([], .target)).2

end Paths

/-- A program's paths all end on targets. -/
def Program.provider (program : Program) : Paths where
  laned := false
  entries := program.paths.map fun path => (path, .target)
  lawful e he := by
    obtain ⟨path, hp, rfl⟩ := List.mem_map.mp he
    exact .inl (judgePath_ends (program.shaped hp).2)
  unlaned _ e he := by
    obtain ⟨path, -, rfl⟩ := List.mem_map.mp he
    rfl

/-- A live state: a path and its segment. -/
structure State where
  path : Nat
  seg : Nat
  deriving DecidableEq, Repr

instance : LinearOrder State :=
  LinearOrder.lift' (fun s => toLex (s.path, s.seg)) fun s t h => by
    cases s; cases t; cases h; rfl

structure Marks where
  targets : Nat
  stages : Nat
  wilds : Nat
  deriving DecidableEq, Repr

/-- The gap terminals of all layers. The unit store of an unlaned provider is the table
nothing is pushed to. -/
structure GapTable where
  entries : List (FieldNumber × Nat × Lane)
  marks : List Nat
  layer : Nat
  any : Bool
  deriving DecidableEq, Repr

namespace GapTable

def push (gaps : GapTable) (field : FieldNumber) (path : Nat) (lane : Lane) : GapTable :=
  { gaps with entries := gaps.entries ++ [(field, path, lane)] }

def enter (gaps : GapTable) : GapTable :=
  if gaps.any then { gaps with marks := gaps.layer :: gaps.marks, layer := gaps.entries.length }
  else gaps

def exit (gaps : GapTable) : GapTable :=
  if gaps.any then
    { gaps with
      entries := gaps.entries.take gaps.layer
      layer := gaps.marks.headD 0
      marks := gaps.marks.tail }
  else gaps

def current (gaps : GapTable) : List (FieldNumber × Nat × Lane) := gaps.entries.drop gaps.layer

end GapTable

/-- The verdict of the write fold over a leaf. -/
inductive Hits where
  | none
  | one (path : Nat)
  | conflict (first second : Nat)
  deriving DecidableEq, Repr

/-- `levels` and the gap marks stand innermost first. -/
structure Matcher where
  paths : Paths
  targets : List (FieldNumber × Nat)
  stages : List (FieldNumber × State)
  wilds : List (List FieldNumber × State)
  gaps : GapTable
  layer : Marks
  levels : List Marks
  staged : List State

/-- Neighbouring repeats collapsed (`Vec::dedup`, and the read fold's register): `last` is
the element just kept. -/
def collapse {α : Type} [DecidableEq α] : Option α → List α → List α
  | _, [] => []
  | last, a :: rest => if last = some a then collapse last rest else a :: collapse (some a) rest

/-- One promise crossed: a container's field, and where its head stands. -/
structure Crossing where
  field : FieldNumber
  pos : Nat
  deriving DecidableEq, Repr

namespace Matcher

/-- One state's chain of wildcards up to its first field; an empty chain (an empty anchor
path) holds nothing. -/
def flattenFrom (id : Nat) : Nat → Segments → Matcher → Matcher
  | _, [], m => m
  | i, .field f :: rest, m =>
    if rest = [] then
      if m.paths.laned = true ∧ m.paths.lane id ≠ .target then
        { m with gaps := m.gaps.push f id (m.paths.lane id) }
      else { m with targets := m.targets ++ [(f, id)] }
    else { m with stages := m.stages ++ [(f, ⟨id, i + 1⟩)] }
  | i, .anyDepth descend :: rest, m =>
    flattenFrom id (i + 1) rest { m with wilds := m.wilds ++ [(descend, ⟨id, i⟩)] }

def flatten (m : Matcher) (s : State) : Matcher :=
  flattenFrom s.path s.seg ((m.paths.path s.path).drop s.seg) m

/-- The root layer: every path live at its head. -/
def new (paths : Paths) : Matcher :=
  let gapped := paths.laned && paths.entries.any fun e => e.2 ≠ .target
  ((List.range paths.count).map fun id => ⟨id, 0⟩).foldl flatten
    ⟨paths, [], [], [], ⟨[], [], 0, gapped⟩, ⟨0, 0, 0⟩, [], []⟩

def gapped (m : Matcher) : Bool := m.gaps.any

/-- The write fold, from the target found so far. -/
def targetFrom (field : FieldNumber) : Option Nat → List (FieldNumber × Nat) → Hits
  | found, [] => found.elim .none .one
  | found, (f, path) :: rest =>
    if f = field then
      match found with
      | none => targetFrom field (some path) rest
      | some first => if first ≠ path then .conflict first path else targetFrom field found rest
    else targetFrom field found rest

def probeTarget (m : Matcher) (field : FieldNumber) : Hits :=
  targetFrom field none (m.targets.drop m.layer.targets)

/-- The first path targeting the field, under the single-action fold. -/
def firstTarget (m : Matcher) (field : FieldNumber) : Option Nat :=
  ((m.targets.drop m.layer.targets).find? fun e => e.1 = field).map Prod.snd

/-- The read fold: the ids delivered. -/
def visitTargets (m : Matcher) (field : FieldNumber) : List Nat :=
  collapse none (((m.targets.drop m.layer.targets).filter fun e => e.1 = field).map Prod.snd)

def probeRoutes (m : Matcher) (field : FieldNumber) : Bool × Matcher :=
  let staged :=
    ((m.stages.drop m.layer.stages).filter fun e => e.1 = field).map Prod.snd ++
      ((m.wilds.drop m.layer.wilds).filter fun e => field ∈ e.1).map Prod.snd
  (!staged.isEmpty, { m with staged := staged })

/-- The write fold over a container head. -/
def probe (m : Matcher) (field : FieldNumber) : Hits × Bool × Matcher :=
  match m.probeTarget field with
  | .conflict first second => (.conflict first second, false, m)
  | hits => (hits, m.probeRoutes field)

def commitDescent (m : Matcher) : Matcher :=
  let staged := collapse none (m.staged.insertionSort (· ≤ ·))
  staged.foldl flatten { m with
    staged := staged
    levels := m.layer :: m.levels
    layer := ⟨m.targets.length, m.stages.length, m.wilds.length⟩
    gaps := m.gaps.enter }

def exit (m : Matcher) : Matcher := { m with
  targets := m.targets.take m.layer.targets
  stages := m.stages.take m.layer.stages
  wilds := m.wilds.take m.layer.wilds
  gaps := m.gaps.exit
  layer := m.levels.headD ⟨0, 0, 0⟩
  levels := m.levels.tail }

/-- The gap lanes at a field: any head, any tail. -/
def probeGaps (m : Matcher) (field : FieldNumber) : Bool × Bool :=
  (m.gaps.current.any fun e => e.1 = field ∧ e.2.2 = .head,
    m.gaps.current.any fun e => e.1 = field ∧ e.2.2 = .tail)

def visitGaps (m : Matcher) (field : FieldNumber) (lane : Lane) : List Nat :=
  collapse none ((m.gaps.current.filter fun e => e.1 = field ∧ e.2.2 = lane).map (·.2.1))

def firstInteriorGap (m : Matcher) (field : FieldNumber) : Option Nat :=
  (m.gaps.current.find? fun e => e.1 = field).map (·.2.1)

end Matcher

end ProtobufEdit.Path
