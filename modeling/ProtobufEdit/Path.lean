import ProtobufEdit.Pattern
import ProtobufEdit.Wire

/-!
# Paths and programs

What a path is, which field chains it selects, and the admission a program's paths pass.
-/

namespace ProtobufEdit.Path

open Wire Pattern

/-- One step of a path: one crossing, or any number of crossings of a set. -/
inductive Segment where
  | field (f : FieldNumber)
  | anyDepth (descend : List FieldNumber)
  deriving DecidableEq, Repr

def Segment.item : Segment → Item FieldNumber
  | field f => .sym f
  | anyDepth descend => .run descend

abbrev Segments := List Segment

/-- The path as a pattern of field numbers. -/
abbrev pattern (path : Segments) : List (Item FieldNumber) := path.map Segment.item

/-- The field chains a path selects: the containers entered, then the selected field. -/
abbrev Selects (path : Segments) (chain : List FieldNumber) : Prop :=
  Matches (pattern path) chain

/-! ## One path's shape -/

inductive ShapeBreach where
  | emptyPath
  | wildcardTarget
  | emptyDescendSet (segment : Nat)
  | unsortedDescend (segment : Nat)
  | adjacentWildcards (segment : Nat)
  deriving DecidableEq, Repr

/-- The canonical spelling: strictly ascending. -/
def ascending : List FieldNumber → Bool
  | a :: b :: rest => decide (a < b) && ascending (b :: rest)
  | _ => true

def descendSubset (inner outer : List FieldNumber) : Bool :=
  inner.all fun a => outer.any fun b => a.asInner == b.asInner

/-- The per-segment wildcard laws, from the segment numbered `seg` on. -/
def judgeSegments (seg : Nat) : Segments → Except ShapeBreach Unit
  | [] => .ok ()
  | .field _ :: rest => judgeSegments (seg + 1) rest
  | .anyDepth descend :: rest =>
    if rest = [] then .error .wildcardTarget
    else if descend = [] then .error (.emptyDescendSet seg)
    else if ascending descend = false then .error (.unsortedDescend seg)
    else judgeSegments (seg + 1) rest

/-- Neighbouring wildcards over comparable sets; `seg` numbers the second of the pair. -/
def judgeAdjacent (seg : Nat) : Segments → Except ShapeBreach Unit
  | .anyDepth a :: .anyDepth b :: rest =>
    if descendSubset a b || descendSubset b a then .error (.adjacentWildcards seg)
    else judgeAdjacent (seg + 1) (.anyDepth b :: rest)
  | _ :: rest => judgeAdjacent (seg + 1) rest
  | [] => .ok ()

def judgePath (path : Segments) : Except ShapeBreach Unit :=
  if path = [] then .error .emptyPath
  else
    match judgeSegments 0 path with
    | .error breach => .error breach
    | .ok () => judgeAdjacent 1 path

def descendEqual : List FieldNumber → List FieldNumber → Bool
  | [], [] => true
  | a :: as, b :: bs => a.asInner == b.asInner && descendEqual as bs
  | _, _ => false

def segmentsEqual : Segment → Segment → Bool
  | .field x, .field y => x.asInner == y.asInner
  | .anyDepth x, .anyDepth y => descendEqual x y
  | _, _ => false

/-- `paths_equal`: structural equality. -/
def pathsEqual : Segments → Segments → Bool
  | [], [] => true
  | a :: as, b :: bs => segmentsEqual a b && pathsEqual as bs
  | _, _ => false

/-! ## Programs -/

inductive ProgramError where
  | tooManyPaths (count : Nat)
  | pathTooLong (path : Nat)
  | emptyPath (path : Nat)
  | wildcardTarget (path : Nat)
  | emptyDescendSet (path segment : Nat)
  | unsortedDescend (path segment : Nat)
  | adjacentWildcards (path segment : Nat)
  | duplicatePath (first second : Nat)
  deriving DecidableEq, Repr

def shapeError (breach : ShapeBreach) (path : Nat) : ProgramError :=
  match breach with
  | .emptyPath => .emptyPath path
  | .wildcardTarget => .wildcardTarget path
  | .emptyDescendSet segment => .emptyDescendSet path segment
  | .unsortedDescend segment => .unsortedDescend path segment
  | .adjacentWildcards segment => .adjacentWildcards path segment

/-- `u16::MAX`: the matcher's state domain on either axis. -/
def stateMax : Nat := 65535

/-- The first path out of shape, from the path numbered `index` on. -/
def judgeShapes (index : Nat) : List Segments → Except ProgramError Unit
  | [] => .ok ()
  | path :: rest =>
    if stateMax < path.length then .error (.pathTooLong index)
    else
      match judgePath path with
      | .error breach => .error (shapeError breach index)
      | .ok () => judgeShapes (index + 1) rest

/-- The number of the first path equal to `path`, from the path numbered `second` on. -/
def twinFrom (path : Segments) (second : Nat) : List Segments → Option Nat
  | [] => none
  | other :: rest => if pathsEqual path other then some second else twinFrom path (second + 1) rest

/-- The smallest duplicate pair, from the path numbered `first` on. -/
def judgeTwins (first : Nat) : List Segments → Except ProgramError Unit
  | [] => .ok ()
  | path :: rest =>
    match twinFrom path (first + 1) rest with
    | some second => .error (.duplicatePath first second)
    | none => judgeTwins (first + 1) rest

def judgeProgram (paths : List Segments) : Except ProgramError Unit :=
  if stateMax < paths.length then .error (.tooManyPaths paths.length)
  else
    match judgeShapes 0 paths with
    | .error e => .error e
    | .ok () => judgeTwins 0 paths

/-- An admitted program: its paths passed the judgment. -/
structure Program where
  paths : List Segments
  admitted : judgeProgram paths = .ok ()

def Program.over (paths : List Segments) : Except ProgramError Program :=
  match h : judgeProgram paths with
  | .error e => .error e
  | .ok () => .ok ⟨paths, h⟩

/-! ## What admission gives -/

section Admission

variable {path : Segments}

theorem judgeSegments_ends {seg : Nat} (h : judgeSegments seg path = .ok ()) (hne : path ≠ []) :
    EndsSym (pattern path) := by
  induction path generalizing seg with
  | nil => exact absurd rfl hne
  | cons s path ih =>
    cases s with
    | field f =>
      rw [pattern, List.map_cons, Segment.item, endsSym_sym]
      rcases eq_or_ne path [] with rfl | hne'
      · exact .inl rfl
      · exact .inr (ih h hne')
    | anyDepth descend =>
      simp only [judgeSegments] at h
      split_ifs at h with hlast
      exact endsSym_run.mpr (ih h hlast)

/-- An admitted path ends on a field. -/
theorem judgePath_ends (h : judgePath path = .ok ()) : EndsSym (pattern path) := by
  unfold judgePath at h
  split_ifs at h with hne
  split at h
  · cases h
  · exact judgeSegments_ends ‹_› hne

theorem descendEqual_iff {a b : List FieldNumber} : descendEqual a b = true ↔ a = b := by
  induction a generalizing b with
  | nil => cases b <;> simp [descendEqual]
  | cons x a ih =>
    cases b with
    | nil => simp [descendEqual]
    | cons y b =>
      simp only [descendEqual, Bool.and_eq_true, beq_iff_eq, ih, List.cons.injEq]
      exact and_congr_left' ⟨FieldNumber.ext_inner, congrArg _⟩

/-- Structural equality is equality. -/
theorem pathsEqual_iff {a b : Segments} : pathsEqual a b = true ↔ a = b := by
  induction a generalizing b with
  | nil => cases b <;> simp [pathsEqual]
  | cons x a ih =>
    cases b with
    | nil => simp [pathsEqual]
    | cons y b =>
      simp only [pathsEqual, Bool.and_eq_true, ih, List.cons.injEq]
      refine and_congr_left' ?_
      cases x with
      | field f =>
        cases y with
        | field g =>
          simp only [segmentsEqual, beq_iff_eq, Segment.field.injEq]
          exact ⟨FieldNumber.ext_inner, congrArg _⟩
        | anyDepth e => simp [segmentsEqual]
      | anyDepth d =>
        cases y with
        | field g => simp [segmentsEqual]
        | anyDepth e => simp [segmentsEqual, descendEqual_iff]

theorem judgeShapes_ok {index : Nat} {paths : List Segments} :
    judgeShapes index paths = .ok () ↔
      ∀ path ∈ paths, path.length ≤ stateMax ∧ judgePath path = .ok () := by
  induction paths generalizing index with
  | nil => simp [judgeShapes]
  | cons path rest ih =>
    rw [judgeShapes, List.forall_mem_cons, ← @ih (index + 1)]
    split_ifs with hlong
    · exact ⟨nofun, fun h => absurd h.1.1 (Nat.not_le.mpr hlong)⟩
    · cases hj : judgePath path with
      | error breach => exact ⟨nofun, fun h => nomatch h.1.2⟩
      | ok u => exact ⟨fun h => ⟨⟨Nat.le_of_not_lt hlong, rfl⟩, h⟩, fun h => h.2⟩

theorem twinFrom_none {second : Nat} {rest : List Segments} :
    twinFrom path second rest = none ↔ path ∉ rest := by
  induction rest generalizing second with
  | nil => simp [twinFrom]
  | cons other rest ih =>
    rw [twinFrom, List.mem_cons, not_or, ← @ih (second + 1)]
    split_ifs with h
    · exact ⟨nofun, fun hn => absurd (pathsEqual_iff.mp h) hn.1⟩
    · exact ⟨fun hn => ⟨fun e => h (pathsEqual_iff.mpr e), hn⟩, And.right⟩

/-- The duplicate judgment passes exactly the paths without a repeat. -/
theorem judgeTwins_ok {first : Nat} {paths : List Segments} :
    judgeTwins first paths = .ok () ↔ paths.Nodup := by
  induction paths generalizing first with
  | nil => simp [judgeTwins]
  | cons path rest ih =>
    rw [judgeTwins, List.nodup_cons, ← @ih (first + 1), ← @twinFrom_none path (first + 1)]
    cases twinFrom path (first + 1) rest with
    | none => exact ⟨fun h => ⟨rfl, h⟩, And.right⟩
    | some second => exact ⟨nofun, fun h => nomatch h.1⟩

theorem Program.shaped (program : Program) {path : Segments} (h : path ∈ program.paths) :
    path.length ≤ stateMax ∧ judgePath path = .ok () := by
  have hadm := program.admitted
  unfold judgeProgram at hadm
  split_ifs at hadm
  split at hadm
  · cases hadm
  · exact judgeShapes_ok.mp ‹_› path h

end Admission

end ProtobufEdit.Path
