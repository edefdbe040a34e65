import ProtobufEdit.Cursor
import ProtobufEdit.Path.Live
import ProtobufEdit.TwoPass.Seam

/-!
# Rule-driven rewriting

Rules over paths behind two doors, and what a job needs of either set: the provider its matcher
compiles, the actions its hits quote, the insertions of the root's gaps, and the receipt. The
insert door alone holds insertions; their paths anchor gaps and may be empty.
-/

namespace ProtobufEdit.Rewrite

open Wire Varint ProtobufEdit.Path Emission TwoPass Wire.Groupless

/-! ## Values -/

/-- A payload, as wire words. -/
inductive Value where
  | varint (word : UInt64)
  | i32 (bits : UInt32)
  | i64 (bits : UInt64)
  | len (bytes : List UInt8)
  | lenParts (parts : List (List UInt8))
  deriving DecidableEq, Repr

/-- The concatenated length (past u64 the code saturates, over every cap either way). -/
def partsTotal (parts : List (List UInt8)) : Nat := (parts.map List.length).sum

namespace Value

/-- The canonical wire size. -/
def size : Value → Nat
  | varint word => encodedLen64 word.toNat
  | i32 _ => 4
  | i64 _ => 8
  | len bytes => encodedLen32 bytes.length + bytes.length
  | lenParts parts => encodedLen32 (partsTotal parts) + partsTotal parts

/-- `emit_value`: minimal words, and LEN bytes behind a minimal prefix. -/
def pieces : Value → List (List UInt8)
  | varint word => [write64At word.toNat (encodedLen64 word.toNat)]
  | i32 bits => [toLeBytes 4 bits.toNat]
  | i64 bits => [toLeBytes 8 bits.toNat]
  | len bytes => [write64At bytes.length (encodedLen64 bytes.length), bytes]
  | lenParts parts => write64At (partsTotal parts) (encodedLen64 (partsTotal parts)) :: parts

/-- Every emission is as long as it was accounted. -/
theorem pieces_length (value : Value) : value.pieces.flatten.length = value.size := by
  cases value with
  | varint word | i32 bits | i64 bits => simp [pieces, size]
  | len bytes => simp [pieces, size, encodedLen64, encodedLen32]
  | lenParts parts =>
    simp [pieces, size, encodedLen64, encodedLen32, partsTotal, List.length_flatten]

def authored (value : Value) : Authored UInt8 := ⟨value.size, value.pieces, value.pieces_length⟩

def kind : Value → RecordKind
  | varint _ => .varint
  | i32 _ => .i32
  | i64 _ => .i64
  | len _ | lenParts _ => .len

/-- Outside the LEN class. -/
def oversize : Value → Bool
  | len bytes => decide (PayloadLen.max < bytes.length)
  | lenParts parts => decide (PayloadLen.max < partsTotal parts)
  | _ => false

/-- A record's own words. -/
def own : Cursor.Value → Value
  | .varint v => varint (UInt64.ofNat v)
  | .i64 bits => i64 (UInt64.ofNat bits)
  | .i32 bits => i32 (UInt32.ofNat bits)
  | .len payload => len payload

end Value

/-- A whole record authored: a minimal head word, then the value. -/
def authoredRecord (head : Nat) (value : Value) : Authored UInt8 :=
  ⟨encodedLen32 head + value.size, write64At head (encodedLen32 head) :: value.pieces, by
    rw [List.flatten_cons, List.length_append, write64At_length, value.pieces_length]⟩

/-! ## Rules -/

/-- The side of an anchor's interior an inserted record lands on. -/
inductive Gap where
  | headOf
  | tailOf
  deriving DecidableEq, Repr

structure InsertRule where
  gap : Gap
  field : FieldNumber
  value : Value
  deriving DecidableEq, Repr

inductive Action where
  | delete
  | replace (value : Value)
  | normalize
  | insert (rule : InsertRule)
  deriving DecidableEq, Repr

namespace Action

def isInsert : Action → Bool
  | insert _ => true
  | _ => false

/-- The value an action authors. -/
def value : Action → Option Value
  | replace value => some value
  | insert rule => some rule.value
  | delete | normalize => none

def oversize (action : Action) : Bool := action.value.any Value.oversize

def lane : Action → Lane
  | insert rule =>
    match rule.gap with
    | .headOf => .head
    | .tailOf => .tail
  | delete | replace _ | normalize => .target

theorem lane_target {action : Action} : action.lane = .target ↔ action.isInsert = false := by
  cases action with
  | insert rule =>
    obtain ⟨gap, field, value⟩ := rule
    cases gap <;> simp [lane, isInsert]
  | delete | replace _ | normalize => simp [lane, isInsert]

end Action

structure Rule where
  path : Segments
  action : Action
  deriving DecidableEq, Repr

inductive RuleError where
  | emptyPath (rule : Nat)
  | wildcardTarget (rule : Nat)
  | emptyDescendSet (rule segment : Nat)
  | unsortedDescend (rule segment : Nat)
  | adjacentWildcards (rule segment : Nat)
  | duplicatePath (first second : Nat)
  | oversizeValue (rule : Nat)
  | insertRefused (rule : Nat)
  | tooManyRules (count : Nat)
  | pathTooLong (rule : Nat)
  deriving DecidableEq, Repr

def shapeError (breach : ShapeBreach) (rule : Nat) : RuleError :=
  match breach with
  | .emptyPath => .emptyPath rule
  | .wildcardTarget => .wildcardTarget rule
  | .emptyDescendSet segment => .emptyDescendSet rule segment
  | .unsortedDescend segment => .unsortedDescend rule segment
  | .adjacentWildcards segment => .adjacentWildcards rule segment

/-- The path's shape; the empty anchor is lawful for insertions alone. -/
def judgeAnchor (index : Nat) (rule : Rule) : Except RuleError Unit :=
  if rule.path = [] then
    if rule.action.isInsert then .ok () else .error (.emptyPath index)
  else
    match judgePath rule.path with
    | .error breach => .error (shapeError breach index)
    | .ok () => .ok ()

/-- The first rule out of shape, from the rule numbered `index` on. -/
def judgeRules (inserts : Bool) (index : Nat) : List Rule → Except RuleError Unit
  | [] => .ok ()
  | rule :: rest =>
    if !inserts && rule.action.isInsert then .error (.insertRefused index)
    else if stateMax < rule.path.length then .error (.pathTooLong index)
    else
      match judgeAnchor index rule with
      | .error refusal => .error refusal
      | .ok () =>
        if rule.action.oversize then .error (.oversizeValue index)
        else judgeRules inserts (index + 1) rest

/-- The number of the first action rule on the path, from the rule numbered `second` on. -/
def rivalFrom (path : Segments) (second : Nat) : List Rule → Option Nat
  | [] => none
  | rule :: rest =>
    if !rule.action.isInsert && pathsEqual path rule.path then some second
    else rivalFrom path (second + 1) rest

/-- The smallest duplicate pair, from the rule numbered `first` on; insertions are exempt on
both sides. -/
def judgeDuplicates (first : Nat) : List Rule → Except RuleError Unit
  | [] => .ok ()
  | rule :: rest =>
    if rule.action.isInsert then judgeDuplicates (first + 1) rest
    else
      match rivalFrom rule.path (first + 1) rest with
      | some second => .error (.duplicatePath first second)
      | none => judgeDuplicates (first + 1) rest

/-- The judgment behind both doors; `inserts` selects the door. -/
def judge (rules : List Rule) (inserts : Bool) : Except RuleError Unit :=
  if stateMax < rules.length then .error (.tooManyRules rules.length)
  else
    match judgeRules inserts 0 rules with
    | .error refusal => .error refusal
    | .ok () => judgeDuplicates 0 rules

attribute [grind =] judgeRules rivalFrom judgeDuplicates

/-- A compiled rule set of either door. -/
structure Sets (inserts : Bool) where
  rules : List Rule
  admitted : judge rules inserts = .ok ()

abbrev RuleSet := Sets false

abbrev InsertRuleSet := Sets true

def Sets.over {inserts : Bool} (rules : List Rule) : Except RuleError (Sets inserts) :=
  match h : judge rules inserts with
  | .error refusal => .error refusal
  | .ok () => .ok ⟨rules, h⟩

/-! ## What the judgment gives -/

section Judgment

variable {inserts : Bool} {index : Nat} {rules : List Rule}

/-- A rule a door admits. -/
structure Rule.Shaped (inserts : Bool) (rule : Rule) : Prop where
  door : rule.action.isInsert = true → inserts = true
  short : rule.path.length ≤ stateMax
  anchor : judgePath rule.path = .ok () ∨ rule.path = [] ∧ rule.action.isInsert = true
  inClass : rule.action.oversize = false

theorem judgeAnchor_ok {rule : Rule} : judgeAnchor index rule = .ok () ↔
    judgePath rule.path = .ok () ∨ rule.path = [] ∧ rule.action.isInsert = true := by
  unfold judgeAnchor
  by_cases hp : rule.path = []
  · cases hi : rule.action.isInsert <;> simp [hp, judgePath]
  · cases hj : judgePath rule.path <;> simp [hp]

theorem judgeRules_ok : judgeRules inserts index rules = .ok () ↔
    ∀ rule ∈ rules, rule.Shaped inserts := by
  induction rules generalizing index with
  | nil => simp [judgeRules]
  | cons rule rest ih =>
    rw [judgeRules, List.forall_mem_cons, ← @ih (index + 1)]
    by_cases hdoor : (!inserts && rule.action.isInsert) = true
    · rw [if_pos hdoor]
      simp only [Bool.and_eq_true, Bool.not_eq_true'] at hdoor
      exact ⟨fun e => (by cases e), fun h => absurd (h.1.door hdoor.2) (by simp [hdoor.1])⟩
    rw [if_neg hdoor]
    by_cases hlong : stateMax < rule.path.length
    · rw [if_pos hlong]
      exact ⟨fun e => (by cases e), fun h => absurd h.1.short (Nat.not_le.mpr hlong)⟩
    rw [if_neg hlong]
    cases hj : judgeAnchor index rule with
    | error refusal =>
      refine ⟨fun e => (by cases e), fun h => ?_⟩
      rw [judgeAnchor_ok.mpr h.1.anchor] at hj
      cases hj
    | ok u =>
      cases hover : rule.action.oversize with
      | true => exact ⟨fun e => (by cases e), fun h => absurd h.1.inClass (by simp [hover])⟩
      | false =>
        refine ⟨fun h => ⟨⟨fun hi => ?_, Nat.le_of_not_lt hlong, judgeAnchor_ok.mp hj, hover⟩, h⟩,
          fun h => h.2⟩
        by_contra hne
        exact hdoor (by simp [hi, Bool.eq_false_of_not_eq_true hne])

end Judgment

/-! ## The sets -/

namespace Sets

variable {inserts : Bool} (set : Sets inserts)

theorem shaped {rule : Rule} (h : rule ∈ set.rules) : rule.Shaped inserts := by
  have hadm := set.admitted
  unfold judge at hadm
  split_ifs at hadm
  cases hj : judgeRules inserts 0 set.rules with
  | error refusal => rw [hj] at hadm; cases hadm
  | ok u => exact judgeRules_ok.mp hj rule h

/-- What the matcher compiles. The insert door alone is laned. -/
def provider : Paths where
  laned := inserts
  entries := set.rules.map fun rule => (rule.path, rule.action.lane)
  lawful e he := by
    obtain ⟨rule, hr, rfl⟩ := List.mem_map.mp he
    have hshaped := set.shaped hr
    rcases hshaped.anchor with hpath | ⟨hpath, hinsert⟩
    · exact .inl (judgePath_ends hpath)
    · exact .inr ⟨hshaped.door hinsert, hpath⟩
  unlaned hdoor e he := by
    obtain ⟨rule, hr, rfl⟩ := List.mem_map.mp he
    have hshaped := set.shaped hr
    refine Action.lane_target.mpr (Bool.eq_false_of_not_eq_true fun hi => ?_)
    rw [hshaped.door hi] at hdoor
    cases hdoor

/-- The action of a rule the matcher quoted; `none` is a read outside the rules. -/
def action (rule : Nat) : Option Action := set.rules[rule]?.map Rule.action

/-- The root's insertions on one side, in authoring order; the insert-free door fires none. -/
def rootInserts (gap : Gap) : List InsertRule :=
  if inserts then
    set.rules.filterMap fun rule =>
      match rule.action with
      | .insert insert => if rule.path = [] ∧ insert.gap = gap then some insert else none
      | _ => none
  else []

theorem lane_eq (id : Nat) :
    set.provider.lane id = ((set.action id).map Action.lane).getD .target := by
  simp only [Paths.lane, provider, action, List.getD_eq_getElem?_getD, List.getElem?_map,
    Option.map_map]
  cases set.rules[id]? <;> rfl

theorem action_isSome {id : Nat} (h : id < set.provider.count) :
    ∃ action, set.action id = some action ∧ set.provider.lane id = action.lane := by
  have hlt : id < set.rules.length := by simpa [Paths.count, provider] using h
  refine ⟨set.rules[id].action, by simp [action, hlt], ?_⟩
  rw [lane_eq]
  simp [action, hlt]

end Sets

/-! ## Receipts -/

structure Stats where
  deleted : Nat
  replaced : Nat
  normalized : Nat
  descended : Nat
  deriving DecidableEq, Repr

/-- The insert door's receipt, and either walk's tally; the code counts in `u32`. -/
structure InsertStats where
  deleted : Nat
  replaced : Nat
  normalized : Nat
  inserted : Nat
  descended : Nat
  deriving DecidableEq, Repr

namespace InsertStats

def zero : InsertStats := ⟨0, 0, 0, 0, 0⟩

/-- The judgment tallies both passes must report; the emit pass skips clean subtrees, so its
descents are not among them. -/
def judged (stats : InsertStats) : Nat × Nat × Nat × Nat :=
  (stats.deleted, stats.replaced, stats.normalized, stats.inserted)

end InsertStats

/-- The job receipt a door yields. -/
abbrev Receipt : Bool → Type
  | false => Stats
  | true => InsertStats

/-- The tally projected on a door's receipt (the insert-free one asserts that no gap fired). -/
def receipt : (inserts : Bool) → InsertStats → Receipt inserts
  | false, full => ⟨full.deleted, full.replaced, full.normalized, full.descended⟩
  | true, full => full

end ProtobufEdit.Rewrite
