import ProtobufEdit.Cursor
import ProtobufEdit.Path.Matcher

/-!
# Equal-width editing in place

Rules over paths, admitted once, and the writes a walk of a buffer plans under them: every
write lands at an extent the walk judged, and none moves an offset.
-/

namespace ProtobufEdit.Inplace

open Wire Varint Base128 ProtobufEdit.Path Cursor

/-! ## Rules -/

inductive Action where
  | setVarint (value : UInt64)
  | setI32 (bits : UInt32)
  | setI64 (bits : UInt64)
  | setPayload (bytes : List UInt8)
  | renumber (field : FieldNumber)
  | replaceRecord (bytes : List UInt8)
  | tombstone (field : FieldNumber)
  deriving DecidableEq, Repr

structure Rule where
  path : Segments
  action : Action
  deriving DecidableEq, Repr

inductive RuleError where
  | emptyPath (rule : Nat)
  | wildcardTarget (rule : Nat)
  | emptyDescendSet (rule segment : Nat)
  | unsortedDescend (rule segment : Nat)
  | adjacentWildcards (rule segment : Nat)
  | duplicatePath (first second : Nat)
  | oversizeValue (rule : Nat)
  | tooManyRules (count : Nat)
  | pathTooLong (rule : Nat)
  deriving DecidableEq, Repr

def shapeError (breach : ShapeBreach) (rule : Nat) : RuleError :=
  match breach with
  | .emptyPath => .emptyPath rule
  | .wildcardTarget => .wildcardTarget rule
  | .emptyDescendSet segment => .emptyDescendSet rule segment
  | .unsortedDescend segment => .unsortedDescend rule segment
  | .adjacentWildcards segment => .adjacentWildcards rule segment

/-- Byte payloads past the LEN class. -/
def Action.oversize : Action → Bool
  | .setPayload bytes | .replaceRecord bytes => decide (PayloadLen.max < bytes.length)
  | _ => false

/-- The first rule out of shape, from the rule numbered `index` on. -/
def judgeRules (index : Nat) : List Rule → Except RuleError Unit
  | [] => .ok ()
  | rule :: rest =>
    if stateMax < rule.path.length then .error (.pathTooLong index)
    else
      match judgePath rule.path with
      | .error breach => .error (shapeError breach index)
      | .ok () =>
        if rule.action.oversize then .error (.oversizeValue index)
        else judgeRules (index + 1) rest

/-- The smallest duplicate pair, from the rule numbered `first` on. -/
def judgeDuplicates (first : Nat) : List Rule → Except RuleError Unit
  | [] => .ok ()
  | rule :: rest =>
    match twinFrom rule.path (first + 1) (rest.map Rule.path) with
    | some second => .error (.duplicatePath first second)
    | none => judgeDuplicates (first + 1) rest

def judge (rules : List Rule) : Except RuleError Unit :=
  if stateMax < rules.length then .error (.tooManyRules rules.length)
  else
    match judgeRules 0 rules with
    | .error refusal => .error refusal
    | .ok () => judgeDuplicates 0 rules

/-- A compiled rule set: the rules passed the judgment. -/
structure RuleSet where
  rules : List Rule
  admitted : judge rules = .ok ()

def RuleSet.over (rules : List Rule) : Except RuleError RuleSet :=
  match h : judge rules with
  | .error refusal => .error refusal
  | .ok () => .ok ⟨rules, h⟩

theorem judgeRules_ok {index : Nat} {rules : List Rule} (h : judgeRules index rules = .ok ()) :
    ∀ rule ∈ rules, judgePath rule.path = .ok () ∧ rule.action.oversize = false := by
  induction rules generalizing index with
  | nil => exact nofun
  | cons rule rest ih =>
    rw [judgeRules] at h
    cases hj : judgePath rule.path with
    | error breach =>
      rw [hj] at h
      split_ifs at h
    | ok u =>
      rw [hj] at h
      simp only at h
      split_ifs at h with hlong hover
      exact List.forall_mem_cons.mpr ⟨⟨hj, Bool.eq_false_of_not_eq_true hover⟩, ih h⟩

theorem RuleSet.shaped (set : RuleSet) {rule : Rule} (h : rule ∈ set.rules) :
    judgePath rule.path = .ok () ∧ rule.action.oversize = false := by
  have hadm := set.admitted
  unfold judge at hadm
  split_ifs at hadm
  cases hj : judgeRules 0 set.rules with
  | error refusal => rw [hj] at hadm; cases hadm
  | ok u => exact judgeRules_ok hj rule h

/-- Every rule's path ends on a target. -/
def RuleSet.provider (set : RuleSet) : Paths where
  laned := false
  entries := set.rules.map fun rule => (rule.path, .target)
  lawful e he := by
    obtain ⟨rule, hr, rfl⟩ := List.mem_map.mp he
    exact .inl (judgePath_ends (set.shaped hr).1)
  unlaned _ e he := by
    obtain ⟨rule, -, rfl⟩ := List.mem_map.mp he
    rfl

/-- The action of a rule the matcher quoted; `none` is a read outside the rules. -/
def action (set : RuleSet) (rule : Nat) : Option Action := set.rules[rule]?.map Rule.action

/-- The job receipt. -/
structure Stats where
  replaced : Nat
  renumbered : Nat
  tombstoned : Nat
  substituted : Nat
  deriving DecidableEq, Repr

def Stats.zero : Stats := ⟨0, 0, 0, 0⟩

/-- The class an action lands in. -/
def Stats.note (stats : Stats) : Action → Stats
  | .setVarint _ | .setI32 _ | .setI64 _ | .setPayload _ =>
    { stats with replaced := stats.replaced + 1 }
  | .renumber _ => { stats with renumbered := stats.renumbered + 1 }
  | .replaceRecord _ => { stats with substituted := stats.substituted + 1 }
  | .tombstone _ => { stats with tombstoned := stats.tombstoned + 1 }

/-! ## Widths and fillers -/

/-- The authored-word width judgment. -/
def widthFits (standard : Standard) (need have' : Nat) : Bool :=
  match standard with
  | .canonicalMinimal => need = have'
  | .tolerant => need ≤ have'

/-- `VARINT_CODE` and `LEN_CODE`. -/
def varintCode : Low3 := 0

def lenCode : Low3 := 2

/-- The smallest extent a tombstone of the field can fill. -/
def fillerNeed (field : FieldNumber) : Nat := encodedLen32 (tagWord field lenCode) + 1

/-- The interiors no minimal prefix solves. -/
def gapSplit (n : Nat) : Bool := n = 129 ∨ n = 16386 ∨ n = 2097155 ∨ n = 268435460

/-- The minimal prefix width of an interior off the gap set. -/
def splitPrefix (n : Nat) : Nat :=
  if n ≤ 128 then 1
  else if n ≤ 16385 then 2
  else if n ≤ 2097154 then 3
  else if n ≤ 268435459 then 4
  else 5

/-- Whether a varint alone fills the interior. -/
def fillsVarint (standard : Standard) (n : Nat) : Bool :=
  match standard with
  | .canonicalMinimal => n = 1
  | .tolerant => n ≤ 10

/-- The filler's prefix width: minimal, or padded to the full window. -/
def fillPrefix (standard : Standard) (n : Nat) : Nat :=
  match standard with
  | .canonicalMinimal => splitPrefix n
  | .tolerant => 5

/-- The filler over what a peeled one leaves of the extent: one record. -/
def fillOne (standard : Standard) (width : Nat) (field : FieldNumber) : List UInt8 :=
  let varintTag := tagWord field varintCode
  let lenTag := tagWord field lenCode
  let t := encodedLen32 lenTag
  let n := width - t
  if fillsVarint standard n then
    write64At varintTag t ++ write64At 0 n
  else
    let p := fillPrefix standard n
    write64At lenTag t ++ write64At (n - p) p ++ List.replicate (n - p) 0

/-- The bytes a tombstone lands, at an extent of at least `fillerNeed`. -/
def fill (standard : Standard) (width : Nat) (field : FieldNumber) : List UInt8 :=
  let varintTag := tagWord field varintCode
  let t := encodedLen32 (tagWord field lenCode)
  if standard = .canonicalMinimal ∧ gapSplit (width - t) then
    write64At varintTag t ++ write64At 0 1 ++ fillOne standard (width - (t + 1)) field
  else fillOne standard width field

/-! ## The write list -/

/-- A planned write: its extent, and the facts its bytes re-derive from. -/
inductive Write where
  | varint (pos width : Nat) (value : UInt64)
  | fixed32 (pos : Nat) (bits : UInt32)
  | fixed64 (pos : Nat) (bits : UInt64)
  | payload (pos : Nat) (bytes : List UInt8)
  | tag (pos width word : Nat)
  | filler (pos width : Nat) (field : FieldNumber)
  deriving DecidableEq, Repr

namespace Write

def pos : Write → Nat
  | varint pos _ _ | fixed32 pos _ | fixed64 pos _ | payload pos _ | tag pos _ _
  | filler pos _ _ => pos

/-- What the write lands. -/
def bytes (standard : Standard) : Write → List UInt8
  | varint _ width value => write64At value.toNat width
  | fixed32 _ bits => toLeBytes 4 bits.toNat
  | fixed64 _ bits => toLeBytes 8 bits.toNat
  | payload _ bytes => bytes
  | tag _ width word => write64At word width
  | filler _ width field => fill standard width field

/-- The end of the write's extent. -/
def stop (standard : Standard) (w : Write) : Nat := w.pos + (w.bytes standard).length

/-- One write landed; `none` is a write outside the buffer. -/
def land (standard : Standard) (buf : List UInt8) (w : Write) : Option (List UInt8) :=
  if w.stop standard ≤ buf.length then
    some (buf.take w.pos ++ w.bytes standard ++ buf.drop (w.stop standard))
  else none

end Write

/-- The write loop. -/
def commit (standard : Standard) (buf : List UInt8) (writes : List Write) : Option (List UInt8) :=
  writes.foldlM (Write.land standard) buf

/-! ## Verdicts -/

/-- The refusal classes; `β` is a dialect's wire breach. -/
inductive FaultKind (β : Type) where
  | oversize
  | wire (breach : β)
  | conflict (first second : Nat)
  | kindMismatch (rule : Nat)
  | valueWidth (rule need met : Nat)
  | tagWidth (rule need met : Nat)
  | payloadLength (rule need met : Nat)
  | fillerUnfit (rule need met : Nat)
  | replacementLength (rule need met : Nat)
  | replacementWire (rule pos : Nat) (breach : β)
  | replacementShape (rule : Nat)
  deriving DecidableEq, Repr

structure Fault (β : Type) where
  pos : Nat
  kind : FaultKind β
  deriving DecidableEq, Repr

/-- A walk's end: its write list and receipt, or its refusal; `none` is a panic, or a read
outside its bounds. -/
abbrev Outcome (β : Type) := Option (Except (Fault β) (List Write × Stats))

/-- The kind of a delivered value. -/
def kindOf : Value → Groupless.RecordKind
  | .varint _ => .varint
  | .i64 _ => .i64
  | .i32 _ => .i32
  | .len _ => .len

section Judgment

variable {β : Type} (standard : Standard)

def judgeTombstone (rule : Nat) (field : FieldNumber) (head stop : Nat) :
    Except (FaultKind β) Write :=
  let need := fillerNeed field
  let extent := stop - head
  if extent < need then .error (.fillerUnfit rule need extent)
  else .ok (.filler head extent field)

/-- A replacement at `head`, from the verdict over its bytes. -/
def judgeReplaced (verdict : Option (Except (FaultKind β) Unit)) (bytes : List UInt8) (head : Nat) :
    Option (Except (FaultKind β) Write) :=
  match verdict with
  | none => none
  | some (.error kind) => some (.error kind)
  | some (.ok ()) => some (.ok (.payload head bytes))

/-- A rule's action over a record at `head`, its tag `tagW` wide: the write it plans, or its
refusal. The dialect judges a replacement against the extent. -/
def judgeAction (replacement : List UInt8 → Nat → Option (Except (FaultKind β) Unit)) (rule : Nat)
    (action : Action) (head tagW stop : Nat) (met : Value) : Option (Except (FaultKind β) Write) :=
  let valueAt := head + tagW
  match action, met with
  | .setVarint value, .varint _ =>
    let slot := stop - valueAt
    let need := encodedLen64 value.toNat
    if widthFits standard need slot then some (.ok (.varint valueAt slot value))
    else some (.error (.valueWidth rule need slot))
  | .setI32 bits, .i32 _ => some (.ok (.fixed32 valueAt bits))
  | .setI64 bits, .i64 _ => some (.ok (.fixed64 valueAt bits))
  | .setPayload bytes, .len payload =>
    if bytes.length = payload.length then some (.ok (.payload (stop - payload.length) bytes))
    else some (.error (.payloadLength rule bytes.length payload.length))
  | .renumber field, met =>
    let word := tagWord field (kindOf met).low3
    let need := encodedLen32 word
    if widthFits standard need tagW then some (.ok (.tag head tagW word))
    else some (.error (.tagWidth rule need tagW))
  | .replaceRecord bytes, _ => judgeReplaced (replacement bytes (stop - head)) bytes head
  | .tombstone field, _ => some (judgeTombstone rule field head stop)
  | _, _ => some (.error (.kindMismatch rule))

end Judgment

end ProtobufEdit.Inplace
