import ProtobufEdit.Loop
import ProtobufEdit.Pump

/-!
# The grouped stream scanner

`Parser` reads a document in chunks and reports its constructs to a sink. A sink is what it
answers to the events delivered so far, the event it is asked about last. `feed` drives one
chunk, `finish` judges the end, and `scan` is a whole stream.
-/

namespace ProtobufEdit.Scan

inductive ReadFault where
  | sealCut
  | streamEnd
  | tooWide
  | outOfClass
  deriving DecidableEq, Repr

inductive LenDisposition where
  | commit
  | opaqueBytes
  | opaqueSkip
  deriving DecidableEq, Repr

namespace Grouped

open Wire Wire.Grouped Loop Varint

inductive Event where
  | len (field : FieldNumber) (len : PayloadLen) (pos : Nat)
  | lenExit (field : FieldNumber) (pos : Nat)
  | groupEnter (field : FieldNumber) (pos : Nat)
  | groupExit (field : FieldNumber) (pos : Nat)
  | varint (field : FieldNumber) (value : Nat)
  | i32 (field : FieldNumber) (bits : Nat)
  | i64 (field : FieldNumber) (bits : Nat)
  | segment (bytes : List UInt8)
  deriving DecidableEq, Repr

/-- What a sink answers to the events so far: `none` and `true` are `Break`. -/
structure Sink where
  onLen : List Event → Option LenDisposition
  onEvent : List Event → Bool

/-- The unit sink: every default answer. -/
def Sink.unit : Sink := ⟨fun _ => some .opaqueSkip, fun _ => false⟩

inductive FaultKind where
  | read (stage : Stage) (cause : ReadFault)
  | fieldZero
  | unassigned (field : FieldNumber) (code : Low3)
  | lenOverrun (field : FieldNumber) (len : PayloadLen)
  | fixedOverrun (field : FieldNumber)
  | fixedTruncated (field : FieldNumber)
  | payloadTruncated (remaining : Nat)
  | unclosedLen (field : FieldNumber)
  | groupEndOrphan (ending : FieldNumber)
  | groupEndMismatch (ending opened : FieldNumber)
  | groupEndAcrossLen (ending openLen : FieldNumber)
  | groupUnclosedAtLenEnd (group : FieldNumber)
  | groupUnclosed (field : FieldNumber)
  | nonMinimalTag
  | nonMinimalLen (field : FieldNumber)
  | nonMinimalValue (field : FieldNumber)
  | depthExceeded (field : FieldNumber)
  | offsetExhausted
  | lenUnsatisfiable (field : FieldNumber) (len : PayloadLen)
  deriving DecidableEq, Repr

def FaultKind.padded : Stage → FaultKind
  | .tag => nonMinimalTag
  | .lenPrefix field => nonMinimalLen field
  | .value field => nonMinimalValue field

structure Fault where
  pos : Nat
  kind : FaultKind
  deriving DecidableEq, Repr

inductive Extent where
  | len (prevZone : Nat) (field : FieldNumber)
  | group (field : FieldNumber)
  deriving DecidableEq, Repr

/-- The resume position; a counting mode always owes. -/
inductive Mode where
  | head
  | varintValue (field : FieldNumber)
  | lenWord (field : FieldNumber)
  | fixedTail (field : FieldNumber) (kind : FixedKind)
  | forward (remaining : Nat)
  | swallow (remaining : Nat)
  deriving DecidableEq, Repr

/-- The open containers stand innermost first. -/
structure Parser where
  pump : Pump
  mode : Mode
  stack : List Extent
  depth : DepthLimit
  deriving DecidableEq, Repr

def Parser.new (standard : Standard) (depth : DepthLimit) : Parser :=
  ⟨.new standard, .head, [], depth⟩

/-- How a feed ends. `unreachable` is an arm the source marks so. -/
inductive Ended where
  | more
  | stopped
  | fault (fault : Fault)
  | unreachable
  deriving DecidableEq, Repr

/-- A drive in progress: the machine, the chunk left, the events delivered. -/
structure State where
  parser : Parser
  chunk : List UInt8
  seen : List Event

abbrev Flow := Turn State (State × Ended)

namespace State

/-- `halt`: the fault latches the machine terminal. -/
def halt (s : State) (pos : Nat) (kind : FaultKind) : Flow :=
  .halt ({ s with parser.pump.terminal := true }, .fault ⟨pos, kind⟩)

def haltRead (s : State) (stage : Stage) (cause : ReadFault) : Flow :=
  s.halt (if cause = .sealCut then s.parser.pump.zone else s.parser.pump.constructStart)
    (.read stage cause)

def haltPadded (s : State) (stage : Stage) : Flow :=
  s.halt s.parser.pump.constructStart (.padded stage)

/-- `event`: delivers one event and goes on unless the sink breaks. -/
def tell (sink : Sink) (s : State) (e : Event) : Flow :=
  let s := { s with seen := s.seen ++ [e] }
  if sink.onEvent s.seen then .halt ({ s with parser.pump.terminal := true }, .stopped)
  else .next s

end State

/-- One word at the cursor: its handler runs on a completed one, `suspend` is where a word
the chunk cuts short resumes. -/
def readWord (w : Window) (stage : Stage) (suspend : Mode) (s : State)
    (handle : Nat → State → Flow) : Flow :=
  match s.parser.pump.step w s.chunk with
  | (.done word, pump, chunk) => handle word { s with parser.pump := pump, chunk := chunk }
  | (.more, pump, chunk) =>
    .halt ({ s with
      parser.pump := pump, parser.mode := suspend, chunk := chunk }, .more)
  | (.cut, pump, chunk) =>
    haltAt .sealCut { s with parser.pump := pump, chunk := chunk }
  | (.tooWide, pump, chunk) =>
    haltAt .tooWide { s with parser.pump := pump, chunk := chunk }
  | (.outOfClass, pump, chunk) =>
    haltAt .outOfClass { s with parser.pump := pump, chunk := chunk }
  | (.nonMinimal, pump, chunk) =>
    State.haltPadded { s with parser.pump := pump, chunk := chunk } stage
where
  haltAt (cause : ReadFault) (s : State) : Flow := s.haltRead stage cause

/-- The cursor stands at the sealed endpoint, between constructs: a word suspended across
the seal keeps it shut. -/
def Parser.atEndpoint (parser : Parser) : Bool :=
  parser.pump.off = parser.pump.zone && parser.mode = .head &&
    parser.pump.carry.bytes.length = 0

/-- Endpoints at the cursor, innermost first, over the open containers. -/
def cascadeFrom (sink : Sink) : State → List Extent → Flow
  | s, [] =>
    if s.parser.atEndpoint then .halt (s, .unreachable)
    else .next { s with parser.stack := [] }
  | s, .group field :: stack =>
    if s.parser.atEndpoint then
      { s with parser.stack := Extent.group field :: stack }.halt s.parser.pump.off
        (.groupUnclosedAtLenEnd field)
    else .next { s with parser.stack := Extent.group field :: stack }
  | s, .len prevZone field :: stack =>
    if s.parser.atEndpoint then
      let seen := s.seen ++ [.lenExit field s.parser.pump.off]
      let s := { s with parser.pump.zone := prevZone, seen := seen }
      if sink.onEvent seen then
        .halt ({ s with parser.stack := stack, parser.pump.terminal := true }, .stopped)
      else cascadeFrom sink s stack
    else .next { s with parser.stack := Extent.len prevZone field :: stack }

attribute [grind =] cascadeFrom

def cascade (sink : Sink) (s : State) : Flow := cascadeFrom sink s s.parser.stack

def groupEnd (sink : Sink) (s : State) (ending : FieldNumber) (pos : Nat) : Flow :=
  match s.parser.stack with
  | [] => s.halt pos (.groupEndOrphan ending)
  | .len _ field :: _ => s.halt pos (.groupEndAcrossLen ending field)
  | .group field :: stack =>
    if field ≠ ending then s.halt pos (.groupEndMismatch ending field)
    else { s with parser.stack := stack }.tell sink (.groupExit field pos)

def varintValue (sink : Sink) (field : FieldNumber) (s : State) : Flow :=
  readWord .value (.value field) (.varintValue field) s fun value s =>
    { s with parser.mode := .head }.tell sink (.varint field value)

/-- LEN admission, and the sink's disposition. -/
def admitLen (sink : Sink) (field : FieldNumber) (len : PayloadLen) (s : State) : Flow :=
  let pump := s.parser.pump
  let stop := pump.off + len.asInner
  if stop ≤ pump.zone ∧ stop < u64Max then
    let s := { s with seen := s.seen ++ [Event.len field len pump.off] }
    match sink.onLen s.seen with
    | none => .halt ({ s with parser.pump.terminal := true }, .stopped)
    | some .commit =>
      if s.parser.depth.asInner ≤ s.parser.stack.length then
        s.halt pump.off (.depthExceeded field)
      else
        .next { s with
          parser.stack := Extent.len pump.zone field :: s.parser.stack
          parser.pump.zone := stop
          parser.mode := .head }
    | some .opaqueBytes =>
      .next { s with
        parser.mode := if len.asInner = 0 then .head else .forward len.asInner }
    | some .opaqueSkip =>
      .next { s with
        parser.mode := if len.asInner = 0 then .head else .swallow len.asInner }
  else if pump.zone ≠ u64Max then s.halt pump.off (.lenOverrun field len)
  else s.halt pump.off (.lenUnsatisfiable field len)

def lenWord (sink : Sink) (field : FieldNumber) (s : State) : Flow :=
  readWord .len (.lenPrefix field) (.lenWord field) s fun len s =>
    admitLen sink field (.newUnchecked len) s

def fixedTail (sink : Sink) (field : FieldNumber) (kind : FixedKind) (s : State) : Flow :=
  match s.parser.pump.grabFixed kind.need s.chunk with
  | .whole bytes pump chunk =>
    { s with parser.pump := pump, parser.mode := .head, chunk := chunk }.tell sink
      (match kind with
        | .i32 => .i32 field (fromLeBytes bytes)
        | .i64 => .i64 field (fromLeBytes bytes))
  | .more pump chunk =>
    .halt ({ s with
      parser.pump := pump, parser.mode := .fixedTail field kind, chunk := chunk }, .more)
  | .unreachable => .halt (s, .unreachable)

def forward (sink : Sink) (remaining : Nat) (s : State) : Flow :=
  let take := min remaining s.chunk.length
  { s with
    parser.pump.off := s.parser.pump.off + take
    parser.mode := if remaining - take = 0 then .head else .forward (remaining - take)
    chunk := s.chunk.drop take }.tell sink (.segment (s.chunk.take take))

def swallow (remaining : Nat) (s : State) : Flow :=
  let take := min remaining s.chunk.length
  .next { s with
    parser.pump.off := s.parser.pump.off + take
    parser.mode := if remaining - take = 0 then .head else .swallow (remaining - take)
    chunk := s.chunk.drop take }

/-- The record classes behind a head's field. -/
def classifyHead (sink : Sink) (start word : Nat) (field : FieldNumber) (s : State) : Flow :=
  match classify (Low3.fromWord word) with
  | .record .varint => varintValue sink field s
  | .record .i64 => admitFixed .i64
  | .record .i32 => admitFixed .i32
  | .record .len => lenWord sink field s
  | .record .group =>
    if s.parser.depth.asInner ≤ s.parser.stack.length then s.halt start (.depthExceeded field)
    else
      { s with parser.stack := Extent.group field :: s.parser.stack }.tell sink
        (.groupEnter field s.parser.pump.off)
  | .groupEnd => groupEnd sink s field start
  | .unassigned => s.halt start (.unassigned field (Low3.fromWord word))
where
  admitFixed (kind : FixedKind) : Flow :=
    -- the width is admitted against the zone here, so no collection meets the seal
    if s.parser.pump.zone - s.parser.pump.off < kind.need then
      s.halt s.parser.pump.off (.fixedOverrun field)
    else fixedTail sink field kind s

def head (sink : Sink) (s : State) : Flow :=
  let start := s.parser.pump.constructStart
  readWord .tag .tag .head s fun word s =>
    match FieldNumber.fromWord word with
    | none => s.halt start .fieldZero
    | some field => classifyHead sink start word field s

def dispatch (sink : Sink) (s : State) : Flow :=
  match s.parser.mode with
  | .head => head sink s
  | .varintValue field => varintValue sink field s
  | .lenWord field => lenWord sink field s
  | .fixedTail field kind => fixedTail sink field kind s
  | .forward remaining => forward sink remaining s
  | .swallow remaining => swallow remaining s

/-- One turn of `drive`'s loop. -/
def turn (sink : Sink) (s : State) : Flow :=
  match cascade sink s with
  | .halt ended => .halt ended
  | .next s => if s.chunk = [] then .halt (s, .more) else dispatch sink s

attribute [grind =] dispatch turn

/-- `drive`, by the turns its chunk allows; `none` would be a loop that outruns it. -/
def drive (sink : Sink) (s : State) : Option (State × Ended) :=
  run (turn sink) (s.chunk.length + 1) s

/-- `none` is the entry assertion's panic. -/
def feed (sink : Sink) (parser : Parser) (seen : List Event) (chunk : List UInt8) :
    Option (State × Ended) :=
  if parser.pump.terminal then none
  else if parser.pump.admits chunk = false then
    some (⟨{ parser with pump.terminal := true }, chunk, seen⟩,
      .fault ⟨parser.pump.off, .offsetExhausted⟩)
  else
    -- armed across the callbacks, then set by the drive's own verdict
    (drive sink ⟨{ parser with pump.terminal := true }, chunk, seen⟩).map fun (s, ended) =>
      ({ s with parser.pump.terminal := decide (ended ≠ .more) }, ended)

/-- The fault an end of stream is, if it is one. -/
def endFault (parser : Parser) : Option FaultKind :=
  match parser.mode with
  | .head =>
    if parser.pump.carry.bytes.length ≠ 0 then some (.read .tag .streamEnd)
    else
      match parser.stack with
      | .len _ field :: _ => some (.unclosedLen field)
      | .group field :: _ => some (.groupUnclosed field)
      | [] => none
  | .varintValue field => some (.read (.value field) .streamEnd)
  | .lenWord field => some (.read (.lenPrefix field) .streamEnd)
  | .fixedTail field _ => some (.fixedTruncated field)
  | .forward remaining => some (.payloadTruncated remaining)
  | .swallow remaining => some (.payloadTruncated remaining)

def finish (parser : Parser) : Option (Except Fault Unit) :=
  if parser.pump.terminal then none
  else
    match endFault parser with
    | some kind => some (.error ⟨parser.pump.off, kind⟩)
    | none => some (.ok ())

/-! ## Whole streams -/

inductive Conclusion where
  | accepted
  | refused (fault : Fault)
  | stopped
  deriving DecidableEq, Repr

/-- Feeds the chunks in order and finishes: the verdict and the events. `none` is a panic or
an unreachable arm. -/
def scanFrom (sink : Sink) (parser : Parser) (seen : List Event) :
    List (List UInt8) → Option (Conclusion × List Event)
  | [] =>
    (finish parser).map fun
      | .ok () => (.accepted, seen)
      | .error fault => (.refused fault, seen)
  | chunk :: chunks =>
    match feed sink parser seen chunk with
    | none => none
    | some (s, .more) => scanFrom sink s.parser s.seen chunks
    | some (s, .stopped) => some (.stopped, s.seen)
    | some (s, .fault fault) => some (.refused fault, s.seen)
    | some (_, .unreachable) => none

def scan (sink : Sink) (standard : Standard) (depth : DepthLimit) (chunks : List (List UInt8)) :
    Option (Conclusion × List Event) :=
  scanFrom sink (.new standard depth) [] chunks

/-- `Validator`: the parser under the unit sink, narrowed to its verdict. -/
def validate (standard : Standard) (depth : DepthLimit) (chunks : List (List UInt8)) :
    Option Conclusion :=
  (scan .unit standard depth chunks).map Prod.fst

/-! ## One word at the cursor -/

/-- The fault a word's reading comes to, if any. -/
def wordFault (w : Window) (standard : Standard) (stage : Stage) (zone start : Nat) :
    Base128.Outcome → Option Fault
  | .done word _ =>
    if w.padded standard word then some ⟨start, .padded stage⟩ else none
  | .more _ => none
  | .cut _ _ => some ⟨zone, .read stage .sealCut⟩
  | .tooWide _ _ => some ⟨start, .read stage .tooWide⟩
  | .outOfClass _ _ => some ⟨start, .read stage .outOfClass⟩

section ReadWord

variable {w : Window} {stage : Stage} {suspend : Mode} {s : State} {handle : Nat → State → Flow}

theorem readWord_done (hw : w.Fits) (hp : s.parser.pump.Ready) {word rest : List UInt8}
    (h : s.parser.pump.outcome w s.chunk = .done word rest)
    (hm : w.padded s.parser.pump.standard word = false) :
    readWord w stage suspend s handle = handle (Base128.value word) { s with
      parser.pump.off := s.parser.pump.constructStart + word.length
      parser.pump.carry := .empty
      chunk := rest } := by
  simp only [readWord, Pump.step_done hw hp h hm]

theorem readWord_more (hw : w.Fits) (hp : s.parser.pump.Ready) {held : List UInt8}
    (h : s.parser.pump.outcome w s.chunk = .more held) :
    readWord w stage suspend s handle = .halt ({ s with
      parser.pump.off := s.parser.pump.off + s.chunk.length
      parser.pump.carry := ⟨Base128.value held, held⟩
      parser.mode := suspend
      chunk := [] }, .more) := by
  simp only [readWord, Pump.step_more hw hp h]

theorem readWord_refused (suspend : Mode) (handle : Nat → State → Flow) (hw : w.Fits)
    (hp : s.parser.pump.Ready) {fault : Fault}
    (h : wordFault w s.parser.pump.standard stage s.parser.pump.zone
      s.parser.pump.constructStart (s.parser.pump.outcome w s.chunk) = some fault) :
    ∃ s', readWord w stage suspend s handle = .halt (s', .fault fault) ∧ s'.seen = s.seen := by
  have hstep := fun v => @Pump.step_refused w s.parser.pump s.chunk hw hp v
  cases ho : s.parser.pump.outcome w s.chunk with
  | done word rest =>
    simp only [ho, wordFault] at h
    split at h
    case isFalse => cases h
    case isTrue hm =>
      cases h
      obtain ⟨p, c, e, hstart, -⟩ := hstep .nonMinimal (by simp [ho, Pump.refusal, hm])
      refine ⟨{ s with parser.pump := { p with terminal := true }, chunk := c }, ?_, rfl⟩
      simp only [readWord, e, State.haltPadded, State.halt, hstart]
  | more held => simp only [ho, wordFault, reduceCtorEq] at h
  | cut held rest =>
    simp only [ho, wordFault, Option.some.injEq] at h
    cases h
    obtain ⟨p, c, e, -, hzone⟩ := hstep .cut (by simp [ho, Pump.refusal])
    refine ⟨{ s with parser.pump := { p with terminal := true }, chunk := c }, ?_, rfl⟩
    simp only [readWord, e, readWord.haltAt, State.haltRead, State.halt, hzone, if_true]
  | tooWide held rest =>
    simp only [ho, wordFault, Option.some.injEq] at h
    cases h
    obtain ⟨p, c, e, hstart, -⟩ := hstep .tooWide (by simp [ho, Pump.refusal])
    refine ⟨{ s with parser.pump := { p with terminal := true }, chunk := c }, ?_, rfl⟩
    simp only [readWord, e, readWord.haltAt, State.haltRead, State.halt, hstart, reduceCtorEq,
      if_false]
  | outOfClass held rest =>
    simp only [ho, wordFault, Option.some.injEq] at h
    cases h
    obtain ⟨p, c, e, hstart, -⟩ := hstep .outOfClass (by simp [ho, Pump.refusal])
    refine ⟨{ s with parser.pump := { p with terminal := true }, chunk := c }, ?_, rfl⟩
    simp only [readWord, e, readWord.haltAt, State.haltRead, State.halt, hstart, reduceCtorEq,
      if_false]

/-- Every outcome is one of the three: completed, cut short by the chunk, or refused. -/
theorem outcome_cases (w : Window) (standard : Standard) (stage : Stage) (zone start : Nat)
    (o : Base128.Outcome) :
    (∃ word rest, o = .done word rest ∧ w.padded standard word = false) ∨
    (∃ held, o = .more held) ∨ ∃ fault, wordFault w standard stage zone start o = some fault := by
  cases o with
  | done word rest =>
    cases hm : w.padded standard word with
    | false => exact .inl ⟨word, rest, rfl, hm⟩
    | true => exact .inr (.inr ⟨⟨start, .padded stage⟩, by simp [wordFault, hm]⟩)
  | more held => exact .inr (.inl ⟨held, rfl⟩)
  | cut held rest => exact .inr (.inr ⟨_, rfl⟩)
  | tooWide held rest => exact .inr (.inr ⟨_, rfl⟩)
  | outOfClass held rest => exact .inr (.inr ⟨_, rfl⟩)

end ReadWord

end Grouped

end ProtobufEdit.Scan
