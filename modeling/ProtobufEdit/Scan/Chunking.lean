import ProtobufEdit.Scan.Grouped

/-!
# Chunk cuts are invisible

Where a stream is cut into chunks changes nothing a sink or a caller can see: the events,
with the fragments of one payload joined, and the verdict with its coordinate. The proof
compares one drive over `chunk ++ more` with the drive over `chunk` followed by the drive
over `more`: each arm of the machine obeys `Law`, and `drive_split` carries it along a run.
-/

namespace ProtobufEdit.Scan.Grouped

open Wire Wire.Grouped Loop Base128 Varint

/-! ## Joined fragments -/

/-- One event in front of joined ones: a fragment joins the fragment behind it. -/
def join : Event → List Event → List Event
  | .segment a, .segment b :: rest => .segment (a ++ b) :: rest
  | e, rest => e :: rest

/-- The events with neighbouring fragments joined: fragments are neighbours only inside one
payload, since the event of a LEN head stands before each payload's first. -/
def merge (events : List Event) : List Event := events.foldr join []

theorem join_join (a b : List UInt8) (rest : List Event) :
    join (.segment a) (join (.segment b) rest) = join (.segment (a ++ b)) rest := by
  rcases rest with - | ⟨e, rest⟩
  · rfl
  cases e <;> simp [join]

theorem foldr_join (more : List Event) (e : Event) (events : List Event) :
    (join e events).foldr join more = join e (events.foldr join more) := by
  cases e with
  | segment a =>
    rcases events with - | ⟨e, rest⟩
    · rfl
    cases e with
    | segment b => exact (join_join a b _).symm
    | _ => rfl
  | _ => rfl

theorem merge_append (events more : List Event) :
    merge (events ++ more) = (merge events).foldr join (merge more) := by
  induction events with
  | nil => rfl
  | cons e events ih =>
    show join e (merge (events ++ more)) = _
    rw [ih, ← foldr_join]
    rfl

theorem merge_congr {events events' more more' : List Event} (h : merge events = merge events')
    (h' : merge more = merge more') : merge (events ++ more) = merge (events' ++ more') := by
  rw [merge_append, merge_append, h, h']

/-- The sink cannot tell how a payload was cut into fragments. -/
def Sink.Deterministic (sink : Sink) : Prop :=
  ∀ events events', merge events = merge events' →
    sink.onLen events = sink.onLen events' ∧ sink.onEvent events = sink.onEvent events'

def Sink.NeverBreaks (sink : Sink) : Prop :=
  ∀ events, sink.onLen events ≠ none ∧ sink.onEvent events = false

/-! ## Alike states -/

/-- Equal but for how the fragments delivered were cut. -/
def State.Alike (s t : State) : Prop :=
  s.parser = t.parser ∧ s.chunk = t.chunk ∧ merge s.seen = merge t.seen

/-- Results that agree in verdict and events, and go on alike where they go on. -/
def AlikeEnd (r r' : State × Ended) : Prop :=
  r.2 = r'.2 ∧ merge r.1.seen = merge r'.1.seen ∧ (r.2 = .more → r.1.Alike r'.1)

def AlikeFlow : Flow → Flow → Prop
  | .next s, .next t => s.Alike t
  | .halt r, .halt r' => AlikeEnd r r'
  | _, _ => False

theorem State.Alike.refl (s : State) : s.Alike s := ⟨rfl, rfl, rfl⟩

theorem State.Alike.symm {s t : State} (h : s.Alike t) : t.Alike s :=
  ⟨h.1.symm, h.2.1.symm, h.2.2.symm⟩

theorem AlikeEnd.refl (r : State × Ended) : AlikeEnd r r := ⟨rfl, rfl, fun _ => .refl _⟩

theorem AlikeEnd.trans {r r' r'' : State × Ended} (h : AlikeEnd r r') (h' : AlikeEnd r' r'') :
    AlikeEnd r r'' := by
  refine ⟨h.1.trans h'.1, h.2.1.trans h'.2.1, fun hm => ?_⟩
  obtain ⟨hp, hc, hs⟩ := h.2.2 hm
  obtain ⟨hp', hc', hs'⟩ := h'.2.2 (h.1 ▸ hm)
  exact ⟨hp.trans hp', hc.trans hc', hs.trans hs'⟩

theorem AlikeEnd.symm {r r' : State × Ended} (h : AlikeEnd r r') : AlikeEnd r' r :=
  ⟨h.1.symm, h.2.1.symm, fun hm => (h.2.2 (h.1.trans hm)).symm⟩

theorem AlikeFlow.refl (f : Flow) : AlikeFlow f f := by
  cases f with
  | next s => exact State.Alike.refl s
  | halt r => exact AlikeEnd.refl r

/-- Alike but for the resume position. -/
structure State.Close (s t : State) : Prop where
  pump : s.parser.pump = t.parser.pump
  stack : s.parser.stack = t.parser.stack
  depth : s.parser.depth = t.parser.depth
  chunk : s.chunk = t.chunk
  seen : merge s.seen = merge t.seen

theorem State.Alike.close {s t : State} (h : s.Alike t) : s.Close t := by
  obtain ⟨hp, hc, hs⟩ := h
  exact ⟨by rw [hp], by rw [hp], by rw [hp], hc, hs⟩

/-- Close states are alike once their resume position is set. -/
theorem State.Close.alike {s t : State} (h : s.Close t) (hm : s.parser.mode = t.parser.mode) :
    s.Alike t := by
  rcases s with ⟨⟨p, m, st, d⟩, c, l⟩
  rcases t with ⟨⟨p', m', st', d'⟩, c', l'⟩
  obtain ⟨hp, hst, hd, hc, hs⟩ := h
  exact ⟨by simp_all, hc, hs⟩

section Alike

variable {sink : Sink}

theorem tell_eq (hb : sink.NeverBreaks) (s : State) (e : Event) :
    s.tell sink e = .next { s with seen := s.seen ++ [e] } := by
  simp [State.tell, (hb _).2]

theorem tell_alike (hb : sink.NeverBreaks) {s t : State} (h : s.Alike t) (e : Event) :
    AlikeFlow (s.tell sink e) (t.tell sink e) := by
  rw [tell_eq hb, tell_eq hb]
  exact ⟨h.1, h.2.1, merge_congr h.2.2 rfl⟩

theorem more_alike {s t : State} (h : s.Alike t) :
    AlikeFlow (.halt (s, .more)) (.halt (t, .more)) :=
  ⟨rfl, h.2.2, fun _ => h⟩

theorem fault_alike {s t : State} (h : merge s.seen = merge t.seen) (fault : Fault) :
    AlikeFlow (.halt (s, .fault fault)) (.halt (t, .fault fault)) :=
  ⟨rfl, h, nofun⟩

theorem halt_alike {s t : State} (h : merge s.seen = merge t.seen) (pos : Nat) (kind : FaultKind) :
    AlikeFlow (s.halt pos kind) (t.halt pos kind) :=
  ⟨rfl, h, nofun⟩

theorem readWord_close {w : Window} {stage : Stage} {suspend : Mode} {s t : State}
    {handle handle' : Nat → State → Flow} (h : s.Close t)
    (hh : ∀ word pump chunk, AlikeFlow
      (handle word { s with parser.pump := pump, chunk := chunk })
      (handle' word { t with parser.pump := pump, chunk := chunk })) :
    AlikeFlow (readWord w stage suspend s handle) (readWord w stage suspend t handle') := by
  obtain ⟨hp, hst, hd, hc, hs⟩ := h
  simp only [readWord, hp, hc]
  rcases t.parser.pump.step w t.chunk with ⟨v, pump, chunk⟩
  cases v with
  | done word => exact hh word pump chunk
  | more =>
    refine ⟨rfl, hs, fun _ => ⟨?_, rfl, hs⟩⟩
    simp only [hst, hd]
  | cut | tooWide | nonMinimal | outOfClass =>
    simp only [readWord.haltAt, State.haltRead, State.haltPadded, State.halt, AlikeFlow]
    exact ⟨rfl, hs, fun e => by cases e⟩

theorem admitLen_close (hd : sink.Deterministic) (hb : sink.NeverBreaks) {s t : State}
    (h : s.Close t) (field : FieldNumber) (len : PayloadLen) :
    AlikeFlow (admitLen sink field len s) (admitLen sink field len t) := by
  obtain ⟨hp, hst, hdp, hc, hs⟩ := h
  have hlog := fun e => merge_congr hs (rfl : merge [e] = merge [e])
  simp only [admitLen, hp, hst, hdp]
  split
  case isTrue =>
    rw [(hd _ _ (hlog _)).1]
    split
    case h_1 e => exact absurd e (hb _).1
    case h_2 =>
      split
      · exact halt_alike (hlog _) _ _
      · exact State.Close.alike ⟨rfl, rfl, rfl, hc, hlog _⟩ rfl
    all_goals exact State.Close.alike ⟨rfl, rfl, rfl, hc, hlog _⟩ rfl
  case isFalse =>
    split <;> exact halt_alike hs _ _

theorem varintValue_close (hb : sink.NeverBreaks) {s t : State} (h : s.Close t)
    (field : FieldNumber) : AlikeFlow (varintValue sink field s) (varintValue sink field t) :=
  readWord_close h fun _ _ _ =>
    tell_alike hb (by exact State.Close.alike ⟨rfl, h.stack, h.depth, rfl, h.seen⟩ rfl) _

theorem lenWord_close (hd : sink.Deterministic) (hb : sink.NeverBreaks) {s t : State}
    (h : s.Close t) (field : FieldNumber) :
    AlikeFlow (lenWord sink field s) (lenWord sink field t) :=
  readWord_close h fun _ _ _ =>
    admitLen_close hd hb (by exact ⟨rfl, h.stack, h.depth, rfl, h.seen⟩) _ _

theorem fixedTail_close (hb : sink.NeverBreaks) {s t : State} (h : s.Close t)
    (field : FieldNumber) (kind : FixedKind) :
    AlikeFlow (fixedTail sink field kind s) (fixedTail sink field kind t) := by
  obtain ⟨hp, hst, hd, hc, hs⟩ := h
  simp only [fixedTail, hp, hc]
  cases t.parser.pump.grabFixed kind.need t.chunk with
  | whole bytes pump chunk =>
    exact tell_alike hb (by exact State.Close.alike ⟨rfl, hst, hd, rfl, hs⟩ rfl) _
  | more pump chunk =>
    exact ⟨rfl, hs, fun _ => State.Close.alike ⟨rfl, hst, hd, rfl, hs⟩ rfl⟩
  | unreachable => exact ⟨rfl, hs, nofun⟩

theorem groupEnd_alike (hb : sink.NeverBreaks) {s t : State} (h : s.Alike t)
    (ending : FieldNumber) (pos : Nat) :
    AlikeFlow (groupEnd sink s ending pos) (groupEnd sink t ending pos) := by
  obtain ⟨hp, hc, hs⟩ := h
  simp only [groupEnd, hp]
  split
  · exact halt_alike hs _ _
  · exact halt_alike hs _ _
  · split
    · exact halt_alike hs _ _
    · exact tell_alike hb (by exact ⟨rfl, hc, hs⟩) _

theorem classifyHead_alike (hd : sink.Deterministic) (hb : sink.NeverBreaks) {s t : State}
    (h : s.Alike t) (start word : Nat) (field : FieldNumber) :
    AlikeFlow (classifyHead sink start word field s) (classifyHead sink start word field t) := by
  have hfixed : ∀ kind, AlikeFlow (classifyHead.admitFixed sink field s kind)
      (classifyHead.admitFixed sink field t kind) := by
    intro kind
    simp only [classifyHead.admitFixed, h.1]
    split
    · exact halt_alike h.2.2 _ _
    · exact fixedTail_close hb h.close field kind
  rw [classifyHead, classifyHead]
  split
  case h_1 => exact varintValue_close hb h.close field
  case h_2 => exact hfixed .i64
  case h_3 => exact hfixed .i32
  case h_4 => exact lenWord_close hd hb h.close field
  case h_5 =>
    rw [h.1]
    split
    · exact halt_alike h.2.2 _ _
    · exact tell_alike hb (by exact ⟨rfl, h.2.1, h.2.2⟩) _
  case h_6 => exact groupEnd_alike hb h field start
  case h_7 => exact halt_alike h.2.2 _ _

theorem head_alike (hd : sink.Deterministic) (hb : sink.NeverBreaks) {s t : State}
    (h : s.Alike t) : AlikeFlow (head sink s) (head sink t) := by
  rw [head, head, h.1]
  refine readWord_close h.close fun word pump chunk => ?_
  cases FieldNumber.fromWord word with
  | none => exact halt_alike (by exact h.2.2) _ _
  | some field =>
    refine classifyHead_alike hd hb ?_ _ _ _
    exact ⟨by simp only [h.1], rfl, h.2.2⟩

theorem dispatch_alike (hd : sink.Deterministic) (hb : sink.NeverBreaks) {s t : State}
    (h : s.Alike t) : AlikeFlow (dispatch sink s) (dispatch sink t) := by
  simp only [dispatch, h.1]
  cases t.parser.mode with
  | head => exact head_alike hd hb h
  | varintValue field => exact varintValue_close hb h.close field
  | lenWord field => exact lenWord_close hd hb h.close field
  | fixedTail field kind => exact fixedTail_close hb h.close field kind
  | forward remaining =>
    simp only [forward, h.1, h.2.1]
    exact tell_alike hb (by exact ⟨rfl, rfl, h.2.2⟩) _
  | swallow remaining =>
    simp only [swallow, h.1, h.2.1]
    exact ⟨rfl, rfl, h.2.2⟩

end Alike

/-! ## The machine's invariant -/

/-- Shadowed endpoints enclose the live one; under no LEN lies the root zone. -/
def Sealed : Nat → List Extent → Prop
  | zone, [] => zone = u64Max
  | zone, .group _ :: stack => Sealed zone stack
  | zone, .len prevZone _ :: stack => zone ≤ prevZone ∧ Sealed prevZone stack

/-- What each resume position promises of the pump. -/
def Mode.Holds : Mode → Pump → Prop
  | .head, pump | .varintValue _, pump | .lenWord _, pump => pump.Ready
  | .fixedTail _ kind, pump => pump.Collecting kind.need
  | .forward remaining, pump | .swallow remaining, pump =>
    pump.carry = .empty ∧ 0 < remaining ∧ pump.off + remaining ≤ pump.zone

/-- A drive of a stream whose offset reaches `total` at this chunk's end. -/
structure Core (total : Nat) (s : State) : Prop where
  sealed : Sealed s.parser.pump.zone s.parser.stack
  reach : s.parser.pump.off + s.chunk.length = total
  armed : s.parser.pump.terminal = true

structure Inv (total : Nat) (s : State) : Prop extends Core total s where
  mode : s.parser.mode.Holds s.parser.pump

def State.supply (s : State) (more : List UInt8) : State := { s with chunk := s.chunk ++ more }

@[simp] theorem parser_supply (s : State) (more : List UInt8) :
    (s.supply more).parser = s.parser := rfl

@[simp] theorem chunk_supply (s : State) (more : List UInt8) :
    (s.supply more).chunk = s.chunk ++ more := rfl

@[simp] theorem seen_supply (s : State) (more : List UInt8) : (s.supply more).seen = s.seen := rfl

/-- What an arm's result on a chunk says of the same arm with `more` behind the chunk. -/
def Law (sink : Sink) (total n : Nat) (out : Flow) (later : List UInt8 → Flow) : Prop :=
  match out with
  | .next s => Inv total s ∧ s.chunk.length < n ∧ ∀ more,
      AlikeFlow (later more) (.next (s.supply more)) ∨
      -- a payload's fragment ends with the chunk: the later arm delivers a longer one
      more ≠ [] ∧ s.chunk = [] ∧ s.parser.atEndpoint = false ∧
        AlikeFlow (later more) (dispatch sink (s.supply more))
  | .halt (s, .more) => Inv total s ∧ s.chunk = [] ∧ s.parser.atEndpoint = false ∧
      ∀ more, AlikeFlow (later more) (dispatch sink (s.supply more))
  | .halt (s, .fault fault) => ∀ more, ∃ s', later more = .halt (s', .fault fault) ∧
      merge s'.seen = merge s.seen
  | .halt (_, .stopped) => False
  | .halt (_, .unreachable) => False

theorem law_halt {sink : Sink} {total n : Nat} (s : State) (pos : Nat) (kind : FaultKind) :
    Law sink total n (s.halt pos kind) fun more => (s.supply more).halt pos kind :=
  fun _ => ⟨_, rfl, rfl⟩

theorem law_tell {sink : Sink} (hb : sink.NeverBreaks) {total n : Nat} {s : State}
    (hs : Inv total s) (hn : s.chunk.length < n) (e : Event) :
    Law sink total n (s.tell sink e) fun more => (s.supply more).tell sink e := by
  simp only [tell_eq hb]
  exact ⟨⟨⟨hs.sealed, hs.reach, hs.armed⟩, hs.mode⟩, hn, fun more => .inl (.refl _)⟩

/-! ## Words -/

section Words

variable {sink : Sink} {total : Nat} {w : Window} {stage : Stage} {suspend : Mode} {s : State}

/-- The state behind a completed word. -/
def State.took (s : State) (word rest : List UInt8) : State := { s with
  parser.pump.off := s.parser.pump.constructStart + word.length
  parser.pump.carry := .empty
  chunk := rest }

/-- The state a word the chunk cut short leaves. -/
def State.suspended (s : State) (held : List UInt8) (suspend : Mode) : State := { s with
  parser.pump.off := s.parser.pump.off + s.chunk.length
  parser.pump.carry := ⟨value held, held⟩
  parser.mode := suspend
  chunk := [] }

theorem took_spec (hc : Core total s) (hp : s.parser.pump.Ready) {word rest : List UInt8}
    (h : s.parser.pump.outcome w s.chunk = .done word rest) :
    Core total (s.took word rest) ∧ (s.took word rest).parser.pump.Ready ∧
      rest.length < s.chunk.length := by
  have hsplit := resume_split w.cap w.last s.parser.pump.carry.bytes
    (s.parser.pump.zone - s.parser.pump.off) s.chunk
  rw [← Pump.outcome, h] at hsplit
  obtain ⟨he, hlt, hroom, -⟩ := hsplit
  have hlen := congrArg List.length he
  simp only [List.length_append] at hlen
  have hh := hp.held
  have hi := hp.inside
  have hr := hc.reach
  refine ⟨⟨hc.sealed, ?_, hc.armed⟩, ⟨rfl, Nat.zero_le _, ?_⟩, by omega⟩
  · simp only [State.took, Pump.constructStart]; omega
  · simp only [State.took, Pump.constructStart]; omega

theorem suspended_spec (hc : Core total s) (hp : s.parser.pump.Ready) {held : List UInt8}
    (h : s.parser.pump.outcome w s.chunk = .more held) (suspend : Mode) :
    Core total (s.suspended held suspend) ∧ (s.suspended held suspend).parser.pump.Ready ∧
      (s.suspended held suspend).parser.atEndpoint = false := by
  obtain ⟨rfl, hroom, -⟩ := resume_more h
  have hh := hp.held
  have hr := hc.reach
  refine ⟨⟨hc.sealed, ?_, hc.armed⟩, ⟨rfl, ?_, ?_⟩, ?_⟩
  · simp only [State.suspended, List.length_nil]; omega
  · simp only [State.suspended, List.length_append]; omega
  · simp only [State.suspended]; omega
  · have : s.parser.pump.off + s.chunk.length ≠ s.parser.pump.zone := by omega
    simp [Parser.atEndpoint, State.suspended, this]

theorem wordFault_behind (standard : Standard) (zone start : Nat) (o : Outcome)
    (more : List UInt8) : wordFault w standard stage zone start (o.behind more) =
      wordFault w standard stage zone start o := by
  cases o <;> rfl

theorem outcome_suspended (suspend : Mode) {held : List UInt8}
    (h : s.parser.pump.outcome w s.chunk = .more held) (more : List UInt8) :
    s.parser.pump.outcome w (s.chunk ++ more) =
      (s.suspended held suspend).parser.pump.outcome w more := by
  rw [Pump.outcome_append, h]
  rfl

/-- A word resumed is the word read whole. -/
theorem readWord_resume (stage : Stage) (hw : w.Fits) (hc : Core total s) (hp : s.parser.pump.Ready)
    {handle : Nat → State → Flow}
    {held : List UInt8} (h : s.parser.pump.outcome w s.chunk = .more held)
    (hh : ∀ word u v, u.Close v → u.parser.mode = s.parser.mode → v.parser.mode = suspend →
      AlikeFlow (handle word u) (handle word v)) (more : List UInt8) :
    AlikeFlow (readWord w stage suspend (s.supply more) handle)
      (readWord w stage suspend ((s.suspended held suspend).supply more) handle) := by
  obtain ⟨-, hp', -⟩ := suspended_spec hc hp h suspend
  have ho := outcome_suspended suspend h more
  obtain ⟨hheld, -, -⟩ := resume_more h
  have hh' := hp.held
  have hstart : (s.suspended held suspend).parser.pump.constructStart =
      s.parser.pump.constructStart := by
    simp only [State.suspended, Pump.constructStart, hheld, List.length_append]; omega
  rcases outcome_cases w s.parser.pump.standard stage s.parser.pump.zone
    s.parser.pump.constructStart (s.parser.pump.outcome w (s.chunk ++ more))
    with ⟨word, rest, hd, hm⟩ | ⟨held', hd⟩ | ⟨fault, hf⟩
  · rw [readWord_done hw hp (s := s.supply more) hd hm,
      readWord_done hw hp' (s := (s.suspended held suspend).supply more)
        ((ho.symm.trans hd : _)) hm]
    refine hh _ _ _ ⟨?_, rfl, rfl, rfl, rfl⟩ rfl rfl
    simp only [parser_supply, hstart]
    rfl
  · rw [readWord_more hw hp (s := s.supply more) hd,
      readWord_more hw hp' (s := (s.suspended held suspend).supply more) (ho.symm.trans hd : _)]
    refine more_alike (State.Close.alike ⟨?_, rfl, rfl, rfl, rfl⟩ rfl)
    simp [State.suspended, Nat.add_assoc]
  · obtain ⟨s₁, e₁, hs₁⟩ := readWord_refused suspend handle hw hp
      (s := s.supply more) hf
    obtain ⟨s₂, e₂, hs₂⟩ := readWord_refused suspend handle hw hp'
      (s := (s.suspended held suspend).supply more) (by
        simp only [parser_supply, hstart]
        rw [ho] at hf
        exact hf)
    rw [e₁, e₂]
    exact fault_alike (by rw [hs₁, hs₂]; rfl) fault

/-- The law of a word's arm, from its handler's. -/
theorem readWord_law (hw : w.Fits) (hc : Core total s) (hp : s.parser.pump.Ready) {n : Nat}
    {handle : Nat → State → Flow}
    (hdone : ∀ word rest, s.parser.pump.outcome w s.chunk = .done word rest →
      Law sink total n (handle (value word) (s.took word rest))
        fun more => handle (value word) ((s.took word rest).supply more))
    (hholds : ∀ pump, suspend.Holds pump ↔ pump.Ready)
    (hh : ∀ word u v, u.Close v → u.parser.mode = s.parser.mode → v.parser.mode = suspend →
      AlikeFlow (handle word u) (handle word v))
    (hresume : ∀ t : State, t.parser.mode = suspend →
      t.parser.pump.constructStart = s.parser.pump.constructStart →
      dispatch sink t = readWord w stage suspend t handle) :
    Law sink total n (readWord w stage suspend s handle)
      fun more => readWord w stage suspend (s.supply more) handle := by
  have hh' := hp.held
  rcases outcome_cases w s.parser.pump.standard stage s.parser.pump.zone
    s.parser.pump.constructStart (s.parser.pump.outcome w s.chunk)
    with ⟨word, rest, hd, hm⟩ | ⟨held, hd⟩ | ⟨fault, hf⟩
  · have hlater : ∀ more, readWord w stage suspend (s.supply more) handle =
        handle (value word) ((s.took word rest).supply more) := by
      intro more
      have h : (s.supply more).parser.pump.outcome w (s.supply more).chunk =
          .done word (rest ++ more) := ?_
      · exact readWord_done hw hp (s := s.supply more) h hm
      simp only [parser_supply, chunk_supply, Pump.outcome_append, hd, Outcome.behind]
    simp only [readWord_done hw hp hd hm, hlater]
    exact hdone word rest hd
  · obtain ⟨hc', hp', hat⟩ := suspended_spec hc hp hd suspend
    rw [readWord_more hw hp hd]
    refine ⟨⟨hc', (hholds _).mpr hp'⟩, rfl, hat, fun more => ?_⟩
    obtain ⟨hheld, -, -⟩ := resume_more hd
    have hstart : (s.suspended held suspend).parser.pump.constructStart =
        s.parser.pump.constructStart := by
      simp only [State.suspended, Pump.constructStart, hheld, List.length_append]; omega
    have := readWord_resume stage hw hc hp hd hh more
    rw [← hresume ((s.suspended held suspend).supply more) rfl hstart] at this
    exact this
  · obtain ⟨s', e, hs'⟩ := readWord_refused suspend handle hw hp hf
    rw [e]
    intro more
    have hf' : wordFault w (s.supply more).parser.pump.standard stage
        (s.supply more).parser.pump.zone (s.supply more).parser.pump.constructStart
        ((s.supply more).parser.pump.outcome w (s.supply more).chunk) = some fault := by
      simp only [parser_supply, chunk_supply, Pump.outcome_append]
      cases ho : s.parser.pump.outcome w s.chunk with
      | more held => simp [ho, wordFault] at hf
      | _ => rw [ho] at hf; simpa only [wordFault_behind] using hf
    obtain ⟨s'', e', hs''⟩ := readWord_refused suspend handle hw hp (s := s.supply more) hf'
    exact ⟨s'', e', by rw [hs', hs'']; rfl⟩

end Words

/-! ## The arms -/

section Arms

variable {sink : Sink} {total n : Nat} {s : State}

theorem Core.of_same {t : State} (h : Core total s)
    (hz : t.parser.pump.zone = s.parser.pump.zone) (ho : t.parser.pump.off = s.parser.pump.off)
    (ht : t.parser.pump.terminal = s.parser.pump.terminal)
    (hst : Sealed s.parser.pump.zone t.parser.stack) (hk : t.chunk = s.chunk) : Core total t :=
  ⟨hz ▸ hst, by rw [ho, hk]; exact h.reach, ht.trans h.armed⟩

theorem varintValue_law (hb : sink.NeverBreaks) (hc : Core total s) (hp : s.parser.pump.Ready)
    (hn : s.chunk.length ≤ n) (field : FieldNumber) :
    Law sink total n (varintValue sink field s)
      fun more => varintValue sink field (s.supply more) := by
  refine readWord_law Window.value_fits hc hp ?_ (fun _ => Iff.rfl) ?_ ?_
  · intro word rest h
    obtain ⟨hc', hp', hlt⟩ := took_spec hc hp h
    refine law_tell hb (s := { s.took word rest with parser.mode := .head }) ?_ ?_ _
    · exact ⟨hc'.of_same rfl rfl rfl hc'.sealed rfl, hp'⟩
    · exact Nat.lt_of_lt_of_le hlt hn
  · intro word u v huv _ _
    exact tell_alike hb (by exact State.Close.alike ⟨huv.1, huv.2, huv.3, huv.4, huv.5⟩ rfl) _
  · intro t ht _
    simp only [dispatch, ht]
    rfl

/-- LEN admission reads no byte of the chunk. -/
theorem admitLen_law (hb : sink.NeverBreaks) (hc : Core total s)
    (hp : s.parser.pump.Ready) (hempty : s.parser.pump.carry = .empty) (hn : s.chunk.length < n)
    (field : FieldNumber) (len : PayloadLen) :
    Law sink total n (admitLen sink field len s)
      fun more => admitLen sink field len (s.supply more) := by
  have hi := hp.inside
  simp only [admitLen, parser_supply, seen_supply]
  by_cases hstop : s.parser.pump.off + len.asInner ≤ s.parser.pump.zone ∧
      s.parser.pump.off + len.asInner < u64Max
  case neg =>
    simp only [hstop, if_false]
    by_cases hroot : s.parser.pump.zone ≠ u64Max
    · simp only [hroot, ne_eq, not_false_eq_true, if_true]
      exact law_halt s _ _
    · simp only [hroot, if_false]
      exact law_halt s _ _
  case pos =>
    simp only [hstop, and_self, if_true]
    cases hon : sink.onLen (s.seen ++ [.len field len s.parser.pump.off]) with
    | none => exact absurd hon (hb _).1
    | some disposition =>
      cases disposition with
      | commit =>
        by_cases hdepth : s.parser.depth.asInner ≤ s.parser.stack.length
        · simp only [hdepth, if_true]
          exact law_halt { s with seen := _ } _ _
        · simp only [hdepth, if_false]
          refine ⟨⟨⟨⟨hstop.1, hc.sealed⟩, hc.reach, hc.armed⟩, ?_⟩, hn, fun _ => .inl (.refl _)⟩
          exact ⟨hp.acc, hp.held, Nat.le_add_right _ _⟩
      | opaqueBytes | opaqueSkip =>
        refine ⟨⟨hc.of_same rfl rfl rfl hc.sealed rfl, ?_⟩, hn, fun _ => .inl (.refl _)⟩
        by_cases h0 : len.asInner = 0
        · simp only [h0, if_true]
          exact hp
        · simp only [h0, if_false]
          exact ⟨hempty, by omega, hstop.1⟩

theorem lenWord_law (hd : sink.Deterministic) (hb : sink.NeverBreaks) (hc : Core total s)
    (hp : s.parser.pump.Ready) (hn : s.chunk.length ≤ n) (field : FieldNumber) :
    Law sink total n (lenWord sink field s) fun more => lenWord sink field (s.supply more) := by
  refine readWord_law Window.len_fits hc hp ?_ (fun _ => Iff.rfl) ?_ ?_
  · intro word rest h
    obtain ⟨hc', hp', hlt⟩ := took_spec hc hp h
    exact admitLen_law hb hc' hp' rfl (Nat.lt_of_lt_of_le hlt hn) field _
  · intro word u v huv _ _
    exact admitLen_close hd hb huv field _
  · intro t ht _
    simp only [dispatch, ht]
    rfl

theorem fixedTail_law (hb : sink.NeverBreaks) (hc : Core total s) (field : FieldNumber)
    (kind : FixedKind) (hp : s.parser.pump.Collecting kind.need) (hn : s.chunk.length ≤ n) :
    Law sink total n (fixedTail sink field kind s)
      fun more => fixedTail sink field kind (s.supply more) := by
  have hreach := hc.reach
  have hshort := hp.short
  have hadm := hp.admitted
  have hheld := hp.held
  simp only [fixedTail, parser_supply, chunk_supply, Pump.grabFixed_eq hp]
  by_cases hwhole : kind.need ≤ s.parser.pump.carry.bytes.length + s.chunk.length
  · have hlater : ∀ more : List UInt8, kind.need ≤
        s.parser.pump.carry.bytes.length + (s.chunk ++ more).length := by
      intro more; rw [List.length_append]; omega
    simp only [hwhole, hlater, if_true]
    have hdrop : ∀ more : List UInt8,
        (s.chunk ++ more).drop (kind.need - s.parser.pump.carry.bytes.length) =
          s.chunk.drop (kind.need - s.parser.pump.carry.bytes.length) ++ more := fun more =>
      List.drop_append_of_le_length (by omega)
    have htake : ∀ more : List UInt8,
        (s.parser.pump.carry.bytes ++ (s.chunk ++ more)).take kind.need =
          (s.parser.pump.carry.bytes ++ s.chunk).take kind.need := by
      intro more
      rw [← List.append_assoc, List.take_append_of_le_length (by rw [List.length_append]; omega)]
    simp only [hdrop, htake]
    refine law_tell hb (s := { s with
      parser.pump.off := s.parser.pump.off + (kind.need - s.parser.pump.carry.bytes.length)
      parser.pump.carry := .empty
      parser.mode := .head
      chunk := s.chunk.drop (kind.need - s.parser.pump.carry.bytes.length) }) ?_ ?_ _
    · refine ⟨⟨hc.sealed, ?_, hc.armed⟩, ⟨rfl, Nat.zero_le _, ?_⟩⟩
      · simp only [List.length_drop]; omega
      · simp only; omega
    · simp only [List.length_drop]; omega
  · simp only [hwhole, if_false]
    have hcollect : Pump.Collecting { s.parser.pump with
        off := s.parser.pump.off + s.chunk.length
        carry := ⟨0, s.parser.pump.carry.bytes ++ s.chunk⟩ } kind.need :=
      ⟨rfl, by simp only [List.length_append]; omega, by simp only [List.length_append]; omega,
        by simp only [List.length_append]; omega⟩
    refine ⟨⟨⟨hc.sealed, ?_, hc.armed⟩, hcollect⟩, rfl, ?_, fun more => ?_⟩
    · simpa using hreach
    · simp [Parser.atEndpoint]
    · simp only [dispatch, fixedTail, State.supply, Pump.grabFixed_eq hcollect,
        List.nil_append, List.length_append, List.append_assoc, Nat.add_assoc]
      by_cases hrest : kind.need ≤
          s.parser.pump.carry.bytes.length + (s.chunk.length + more.length)
      · simp only [hrest, if_true]
        have hdrop : (s.chunk ++ more).drop (kind.need - s.parser.pump.carry.bytes.length) =
            more.drop (kind.need -
              (s.parser.pump.carry.bytes.length + s.chunk.length)) := by
          rw [List.drop_append, List.drop_of_length_le (by omega), List.nil_append, Nat.sub_sub]
        have hoff : s.chunk.length + (kind.need -
            (s.parser.pump.carry.bytes.length + s.chunk.length)) =
            kind.need - s.parser.pump.carry.bytes.length := by omega
        simp only [hdrop, hoff]
        exact .refl _
      · simp only [hrest, if_false]
        exact .refl _

/-- A counting mode spends the chunk up to what it owes. -/
def State.spend (s : State) (remaining : Nat) (again : Nat → Mode) (events : List Event) : State :=
  let take := min remaining s.chunk.length
  { s with
    parser.pump.off := s.parser.pump.off + take
    parser.mode := if remaining - take = 0 then .head else again (remaining - take)
    chunk := s.chunk.drop take
    seen := s.seen ++ events }

theorem spend_spec (hs : Inv total s) {remaining : Nat} {again : Nat → Mode}
    (hm : s.parser.mode = again remaining)
    (hagain : ∀ r pump, (again r).Holds pump ↔
      pump.carry = .empty ∧ 0 < r ∧ pump.off + r ≤ pump.zone)
    (hchunk : s.chunk ≠ []) (events : List Event) :
    Inv total (s.spend remaining again events) ∧
      (s.spend remaining again events).chunk.length < s.chunk.length := by
  have hmode := hs.mode
  rw [hm, hagain] at hmode
  obtain ⟨hempty, hpos, hin⟩ := hmode
  have hreach := hs.reach
  have hlen := List.length_pos_iff.mpr hchunk
  refine ⟨⟨⟨hs.sealed, ?_, hs.armed⟩, ?_⟩, ?_⟩
  · simp only [State.spend, List.length_drop]; omega
  · simp only [State.spend]
    split
    · exact ⟨by simp [hempty, Varint.Carry.empty], by simp [hempty, Varint.Carry.empty],
        by simp only; omega⟩
    · exact (hagain _ _).mpr ⟨hempty, by omega, by simp only; omega⟩
  · simp only [State.spend, List.length_drop]; omega

/-- A longer chunk is spent the same where the debt ends inside the first. -/
theorem spend_supply {remaining : Nat} (again : Nat → Mode) (events : List Event)
    (h : remaining ≤ s.chunk.length) (more : List UInt8) :
    (s.supply more).spend remaining again events =
      (s.spend remaining again events).supply more := by
  have htake : min remaining s.chunk.length = remaining := by omega
  have htake' : min remaining (s.chunk ++ more).length = remaining := by
    rw [List.length_append]; omega
  simp only [State.spend, State.supply, htake, htake', List.drop_append_of_le_length h]

/-- Where the debt outlasts the chunk, the longer chunk is spent in one go or in two. -/
theorem spend_resume {remaining : Nat} (again : Nat → Mode) (events events' : List Event)
    (h : s.chunk.length < remaining) (more : List UInt8) :
    (s.supply more).spend remaining again (events ++ events') =
      ((s.spend remaining again events).supply more).spend (remaining - s.chunk.length) again
        events' := by
  have htake : min remaining s.chunk.length = s.chunk.length := by omega
  have htake' : min remaining (s.chunk ++ more).length =
      s.chunk.length + min (remaining - s.chunk.length) more.length := by
    rw [List.length_append]; omega
  simp only [State.spend, State.supply, htake, htake', List.drop_length_add_append,
    List.drop_length, List.nil_append, Nat.add_assoc, Nat.sub_sub, List.append_assoc]

theorem spend_nil {remaining : Nat} (again : Nat → Mode) (events : List Event)
    (h : s.chunk.length < remaining) :
    (s.spend remaining again events).chunk = [] ∧
      (s.spend remaining again events).parser.mode = again (remaining - s.chunk.length) := by
  have htake : min remaining s.chunk.length = s.chunk.length := by omega
  simp only [State.spend, htake, List.drop_length, true_and]
  rw [if_neg (by omega)]

theorem forward_eq (hb : sink.NeverBreaks) (remaining : Nat) (s : State) :
    forward sink remaining s = .next (s.spend remaining .forward
      [.segment (s.chunk.take (min remaining s.chunk.length))]) := by
  rw [forward, tell_eq hb]
  rfl

theorem swallow_eq (remaining : Nat) (s : State) :
    swallow remaining s = .next (s.spend remaining .swallow []) := by
  simp [swallow, State.spend]

theorem forward_law (hb : sink.NeverBreaks) {remaining : Nat} (hs : Inv total s)
    (hm : s.parser.mode = .forward remaining) (hchunk : s.chunk ≠ []) :
    Law sink total s.chunk.length (forward sink remaining s)
      fun more => forward sink remaining (s.supply more) := by
  obtain ⟨hinv, hlt⟩ := spend_spec hs hm (fun _ _ => Iff.rfl) hchunk
    [.segment (s.chunk.take (min remaining s.chunk.length))]
  simp only [forward_eq hb]
  refine ⟨hinv, hlt, fun more => ?_⟩
  rcases Nat.lt_or_ge s.chunk.length remaining with hmid | hend
  · cases more with
    | nil => exact .inl (by simpa [State.supply] using .refl _)
    | cons b more =>
      -- the fragment goes on into `more`: its halves join
      obtain ⟨hnil, hmode⟩ := spend_nil (s := s) .forward
        [.segment (s.chunk.take (min remaining s.chunk.length))] hmid
      refine .inr ⟨nofun, hnil, by simp [Parser.atEndpoint, hmode], ?_⟩
      simp only [dispatch, parser_supply, hmode, forward_eq hb, ← spend_resume _ _ _ hmid]
      refine ⟨rfl, rfl, merge_congr (rfl : merge s.seen = merge s.seen) ?_⟩
      have htake : min remaining s.chunk.length = s.chunk.length := by omega
      have htake' : min remaining (s.chunk ++ b :: more).length =
          s.chunk.length + min (remaining - s.chunk.length) (b :: more).length := by
        rw [List.length_append]; omega
      simp only [chunk_supply, hnil, List.nil_append]
      simp only [htake, htake', List.take_length, List.take_length_add_append]
      rfl
  · left
    have htake : (s.chunk ++ more).take (min remaining (s.chunk ++ more).length) =
        s.chunk.take (min remaining s.chunk.length) := by
      rw [Nat.min_eq_left hend, Nat.min_eq_left (by rw [List.length_append]; omega),
        List.take_append_of_le_length hend]
    simp only [chunk_supply, htake, spend_supply _ _ hend]
    exact .refl _

theorem swallow_law {remaining : Nat} (hs : Inv total s)
    (hm : s.parser.mode = .swallow remaining) (hchunk : s.chunk ≠ []) :
    Law sink total s.chunk.length (swallow remaining s)
      fun more => swallow remaining (s.supply more) := by
  obtain ⟨hinv, hlt⟩ := spend_spec hs hm (fun _ _ => Iff.rfl) hchunk []
  simp only [swallow_eq]
  refine ⟨hinv, hlt, fun more => ?_⟩
  rcases Nat.lt_or_ge s.chunk.length remaining with hmid | hend
  · cases more with
    | nil => exact .inl (by simpa [State.supply] using .refl _)
    | cons b more =>
      obtain ⟨hnil, hmode⟩ := spend_nil (s := s) .swallow [] hmid
      refine .inr ⟨nofun, hnil, by simp [Parser.atEndpoint, hmode], ?_⟩
      simp only [dispatch, parser_supply, hmode, swallow_eq, ← spend_resume _ _ _ hmid]
      exact .refl _
  · left
    simp only [spend_supply _ _ hend]
    exact .refl _

theorem groupEnd_law (hb : sink.NeverBreaks) (hc : Core total s) (hp : s.parser.pump.Ready)
    (hm : s.parser.mode = .head) (hn : s.chunk.length < n) (ending : FieldNumber) (pos : Nat) :
    Law sink total n (groupEnd sink s ending pos)
      fun more => groupEnd sink (s.supply more) ending pos := by
  simp only [groupEnd, parser_supply]
  cases hst : s.parser.stack with
  | nil => exact law_halt s _ _
  | cons extent stack =>
    have hsealed := hc.sealed
    rw [hst] at hsealed
    cases extent with
    | len prevZone field => exact law_halt s _ _
    | group field =>
      by_cases hf : field ≠ ending
      · simp only [hf, ne_eq, not_false_eq_true, if_true]
        exact law_halt s _ _
      · simp only [hf, if_false]
        refine law_tell hb (s := { s with parser.stack := stack }) ?_ hn _
        refine ⟨hc.of_same rfl rfl rfl hsealed rfl, ?_⟩
        rw [hm]
        exact hp

theorem classifyHead_law (hb : sink.NeverBreaks) (hd : sink.Deterministic) (hc : Core total s)
    (hp : s.parser.pump.Ready) (hm : s.parser.mode = .head)
    (hempty : s.parser.pump.carry = .empty) (hn : s.chunk.length < n) (start word : Nat)
    (field : FieldNumber) :
    Law sink total n (classifyHead sink start word field s)
      fun more => classifyHead sink start word field (s.supply more) := by
  have hfixed : ∀ kind : FixedKind, Law sink total n (classifyHead.admitFixed sink field s kind)
      fun more => classifyHead.admitFixed sink field (s.supply more) kind := by
    intro kind
    have hi := hp.inside
    simp only [classifyHead.admitFixed, parser_supply]
    by_cases hz : s.parser.pump.zone - s.parser.pump.off < kind.need
    · simp only [hz, if_true]
      exact law_halt s _ _
    · simp only [hz, if_false]
      have hneed : 0 < kind.need := by cases kind <;> decide
      refine fixedTail_law hb hc field kind ⟨?_, ?_, ?_, ?_⟩ (Nat.le_of_lt hn) <;>
        simp only [hempty, Varint.Carry.empty, List.length_nil] <;> omega
  simp only [classifyHead]
  cases classify (Low3.fromWord word) with
  | record kind =>
    cases kind with
    | varint => exact varintValue_law hb hc hp (Nat.le_of_lt hn) field
    | i64 => exact hfixed .i64
    | i32 => exact hfixed .i32
    | len => exact lenWord_law hd hb hc hp (Nat.le_of_lt hn) field
    | group =>
      simp only [parser_supply]
      by_cases hdepth : s.parser.depth.asInner ≤ s.parser.stack.length
      · simp only [hdepth, if_true]
        exact law_halt s _ _
      · simp only [hdepth, if_false]
        refine law_tell hb (s := { s with
          parser.stack := Extent.group field :: s.parser.stack }) ?_ hn _
        refine ⟨hc.of_same rfl rfl rfl hc.sealed rfl, ?_⟩
        rw [hm]
        exact hp
  | groupEnd => exact groupEnd_law hb hc hp hm hn field start
  | unassigned => exact law_halt s _ _

theorem head_law (hb : sink.NeverBreaks) (hd : sink.Deterministic) (hs : Inv total s)
    (hm : s.parser.mode = .head) :
    Law sink total s.chunk.length (head sink s) fun more => head sink (s.supply more) := by
  have hp : s.parser.pump.Ready := by simpa [hm, Mode.Holds] using hs.mode
  simp only [head, parser_supply]
  refine readWord_law Window.tag_fits hs.toCore hp ?_ (fun _ => by exact Iff.rfl) ?_ ?_
  · intro word rest h
    obtain ⟨hc', hp', hlt⟩ := took_spec hs.toCore hp h
    cases hf : FieldNumber.fromWord (value word) with
    | none => exact law_halt (s.took word rest) _ _
    | some field => exact classifyHead_law hb hd hc' hp' hm rfl hlt _ _ field
  · intro word u v huv hu hv
    cases FieldNumber.fromWord word with
    | none => exact halt_alike huv.seen _ _
    | some field => exact classifyHead_alike hd hb (huv.alike (by rw [hu, hv, hm])) _ _ _
  · intro t ht hstart
    simp only [dispatch, ht, head, hstart]

theorem dispatch_law (hb : sink.NeverBreaks) (hd : sink.Deterministic) (hs : Inv total s)
    (hchunk : s.chunk ≠ []) :
    Law sink total s.chunk.length (dispatch sink s) fun more => dispatch sink (s.supply more) := by
  have hmode := hs.mode
  cases hm : s.parser.mode with
  | head =>
    simp only [dispatch, parser_supply, hm]
    exact head_law hb hd hs hm
  | varintValue field =>
    rw [hm] at hmode
    simp only [dispatch, parser_supply, hm]
    exact varintValue_law hb hs.toCore hmode le_rfl field
  | lenWord field =>
    rw [hm] at hmode
    simp only [dispatch, parser_supply, hm]
    exact lenWord_law hd hb hs.toCore hmode le_rfl field
  | fixedTail field kind =>
    rw [hm] at hmode
    simp only [dispatch, parser_supply, hm]
    exact fixedTail_law hb hs.toCore field kind hmode le_rfl
  | forward remaining =>
    simp only [dispatch, parser_supply, hm]
    exact forward_law hb hs hm hchunk
  | swallow remaining =>
    simp only [dispatch, parser_supply, hm]
    exact swallow_law hs hm hchunk

end Arms

/-! ## Endpoints -/

section Cascade

variable {sink : Sink} {total : Nat}

theorem cascadeFrom_alike (hb : sink.NeverBreaks) {s t : State} (stack : List Extent)
    (h : s.Alike t) : AlikeFlow (cascadeFrom sink s stack) (cascadeFrom sink t stack) := by
  induction stack generalizing s t with
  | nil =>
    simp only [cascadeFrom, h.1]
    split
    · exact ⟨rfl, h.2.2, nofun⟩
    · exact ⟨rfl, h.2.1, h.2.2⟩
  | cons extent stack ih =>
    cases extent with
    | group field =>
      simp only [cascadeFrom, h.1]
      split
      · exact halt_alike (by exact h.2.2) _ _
      · exact ⟨rfl, h.2.1, h.2.2⟩
    | len prevZone field =>
      simp only [cascadeFrom, h.1, (hb _).2]
      split
      · refine ih ⟨rfl, h.2.1, merge_congr h.2.2 rfl⟩
      · exact ⟨rfl, h.2.1, h.2.2⟩

/-- The cascade reads no byte: it leaves the chunk, and no endpoint at the cursor. -/
theorem cascadeFrom_spec (hb : sink.NeverBreaks) (s : State) (stack : List Extent)
    (hs : Inv total { s with parser.stack := stack }) (htop : total < u64Max) :
    (∃ s' : State, (∀ more, cascadeFrom sink (s.supply more) stack = .next (s'.supply more)) ∧
      Inv total s' ∧ s'.parser.atEndpoint = false ∧ s'.chunk = s.chunk) ∨
    ∃ (s' : State) (fault : Fault), ∀ more, cascadeFrom sink (s.supply more) stack =
      .halt (s'.supply more, .fault fault) := by
  induction stack generalizing s with
  | nil =>
    left
    have hat : s.parser.atEndpoint = false := by
      have hz : s.parser.pump.zone = u64Max := hs.sealed
      have hr : s.parser.pump.off + s.chunk.length = total := hs.reach
      have : s.parser.pump.off ≠ s.parser.pump.zone := by omega
      simp [Parser.atEndpoint, this]
    refine ⟨{ s with parser.stack := [] }, fun more => ?_, hs, hat, rfl⟩
    simp only [cascadeFrom, parser_supply, hat]
    rfl
  | cons extent stack ih =>
    cases hat : s.parser.atEndpoint with
    | false =>
      left
      refine ⟨{ s with parser.stack := extent :: stack }, fun more => ?_, hs, hat, rfl⟩
      cases extent <;> simp only [cascadeFrom, parser_supply, hat] <;> rfl
    | true =>
      cases extent with
      | group field =>
        right
        refine ⟨{ s with
          parser.stack := .group field :: stack
          parser.pump.terminal := true }, ⟨s.parser.pump.off, .groupUnclosedAtLenEnd field⟩,
          fun more => ?_⟩
        simp only [cascadeFrom, parser_supply, hat, if_true]
        rfl
      | len prevZone field =>
        have hsealed : s.parser.pump.zone ≤ prevZone ∧ Sealed prevZone stack := hs.sealed
        have hmode : s.parser.mode = .head := by
          simp only [Parser.atEndpoint, Bool.and_eq_true, decide_eq_true_eq] at hat
          exact hat.1.2
        have hp : s.parser.pump.Ready := by
          have := hs.mode
          simp only [hmode] at this
          exact this
        have hnext := ih { s with
          parser.pump.zone := prevZone
          seen := s.seen ++ [.lenExit field s.parser.pump.off] } ⟨⟨hsealed.2, hs.reach, hs.armed⟩, by
            simp only [hmode]
            exact ⟨hp.acc, hp.held, Nat.le_trans hp.inside hsealed.1⟩⟩
        simp only [cascadeFrom, parser_supply, seen_supply, hat, if_true, (hb _).2]
        exact hnext

theorem cascadeFrom_settled {s : State} (h : s.parser.atEndpoint = false) :
    cascadeFrom sink s s.parser.stack = .next s := by
  rcases s with ⟨⟨pump, mode, stack, depth⟩, chunk, seen⟩
  cases stack with
  | nil => simp only [cascadeFrom, h]; rfl
  | cons extent stack => cases extent <;> simp only [cascadeFrom, h] <;> rfl

theorem turn_alike (hd : sink.Deterministic) (hb : sink.NeverBreaks) {s t : State}
    (h : s.Alike t) : AlikeFlow (turn sink s) (turn sink t) := by
  have hc := cascadeFrom_alike hb s.parser.stack h
  simp only [turn, cascade]
  rw [← h.1]
  revert hc
  cases cascadeFrom sink s s.parser.stack with
  | halt r =>
    cases cascadeFrom sink t s.parser.stack with
    | halt r' => exact id
    | next t' => exact False.elim
  | next s' =>
    cases cascadeFrom sink t s.parser.stack with
    | halt r' => exact False.elim
    | next t' =>
      intro hst
      simp only [hst.2.1]
      split
      · exact more_alike hst
      · exact dispatch_alike hd hb hst

end Cascade

/-! ## Runs -/

section Runs

variable {sink : Sink}

theorem yields_alike (hd : sink.Deterministic) (hb : sink.NeverBreaks) {s t : State}
    {r : State × Ended} (h : s.Alike t) (hy : Yields (turn sink) s r) :
    ∃ r', Yields (turn sink) t r' ∧ AlikeEnd r r' := by
  induction hy generalizing t with
  | halt e =>
    have := turn_alike hd hb h
    rw [e] at this
    cases ht : turn sink t with
    | next t' => rw [ht] at this; exact this.elim
    | halt r' => rw [ht] at this; exact ⟨r', .halt ht, this⟩
  | next e _ ih =>
    have := turn_alike hd hb h
    rw [e] at this
    cases ht : turn sink t with
    | next t' =>
      rw [ht] at this
      obtain ⟨r', hy', ha⟩ := ih this
      exact ⟨r', .next ht hy', ha⟩
    | halt r' => rw [ht] at this; exact this.elim

theorem yields_of_turn_alike (hd : sink.Deterministic) (hb : sink.NeverBreaks) {s t : State}
    {r : State × Ended} (h : AlikeFlow (turn sink t) (turn sink s)) (hy : Yields (turn sink) s r) :
    ∃ r', Yields (turn sink) t r' ∧ AlikeEnd r r' := by
  cases hy with
  | halt e =>
    rw [e] at h
    cases ht : turn sink t with
    | next t' => rw [ht] at h; exact h.elim
    | halt r' => rw [ht] at h; exact ⟨r', .halt ht, h.symm⟩
  | next e hy =>
    rw [e] at h
    cases ht : turn sink t with
    | halt r' => rw [ht] at h; exact h.elim
    | next t' =>
      rw [ht] at h
      obtain ⟨r', hy', ha⟩ := yields_alike hd hb h.symm hy
      exact ⟨r', .next ht hy', ha⟩

variable {total : Nat}

theorem supply_nil (s : State) : s.supply [] = s := by simp [State.supply]

theorem turn_settled {s : State} (h : s.parser.atEndpoint = false) (hchunk : s.chunk ≠ []) :
    turn sink s = dispatch sink s := by
  simp only [turn, cascade, cascadeFrom_settled h, hchunk, if_false]

theorem turn_idle {s : State} (h : s.parser.atEndpoint = false) (hchunk : s.chunk = []) :
    turn sink s = .halt (s, .more) := by
  simp only [turn, cascade, cascadeFrom_settled h, hchunk, if_true]

/-- One turn of the loop over a chunk, and over the chunk with `more` behind it. -/
theorem turn_spec (hd : sink.Deterministic) (hb : sink.NeverBreaks) {s : State}
    (hs : Inv total s) (htop : total < u64Max) :
    match turn sink s with
    | .next s' => Inv total s' ∧ s'.chunk.length < s.chunk.length ∧ ∀ more,
        AlikeFlow (turn sink (s.supply more)) (.next (s'.supply more)) ∨
        more ≠ [] ∧ s'.chunk = [] ∧ s'.parser.atEndpoint = false ∧
          AlikeFlow (turn sink (s.supply more)) (turn sink (s'.supply more))
    | .halt (s', .more) => Inv total s' ∧ s'.chunk = [] ∧ s'.parser.atEndpoint = false ∧
        ∀ more, more ≠ [] →
          AlikeFlow (turn sink (s.supply more)) (turn sink (s'.supply more))
    | .halt (s', .fault fault) => ∀ more, ∃ s'',
        turn sink (s.supply more) = .halt (s'', .fault fault) ∧ merge s''.seen = merge s'.seen
    | .halt (_, .stopped) => False
    | .halt (_, .unreachable) => False := by
  rcases cascadeFrom_spec hb s s.parser.stack hs htop with
    ⟨s₁, hnext, hs₁, hat, hchunk⟩ | ⟨s₁, fault, hfault⟩
  case inr =>
    have hturn : ∀ more, turn sink (s.supply more) = .halt (s₁.supply more, .fault fault) := by
      intro more
      simp only [turn, cascade, parser_supply, hfault]
    have h0 := hturn []
    rw [supply_nil, supply_nil] at h0
    rw [h0]
    exact fun more => ⟨_, hturn more, rfl⟩
  case inl =>
    have h0 : cascade sink s = .next s₁ := by simpa [supply_nil, cascade] using hnext []
    have hturn : ∀ more, s.chunk ++ more ≠ [] →
        turn sink (s.supply more) = dispatch sink (s₁.supply more) := by
      intro more hne
      simp only [turn, cascade, parser_supply, hnext, chunk_supply, hchunk, hne, if_false]
    by_cases hempty : s.chunk = []
    · have hself : turn sink s = .halt (s₁, .more) := by
        simp only [turn, h0, hchunk, hempty, if_true]
      rw [hself]
      refine ⟨hs₁, hchunk.trans hempty, hat, fun more hne => ?_⟩
      rw [hturn more (by simp [hempty, hne]), turn_settled (s := s₁.supply more) hat (by simp [hchunk, hempty, hne])]
      exact .refl _
    · have hlaw := dispatch_law hb hd hs₁ (by rw [hchunk]; exact hempty)
      have hne : ∀ more, s.chunk ++ more ≠ [] := fun more => by simp [hempty]
      have hself : turn sink s = dispatch sink s₁ := by
        simp only [turn, h0, hchunk, hempty, if_false]
      rw [hself]
      simp only [hturn _ (hne _)]
      cases hout : dispatch sink s₁ with
      | next s' =>
        rw [hout] at hlaw
        obtain ⟨hinv, hlt, hlater⟩ := hlaw
        refine ⟨hinv, hchunk ▸ hlt, fun more => (hlater more).imp_right ?_⟩
        rintro ⟨hmore, hnil, hset, ha⟩
        refine ⟨hmore, hnil, hset, ?_⟩
        rw [turn_settled (s := s'.supply more) hset (by simp [hnil, hmore])]
        exact ha
      | halt r =>
        rcases r with ⟨s', ended⟩
        rw [hout] at hlaw
        cases ended with
        | more =>
          obtain ⟨hinv, hnil, hset, ha⟩ := hlaw
          refine ⟨hinv, hnil, hset, fun more hmore => ?_⟩
          rw [turn_settled (s := s'.supply more) hset (by simp [hnil, hmore])]
          exact ha more
        | fault fault => exact hlaw
        | stopped => exact hlaw
        | unreachable => exact hlaw

/-- A drive over `chunk ++ more` is the drive over `chunk`, then the one over `more`. -/
theorem drive_split (hd : sink.Deterministic) (hb : sink.NeverBreaks) {s : State}
    {r : State × Ended} (hy : Yields (turn sink) s r) (hs : Inv total s) (htop : total < u64Max) :
    match r with
    | (s', .more) => Inv total s' ∧ s'.chunk = [] ∧ s'.parser.atEndpoint = false ∧
        ∀ more r', Yields (turn sink) (s'.supply more) r' →
          ∃ r'', Yields (turn sink) (s.supply more) r'' ∧ AlikeEnd r' r''
    | (s', .fault fault) => ∀ more, ∃ s'',
        Yields (turn sink) (s.supply more) (s'', .fault fault) ∧ merge s''.seen = merge s'.seen
    | (_, .stopped) => False
    | (_, .unreachable) => False := by
  induction hy with
  | halt e =>
    rename_i s r
    have hspec := turn_spec hd hb hs htop
    rw [e] at hspec
    rcases r with ⟨s', ended⟩
    cases ended with
    | more =>
      obtain ⟨hinv, hnil, hset, ha⟩ := hspec
      refine ⟨hinv, hnil, hset, fun more r' hy' => ?_⟩
      cases more with
      | nil =>
        rw [supply_nil] at hy' ⊢
        have hr := (yields_of_halt (turn_idle hset hnil)).mp hy'
        exact ⟨(s', .more), .halt e, hr ▸ .refl _⟩
      | cons b more => exact yields_of_turn_alike hd hb (ha _ nofun) hy'
    | fault fault =>
      intro more
      obtain ⟨s'', e', hseen⟩ := hspec more
      exact ⟨s'', .halt e', hseen⟩
    | stopped => exact hspec
    | unreachable => exact hspec
  | next e hy ih =>
    rename_i s s₁ r
    have hspec := turn_spec hd hb hs htop
    rw [e] at hspec
    obtain ⟨hinv, -, hlater⟩ := hspec
    have hrest := ih hinv
    -- what the loop yields behind this turn, it yields from the longer chunk
    have hlift : ∀ more r', (∀ t, t.Alike (s₁.supply more) →
        ∃ r'', Yields (turn sink) t r'' ∧ AlikeEnd r' r'') →
        (s₁.chunk = [] → s₁.parser.atEndpoint = false → more ≠ [] →
          AlikeFlow (turn sink (s.supply more)) (turn sink (s₁.supply more)) →
          ∃ r'', Yields (turn sink) (s.supply more) r'' ∧ AlikeEnd r' r'') →
        ∃ r'', Yields (turn sink) (s.supply more) r'' ∧ AlikeEnd r' r'' := by
      intro more r' hplain hmid
      rcases hlater more with ha | ⟨hmore, hnil, hset, ha⟩
      · cases ht : turn sink (s.supply more) with
        | next t =>
          rw [ht] at ha
          obtain ⟨r'', hy'', ha''⟩ := hplain t ha
          exact ⟨r'', .next ht hy'', ha''⟩
        | halt r' => rw [ht] at ha; exact ha.elim
      · exact hmid hnil hset hmore ha
    have hyields : ∀ more r', Yields (turn sink) (s₁.supply more) r' →
        ∃ r'', Yields (turn sink) (s.supply more) r'' ∧ AlikeEnd r' r'' := fun more r' hy' =>
      hlift more r' (fun t ha => yields_alike hd hb ha.symm hy')
        (fun _ _ _ ha => yields_of_turn_alike hd hb ha hy')
    rcases r with ⟨s', ended⟩
    cases ended with
    | more =>
      obtain ⟨hinv', hnil', hset', hmore'⟩ := hrest
      refine ⟨hinv', hnil', hset', fun more r' hy' => ?_⟩
      obtain ⟨r'', hy'', ha''⟩ := hmore' more r' hy'
      obtain ⟨r₃, hy₃, ha₃⟩ := hyields more r'' hy''
      exact ⟨r₃, hy₃, ha''.trans ha₃⟩
    | fault fault =>
      intro more
      obtain ⟨s'', hy'', hseen⟩ := hrest more
      obtain ⟨⟨s₃, ended⟩, hy₃, he, hseen₃, -⟩ := hyields more _ hy''
      cases he
      exact ⟨s₃, hy₃, hseen₃.symm.trans hseen⟩
    | stopped => exact hrest
    | unreachable => exact hrest

end Runs

/-! ## Whole streams -/

section Streams

variable {sink : Sink}

/-- The machine as a feed drives it. -/
def Parser.arm (parser : Parser) : Parser := { parser with pump.terminal := true }

/-- A machine between feeds: nothing to resolve at its cursor. -/
structure Live (parser : Parser) : Prop where
  live : parser.pump.terminal = false
  settled : parser.atEndpoint = false
  inv : ∀ seen, Inv parser.pump.off ⟨parser.arm, [], seen⟩

theorem live_new (standard : Standard) (depth : DepthLimit) : Live (.new standard depth) :=
  ⟨rfl, rfl, fun _ => ⟨⟨rfl, rfl, rfl⟩, ⟨rfl, Nat.zero_le _, Nat.zero_le _⟩⟩⟩

/-- The machine a drive leaves wanting more is live. -/
theorem live_of_inv {total : Nat} {s : State} (hs : Inv total s) (hnil : s.chunk = [])
    (hset : s.parser.atEndpoint = false) :
    Live { s.parser with pump.terminal := false } ∧
      Parser.arm { s.parser with pump.terminal := false } = s.parser ∧
      s.parser.pump.off = total := by
  have harm : Parser.arm { s.parser with pump.terminal := false } = s.parser := by
    have ht := hs.armed
    rcases s with ⟨⟨⟨off, zone, carry, standard, terminal⟩, mode, stack, depth⟩, chunk, seen⟩
    simp only at ht
    simp only [Parser.arm, ht]
  have hoff : s.parser.pump.off = total := by simpa [hnil] using hs.reach
  refine ⟨⟨rfl, hset, fun seen => ?_⟩, harm, hoff⟩
  rw [harm]
  exact ⟨⟨hs.sealed, by simp, hs.armed⟩, hs.mode⟩

theorem inv_of_live {parser : Parser} (h : Live parser) (chunk : List UInt8)
    (seen : List Event) : Inv (parser.pump.off + chunk.length) ⟨parser.arm, chunk, seen⟩ := by
  have hinv := h.inv seen
  exact ⟨⟨hinv.sealed, rfl, hinv.armed⟩, hinv.mode⟩

theorem drive_yields (hd : sink.Deterministic) (hb : sink.NeverBreaks) {total : Nat}
    (htop : total < u64Max) {s : State} (hs : Inv total s) :
    ∃ r, Yields (turn sink) s r ∧ drive sink s = some r := by
  have hstep : ∀ s s', Inv total s → turn sink s = .next s' →
      Inv total s' ∧ s'.chunk.length < s.chunk.length := by
    intro s s' hs e
    have := turn_spec hd hb hs htop
    rw [e] at this
    exact ⟨this.1, this.2.1⟩
  obtain ⟨r, e⟩ := run_of_measure (Inv total) (fun s => s.chunk.length) hstep hs
    (Nat.lt_succ_self _)
  exact ⟨r, yields_of_run e, e⟩

theorem feed_eq (hd : sink.Deterministic) (hb : sink.NeverBreaks) {parser : Parser}
    (hl : Live parser) (chunk : List UInt8) (hroom : parser.pump.off + chunk.length < u64Max)
    (seen : List Event) :
    ∃ s ended, Yields (turn sink) ⟨parser.arm, chunk, seen⟩ (s, ended) ∧
      feed sink parser seen chunk =
        some ({ s with parser.pump.terminal := decide (ended ≠ .more) }, ended) := by
  obtain ⟨⟨s, ended⟩, hy, e⟩ := drive_yields hd hb hroom (inv_of_live hl chunk seen)
  refine ⟨s, ended, hy, ?_⟩
  have hadmit : parser.pump.admits chunk = true := by simp [Pump.admits]; omega
  simp only [feed, hl.live, hadmit, Bool.false_eq_true, Bool.true_eq_false, if_false]
  rw [← Parser.arm, e]
  rfl

/-- What a stream concludes when one drive was its last. -/
def conclude (r : State × Ended) : Option (Conclusion × List Event) :=
  match r with
  | (s, .more) => scanFrom .unit { s.parser with pump.terminal := false } s.seen []
  | (s, .stopped) => some (.stopped, s.seen)
  | (s, .fault fault) => some (.refused fault, s.seen)
  | (_, .unreachable) => none

theorem scanFrom_single (hd : sink.Deterministic) (hb : sink.NeverBreaks) {parser : Parser}
    (hl : Live parser) {chunk : List UInt8} (hroom : parser.pump.off + chunk.length < u64Max)
    {seen : List Event} {r : State × Ended}
    (hy : Yields (turn sink) ⟨parser.arm, chunk, seen⟩ r) :
    scanFrom sink parser seen [chunk] = conclude r := by
  obtain ⟨s, ended, hy', e⟩ := feed_eq hd hb hl _ hroom seen
  obtain rfl := hy.unique hy'
  rw [scanFrom, e]
  cases ended <;> rfl

theorem scanFrom_finish {parser : Parser} (h : parser.pump.terminal = false) :
    ∃ conclusion, conclusion ≠ .stopped ∧ ∀ seen,
      scanFrom sink parser seen [] = some (conclusion, seen) := by
  simp only [scanFrom, finish, h, Bool.false_eq_true, if_false]
  cases endFault parser with
  | none => exact ⟨.accepted, nofun, fun _ => rfl⟩
  | some kind => exact ⟨.refused ⟨parser.pump.off, kind⟩, nofun, fun _ => rfl⟩

theorem conclude_alike {r r' : State × Ended} (h : AlikeEnd r r')
    {conclusion : Conclusion} {events : List Event} (hc : conclude r = some (conclusion, events)) :
    ∃ events', conclude r' = some (conclusion, events') ∧ merge events = merge events' := by
  rcases r with ⟨s, ended⟩
  rcases r' with ⟨s', ended'⟩
  obtain ⟨he, hseen, hmore⟩ := h
  simp only at he hseen
  subst he
  cases ended with
  | more =>
    have hp : s.parser = s'.parser := (hmore rfl).1
    obtain ⟨c, -, hfin⟩ := @scanFrom_finish .unit { s.parser with pump.terminal := false } rfl
    simp only [conclude, hfin, Option.some.injEq, Prod.mk.injEq] at hc
    obtain ⟨rfl, rfl⟩ := hc
    refine ⟨s'.seen, ?_, hseen⟩
    simp only [conclude, ← hp, hfin]
  | stopped | fault fault =>
    cases hc
    exact ⟨s'.seen, rfl, hseen⟩
  | unreachable => cases hc

/-- A stream in chunks and the same stream whole come to one conclusion, over events that
differ in no more than their fragments' cuts. -/
theorem scanFrom_flatten (hd : sink.Deterministic) (hb : sink.NeverBreaks)
    (chunks : List (List UInt8)) {parser : Parser} (hl : Live parser) {seen seen' : List Event}
    (hseen : merge seen = merge seen')
    (hroom : parser.pump.off + chunks.flatten.length < u64Max) :
    ∃ conclusion events events', conclusion ≠ .stopped ∧
      scanFrom sink parser seen chunks = some (conclusion, events) ∧
      scanFrom sink parser seen' [chunks.flatten] = some (conclusion, events') ∧
      merge events = merge events' := by
  induction chunks generalizing parser seen seen' with
  | nil =>
    obtain ⟨c, hstop, hfin⟩ := @scanFrom_finish sink parser hl.live
    have hy : Yields (turn sink) ⟨parser.arm, [], seen'⟩ (⟨parser.arm, [], seen'⟩, .more) :=
      .halt (turn_idle hl.settled rfl)
    refine ⟨c, seen, seen', hstop, hfin seen, ?_, hseen⟩
    rw [List.flatten_nil] at hroom ⊢
    rw [scanFrom_single hd hb hl hroom hy, ← hfin seen']
    have hback : ({ parser.arm with pump.terminal := false } : Parser) = parser := by
      have hlive := hl.live
      rcases parser with ⟨⟨off, zone, carry, standard, terminal⟩, mode, stack, depth⟩
      simp only at hlive
      simp only [Parser.arm, hlive]
    simp only [conclude, hback]
    rfl
  | cons chunk chunks ih =>
    simp only [List.flatten_cons, List.length_append] at hroom ⊢
    have hroom' : parser.pump.off + (chunk ++ chunks.flatten).length < u64Max := by
      rw [List.length_append]; omega
    obtain ⟨s, ended, hy, e⟩ := feed_eq hd hb hl chunk (by omega) seen
    have hsplit := drive_split hd hb hy (inv_of_live hl chunk seen) (by omega)
    -- whatever the whole chunk yields after `seen` it yields alike after `seen'`
    have hwhole : ∀ r, Yields (turn sink) (State.supply ⟨parser.arm, chunk, seen⟩ chunks.flatten)
        r → ∃ r', scanFrom sink parser seen' [chunk ++ chunks.flatten] = conclude r' ∧
          AlikeEnd r r' := by
      intro r hr
      obtain ⟨r', hy', ha⟩ := yields_alike hd hb
        (t := ⟨parser.arm, chunk ++ chunks.flatten, seen'⟩) (by exact ⟨rfl, rfl, hseen⟩) hr
      exact ⟨r', scanFrom_single hd hb hl hroom' hy', ha⟩
    rw [scanFrom, e]
    cases ended with
    | more =>
      obtain ⟨hinv, hnil, hset, hmore⟩ := hsplit
      obtain ⟨hl', harm, hoff⟩ := live_of_inv hinv hnil hset
      obtain ⟨c, l, l', hstop, e₁, e₂, hm⟩ := ih hl' (rfl : merge s.seen = merge s.seen) (by
        simp only [hoff]; omega)
      obtain ⟨s₂, ended₂, hy₂, -⟩ := feed_eq hd hb hl' chunks.flatten (by
        simp only [hoff]; omega) s.seen
      have hs : (⟨Parser.arm { s.parser with pump.terminal := false }, chunks.flatten, s.seen⟩ :
          State) = s.supply chunks.flatten := by
        rw [harm]; simp [State.supply, hnil]
      rw [scanFrom_single hd hb hl' (by simp only [hoff]; omega) hy₂] at e₂
      rw [hs] at hy₂
      obtain ⟨r, hyr, ha⟩ := hmore _ _ hy₂
      obtain ⟨r', er', ha'⟩ := hwhole r hyr
      obtain ⟨l'', el'', hm''⟩ := conclude_alike (ha.trans ha') e₂
      exact ⟨c, l, l'', hstop, e₁, er'.trans el'', hm.trans hm''⟩
    | fault fault =>
      obtain ⟨s'', hy'', hs''⟩ := hsplit chunks.flatten
      obtain ⟨⟨s₃, ended₃⟩, er', he, hm, -⟩ := hwhole _ hy''
      cases he
      exact ⟨.refused fault, s.seen, s₃.seen, nofun, rfl, er', hs''.symm.trans hm⟩
    | stopped => exact hsplit.elim
    | unreachable => exact hsplit.elim

/-- The grouped scanner cannot tell how its stream was cut. -/
theorem scan_chunks (sink : Sink) (hd : sink.Deterministic) (hb : sink.NeverBreaks)
    (standard : Standard) (depth : DepthLimit) (chunks : List (List UInt8))
    (hlen : chunks.flatten.length < u64Max - 1) :
    ∃ conclusion events events', conclusion ≠ .stopped ∧
      scan sink standard depth chunks = some (conclusion, events) ∧
      scan sink standard depth [chunks.flatten] = some (conclusion, events') ∧
      merge events = merge events' := by
  refine scanFrom_flatten hd hb chunks (live_new standard depth) rfl ?_
  show 0 + chunks.flatten.length < u64Max
  omega

/-- A payload and a tag cut in two, under a sink that takes payload bytes. -/
theorem scan_chunks_opaque :
    ∃ conclusion events events', conclusion ≠ .stopped ∧
      scan ⟨fun _ => some .opaqueBytes, fun _ => false⟩ .tolerant ⟨100, by decide, by decide⟩
        [[0x0A, 2, 8], [], [1, 0x88], [0, 5]] = some (conclusion, events) ∧
      scan ⟨fun _ => some .opaqueBytes, fun _ => false⟩ .tolerant ⟨100, by decide, by decide⟩
        [[0x0A, 2, 8, 1, 0x88, 0, 5]] = some (conclusion, events') ∧
      merge events = merge events' :=
  scan_chunks _ (fun _ _ _ => ⟨rfl, rfl⟩) (fun _ => ⟨by simp, rfl⟩) _ _
    [[0x0A, 2, 8], [], [1, 0x88], [0, 5]] (by decide)

end Streams

end ProtobufEdit.Scan.Grouped
