import ProtobufEdit.Emission
import ProtobufEdit.Varint

/-!
# Measuring and emitting

The consumers of a two-pass job, shared by the group converter and the groupless rewriter:
`Measure` bills every event to the open layer and fills one slot a descended container,
`Emit` replays the events against the slots into a reservation or a caller's sink.
`feed` is the event sequence of an edited document; `Measure.feed_ok` and `Emit.feed_ok` say
what it makes of either consumer.
-/

namespace ProtobufEdit.TwoPass

open Wire Varint Emission

/-! ## Authored bytes -/

/-- One minimal varint. -/
def authoredWord (word : Nat) : Authored UInt8 :=
  ⟨encodedLen32 word, [write64At word (encodedLen32 word)], by simp⟩

/-! ## The slot table -/

/-- Bit 31 of a slot. -/
def dirtyBit : Nat := 1 <<< 31

/-- Pre-order slots: the dirty bit over a new interior length, or a descendant count. -/
structure SlotTable where
  slots : List Nat
  deriving DecidableEq, Repr

/-- How an event can fail: an interior past the LEN class (ascents alone), a failed
assertion, an unchecked access outside its contract. -/
inductive Trap where
  | outgrown (len : Nat)
  | panic
  | undefined
  deriving DecidableEq, Repr

namespace SlotTable

def claim (table : SlotTable) : Nat × SlotTable := (table.slots.length, ⟨table.slots ++ [0]⟩)

def fill (table : SlotTable) (slot : Nat) (dirty : Bool) (payload : Nat) :
    Except Trap SlotTable :=
  if payload &&& dirtyBit ≠ 0 then .error .panic
  else if slot < table.slots.length then
    .ok ⟨table.slots.set slot (if dirty then payload ||| dirtyBit else payload)⟩
  else .error .undefined

def claimed (table : SlotTable) : Nat := table.slots.length

def read (table : SlotTable) (cursor : Nat) : Except Trap Slot :=
  match table.slots[cursor]? with
  | none => .error .undefined
  | some raw =>
    if raw &&& dirtyBit = 0 then .ok (.clean raw) else .ok (.dirty (raw &&& (dirtyBit - 1)))

end SlotTable

/-! ## The consumers' interface -/

inductive Down where
  | walk
  | skip
  deriving DecidableEq, Repr

/-- A pass's consumer: what the two engines' traits share, and what each of them adds.
`carries` says whether the pass carries a refusal out; the emit passes' channel is
uninhabited. Positions are a record's head, its tag's end, its payload's start and end. -/
structure Sink (σ : Type) where
  carries : Bool
  verbatim : Nat → Nat → σ → Except Trap σ
  delete : σ → Except Trap σ
  author : Authored UInt8 → σ → Except Trap σ
  replace : Nat → Nat → Authored UInt8 → σ → Except Trap σ
  frameEnter : Authored UInt8 → σ → Except Trap σ
  frameExit : Authored UInt8 → σ → Except Trap σ
  descend : Nat → Nat → Nat → Nat → σ → Except Trap (Down × σ)
  ascend : Nat → Nat → Nat → Nat → σ → Except Trap σ

/-! ## Pass one -/

structure Frame where
  total : Nat
  slot : Nat
  dirty : Bool
  deriving DecidableEq, Repr

/-- Layer accumulators, innermost first. -/
structure Measure where
  frames : List Frame
  slots : SlotTable
  deriving DecidableEq, Repr

namespace Measure

def new : Measure := ⟨[⟨0, 0, false⟩], ⟨[]⟩⟩

def rootTotal (m : Measure) : Nat := (m.frames.getLastD ⟨0, 0, false⟩).total

/-- The current layer pays `n` bytes. -/
def bill (n : Nat) (dirty : Bool) (m : Measure) : Except Trap Measure :=
  match m.frames with
  | [] => .error .undefined
  | top :: frames =>
    .ok { m with
      frames := { top with total := top.total + n, dirty := top.dirty || dirty } :: frames }

def verbatim (start stop : Nat) (m : Measure) : Except Trap Measure := m.bill (stop - start) false

def delete (m : Measure) : Except Trap Measure := m.bill 0 true

def replace (tagFrom tagTo : Nat) (value : Authored UInt8) (m : Measure) : Except Trap Measure :=
  m.bill (tagTo - tagFrom + value.size) true

def author (new : Authored UInt8) (m : Measure) : Except Trap Measure := m.bill new.size true

/-- The authored open framing bills the parent and dirties it. -/
def frameEnter (opener : Authored UInt8) (m : Measure) : Except Trap Measure := do
  let m ← m.bill opener.size true
  return { m with frames := ⟨0, 0, false⟩ :: m.frames }

def frameExit (closer : Authored UInt8) (m : Measure) : Except Trap Measure :=
  match m.frames with
  | child :: parent :: frames =>
    bill (child.total + closer.size) false { m with frames := parent :: frames }
  | _ => .error .undefined

def descend (_head _tagEnd _payloadStart _payloadEnd : Nat) (m : Measure) :
    Except Trap (Down × Measure) :=
  let (slot, slots) := m.slots.claim
  .ok (.walk, ⟨⟨0, slot, false⟩ :: m.frames, slots⟩)

def ascend (head tagEnd payloadStart payloadEnd : Nat) (m : Measure) : Except Trap Measure :=
  match m.frames with
  | child :: parent :: frames =>
    if PayloadLen.max < child.total then .error (.outgrown child.total)
    else
      let oldLen := payloadEnd - payloadStart
      if child.dirty then do
        let slots ← m.slots.fill child.slot true child.total
        let lead := if child.total = oldLen then payloadStart - tagEnd else encodedLen32 child.total
        bill (tagEnd - head + lead + child.total) true ⟨parent :: frames, slots⟩
      else if child.total ≠ oldLen then .error .panic
      else do
        let slots ← m.slots.fill child.slot false (m.slots.claimed - (child.slot + 1))
        bill (payloadEnd - head) false ⟨parent :: frames, slots⟩
  | _ => .error .undefined

def sink : Sink Measure :=
  { carries := true, verbatim, delete, author, replace, frameEnter, frameExit, descend, ascend }

@[simp] theorem sink_verbatim : sink.verbatim = verbatim := rfl
@[simp] theorem sink_delete : sink.delete = delete := rfl
@[simp] theorem sink_author : sink.author = author := rfl
@[simp] theorem sink_replace : sink.replace = replace := rfl
@[simp] theorem sink_frameEnter : sink.frameEnter = frameEnter := rfl
@[simp] theorem sink_frameExit : sink.frameExit = frameExit := rfl
@[simp] theorem sink_descend : sink.descend = descend := rfl
@[simp] theorem sink_ascend : sink.ascend = ascend := rfl

end Measure

/-! ## Pass two -/

/-- Where the emission goes: the reservation past a caller's bytes, or a caller's sink. -/
inductive Face where
  | buffer
  | sink
  deriving DecidableEq, Repr

/-- `Emit` and `SinkEmit`, by their face. `pieces` is what has been pushed or handed over;
`ledger` stands innermost first. -/
structure Emit where
  face : Face
  input : List UInt8
  total : Nat
  pieces : List (List UInt8)
  written : Nat
  run : Option (Nat × Nat)
  slots : SlotTable
  cursor : Nat
  logical : Nat
  ledger : List (Nat × Nat)
  deriving DecidableEq, Repr

namespace Emit

def new (face : Face) (input : List UInt8) (slots : SlotTable) (total : Nat) : Emit :=
  ⟨face, input, total, [], 0, none, slots, 0, 0, []⟩

/-- `push` into the reservation, or `hand` to the sink, which drops empty slices. -/
def push (bytes : List UInt8) (e : Emit) : Except Trap Emit :=
  match e.face with
  | .buffer =>
    if bytes.length ≤ e.total - e.written then
      .ok { e with pieces := e.pieces ++ [bytes], written := e.written + bytes.length }
    else .error .undefined
  | .sink =>
    if bytes = [] then .ok e
    else .ok { e with pieces := e.pieces ++ [bytes], written := e.written + bytes.length }

/-- The pending run's window of the input. -/
def window (e : Emit) (run : Nat × Nat) : List UInt8 := (e.input.drop run.1).take (run.2 - run.1)

def flush (e : Emit) : Except Trap Emit :=
  match e.run with
  | none => .ok e
  | some run =>
    if run.1 ≤ run.2 ∧ run.2 ≤ e.input.length then push (e.window run) { e with run := none }
    else .error .undefined

def verbatim (start stop : Nat) (e : Emit) : Except Trap Emit :=
  let e := { e with logical := e.logical + (stop - start) }
  match e.run with
  | some (from_, tail) =>
    if tail = start then .ok { e with run := some (from_, stop) }
    else do
      let e ← e.flush
      return { e with run := some (start, stop) }
  | none => .ok { e with run := some (start, stop) }

def pushAll : List (List UInt8) → Emit → Except Trap Emit
  | [], e => .ok e
  | piece :: pieces, e => do
    let e ← e.push piece
    pushAll pieces e

/-- Authored bytes behind the flushed run: `tag`, and `normalize`. -/
def author (new : Authored UInt8) (e : Emit) : Except Trap Emit := do
  let e ← e.flush
  pushAll new.pieces { e with logical := e.logical + new.size }

def delete (e : Emit) : Except Trap Emit := .ok e

def replace (tagFrom tagTo : Nat) (value : Authored UInt8) (e : Emit) : Except Trap Emit := do
  let e ← e.verbatim tagFrom tagTo
  e.author value

def descend (head tagEnd payloadStart payloadEnd : Nat) (e : Emit) :
    Except Trap (Down × Emit) := do
  match ← e.slots.read e.cursor with
  | .clean descendants =>
    return (.skip, { e with cursor := e.cursor + 1 + descendants })
  | .dirty newLen =>
    let e := { e with cursor := e.cursor + 1 }
    let e ←
      if newLen = payloadEnd - payloadStart then e.verbatim head payloadStart
      else do
        let e ← e.verbatim head tagEnd
        e.author (authoredWord newLen)
    return (.walk, { e with ledger := (e.logical, newLen) :: e.ledger })

def ascend (_head _tagEnd _payloadStart _payloadEnd : Nat) (e : Emit) : Except Trap Emit :=
  match e.ledger with
  | [] => .error .undefined
  | (mark, expected) :: ledger =>
    if e.logical - mark = expected then .ok { e with ledger := ledger } else .error .panic

def sink : Sink Emit :=
  { carries := false, verbatim, delete, author, replace, frameEnter := author,
    frameExit := author, descend, ascend }

@[simp] theorem sink_verbatim : sink.verbatim = verbatim := rfl
@[simp] theorem sink_delete : sink.delete = delete := rfl
@[simp] theorem sink_author : sink.author = author := rfl
@[simp] theorem sink_replace : sink.replace = replace := rfl
@[simp] theorem sink_frameEnter : sink.frameEnter = author := rfl
@[simp] theorem sink_frameExit : sink.frameExit = author := rfl
@[simp] theorem sink_descend : sink.descend = descend := rfl
@[simp] theorem sink_ascend : sink.ascend = ascend := rfl

/-- The pins: every slot consumed, every dirty layer closed, the measured total written. -/
def finish (e : Emit) : Except Trap Emit := do
  let e ← e.flush
  if e.cursor = e.slots.claimed ∧ e.ledger = [] ∧ e.written = e.total then return e
  else .error .panic

end Emit

/-! ## A document's events -/

section Feed

variable {σ τ ι : Type} (S : Sink σ) (note : ι → τ → τ) (down : τ → τ)

/-- The events a walk of the document sends its consumer, from the position its source
stands at; the walk's own counts ride along. -/
def feed : Doc UInt8 ι → Nat → σ × τ → Except Trap (σ × τ)
  | .nil, _, st => .ok st
  | .copy bytes rest, pos, (s, t) => do
    let stop := pos + bytes.length
    let s ← S.verbatim pos stop s
    feed rest stop (s, t)
  | .drop mark bytes rest, pos, (s, t) => do
    let s ← S.delete s
    feed rest (pos + bytes.length) (s, note mark t)
  | .author mark old new rest, pos, (s, t) => do
    let s ← S.author new s
    feed rest (pos + old.length) (s, note mark t)
  | .replace mark tag old new rest, pos, (s, t) => do
    let s ← S.replace pos (pos + tag.length) new s
    feed rest (pos + tag.length + old.length) (s, note mark t)
  | .frame mark old opener inner closer rest, pos, (s, t) => do
    let s ← S.frameEnter opener s
    let (s, t) ← feed inner (pos + old.length) (s, note mark t)
    let s ← S.frameExit closer s
    feed rest (pos + old.length + inner.source.length) (s, t)
  | .cross tag word inner rest, pos, (s, t) => do
    let tagEnd := pos + tag.length
    let payloadStart := tagEnd + word.length
    let stop := payloadStart + inner.source.length
    match ← S.descend pos tagEnd payloadStart stop s with
    | (.skip, s) =>
      let s ← S.verbatim pos stop s
      feed rest stop (s, t)
    | (.walk, s) =>
      let (s, t) ← feed inner payloadStart (s, down t)
      let s ← S.ascend pos tagEnd payloadStart stop s
      feed rest stop (s, t)

variable {S note down}

theorem feed_append (d e : Doc UInt8 ι) (pos : Nat) (st : σ × τ) :
    feed S note down (d.append e) pos st =
      feed S note down d pos st >>= feed S note down e (pos + d.source.length) := by
  induction d generalizing pos st with
  | nil => rfl
  | copy bytes rest ih | drop mark bytes rest ih | author mark old new rest ih
    | replace mark tag old new rest ih =>
    simp only [Doc.append, feed, ih, bind_assoc, Doc.source, List.length_append, Nat.add_assoc]
  | frame mark old opener inner closer rest ihi ihr =>
    simp only [Doc.append, feed, ihr, bind_assoc, Doc.source, List.length_append, Nat.add_assoc]
  | cross tag word inner rest ihi ihr =>
    simp only [Doc.append, feed, bind_assoc, Doc.source, List.length_append, Nat.add_assoc]
    congr 1
    funext p
    obtain ⟨answer, s⟩ := p
    cases answer <;> simp only [ihr, bind_assoc, Nat.add_assoc]

end Feed

end ProtobufEdit.TwoPass
