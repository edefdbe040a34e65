import ProtobufEdit.Varint.Carry

/-!
# The stream-stepping pump

The cross-chunk reading state the grouped scanner drives: the offset, the innermost sealed
endpoint, the construct in flight and the declared standard. `Pump.step_done`,
`Pump.step_more` and `Pump.step_refused` say what one word step does from the reader's
outcome alone.
-/

namespace ProtobufEdit

open Base128 Varint

/-- `u64::MAX`: the root zone, never a cursor. -/
def u64Max : Nat := 18446744073709551615

inductive Verdict (α : Type) where
  | done (v : α)
  | more
  | cut
  | tooWide
  | outOfClass
  | nonMinimal
  deriving DecidableEq, Repr

structure Pump where
  off : Nat
  zone : Nat
  carry : Carry
  standard : Standard
  terminal : Bool
  deriving DecidableEq, Repr

inductive FixedKind where
  | i32
  | i64
  deriving DecidableEq, Repr

def FixedKind.need : FixedKind → Nat
  | i32 => 4
  | i64 => 8

namespace Pump

def new (standard : Standard) : Pump := ⟨0, u64Max, .empty, standard, false⟩

/-- Coordinate admission for one chunk. -/
def admits (pump : Pump) (chunk : List UInt8) : Bool :=
  decide (chunk.length ≤ u64Max - 1 - pump.off)

def constructStart (pump : Pump) : Nat := pump.off - pump.carry.bytes.length

/-- `step_tag_held`, `step_len_held` and `step_value_held`, by their window. -/
def stepHeld (w : Window) (pump : Pump) (chunk : List UInt8) :
    Verdict Nat × Pump × List UInt8 :=
  let s := Carry.step w.cap w.last pump.carry chunk pump.off pump.zone
  let pump := { pump with carry := s.carry, off := s.off }
  match s.verdict with
  | .done word =>
    if widthPadded s.carry.bytes.length word pump.standard w.minimal then
      (.nonMinimal, pump, s.chunk)
    else (.done word, pump, s.chunk)
  | .more => (.more, pump, s.chunk)
  | .cut => (.cut, pump, s.chunk)
  | .tooWide => (.tooWide, pump, s.chunk)
  | .outOfClass => (.outOfClass, pump, s.chunk)

/-- The spent face: a completed word leaves the carry empty. -/
def step (w : Window) (pump : Pump) (chunk : List UInt8) : Verdict Nat × Pump × List UInt8 :=
  match stepHeld w pump chunk with
  | (.done word, pump, chunk) => (.done word, { pump with carry := .empty }, chunk)
  | stepped => stepped

/-- What taking a fixed payload ends in; `unreachable` is the arm the source marks so, a
seal inside an admitted payload. -/
inductive Grab where
  | whole (bytes : List UInt8) (pump : Pump) (chunk : List UInt8)
  | more (pump : Pump) (chunk : List UInt8)
  | unreachable

def collectFixed (need : Nat) (pump : Pump) (chunk : List UInt8) : Grab :=
  match pump.carry.collect chunk pump.off pump.zone need with
  | (.done, carry, chunk, off) =>
    .whole carry.bytes { pump with carry := .empty, off := off } chunk
  | (.more, carry, chunk, off) => .more { pump with carry := carry, off := off } chunk
  | (.cut, _, _, _) => .unreachable

def grabFixed (need : Nat) (pump : Pump) (chunk : List UInt8) : Grab :=
  if pump.carry.bytes.length = 0 ∧ need ≤ chunk.length then
    .whole (chunk.take need) { pump with off := pump.off + need } (chunk.drop need)
  else collectFixed need pump chunk

/-! ## One reader -/

/-- A pump between constructs, or inside a word. -/
structure Ready (pump : Pump) : Prop where
  acc : pump.carry.acc = value pump.carry.bytes
  held : pump.carry.bytes.length ≤ pump.off
  inside : pump.off ≤ pump.zone

/-- The reader's outcome at the pump's cursor. -/
def outcome (w : Window) (pump : Pump) (chunk : List UInt8) : Outcome :=
  resume w.cap w.last pump.carry.bytes (pump.zone - pump.off) chunk

/-- The refusal an outcome comes to, if any. -/
def refusal (w : Window) (standard : Standard) : Outcome → Option (Verdict Nat)
  | .done word _ => if w.padded standard word then some .nonMinimal else none
  | .more _ => none
  | .cut _ _ => some .cut
  | .tooWide _ _ => some .tooWide
  | .outOfClass _ _ => some .outOfClass

section Spec

variable {w : Window} {pump : Pump} {chunk : List UInt8}

theorem agrees (hw : w.Fits) (hp : pump.Ready) (chunk : List UInt8) : Agrees pump.carry pump.off
    (pump.outcome w chunk) (Carry.step w.cap w.last pump.carry chunk pump.off pump.zone) :=
  Carry.step_agrees hw.2 hp.inside hp.acc

theorem step_done (hw : w.Fits) (hp : pump.Ready) {word rest : List UInt8}
    (h : pump.outcome w chunk = .done word rest) (hm : w.padded pump.standard word = false) :
    pump.step w chunk = (.done (value word),
      { pump with off := pump.constructStart + word.length, carry := .empty }, rest) := by
  obtain ⟨hv, hb, hc, ho, -⟩ := h ▸ agrees hw hp chunk
  simp only [Step.of, Outcome.held, Outcome.rest] at hv hb hc ho
  have hh := hp.held
  have hoff : pump.constructStart + word.length =
      (Carry.step w.cap w.last pump.carry chunk pump.off pump.zone).off := by
    simp only [constructStart]; omega
  simp only [Window.padded] at hm
  simp only [step, stepHeld, hv, hb, hc, hm, hoff, Bool.false_eq_true, if_false]

theorem step_more (hw : w.Fits) (hp : pump.Ready) {held : List UInt8}
    (h : pump.outcome w chunk = .more held) :
    pump.step w chunk = (.more,
      { pump with off := pump.off + chunk.length, carry := ⟨value held, held⟩ }, []) := by
  obtain ⟨hv, hb, hc, ho, hacc⟩ := h ▸ agrees hw hp chunk
  obtain ⟨hheld, -, -⟩ := resume_more h
  simp only [Step.of, Outcome.held, Outcome.rest] at hv hb hc ho hacc
  have hacc := hacc hv
  have hoff : (Carry.step w.cap w.last pump.carry chunk pump.off pump.zone).off =
      pump.off + chunk.length := by
    rw [hheld, List.length_append] at ho; omega
  have hcarry : (Carry.step w.cap w.last pump.carry chunk pump.off pump.zone).carry =
      ⟨value held, held⟩ := by
    rw [← hacc, ← hb]
  simp only [step, stepHeld, hv, hc, hoff, hcarry]

/-- A refused word leaves its bytes in the carry, so its first byte is still known. -/
theorem step_refused (hw : w.Fits) (hp : pump.Ready) {v : Verdict Nat}
    (h : refusal w pump.standard (pump.outcome w chunk) = some v) :
    ∃ p c, pump.step w chunk = (v, p, c) ∧ p.constructStart = pump.constructStart ∧
      p.zone = pump.zone := by
  obtain ⟨hv, hb, -, ho, -⟩ := agrees hw hp chunk
  set s := Carry.step w.cap w.last pump.carry chunk pump.off pump.zone with hs
  refine ⟨{ pump with carry := s.carry, off := s.off }, s.chunk, ?_, ?_, rfl⟩
  · cases ho' : pump.outcome w chunk with
    | done word rest =>
      simp only [ho', Step.of, Outcome.held] at hv hb
      simp only [ho', refusal] at h
      split at h
      case isFalse => cases h
      case isTrue hm =>
        cases h
        rw [Window.padded] at hm
        simp only [step, stepHeld, ← hs, hv, hb, hm, if_true]
    | more held => simp only [ho', refusal, reduceCtorEq] at h
    | cut held rest | tooWide held rest | outOfClass held rest =>
      simp only [ho', refusal, Option.some.injEq] at h
      cases h
      simp only [ho', Step.of] at hv
      simp only [step, stepHeld, ← hs, hv]
  · simp only [constructStart, hb]; omega

/-- Chunks compose at the pump's cursor. -/
theorem outcome_append (more : List UInt8) : pump.outcome w (chunk ++ more) =
    match pump.outcome w chunk with
    | .more held => resume w.cap w.last held (pump.zone - (pump.off + chunk.length)) more
    | ended => ended.behind more := by
  rw [outcome, resume_append, Nat.sub_sub]
  rfl

end Spec

/-! ## Fixed payloads -/

/-- A fixed payload under collection: admitted against the zone, not yet whole. -/
structure Collecting (pump : Pump) (need : Nat) : Prop where
  acc : pump.carry.acc = 0
  short : pump.carry.bytes.length < need
  held : pump.carry.bytes.length ≤ pump.off
  admitted : pump.off + need ≤ pump.zone + pump.carry.bytes.length

/-- An admitted payload is taken whole or carried on; the seal is never met. -/
theorem grabFixed_eq {need : Nat} {pump : Pump} (h : pump.Collecting need) (chunk : List UInt8) :
    pump.grabFixed need chunk =
      if need ≤ pump.carry.bytes.length + chunk.length then
        .whole ((pump.carry.bytes ++ chunk).take need)
          { pump with off := pump.off + (need - pump.carry.bytes.length), carry := .empty }
          (chunk.drop (need - pump.carry.bytes.length))
      else
        .more { pump with
          off := pump.off + chunk.length
          carry := ⟨0, pump.carry.bytes ++ chunk⟩ } [] := by
  obtain ⟨hacc, hshort, -, hadm⟩ := h
  rcases pump with ⟨off, zone, ⟨acc, bytes⟩, standard, terminal⟩
  simp only at hacc hshort hadm
  subst hacc
  rw [grabFixed]
  split
  case isTrue hfast =>
    obtain ⟨h0, hin⟩ := hfast
    obtain rfl := List.eq_nil_of_length_eq_zero h0
    simp [hin, Carry.empty]
  case isFalse hslow =>
    simp only [collectFixed, Carry.collect]
    by_cases hwhole : need ≤ bytes.length + chunk.length
    · have htake : min (min (need - bytes.length) (zone - off)) chunk.length =
          need - bytes.length := by omega
      have hlen : (bytes ++ chunk.take (need - bytes.length)).length = need := by
        simp; omega
      rw [if_pos hwhole, htake, if_pos hlen, List.take_append,
        List.take_of_length_le (Nat.le_of_lt hshort)]
    · have htake : min (min (need - bytes.length) (zone - off)) chunk.length =
          chunk.length := by omega
      rw [if_neg hwhole, htake, List.take_length, if_neg (by simp; omega), if_neg (by omega)]
      simp

end Pump

end ProtobufEdit
