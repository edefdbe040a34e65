import ProtobufEdit.Varint

/-!
# The carry kernel

One varint reassembled across chunk edges. `step` is the hot fold over a window the chunk
covers whole, and `stepResumable` the byte loop for everything else; `step_spec` says both
are `Base128.resume` from the bytes in hand.
-/

namespace ProtobufEdit.Varint

open Base128

inductive Step where
  | done (v : Nat)
  | more
  | cut
  | tooWide
  | outOfClass
  deriving DecidableEq, Repr

/-- The construct in flight: `bytes` is the initialized part of the buffer. -/
structure Carry where
  acc : Nat
  bytes : List UInt8
  deriving DecidableEq, Repr

def Carry.empty : Carry := ⟨0, []⟩

/-- A step's verdict with the carry, the chunk and the offset it leaves. -/
structure Stepped where
  verdict : Step
  carry : Carry
  chunk : List UInt8
  off : Nat
  deriving DecidableEq, Repr

/-! ## The code -/

/-- What the hot fold's loop leaves: `width` is zero when no byte of the window terminates. -/
structure Fold where
  value : Nat
  buf : List UInt8
  byte : UInt8
  width : Nat
  rest : List UInt8

/-- The hot fold, `left` bytes from its window's end. The window lies inside the chunk. -/
def Carry.fold : Nat → Nat → List UInt8 → UInt8 → List UInt8 → Fold
  | 0, value, buf, byte, chunk => ⟨value, buf, byte, 0, chunk⟩
  | _ + 1, value, buf, byte, [] => ⟨value, buf, byte, 0, []⟩
  | left + 1, value, buf, _, byte :: rest =>
    let value := value ||| ((byte.toNat &&& payloadMask) <<< (payloadBits * buf.length)) % 2 ^ 64
    if byte.toNat < contBit then ⟨value, buf ++ [byte], byte, buf.length + 1, rest⟩
    else Carry.fold left value (buf ++ [byte]) byte rest

/-- The resumable loop. -/
def Carry.stepResumable (cap last zoneEnd : Nat) : Carry → List UInt8 → Nat → Stepped
  | carry, [], off =>
    if cap ≤ carry.bytes.length then ⟨.tooWide, carry, [], off⟩
    else if off = zoneEnd then ⟨.cut, carry, [], off⟩
    else ⟨.more, carry, [], off⟩
  | carry, byte :: rest, off =>
    if cap ≤ carry.bytes.length then ⟨.tooWide, carry, byte :: rest, off⟩
    else if off = zoneEnd then ⟨.cut, carry, byte :: rest, off⟩
    else
      let carry : Carry :=
        ⟨carry.acc |||
            ((byte.toNat &&& payloadMask) <<< (payloadBits * carry.bytes.length)) % 2 ^ 64,
          carry.bytes ++ [byte]⟩
      if byte.toNat < contBit then
        if carry.bytes.length = cap ∧ last < byte.toNat then ⟨.outOfClass, carry, rest, off + 1⟩
        else ⟨.done carry.acc, carry, rest, off + 1⟩
      else Carry.stepResumable cap last zoneEnd carry rest (off + 1)

def Carry.step (cap last : Nat) (carry : Carry) (chunk : List UInt8) (off zoneEnd : Nat) : Stepped :=
  let window := min cap (zoneEnd - off)
  if carry.bytes.length = 0 ∧ 0 < window ∧ window ≤ chunk.length then
    let f := Carry.fold window 0 [] 0 chunk
    -- `acc` stays untouched here: the chunk covers the window, so no exit resumes
    let carry : Carry := { carry with bytes := f.buf }
    if f.width = 0 then
      ⟨if window = cap then .tooWide else .cut, carry, f.rest, off + f.buf.length⟩
    else if f.width = cap ∧ last < f.byte.toNat then
      ⟨.outOfClass, carry, f.rest, off + f.buf.length⟩
    else ⟨.done f.value, carry, f.rest, off + f.buf.length⟩
  else Carry.stepResumable cap last zoneEnd carry chunk off

def Carry.stepTag : Carry → List UInt8 → Nat → Nat → Stepped := Carry.step maxLen32 last32

def Carry.stepLen : Carry → List UInt8 → Nat → Nat → Stepped := Carry.step maxLen32 lastLen

def Carry.stepValue64 : Carry → List UInt8 → Nat → Nat → Stepped := Carry.step maxLen64 last64

/-! ## One reader -/

def Step.of : Outcome → Step
  | .done w _ => .done (value w)
  | .more _ => .more
  | .cut _ _ => .cut
  | .tooWide _ _ => .tooWide
  | .outOfClass _ _ => .outOfClass

/-- A step's result against the reader's outcome: only a step that asks for more promises
the accumulator. -/
structure Agrees (carry : Carry) (off : Nat) (o : Outcome) (s : Stepped) : Prop where
  verdict : s.verdict = Step.of o
  bytes : s.carry.bytes = o.held
  chunk : s.chunk = o.rest
  off : s.off + carry.bytes.length = off + o.held.length
  acc : s.verdict = .more → s.carry.acc = value o.held

section Spec

variable {cap last zoneEnd : Nat}

theorem Carry.stepResumable_agrees (hcl : 128 ^ (cap - 1) * (last + 1) ≤ 2 ^ 64) {carry : Carry}
    {chunk : List UInt8} {off : Nat} (hoff : off ≤ zoneEnd)
    (hacc : cap ≤ carry.bytes.length ∨ carry.acc = value carry.bytes) :
    Agrees carry off (resume cap last carry.bytes (zoneEnd - off) chunk)
      (Carry.stepResumable cap last zoneEnd carry chunk off) := by
  induction chunk generalizing carry off with
  | nil =>
    have hroom : off = zoneEnd ↔ zoneEnd - off = 0 := by omega
    simp only [Carry.stepResumable, resume, hroom]
    split_ifs with hc h0
    · exact ⟨rfl, rfl, rfl, rfl, fun e => by cases e⟩
    · exact ⟨rfl, rfl, rfl, rfl, fun e => by cases e⟩
    · exact ⟨rfl, rfl, rfl, rfl, fun _ => hacc.resolve_left hc⟩
  | cons b rest ih =>
    have hroom : off = zoneEnd ↔ zoneEnd - off = 0 := by omega
    simp only [Carry.stepResumable, resume, hroom, contBit, List.length_append, List.length_cons, List.length_nil,
      Nat.zero_add]
    split_ifs with hc h0 hb hl
    · exact ⟨rfl, rfl, rfl, rfl, fun e => by cases e⟩
    · exact ⟨rfl, rfl, rfl, rfl, fun e => by cases e⟩
    · exact ⟨rfl, rfl, rfl, by simp [Outcome.held]; omega, fun e => by cases e⟩
    · have hlt : value (carry.bytes ++ [b]) < 2 ^ 64 :=
        Nat.lt_of_lt_of_le (value_concat_lt (by omega) fun h => by
          rw [Nat.mod_eq_of_lt hb]; omega) hcl
      refine ⟨?_, rfl, rfl, by simp [Outcome.held]; omega, fun e => by cases e⟩
      rw [hacc.resolve_left hc, fold_digit hlt]
      rfl
    · have ih := @ih ⟨carry.acc |||
          ((b.toNat &&& payloadMask) <<< (payloadBits * carry.bytes.length)) % 2 ^ 64,
          carry.bytes ++ [b]⟩ (off + 1) (by omega) (by
        rcases Nat.lt_or_ge (carry.bytes.length + 1) cap with hlt | hge
        · right
          rw [hacc.resolve_left hc]
          exact fold_digit (Nat.lt_of_lt_of_le (value_concat_lt (by omega) fun h => by omega) hcl)
        · exact .inl (by simpa using hge))
      rw [← Nat.sub_sub] at ih
      refine ⟨ih.verdict, ih.bytes, ih.chunk, ?_, ih.acc⟩
      have := ih.off
      simp only [List.length_append, List.length_cons, List.length_nil] at this
      omega

/-- The hot fold over a window inside the chunk, against the reader. -/
theorem Carry.fold_spec (hcl : 128 ^ (cap - 1) * (last + 1) ≤ 2 ^ 64) {left room : Nat}
    {buf chunk : List UInt8} (byte : UInt8) (hleft : left = min (cap - buf.length) room)
    (hcap : buf.length ≤ cap) (hin : left ≤ chunk.length) :
    let f := Carry.fold left (value buf) buf byte chunk
    (f.width = 0 ∧ f.buf.length = buf.length + left ∧
      resume cap last buf room chunk =
        if left = cap - buf.length then .tooWide f.buf f.rest else .cut f.buf f.rest) ∨
    (0 < f.width ∧
      (f.width = cap ∧ last < f.byte.toNat →
        resume cap last buf room chunk = .outOfClass f.buf f.rest) ∧
      (¬(f.width = cap ∧ last < f.byte.toNat) →
        resume cap last buf room chunk = .done f.buf f.rest ∧ f.value = value f.buf)) := by
  induction left generalizing room buf chunk byte with
  | zero =>
    left
    refine ⟨by cases chunk <;> rfl, by cases chunk <;> rfl, ?_⟩
    cases chunk <;> simp only [Carry.fold, resume] <;> split_ifs <;> first | rfl | omega
  | succ left ih =>
    cases chunk with
    | nil => simp at hin
    | cons b rest =>
      simp only [List.length_cons] at hin
      by_cases hb : b.toNat < 128
      · right
        have hc : ¬ cap ≤ buf.length := by omega
        have h0 : ¬ room = 0 := by omega
        simp only [Carry.fold, contBit, hb, if_true, resume, hc, h0, if_false]
        refine ⟨by simp, fun hl => by rw [if_pos hl], fun hl => ?_⟩
        · rw [if_neg hl]
          refine ⟨rfl, fold_digit (Nat.lt_of_lt_of_le (value_concat_lt (by omega) fun h => ?_) hcl)⟩
          rw [Nat.mod_eq_of_lt hb]; omega
      · have hc : ¬ cap ≤ buf.length := by omega
        have h0 : ¬ room = 0 := by omega
        rcases Nat.lt_or_ge (buf.length + 1) cap with hlt | hge
        · have hd := @fold_digit buf b
            (Nat.lt_of_lt_of_le (value_concat_lt (by omega) fun h => by omega) hcl)
          have := @ih (room - 1) (buf ++ [b]) rest b
            (by simp; omega) (by simp; omega) (by omega)
          simp only [Carry.fold, contBit, hb, if_false, resume, hc, h0, hd]
          simp only [List.length_append, List.length_cons, List.length_nil] at this
          rcases this with ⟨h1, h2, h3⟩ | h
          · refine .inl ⟨h1, by omega, ?_⟩
            rw [h3]
            by_cases hl : left + 1 = cap - buf.length
            · rw [if_pos hl, if_pos (by omega)]
            · rw [if_neg hl, if_neg (by omega)]
          · exact .inr h
        · -- the window's last byte still continues
          obtain rfl : left = 0 := by omega
          left
          simp only [Carry.fold, contBit, hb, if_false, resume, hc, h0]
          rw [if_pos (by omega)]
          cases rest <;> simp [resume, hge]

/-- One step of the carry is the reader, on either path. -/
theorem Carry.step_agrees (hcl : 128 ^ (cap - 1) * (last + 1) ≤ 2 ^ 64) {carry : Carry}
    {chunk : List UInt8} {off : Nat} (hoff : off ≤ zoneEnd)
    (hacc : carry.acc = value carry.bytes) :
    Agrees carry off (resume cap last carry.bytes (zoneEnd - off) chunk)
      (step cap last carry chunk off zoneEnd) := by
  rw [Carry.step]
  split
  case isFalse => exact Carry.stepResumable_agrees hcl hoff (.inr hacc)
  case isTrue h =>
    obtain ⟨hlen, hpos, hin⟩ := h
    have hnil : carry.bytes = [] := List.eq_nil_of_length_eq_zero hlen
    have hs := @Carry.fold_spec cap last hcl (min cap (zoneEnd - off)) (zoneEnd - off) [] chunk 0
      (by simp) (by simp) hin
    simp only [value_nil, List.length_nil, Nat.sub_zero, Nat.zero_add] at hs
    rw [hnil]
    dsimp only
    generalize Carry.fold (min cap (zoneEnd - off)) 0 [] 0 chunk = f at hs ⊢
    rcases hs with ⟨h0, -, hr⟩ | ⟨hw, hout, hdone⟩
    · rw [if_pos h0, hr]
      split_ifs <;> exact ⟨rfl, rfl, rfl, by simp [hnil, Outcome.held], nofun⟩
    · rw [if_neg (by omega)]
      by_cases hc : f.width = cap ∧ last < f.byte.toNat
      · rw [if_pos hc, hout hc]
        exact ⟨rfl, rfl, rfl, by simp [hnil, Outcome.held], nofun⟩
      · obtain ⟨hr, hv⟩ := hdone hc
        rw [if_neg hc, hr]
        exact ⟨by rw [hv]; rfl, rfl, rfl, by simp [hnil, Outcome.held], nofun⟩

end Spec

/-! ## Fixed-width collection -/

inductive Collect where
  | done
  | more
  | cut
  deriving DecidableEq, Repr

/-- The collection's verdict with the carry, the chunk and the offset it leaves. -/
def Carry.collect (carry : Carry) (chunk : List UInt8) (off zoneEnd need : Nat) :
    Collect × Carry × List UInt8 × Nat :=
  let missing := need - carry.bytes.length
  let zoneRoom := zoneEnd - off
  let take := min (min missing zoneRoom) chunk.length
  let carry : Carry := { carry with bytes := carry.bytes ++ chunk.take take }
  let off := off + take
  (if carry.bytes.length = need then .done else if off = zoneEnd then .cut else .more,
    carry, chunk.drop take, off)

end ProtobufEdit.Varint
