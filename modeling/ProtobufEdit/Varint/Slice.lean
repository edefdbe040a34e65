import ProtobufEdit.Varint

/-!
# The bounded slice kernel

Varint reads at a position of buffered bytes, bounded by an extent end. The three tiers
(one terminal byte, the unchecked walk, the bounds-checked walk) are one reader:
`tiers_eq` reduces them to `Base128.resume` over the extent.
-/

namespace ProtobufEdit.Varint.Slice

open Base128

inductive ReadFault where
  | truncated
  | tooWide
  | outOfClass
  deriving DecidableEq, Repr

/-- A read's value and width, or its refusal. -/
abbrev Read := Except ReadFault (Nat × Nat)

/-- The unchecked walk, `left` iterations from its end: `getD` stands for the unchecked
index, which `contiguous_eq` never lets leave the extent. -/
def contiguousFrom (cap last : Nat) (data : List UInt8) (start : Nat) : Nat → Nat → Nat → Read
  | 0, _, _ => .error .tooWide
  | left + 1, i, acc =>
    let byte := (data.getD (start + i) 0).toNat
    if byte < contBit then
      if i = cap - 1 ∧ last < byte then .error .outOfClass
      else .ok (acc ||| (byte <<< (payloadBits * i)) % 2 ^ 64, i + 1)
    else
      contiguousFrom cap last data start left (i + 1)
        (acc ||| ((byte &&& payloadMask) <<< (payloadBits * i)) % 2 ^ 64)

def contiguous (cap last : Nat) (data : List UInt8) (start : Nat) : Read :=
  contiguousFrom cap last data start cap 0 0

/-- The bounds-checked walk. -/
def shortFrom (cap last : Nat) (data : List UInt8) (start stop : Nat) : Nat → Nat → Nat → Read
  | 0, _, _ => .error .tooWide
  | left + 1, i, acc =>
    if stop ≤ start + i then .error .truncated
    else
      let byte := (data.getD (start + i) 0).toNat
      if byte < contBit then
        if i = cap - 1 ∧ last < byte then .error .outOfClass
        else .ok (acc ||| (byte <<< (payloadBits * i)) % 2 ^ 64, i + 1)
      else
        shortFrom cap last data start stop left (i + 1)
          (acc ||| ((byte &&& payloadMask) <<< (payloadBits * i)) % 2 ^ 64)

def short (cap last : Nat) (data : List UInt8) (start stop : Nat) : Read :=
  shortFrom cap last data start stop cap 0 0

def tiers (cap last : Nat) (data : List UInt8) (start stop : Nat) : Read :=
  if stop ≤ start then .error .truncated
  else
    let first := (data.getD start 0).toNat
    if first < contBit then .ok (first, 1)
    else if cap ≤ stop - start ∨ (data.getD (stop - 1) 0).toNat < contBit then
      contiguous cap last data start
    else short cap last data start stop

def tagWord (data : List UInt8) (start stop : Nat) : Read := tiers maxLen32 last32 data start stop

def lenWord (data : List UInt8) (start stop : Nat) : Read := tiers maxLen32 lastLen data start stop

def value64 (data : List UInt8) (start stop : Nat) : Read := tiers maxLen64 last64 data start stop

/-- The width-only walk, `left` iterations from its end. -/
def width64From (data : List UInt8) (start stop : Nat) : Nat → Nat → Except ReadFault Nat
  | 0, _ => .error .tooWide
  | left + 1, i =>
    if stop ≤ start + i then .error .truncated
    else
      let byte := (data.getD (start + i) 0).toNat
      if byte < contBit then
        if i = maxLen64 - 1 ∧ last64 < byte then .error .outOfClass else .ok (i + 1)
      else width64From data start stop left (i + 1)

def width64Trusted (data : List UInt8) (start stop : Nat) : Except ReadFault Nat :=
  width64From data start stop maxLen64 0

/-- The unjudged re-read; `none` is a walk that leaves the bytes or shifts past the word. -/
def value64UncheckedFrom : List UInt8 → Nat → Nat → Option Nat
  | [], _, _ => none
  | b :: rest, i, acc =>
    if 64 ≤ payloadBits * i then none
    else if b.toNat < contBit then some (acc ||| (b.toNat <<< (payloadBits * i)) % 2 ^ 64)
    else value64UncheckedFrom rest (i + 1)
      (acc ||| ((b.toNat &&& payloadMask) <<< (payloadBits * i)) % 2 ^ 64)

def value64Unchecked (data : List UInt8) (start : Nat) : Option Nat :=
  value64UncheckedFrom (data.drop start) 0 0

/-! ## One reader -/

/-- What a slice read makes of the reader's outcome: an extent that runs out is truncation. -/
def verdict : Outcome → Read
  | .done w _ => .ok (value w, w.length)
  | .more _ => .error .truncated
  | .cut _ _ => .error .truncated
  | .tooWide _ _ => .error .tooWide
  | .outOfClass _ _ => .error .outOfClass

section Fold

variable {held : List UInt8} {b : UInt8}

theorem fold_last (hb : b.toNat < contBit) (h : value (held ++ [b]) < 2 ^ 64) :
    value held ||| (b.toNat <<< (payloadBits * held.length)) % 2 ^ 64 = value (held ++ [b]) := by
  have hmask : b.toNat &&& payloadMask = b.toNat := by
    rw [show payloadMask = 2 ^ 7 - 1 by rfl, Nat.and_two_pow_sub_one_eq_mod]
    exact Nat.mod_eq_of_lt hb
  rw [← fold_digit h, hmask]

end Fold

section Tiers

variable {cap last : Nat} {data : List UInt8} {start stop : Nat}

theorem drop_eq_cons {i : Nat} (h : i < data.length) :
    data.drop i = data.getD i 0 :: data.drop (i + 1) := by
  rw [List.drop_eq_getElem_cons h]
  simp [h]

/-- The bounds-checked walk is the reader over the extent. -/
theorem shortFrom_eq (hcl : 128 ^ (cap - 1) * (last + 1) ≤ 2 ^ 64)
    (hstop : stop ≤ data.length) {left : Nat} {held : List UInt8} {acc : Nat}
    (hl : held.length + left = cap) (hacc : left = 0 ∨ acc = value held) :
    shortFrom cap last data start stop left held.length acc =
      verdict (resume cap last held (stop - (start + held.length))
        (data.drop (start + held.length))) := by
  induction left generalizing held acc with
  | zero =>
    have hcap : cap ≤ held.length := by omega
    cases hd : data.drop (start + held.length) <;> simp [shortFrom, resume, hcap, verdict]
  | succ left ih =>
    obtain rfl : acc = value held := by omega
    have hcap : ¬ cap ≤ held.length := by omega
    by_cases hs : stop ≤ start + held.length
    · have h0 : stop - (start + held.length) = 0 := by omega
      cases hd : data.drop (start + held.length) <;>
        simp [shortFrom, hs, h0, resume, hcap, verdict]
    have hroom : ¬ stop - (start + held.length) = 0 := by omega
    rw [drop_eq_cons (show start + held.length < data.length by omega)]
    simp only [shortFrom, resume, hs, hcap, hroom, if_false, contBit]
    set b := data.getD (start + held.length) 0
    by_cases hb : b.toNat < 128
    · simp only [hb, if_true]
      have hlast : held.length = cap - 1 ↔ held.length + 1 = cap := by omega
      simp only [hlast]
      by_cases hc : held.length + 1 = cap ∧ last < b.toNat
      · simp only [hc, and_self, if_true, verdict]
      · have hlt : value (held ++ [b]) < 2 ^ 64 :=
          Nat.lt_of_lt_of_le (value_concat_lt (by omega) fun h => by
            rw [Nat.mod_eq_of_lt hb]; omega) hcl
        simp only [hc, if_false, verdict, fold_last hb hlt, List.length_append, List.length_cons,
          List.length_nil]
    · simp only [hb, if_false]
      have := @ih (held ++ [b]) (value held |||
        ((b.toNat &&& payloadMask) <<< (payloadBits * held.length)) % 2 ^ 64) (by simp; omega) (by
          rcases Nat.eq_zero_or_pos left with h0 | h0
          · exact .inl h0
          · exact .inr (fold_digit (Nat.lt_of_lt_of_le
              (value_concat_lt (by omega) fun h => by omega) hcl)))
      simp only [List.length_append, List.length_cons, List.length_nil, Nat.zero_add,
        ← Nat.add_assoc] at this
      rw [this, Nat.sub_sub]

/-- The unchecked walk never leaves the extent: it is the bounds-checked one wherever the
window fits or the extent's last byte terminates. -/
theorem contiguousFrom_eq {left i acc : Nat} (hi : start + i < stop ∨ left = 0)
    (h : left ≤ stop - (start + i) ∨ (data.getD (stop - 1) 0).toNat < contBit) :
    contiguousFrom cap last data start left i acc =
      shortFrom cap last data start stop left i acc := by
  induction left generalizing i acc with
  | zero => rfl
  | succ left ih =>
    have hs : ¬ stop ≤ start + i := by omega
    simp only [contiguousFrom, shortFrom, hs, if_false]
    by_cases hb : (data.getD (start + i) 0).toNat < contBit
    · simp only [hb, if_true]
    · simp only [hb, if_false]
      refine ih ?_ ?_
      · rcases h with h | h
        · omega
        · -- the terminator is still ahead, so the extent is not used up
          have hne : start + i ≠ stop - 1 := fun he => hb (he ▸ h)
          omega
      · omega

/-- The three tiers are one reader over the extent. -/
theorem tiers_eq (hcap : 1 < cap) (hcl : 128 ^ (cap - 1) * (last + 1) ≤ 2 ^ 64)
    (hstop : stop ≤ data.length) :
    tiers cap last data start stop =
      verdict (resume cap last [] (stop - start) (data.drop start)) := by
  have hshort : start < stop → short cap last data start stop =
      verdict (resume cap last [] (stop - start) (data.drop start)) := fun _ =>
    @shortFrom_eq cap last data start stop hcl hstop cap [] 0 (Nat.zero_add _) (.inr rfl)
  rw [tiers]
  by_cases hs : stop ≤ start
  · have h0 : stop - start = 0 := by omega
    have hc : ¬ cap = 0 := by omega
    cases hd : data.drop start <;> simp [hs, h0, resume, hc, verdict]
  simp only [hs, if_false]
  by_cases hf : (data.getD start 0).toNat < contBit
  · rw [drop_eq_cons (by omega)]
    have hf' : (data.getD start 0).toNat < 128 := hf
    have h0 : ¬ stop - start = 0 := by omega
    have hc : ¬ cap = 0 := by omega
    have hc1 : ¬ 1 = cap := by omega
    simp only [hf, hf', if_true, resume, List.length_nil, Nat.le_zero, hc, h0, if_false,
      Nat.zero_add, hc1, false_and, List.nil_append, verdict, value_cons, value_nil,
      Nat.mod_eq_of_lt hf', List.length_cons, Nat.mul_zero, Nat.add_zero]
  simp only [hf, if_false]
  split
  case isTrue h =>
    rw [← hshort (by omega), contiguous, short]
    exact contiguousFrom_eq (.inl (by omega)) (h.imp_left (by omega))
  case isFalse => exact hshort (by omega)

end Tiers

/-! ## The three domains -/

section Domains

variable {data : List UInt8} {start stop : Nat}

theorem value64_eq (h : stop ≤ data.length) : value64 data start stop =
    verdict (resume maxLen64 last64 [] (stop - start) (data.drop start)) :=
  tiers_eq (by decide) (by decide) h

/-- A read that succeeds stands on a word of its domain, and only such a read does. -/
theorem tiers_ok {w : Window} (hw : w.Fits) {v width : Nat} :
    tiers w.cap w.last data start data.length = .ok (v, width) ↔
      ∃ word rest, data.drop start = word ++ rest ∧ IsWord w.cap w.last word ∧ v = value word ∧
        width = word.length := by
  have hlen : (data.drop start).length = data.length - start := List.length_drop
  rw [tiers_eq hw.1 hw.2 le_rfl]
  constructor
  · intro h
    cases ho : resume w.cap w.last [] (data.length - start) (data.drop start) with
    | done word rest =>
      rw [ho] at h
      cases h
      obtain ⟨hword, he, -⟩ := isWord_of_resume ho
      exact ⟨word, rest, he, hword, rfl, rfl⟩
    | _ => rw [ho] at h; cases h
  · rintro ⟨word, rest, he, hword, rfl, rfl⟩
    have hroom : word.length ≤ data.length - start := by
      rw [← hlen, he, List.length_append]; omega
    rw [he, hword.resume rest hroom]
    rfl

end Domains

end ProtobufEdit.Varint.Slice
