import ProtobufEdit.Base128
import ProtobufEdit.Wire

/-!
# Varint widths and emission

The wire's word windows (`tag`, LEN length, u64 value), the minimal-width formula and the
one emitter. `encodedLen` and `write64At` are the code's own arithmetic; each has one
lemma tying it to the base-128 words.
-/

namespace ProtobufEdit.Varint

open Base128 Wire

def payloadBits : Nat := 7

def contBit : Nat := 0x80

def payloadMask : Nat := 0x7F

def maxLen32 : Nat := 5

def maxLen64 : Nat := 10

def last32 : Nat := 0x0F

def last64 : Nat := 0x01

def lastLen : Nat := 0x07

/-- `bit_width * 9 / 64 + 1`; `Nat.size` is the bit width. -/
def encodedLen64 (v : Nat) : Nat := ((Nat.size v * 9) >>> 6) + 1

def encodedLen32 (v : Nat) : Nat := ((Nat.size v * 9) >>> 6) + 1

theorem encodedLen64_eq {v : Nat} (h : v < 2 ^ 64) : encodedLen64 v = width v := by
  rw [encodedLen64, Nat.shiftRight_eq_div_pow, width_eq_bits h]

theorem encodedLen32_eq {v : Nat} (h : v < 2 ^ 32) : encodedLen32 v = width v :=
  encodedLen64_eq (Nat.lt_trans h (by decide))

/-- The bytes `write64_at` stores: `len - 1` continued digits, then the low byte of what is
left of the value. -/
def write64At (v : Nat) : Nat → List UInt8
  | 0 => []
  | 1 => [UInt8.ofNat (v % 256)]
  | len + 2 => UInt8.ofNat ((v &&& payloadMask) ||| contBit) ::
      write64At (v >>> payloadBits) (len + 1)

theorem write64At_eq (v len : Nat) : write64At v len = spell len v := by
  induction len, v using spell.induct with
  | case1 => rfl
  | case2 v => exact congrArg (· :: []) (UInt8.toNat_inj.mp (by simp))
  | case3 len v ih =>
    have hor : v % 128 ||| 2 ^ 7 = v % 128 + 128 := by
      have hlt : v % 128 < 2 ^ 7 := Nat.mod_lt _ (by decide)
      have := Nat.two_pow_add_eq_or_of_lt hlt 1
      rw [Nat.mul_one] at this
      rw [Nat.or_comm, ← this, Nat.add_comm]
    simp only [write64At, spell, payloadMask, payloadBits, contBit]
    rw [show 0x7F = 2 ^ 7 - 1 by rfl, Nat.and_two_pow_sub_one_eq_mod, show 0x80 = 2 ^ 7 by rfl,
      Nat.shiftRight_eq_div_pow]
    exact congrArg₂ List.cons (congrArg UInt8.ofNat hor) ih

/-- `emit64`, and `push64` onto a buffer: the minimal spelling. -/
def emit64 (v : Nat) : List UInt8 := write64At v (encodedLen64 v)

theorem emit64_eq {v : Nat} (h : v < 2 ^ 64) : emit64 v = minimal v := by
  rw [emit64, write64At_eq, encodedLen64_eq h, minimal]

@[simp] theorem write64At_length (v len : Nat) : (write64At v len).length = len := by
  rw [write64At_eq, spell_length]

/-- One digit joins the kernels' accumulator without loss while the number stays a u64. -/
theorem fold_digit {held : List UInt8} {b : UInt8} (h : value (held ++ [b]) < 2 ^ 64) :
    value held ||| ((b.toNat &&& payloadMask) <<< (payloadBits * held.length)) % 2 ^ 64
      = value (held ++ [b]) := by
  have hv := value_lt held
  have hp : 128 ^ held.length = 2 ^ (7 * held.length) := by rw [pow_mul]; rfl
  have hmask : b.toNat &&& payloadMask = b.toNat % 128 := Nat.and_two_pow_sub_one_eq_mod _ 7
  rw [value_concat] at h ⊢
  rw [hp] at hv h ⊢
  rw [hmask, payloadBits, Nat.shiftLeft_eq, Nat.mul_comm (b.toNat % 128),
    Nat.mod_eq_of_lt (by omega), Nat.or_comm, ← Nat.two_pow_add_eq_or_of_lt hv, Nat.add_comm]

/-- The code bits do not reach a tag's width. -/
theorem width_tagWord (field : FieldNumber) (code : Low3) :
    width (tagWord field code) = width (tagWord field 0) := by
  have hcode := code.isLt
  have hfield := field.min_le
  have hdiv : tagWord field code / 128 = tagWord field 0 / 128 := by
    rw [tagWord_eq, tagWord_eq]
    show _ = (8 * field.asInner + 0) / 128
    omega
  have hsmall : tagWord field code < 128 ↔ tagWord field 0 < 128 := by omega
  unfold width
  by_cases h : tagWord field code < 128
  · rw [Nat.log_of_lt h, Nat.log_of_lt (hsmall.mp h)]
  · have h' := mt hsmall.mpr h
    rw [Nat.log_of_one_lt_of_le (by decide) (Nat.le_of_not_lt h),
      Nat.log_of_one_lt_of_le (by decide) (Nat.le_of_not_lt h'), hdiv]

theorem encodedLen32_tagWord (field : FieldNumber) (c d : Low3) :
    encodedLen32 (tagWord field c) = encodedLen32 (tagWord field d) := by
  rw [encodedLen32_eq (tagWord_lt field c), encodedLen32_eq (tagWord_lt field d), width_tagWord,
    width_tagWord field d]

/-! ## The three windows -/

theorem isWordLen_le {w : List UInt8} (h : IsWord maxLen32 lastLen w) : value w ≤ 2147483647 :=
  Nat.le_of_lt_succ h.value_lt

theorem minimal_isWord32 {v : Nat} (h : v < 2 ^ 32) : IsWord maxLen32 last32 (minimal v) :=
  minimal_isWord (by decide) (by decide) h

theorem minimal_isWordLen {v : Nat} (h : v ≤ 2147483647) : IsWord maxLen32 lastLen (minimal v) :=
  minimal_isWord (by decide) (by decide) (Nat.lt_succ_of_le h)

theorem minimal_isWord64 {v : Nat} (h : v < 2 ^ 64) : IsWord maxLen64 last64 (minimal v) :=
  minimal_isWord (by decide) (by decide) h

/-! ## Word domains -/

def widthPadded (width word : Nat) (standard : Standard) (minimal : Nat → Nat) : Bool :=
  standard = .canonicalMinimal && width != minimal word

/-- A word domain: its window, its terminal class and its minimal-width formula. -/
structure Window where
  cap : Nat
  last : Nat
  minimal : Nat → Nat

namespace Window

def tag : Window := ⟨maxLen32, last32, encodedLen32⟩

def len : Window := ⟨maxLen32, lastLen, encodedLen32⟩

protected def value : Window := ⟨maxLen64, last64, encodedLen64⟩

/-- The window's words fit the kernels' accumulator. -/
def Fits (w : Window) : Prop := 1 < w.cap ∧ 128 ^ (w.cap - 1) * (w.last + 1) ≤ 2 ^ 64

theorem tag_fits : tag.Fits := ⟨by decide, by decide⟩

theorem len_fits : len.Fits := ⟨by decide, by decide⟩

theorem value_fits : Window.value.Fits := ⟨by decide, by decide⟩

/-- Whether the standard refuses a completed word for its width. -/
def padded (w : Window) (standard : Standard) (word : List UInt8) : Bool :=
  widthPadded word.length (Base128.value word) standard w.minimal

/-- The words the domain admits under the standard. -/
structure Admits (w : Window) (standard : Standard) (word : List UInt8) : Prop where
  isWord : IsWord w.cap w.last word
  width : w.padded standard word = false

end Window

def fromLeBytes : List UInt8 → Nat
  | [] => 0
  | b :: bytes => b.toNat + 256 * fromLeBytes bytes

/-- `to_le_bytes`, at a width in bytes. -/
def toLeBytes : Nat → Nat → List UInt8
  | 0, _ => []
  | n + 1, v => UInt8.ofNat (v % 256) :: toLeBytes n (v / 256)

@[simp] theorem toLeBytes_length (n v : Nat) : (toLeBytes n v).length = n := by
  induction n generalizing v with
  | zero => rfl
  | succ n ih => exact congrArg Nat.succ (ih _)

theorem fromLeBytes_toLeBytes {n v : Nat} (h : v < 256 ^ n) : fromLeBytes (toLeBytes n v) = v := by
  induction n generalizing v with
  | zero =>
    rw [pow_zero] at h
    exact (Nat.lt_one_iff.mp h).symm
  | succ n ih =>
    have hdiv : v / 256 < 256 ^ n := Nat.div_lt_of_lt_mul (by rwa [pow_succ'] at h)
    have hbyte : (UInt8.ofNat (v % 256)).toNat = v % 256 := by
      rw [UInt8.toNat_ofNat']
      exact Nat.mod_mod _ _
    rw [toLeBytes, fromLeBytes, ih hdiv, hbyte]
    exact Nat.mod_add_div v 256

end ProtobufEdit.Varint
