import Mathlib.Order.Basic
import Mathlib.Tactic.Ring

/-!
# The wire alphabet

The value classes a tag and a length word are admitted into, and the two dialects'
tables over a tag's three code bits. Words are `Nat`; every composed word lies below `2 ^ 32`.
-/

namespace ProtobufEdit

/-- Whether a padded varint is lawful wire. -/
inductive Standard where
  | tolerant
  | canonicalMinimal
  deriving DecidableEq, Repr

/-- The caller's nesting bound. -/
structure DepthLimit where
  asInner : Nat
  min_le : 1 ≤ asInner
  le_max : asInner ≤ 10000
  deriving DecidableEq, Repr

namespace Wire

structure FieldNumber where
  asInner : Nat
  min_le : 1 ≤ asInner
  le_max : asInner ≤ 536870911
  deriving DecidableEq, Repr

namespace FieldNumber

instance : Inhabited FieldNumber := ⟨⟨1, by decide, by decide⟩⟩

def new (n : Nat) : Option FieldNumber :=
  if h : 1 ≤ n ∧ n ≤ 536870911 then some ⟨n, h.1, h.2⟩ else none

def fromWord (word : Nat) : Option FieldNumber := new (word >>> 3)

theorem ext_inner {f g : FieldNumber} (h : f.asInner = g.asInner) : f = g := by
  cases f; cases g; simp_all

instance : LinearOrder FieldNumber :=
  LinearOrder.lift' asInner fun _ _ => ext_inner

end FieldNumber

structure PayloadLen where
  asInner : Nat
  le_max : asInner ≤ 2147483647
  deriving DecidableEq, Repr

namespace PayloadLen

/-- `PayloadLen::MAX`. -/
def max : Nat := 2147483647

/-- The unchecked face: the identity on the class, all its callers pass. -/
def newUnchecked (n : Nat) : PayloadLen := ⟨n % 2147483648, by omega⟩

theorem newUnchecked_asInner {n : Nat} (h : n ≤ 2147483647) : (newUnchecked n).asInner = n :=
  Nat.mod_eq_of_lt (by omega)

end PayloadLen

abbrev Low3 := Fin 8

instance Low3.neZero : NeZero 8 := ⟨by decide⟩

def Low3.fromWord (word : Nat) : Low3 :=
  ⟨word &&& 7, Nat.lt_succ_of_le Nat.and_le_right⟩

def tagWord (field : FieldNumber) (code : Low3) : Nat :=
  (field.asInner <<< 3) ||| code.val

theorem tagWord_eq (field : FieldNumber) (code : Low3) :
    tagWord field code = 8 * field.asInner + code.val := by
  rw [tagWord, ← Nat.shiftLeft_add_eq_or_of_lt (by exact code.isLt), Nat.shiftLeft_eq]
  omega

theorem tagWord_lt (field : FieldNumber) (code : Low3) : tagWord field code < 2 ^ 32 := by
  have := field.le_max
  have := code.isLt
  rw [tagWord_eq]
  omega

@[simp] theorem fromWord_tagWord (field : FieldNumber) (code : Low3) :
    FieldNumber.fromWord (tagWord field code) = some field := by
  have hc := code.isLt
  have hd : (8 * field.asInner + code.val) / 8 = field.asInner := by omega
  rw [FieldNumber.fromWord, tagWord_eq, Nat.shiftRight_eq_div_pow]
  simp [FieldNumber.new, hd, field.min_le, field.le_max]

@[simp] theorem low3_tagWord (field : FieldNumber) (code : Low3) :
    Low3.fromWord (tagWord field code) = code := by
  have hc := code.isLt
  apply Fin.ext
  rw [Low3.fromWord, tagWord_eq]
  show (8 * field.asInner + code.val) &&& 7 = code.val
  rw [show 7 = 2 ^ 3 - 1 by rfl, Nat.and_two_pow_sub_one_eq_mod]
  omega

/-- A word that names a field is the tag of that field and its own code bits. -/
theorem tagWord_of_fromWord {word : Nat} {field : FieldNumber}
    (h : FieldNumber.fromWord word = some field) : tagWord field (Low3.fromWord word) = word := by
  simp only [FieldNumber.fromWord, FieldNumber.new] at h
  split at h
  case isFalse => cases h
  cases h
  rw [tagWord_eq]
  show 8 * (word >>> 3) + (word &&& 7) = word
  rw [show 7 = 2 ^ 3 - 1 by rfl, Nat.and_two_pow_sub_one_eq_mod, Nat.shiftRight_eq_div_pow]
  omega

/-! ## The grouped table -/

namespace Grouped

inductive RecordKind where
  | varint
  | i64
  | len
  | group
  | i32
  deriving DecidableEq, Repr

def RecordKind.low3 : RecordKind → Low3
  | varint => 0
  | i64 => 1
  | len => 2
  | group => 3
  | i32 => 5

inductive TagClass where
  | record (kind : RecordKind)
  | groupEnd
  | unassigned
  deriving DecidableEq, Repr

def classify : Low3 → TagClass
  | 0 => .record .varint
  | 1 => .record .i64
  | 2 => .record .len
  | 3 => .record .group
  | 4 => .groupEnd
  | 5 => .record .i32
  | 6 => .unassigned
  | 7 => .unassigned

def headWord (field : FieldNumber) (kind : RecordKind) : Nat := tagWord field kind.low3

def groupEndWord (field : FieldNumber) : Nat := tagWord field 4

theorem low3_of_classify {code : Low3} {kind : RecordKind} (h : classify code = .record kind) :
    code = kind.low3 := by
  cases kind <;> revert h <;> revert code <;> decide

theorem code_of_groupEnd {code : Low3} (h : classify code = .groupEnd) : code = 4 := by
  revert h
  revert code
  decide

end Grouped

/-! ## The groupless table -/

namespace Groupless

inductive RecordKind where
  | varint
  | i64
  | len
  | i32
  deriving DecidableEq, Repr

def RecordKind.low3 : RecordKind → Low3
  | varint => 0
  | i64 => 1
  | len => 2
  | i32 => 5

inductive TagClass where
  | record (kind : RecordKind)
  | groupCode
  | unassigned
  deriving DecidableEq, Repr

def classify : Low3 → TagClass
  | 0 => .record .varint
  | 1 => .record .i64
  | 2 => .record .len
  | 3 => .groupCode
  | 4 => .groupCode
  | 5 => .record .i32
  | 6 => .unassigned
  | 7 => .unassigned

def headWord (field : FieldNumber) (kind : RecordKind) : Nat := tagWord field kind.low3

@[simp] theorem classify_low3 (kind : RecordKind) : classify kind.low3 = .record kind := by
  cases kind <;> rfl

theorem low3_of_classify {code : Low3} {kind : RecordKind} (h : classify code = .record kind) :
    code = kind.low3 := by
  cases kind <;> revert h <;> revert code <;> decide

end Groupless

end Wire

/-- The construct a refused varint read was serving. -/
inductive Stage where
  | tag
  | lenPrefix (field : Wire.FieldNumber)
  | value (field : Wire.FieldNumber)
  deriving DecidableEq, Repr

end ProtobufEdit
