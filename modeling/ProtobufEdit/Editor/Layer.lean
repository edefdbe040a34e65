import ProtobufEdit.Cursor.Grouped
import ProtobufEdit.Editor.Doc

/-!
# Layers

What a scan reads of some bytes: records, groups and what they hold, up to the first bytes no
construct stands at. Every bytes have a layer; one that is not cut short is a forest of records.
-/

namespace ProtobufEdit.Editor

open Wire Wire.Grouped Varint Base128 Arena Cursor

/-- A layer of bytes. The last two shapes are cut short. -/
inductive Layer where
  | nil
  | record (r : Record) (rest : Layer)
  | group (field : FieldNumber) (opener : List UInt8) (inner : Layer) (closer : List UInt8)
      (rest : Layer)
  /-- No construct stands here. -/
  | refused (unread : List UInt8)
  /-- A group that is cut short. -/
  | torn (field : FieldNumber) (opener : List UInt8) (inner : Layer)
  deriving DecidableEq, Repr

/-- No construct stands at the bytes' head; `opened` is the group around, `room` how many more
groups may open. -/
structure Refuses (dialect : Dialect) (standard : Standard) (opened : Option FieldNumber)
    (room : Nat) (bytes : List UInt8) : Prop where
  ends : bytes = [] → opened ≠ none
  record : ∀ (r : Record) (rest : List UInt8), bytes = r.bytes ++ rest → ¬ r.Lawful standard
  opener : ∀ (field : FieldNumber) (tag rest : List UInt8), bytes = tag ++ rest →
    IsTag standard field 3 tag → dialect = .groupless ∨ room = 0
  closer : ∀ (field : FieldNumber) (tag rest : List UInt8), bytes = tag ++ rest →
    IsTag standard field 4 tag → dialect = .groupless ∨ opened ≠ some field

def Record.met (r : Record) : Met :=
  match r.payload with
  | .varint word => ⟨r.tag, [], word⟩
  | .i64 bits | .i32 bits => ⟨r.tag, [], bits⟩
  | .len word payload => ⟨r.tag, word, payload⟩

namespace Layer

def bytes : Layer → List UInt8
  | nil => []
  | record r rest => r.bytes ++ rest.bytes
  | group _ opener inner closer rest => opener ++ inner.bytes ++ closer ++ rest.bytes
  | refused unread => unread
  | torn _ opener inner => opener ++ inner.bytes

def cut : Layer → Bool
  | nil => false
  | record _ rest | group _ _ _ _ rest => rest.cut
  | refused _ | torn _ _ _ => true

/-- How many records there are. -/
def size : Layer → Nat
  | record _ rest => rest.size + 1
  | group _ _ inner _ rest => inner.size + rest.size + 1
  | torn _ _ inner => inner.size + 1
  | _ => 0

/-- The records and framing tags are lawful, groups nest within the room, and what is cut short
is. -/
def Lawful (dialect : Dialect) (standard : Standard) : Option FieldNumber → Nat → Layer → Prop
  | _, _, nil => True
  | opened, room, record r rest => r.Lawful standard ∧ rest.Lawful dialect standard opened room
  | opened, room, group field opener inner closer rest =>
    dialect = .grouped ∧ IsTag standard field 3 opener ∧ 0 < room ∧ inner.cut = false ∧
      inner.Lawful dialect standard (some field) (room - 1) ∧ IsTag standard field 4 closer ∧
      rest.Lawful dialect standard opened room
  | opened, room, refused unread => Refuses dialect standard opened room unread
  | _, room, torn field opener inner =>
    dialect = .grouped ∧ IsTag standard field 3 opener ∧ 0 < room ∧ inner.cut = true ∧
      inner.Lawful dialect standard (some field) (room - 1)

/-- What a layer leaves of the bytes: nothing, or the end tag of the group around and what
follows. -/
def Ends (dialect : Dialect) (standard : Standard) (opened : Option FieldNumber)
    (bytes : List UInt8) (layer : Layer) : Prop :=
  if layer.cut then layer.bytes = bytes
  else
    match opened with
    | none => layer.bytes = bytes
    | some field => dialect = .grouped ∧ ∃ closer rest, bytes = layer.bytes ++ closer ++ rest ∧
        IsTag standard field 4 closer

/-- The layer is the bytes' own. -/
structure Reads (dialect : Dialect) (standard : Standard) (room : Nat) (bytes : List UInt8)
    (layer : Layer) : Prop where
  bytes : layer.bytes = bytes
  lawful : layer.Lawful dialect standard none room

/-! ## Every bytes have a layer -/

section Exists

variable {dialect : Dialect} {standard : Standard} {opened : Option FieldNumber} {room : Nat}
  {bytes : List UInt8}

theorem Ends.behind {front : List UInt8} {layer layer' : Layer}
    (h : layer.Ends dialect standard opened bytes) (hcut : layer'.cut = layer.cut)
    (hbytes : layer'.bytes = front ++ layer.bytes) :
    layer'.Ends dialect standard opened (front ++ bytes) := by
  unfold Ends at h ⊢
  rw [hcut, hbytes]
  split
  case isTrue hc =>
    rw [if_pos hc] at h
    rw [h]
  case isFalse hc =>
    rw [if_neg hc] at h
    cases opened with
    | none =>
      have h : layer.bytes = bytes := h
      show front ++ layer.bytes = front ++ bytes
      rw [h]
    | some field =>
      obtain ⟨hd, closer, rest, he, ht⟩ := h
      exact ⟨hd, closer, rest, by rw [he]; simp only [List.append_assoc], ht⟩

/-- Bytes that are not refused begin with a construct, or end. -/
theorem construct_of_not_refuses (h : ¬ Refuses dialect standard opened room bytes) :
    bytes = [] ∧ opened = none ∨
      (∃ r rest, bytes = Record.bytes r ++ rest ∧ r.Lawful standard) ∨
      (∃ field tag rest, bytes = tag ++ rest ∧ IsTag standard field 3 tag ∧
        dialect = .grouped ∧ 0 < room) ∨
      ∃ field tag rest, bytes = tag ++ rest ∧ IsTag standard field 4 tag ∧
        dialect = .grouped ∧ opened = some field := by
  have hd : dialect = .groupless ∨ dialect = .grouped := by cases dialect <;> simp
  by_contra hn
  simp only [not_or, not_and, not_exists] at hn
  obtain ⟨h₁, h₂, h₃, h₄⟩ := hn
  refine h ⟨h₁, h₂, fun field tag rest he ht => ?_, fun field tag rest he ht => ?_⟩
  · rcases hd with hd | hd
    · exact .inl hd
    · exact .inr (Nat.eq_zero_of_not_pos (h₃ field tag rest he ht hd))
  · rcases hd with hd | hd
    · exact .inl hd
    · exact .inr (h₄ field tag rest he ht hd)

theorem exists_layer (dialect : Dialect) (standard : Standard) (opened : Option FieldNumber)
    (room : Nat) (bytes : List UInt8) : ∃ layer : Layer,
      layer.Lawful dialect standard opened room ∧ layer.Ends dialect standard opened bytes := by
  induction hn : bytes.length using Nat.strong_induction_on generalizing opened room bytes with
  | _ n ih =>
    by_cases href : Refuses dialect standard opened room bytes
    · exact ⟨.refused bytes, href, rfl⟩
    · rcases construct_of_not_refuses href with ⟨rfl, rfl⟩ | ⟨r, rest, rfl, hlaw⟩ |
        ⟨field, opener, rest, rfl, ht, hd, hroom⟩ | ⟨field, closer, rest, rfl, ht, hd, rfl⟩
      · exact ⟨.nil, trivial, rfl⟩
      · have hpos := hlaw.length_pos
        rw [List.length_append] at hn
        obtain ⟨layer, hlayer, hends⟩ := ih rest.length (by omega) opened room rest rfl
        exact ⟨.record r layer, ⟨hlaw, hlayer⟩, hends.behind rfl rfl⟩
      · have hpos := ht.admits.isWord.length_pos
        rw [List.length_append] at hn
        obtain ⟨inner, hinner, hin⟩ :=
          ih rest.length (by omega) (some field) (room - 1) rest rfl
        unfold Ends at hin
        cases hcut : inner.cut with
        | true =>
          rw [if_pos hcut] at hin
          exact ⟨.torn field opener inner, ⟨hd, ht, hroom, hcut, hinner⟩, by rw [← hin]; rfl⟩
        | false =>
          rw [if_neg (by rw [hcut]; decide)] at hin
          obtain ⟨-, closer, behind, he, hc⟩ := hin
          have hlen := congrArg List.length he
          simp only [List.length_append] at hlen
          obtain ⟨layer, hlayer, hends⟩ := ih behind.length (by omega) opened room behind rfl
          refine ⟨.group field opener inner closer layer,
            ⟨hd, ht, hroom, hcut, hinner, hc, hlayer⟩, ?_⟩
          rw [he, ← List.append_assoc, ← List.append_assoc]
          exact hends.behind rfl rfl
      · exact ⟨.nil, trivial, hd, closer, rest, rfl, ht⟩

theorem exists_reads (dialect : Dialect) (standard : Standard) (room : Nat)
    (bytes : List UInt8) : ∃ layer : Layer, layer.Reads dialect standard room bytes := by
  obtain ⟨layer, hlaw, hends⟩ := exists_layer dialect standard none room bytes
  refine ⟨layer, ?_, hlaw⟩
  unfold Ends at hends
  split at hends <;> exact hends

end Exists

end Layer

/-- The bytes' layer. -/
noncomputable def layerOf (dialect : Dialect) (standard : Standard) (room : Nat)
    (bytes : List UInt8) : Layer :=
  Classical.choose (Layer.exists_reads dialect standard room bytes)

theorem layerOf_reads (dialect : Dialect) (standard : Standard) (room : Nat)
    (bytes : List UInt8) :
    (layerOf dialect standard room bytes).Reads dialect standard room bytes :=
  Classical.choose_spec (Layer.exists_reads dialect standard room bytes)

/-! ## The forest of a layer -/

/-- A record's row and what it stands for. -/
structure Node where
  row : Row
  entry : Entry
  deriving DecidableEq, Repr

/-- A record as the scan finds it. -/
def Node.scanned (standard : Standard) (field : FieldNumber) (kind : RecordKind) (pos : Nat)
    (met : Met) : Node :=
  ⟨.scanned field kind pos met.content.length (column standard (some met.tag.length))
      (column standard
        (match kind with
        | .len | .group => some met.delim.length
        | _ => none)),
    .scanned field kind pos met⟩

/-- The record's kind under the editors' table. -/
def recordKind (r : Record) : RecordKind := Cursor.Grouped.ofBody r.payload.kind

/-- The records of a layer that starts at `pos`, minted from `base` on. -/
def Layer.forest (standard : Standard) : Nat → Nat → Layer → Forest Node
  | base, pos, record r rest =>
    .node base (.scanned standard r.field (recordKind r) pos (Record.met r)) .nil
      (rest.forest standard (base + 1) (pos + r.bytes.length))
  | base, pos, group field opener inner closer rest =>
    .node base (.scanned standard field .group pos ⟨opener, closer, inner.bytes⟩)
      (inner.forest standard (base + 1) (pos + opener.length))
      (rest.forest standard (base + 1 + inner.size)
        (pos + (opener ++ inner.bytes ++ closer).length))
  | _, _, _ => .nil

end ProtobufEdit.Editor
