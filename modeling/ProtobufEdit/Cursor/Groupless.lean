import ProtobufEdit.Cursor

/-!
# The groupless cursor

The buffered walk over a document without groups: one step delivers a record, or the walk's
first refusal. `step_ok` says that a step delivers exactly the lawful record at its position.
-/

namespace ProtobufEdit.Cursor.Groupless

open Wire Wire.Groupless Varint

set_option linter.dupNamespace false

inductive FaultKind where
  | record (fault : RecordFault)
  | groupCode (field : FieldNumber) (code : Low3)
  deriving DecidableEq, Repr

structure Fault where
  pos : Nat
  kind : FaultKind
  deriving DecidableEq, Repr

/-- The wire breach, summarized by who acts on it. -/
inductive WireBreach where
  | varint
  | tag
  | truncated
  | depth
  | nonMinimal
  | groupCode
  deriving DecidableEq, Repr

def breach : FaultKind → WireBreach
  | .record (.read _ _) => .varint
  | .record (.fieldZero _) | .record (.unassigned _ _) => .tag
  | .groupCode _ _ => .groupCode
  | .record (.fixedTruncated _) | .record (.lenOverrun _ _) => .truncated
  | .record .nonMinimalTag | .record (.nonMinimalLen _) | .record (.nonMinimalValue _) =>
    .nonMinimal

structure Entry where
  field : FieldNumber
  value : Value
  deriving DecidableEq, Repr

/-- The widths are the last head's. -/
structure Cursor where
  data : List UInt8
  pos : Nat
  tagWidth : Nat
  lenWidth : Nat
  deriving DecidableEq, Repr

/-- The admission cap: `i32::MAX` bytes. -/
def Cursor.over (data : List UInt8) : Option Cursor :=
  if data.length > PayloadLen.max then none else some ⟨data, 0, 0, 0⟩

/-- `none` is the panic over a payload outside the LEN class. -/
def within (payload : List UInt8) : Option Cursor :=
  if payload.length ≤ PayloadLen.max then some ⟨payload, 0, 0, 0⟩ else none

abbrev Stepped := Option (Except Fault Entry) × Cursor

/-- A refusal empties the window; `pos` stays at the refused head. -/
def Cursor.fault (c : Cursor) (pos : Nat) (kind : FaultKind) : Stepped :=
  (some (.error ⟨pos, kind⟩), { c with data := [] })

def step (standard : Standard) (c : Cursor) : Stepped :=
  if c.data.length ≤ c.pos then (none, c)
  else
    match readHead standard c.data c.pos with
    | .error (pos, fault) => c.fault pos (.record fault)
    | .ok (field, low3, tagW) =>
      match classify low3 with
      | .record kind =>
        match readBody standard c.data (c.pos + tagW) field kind with
        | .error (pos, fault) => c.fault pos (.record fault)
        | .ok b =>
          (some (.ok ⟨field, b.value⟩), { c with
            pos := b.stop, tagWidth := tagW, lenWidth := b.lenWidth })
      | .groupCode => c.fault c.pos (.groupCode field low3)
      | .unassigned => c.fault c.pos (.record (.unassigned field low3))

/-! ## A step delivers the record at its position -/

section Step

variable {standard : Standard} {c c' : Cursor} {entry : Entry}

/-- The cursor behind a record. -/
def Cursor.past (c : Cursor) (r : Record) : Cursor :=
  { c with
    pos := c.pos + r.bytes.length, tagWidth := r.tag.length, lenWidth := r.payload.lenWidth }

theorem step_end (h : c.data.drop c.pos = []) : step standard c = (none, c) :=
  if_pos (List.drop_eq_nil_iff.mp h)

theorem step_record {r : Record} {rest : List UInt8}
    (h : first standard (c.data.drop c.pos) = some (r, rest)) :
    step standard c = (some (.ok ⟨r.field, r.payload.value⟩), c.past r) ∧
      (c.past r).data.drop (c.past r).pos = rest := by
  obtain ⟨he, hlaw⟩ := first_iff.mp h
  have hlen := length_of_drop_eq he
  have hpos := hlaw.length_pos
  have he' : c.data.drop c.pos = r.tag ++ (r.payload.bytes ++ rest) := by
    rw [he, Record.bytes, List.append_assoc]
  have hhead := readHead_ok.mpr ⟨r.tag, _, he', hlaw.isTag, rfl⟩
  have hbody := (@readBody_ok standard c.data (c.pos + r.tag.length) r.field r.payload.kind _).mpr
    ⟨r.payload, rest, drop_of_drop_eq he', hlaw.payload, rfl, rfl⟩
  refine ⟨?_, drop_of_drop_eq he⟩
  unfold step
  rw [if_neg (by omega)]
  simp only [hhead, classify_low3, hbody, Cursor.past, Record.bytes, List.length_append,
    Nat.add_assoc]

/-- A step that delivers stands on a lawful record. -/
theorem step_ok (h : step standard c = (some (.ok entry), c')) :
    ∃ r rest, first standard (c.data.drop c.pos) = some (r, rest) ∧
      entry = ⟨r.field, r.payload.value⟩ ∧ c' = c.past r := by
  unfold step at h
  split at h
  case isTrue => cases h
  case isFalse =>
    split at h
    case h_1 => cases h
    case h_2 field code tagW hhead =>
      obtain ⟨tag, behind, he, htag, rfl⟩ := readHead_ok.mp hhead
      split at h
      case h_2 => cases h
      case h_3 => cases h
      case h_1 kind hclass =>
        split at h
        case h_1 => cases h
        case h_2 b hbody =>
          obtain ⟨p, rest, hp, hlaw, rfl, rfl⟩ := readBody_ok.mp hbody
          obtain rfl := low3_of_classify hclass
          cases h
          refine ⟨⟨field, tag, p⟩, rest, first_iff.mpr ⟨?_, htag, hlaw⟩, rfl, ?_⟩
          · rw [he, ← drop_of_drop_eq he, hp, Record.bytes, List.append_assoc]
          · simp only [Cursor.past, Record.bytes, List.length_append, Nat.add_assoc]

/-- Where no lawful record stands the step refuses. -/
theorem step_refuses (hne : c.data.drop c.pos ≠ [])
    (h : first standard (c.data.drop c.pos) = none) :
    ∃ fault c', step standard c = (some (.error fault), c') := by
  cases hs : step standard c with
  | mk item c' =>
    cases item with
    | none =>
      unfold step at hs
      split at hs
      case isTrue hend => exact absurd (List.drop_eq_nil_iff.mpr hend) hne
      case isFalse => repeat (split at hs <;> try cases hs)
    | some item =>
      cases item with
      | error fault => exact ⟨fault, c', rfl⟩
      | ok entry =>
        obtain ⟨r, rest, hf, -⟩ := step_ok hs
        rw [hf] at h
        cases h

end Step

end ProtobufEdit.Cursor.Groupless
