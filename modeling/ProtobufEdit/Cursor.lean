import ProtobufEdit.Varint.Slice

/-!
# Records over buffered bytes

The record heads and bodies both dialects' cursors read, and what a record is on the wire:
a tag and a payload. `readHead_ok` and `readBody_ok` say that the readers deliver exactly
the lawful records standing at their position.
-/

namespace ProtobufEdit.Cursor

open Wire Varint Base128

/-! ## The code -/

/-- The refusals both dialects' records share. -/
inductive RecordFault where
  | read (stage : Stage) (cause : Slice.ReadFault)
  | fieldZero (word : Nat)
  | unassigned (field : FieldNumber) (code : Low3)
  | fixedTruncated (field : FieldNumber)
  | lenOverrun (field : FieldNumber) (len : PayloadLen)
  | nonMinimalTag
  | nonMinimalLen (field : FieldNumber)
  | nonMinimalValue (field : FieldNumber)
  deriving DecidableEq, Repr

/-- A record's delivered value; `len` is the payload slice. -/
inductive Value where
  | varint (v : Nat)
  | i64 (bits : Nat)
  | i32 (bits : Nat)
  | len (payload : List UInt8)
  deriving DecidableEq, Repr

/-- What a record's arm commits: the value, the position behind it, its LEN prefix's width. -/
structure Body where
  value : Value
  stop : Nat
  lenWidth : Nat
  deriving DecidableEq, Repr

/-- The head at `head`: field, code and tag width. -/
def readHead (standard : Standard) (data : List UInt8) (head : Nat) :
    Except (Nat × RecordFault) (FieldNumber × Low3 × Nat) :=
  match Slice.tagWord data head data.length with
  | .error cause => .error (head, .read .tag cause)
  | .ok (word, tagW) =>
    if widthPadded tagW word standard encodedLen32 then .error (head, .nonMinimalTag)
    else
      match FieldNumber.fromWord word with
      | none => .error (head, .fieldZero word)
      | some field => .ok (field, Low3.fromWord word, tagW)

def readVarint (standard : Standard) (data : List UInt8) (valueAt : Nat) (field : FieldNumber) :
    Except (Nat × RecordFault) Body :=
  match Slice.value64 data valueAt data.length with
  | .error cause => .error (valueAt, .read (.value field) cause)
  | .ok (v, width) =>
    if widthPadded width v standard encodedLen64 then .error (valueAt, .nonMinimalValue field)
    else .ok ⟨.varint v, valueAt + width, 0⟩

/-- The fixed arms, by their width and their value. -/
def readFixed (need : Nat) (deliver : Nat → Value) (data : List UInt8) (valueAt : Nat)
    (field : FieldNumber) : Except (Nat × RecordFault) Body :=
  if data.length - valueAt < need then .error (valueAt, .fixedTruncated field)
  else .ok ⟨deliver (fromLeBytes ((data.drop valueAt).take need)), valueAt + need, 0⟩

def readLen (standard : Standard) (data : List UInt8) (valueAt : Nat) (field : FieldNumber) :
    Except (Nat × RecordFault) Body :=
  match Slice.lenWord data valueAt data.length with
  | .error cause => .error (valueAt, .read (.lenPrefix field) cause)
  | .ok (len, width) =>
    if widthPadded width len standard encodedLen32 then .error (valueAt, .nonMinimalLen field)
    else
      let payloadAt := valueAt + width
      if data.length - payloadAt < len then
        .error (payloadAt, .lenOverrun field (.newUnchecked len))
      else .ok ⟨.len ((data.drop payloadAt).take len), payloadAt + len, width⟩

/-- The record arms both dialects share. -/
def readBody (standard : Standard) (data : List UInt8) (valueAt : Nat) (field : FieldNumber) :
    Groupless.RecordKind → Except (Nat × RecordFault) Body
  | .varint => readVarint standard data valueAt field
  | .i64 => readFixed 8 .i64 data valueAt field
  | .i32 => readFixed 4 .i32 data valueAt field
  | .len => readLen standard data valueAt field

/-! ## Records on the wire -/

/-- A tag's bytes, lawful under the standard. -/
structure IsTag (standard : Standard) (field : FieldNumber) (code : Low3) (tag : List UInt8) :
    Prop where
  admits : Window.tag.Admits standard tag
  spells : value tag = tagWord field code

/-- What stands behind a record's tag. -/
inductive Payload where
  | varint (word : List UInt8)
  | i64 (bits : List UInt8)
  | i32 (bits : List UInt8)
  | len (word payload : List UInt8)
  deriving DecidableEq, Repr

namespace Payload

def bytes : Payload → List UInt8
  | varint word => word
  | i64 bits => bits
  | i32 bits => bits
  | len word payload => word ++ payload

def kind : Payload → Groupless.RecordKind
  | varint _ => .varint
  | i64 _ => .i64
  | i32 _ => .i32
  | len _ _ => .len

protected def value : Payload → Value
  | varint word => .varint (Base128.value word)
  | i64 bits => .i64 (fromLeBytes bits)
  | i32 bits => .i32 (fromLeBytes bits)
  | len _ payload => .len payload

def lenWidth : Payload → Nat
  | len word _ => word.length
  | _ => 0

def Lawful (standard : Standard) : Payload → Prop
  | varint word => Window.value.Admits standard word
  | i64 bits => bits.length = 8
  | i32 bits => bits.length = 4
  | len word payload => Window.len.Admits standard word ∧ Base128.value word = payload.length

end Payload

/-! ## Minimal spellings are lawful under either standard -/

section Minimal

variable (standard : Standard)

theorem admits_minimal {w : Window} {v : Nat} (hword : IsWord w.cap w.last (minimal v))
    (hwidth : w.minimal v = width v) : w.Admits standard (minimal v) := by
  refine ⟨hword, ?_⟩
  rw [Window.padded, widthPadded, value_minimal, minimal_length, hwidth]
  simp

theorem isTag_minimal (field : FieldNumber) (code : Low3) :
    IsTag standard field code (minimal (tagWord field code)) :=
  ⟨admits_minimal standard (minimal_isWord32 (tagWord_lt field code))
    (encodedLen32_eq (tagWord_lt field code)), value_minimal _⟩

theorem admits_minimal_len {n : Nat} (h : n ≤ PayloadLen.max) :
    Window.len.Admits standard (minimal n) :=
  admits_minimal standard (minimal_isWordLen h)
    (encodedLen32_eq (Nat.lt_of_le_of_lt h (by decide)))

theorem admits_minimal_value {v : Nat} (h : v < 2 ^ 64) :
    Window.value.Admits standard (minimal v) :=
  admits_minimal standard (minimal_isWord64 h) (encodedLen64_eq h)

end Minimal

/-! ## The readers deliver the lawful records -/

section Spec

variable {standard : Standard} {data : List UInt8} {pos : Nat} {field : FieldNumber}

theorem drop_of_drop_eq {u rest : List UInt8} (h : data.drop pos = u ++ rest) :
    data.drop (pos + u.length) = rest := by
  rw [← List.drop_drop, h, List.drop_left]

theorem length_of_drop_eq {u rest : List UInt8} (h : data.drop pos = u ++ rest) :
    data.length - pos = u.length + rest.length := by
  rw [← List.length_drop, h, List.length_append]

theorem tagWord_ok {v width : Nat} : Slice.tagWord data pos data.length = .ok (v, width) ↔
    ∃ word rest, data.drop pos = word ++ rest ∧ IsWord maxLen32 last32 word ∧ v = value word ∧
      width = word.length :=
  Slice.tiers_ok Window.tag_fits

theorem lenWord_ok {v width : Nat} : Slice.lenWord data pos data.length = .ok (v, width) ↔
    ∃ word rest, data.drop pos = word ++ rest ∧ IsWord maxLen32 lastLen word ∧ v = value word ∧
      width = word.length :=
  Slice.tiers_ok Window.len_fits

theorem value64_ok {v width : Nat} : Slice.value64 data pos data.length = .ok (v, width) ↔
    ∃ word rest, data.drop pos = word ++ rest ∧ IsWord maxLen64 last64 word ∧ v = value word ∧
      width = word.length :=
  Slice.tiers_ok Window.value_fits

theorem readHead_ok {code : Low3} {tagW : Nat} :
    readHead standard data pos = .ok (field, code, tagW) ↔
      ∃ tag rest, data.drop pos = tag ++ rest ∧ IsTag standard field code tag ∧
        tagW = tag.length := by
  constructor
  · intro h
    unfold readHead at h
    split at h
    case h_1 => cases h
    case h_2 word width hread =>
      obtain ⟨tag, rest, he, hword, rfl, rfl⟩ := tagWord_ok.mp hread
      split at h
      case isTrue => cases h
      case isFalse hm =>
        split at h
        case h_1 => cases h
        case h_2 field' hf =>
          cases h
          exact ⟨tag, rest, he, ⟨⟨hword, Bool.eq_false_of_not_eq_true hm⟩,
            (tagWord_of_fromWord hf).symm⟩, rfl⟩
  · rintro ⟨tag, rest, he, ⟨⟨hword, hm⟩, hs⟩, rfl⟩
    have hread := tagWord_ok.mpr ⟨tag, rest, he, hword, rfl, rfl⟩
    have hm' : widthPadded tag.length (value tag) standard encodedLen32 = false := hm
    rw [hs] at hread hm'
    simp only [readHead, hread, hm', Bool.false_eq_true, if_false, fromWord_tagWord,
      low3_tagWord]

theorem readVarint_ok {body : Body} : readVarint standard data pos field = .ok body ↔
    ∃ word rest, data.drop pos = word ++ rest ∧ Window.value.Admits standard word ∧
      body = ⟨.varint (value word), pos + word.length, 0⟩ := by
  constructor
  · intro h
    unfold readVarint at h
    split at h
    case h_1 => cases h
    case h_2 v width hread =>
      obtain ⟨word, rest, he, hword, rfl, rfl⟩ := value64_ok.mp hread
      split at h
      case isTrue => cases h
      case isFalse hm =>
        cases h
        exact ⟨word, rest, he, ⟨hword, Bool.eq_false_of_not_eq_true hm⟩, rfl⟩
  · rintro ⟨word, rest, he, ⟨hword, hm⟩, rfl⟩
    have hread := value64_ok.mpr ⟨word, rest, he, hword, rfl, rfl⟩
    have hm' : widthPadded word.length (value word) standard encodedLen64 = false := hm
    simp only [readVarint, hread, hm', Bool.false_eq_true, if_false]

theorem readFixed_ok {need : Nat} {deliver : Nat → Value} {body : Body} :
    readFixed need deliver data pos field = .ok body ↔
      need ≤ data.length - pos ∧
        body = ⟨deliver (fromLeBytes ((data.drop pos).take need)), pos + need, 0⟩ := by
  unfold readFixed
  split
  case isTrue h => exact ⟨nofun, fun ⟨h', _⟩ => absurd h' (by omega)⟩
  case isFalse h => exact ⟨fun e => by cases e; exact ⟨by omega, rfl⟩, fun ⟨_, e⟩ => by rw [e]⟩

theorem readLen_ok {body : Body} : readLen standard data pos field = .ok body ↔
    ∃ word payload rest, data.drop pos = word ++ payload ++ rest ∧
      Window.len.Admits standard word ∧ value word = payload.length ∧
      body = ⟨.len payload, pos + (word ++ payload).length, word.length⟩ := by
  constructor
  · intro h
    unfold readLen at h
    split at h
    case h_1 => cases h
    case h_2 len width hread =>
      obtain ⟨word, rest, he, hword, rfl, rfl⟩ := lenWord_ok.mp hread
      have hrest := drop_of_drop_eq he
      split at h
      case isTrue => cases h
      case isFalse hm =>
        simp only at h
        split at h
        case isTrue => cases h
        case isFalse hin =>
          cases h
          have hfit : (rest.take (value word)).length = value word := by
            rw [← List.length_drop, hrest] at hin
            rw [List.length_take]; omega
          refine ⟨word, rest.take (value word), rest.drop (value word), ?_,
            ⟨hword, Bool.eq_false_of_not_eq_true hm⟩, hfit.symm, ?_⟩
          · rw [he, List.append_assoc, List.take_append_drop]
          · rw [hrest, List.length_append, hfit, Nat.add_assoc]
  · rintro ⟨word, payload, rest, he, ⟨hword, hm⟩, hv, rfl⟩
    rw [List.append_assoc] at he
    have hread := lenWord_ok.mpr ⟨word, payload ++ rest, he, hword, rfl, rfl⟩
    have hm' : widthPadded word.length (value word) standard encodedLen32 = false := hm
    have hrest := drop_of_drop_eq he
    have hin : ¬ data.length - (pos + word.length) < payload.length := by
      rw [← List.length_drop, hrest, List.length_append]; omega
    rw [hv] at hm'
    simp only [readLen, hread, hm', hv, hin, hrest, Bool.false_eq_true, if_false, List.take_left,
      List.length_append, Nat.add_assoc]

theorem take_drop_fixed {need : Nat} (h : need ≤ data.length - pos) :
    data.drop pos = (data.drop pos).take need ++ data.drop (pos + need) ∧
      ((data.drop pos).take need).length = need := by
  refine ⟨?_, by rw [List.length_take, List.length_drop]; omega⟩
  rw [← List.drop_drop, List.take_append_drop]

theorem readBody_ok {kind : Groupless.RecordKind} {body : Body} :
    readBody standard data pos field kind = .ok body ↔
      ∃ (p : Payload) (rest : List UInt8), data.drop pos = p.bytes ++ rest ∧ p.Lawful standard ∧ p.kind = kind ∧
        body = ⟨p.value, pos + p.bytes.length, p.lenWidth⟩ := by
  cases kind with
  | varint =>
    rw [readBody, readVarint_ok]
    constructor
    · rintro ⟨word, rest, he, ha, rfl⟩
      exact ⟨.varint word, rest, he, ha, rfl, rfl⟩
    · rintro ⟨p, rest, he, ha, hk, rfl⟩
      cases p with
      | varint word => exact ⟨word, rest, he, ha, rfl⟩
      | _ => cases hk
  | i64 | i32 =>
    rw [readBody, readFixed_ok]
    constructor
    · rintro ⟨hin, rfl⟩
      obtain ⟨he, hl⟩ := take_drop_fixed hin
      first
        | exact ⟨.i64 _, _, he, hl, rfl, by simp only [Payload.bytes, hl]; rfl⟩
        | exact ⟨.i32 _, _, he, hl, rfl, by simp only [Payload.bytes, hl]; rfl⟩
    · rintro ⟨p, rest, he, ha, hk, rfl⟩
      cases p <;> try cases hk
      have hl := length_of_drop_eq he
      simp only [Payload.bytes, Payload.Lawful] at he ha hl
      refine ⟨by omega, ?_⟩
      rw [he, List.take_left' ha]
      simp only [Payload.value, Payload.bytes, Payload.lenWidth, ha]
  | len =>
    rw [readBody, readLen_ok]
    constructor
    · rintro ⟨word, payload, rest, he, ha, hv, rfl⟩
      exact ⟨.len word payload, rest, he, ⟨ha, hv⟩, rfl, rfl⟩
    · rintro ⟨p, rest, he, ha, hk, rfl⟩
      cases p with
      | len word payload => exact ⟨word, payload, rest, he, ha.1, ha.2, rfl⟩
      | _ => cases hk

/-! A reader sees the bytes from its position on, and nothing before them. -/

theorem tiers_drop {w : Window} (hw : w.Fits) :
    Slice.tiers w.cap w.last data pos data.length =
      Slice.tiers w.cap w.last (data.drop pos) 0 (data.drop pos).length := by
  rw [Slice.tiers_eq hw.1 hw.2 le_rfl, Slice.tiers_eq hw.1 hw.2 le_rfl, List.drop_zero,
    List.length_drop, Nat.sub_zero]

/-- What a reader comes to when it starts `pos` further on. -/
def shifted {α : Type} (pos : Nat) (f : α → α) :
    Except (Nat × RecordFault) α → Except (Nat × RecordFault) α
  | .error (off, fault) => .error (pos + off, fault)
  | .ok a => .ok (f a)

def Body.shift (pos : Nat) (b : Body) : Body := { b with stop := pos + b.stop }

theorem readHead_drop :
    readHead standard data pos = shifted pos id (readHead standard (data.drop pos) 0) := by
  have hread : Slice.tagWord data pos data.length = Slice.tagWord (data.drop pos) 0 _ :=
    tiers_drop Window.tag_fits
  unfold readHead
  rw [hread]
  cases Slice.tagWord (data.drop pos) 0 (data.drop pos).length with
  | error cause => rfl
  | ok p =>
    show (if _ then _ else _) = shifted pos id (if _ then _ else _)
    split
    · rfl
    · cases FieldNumber.fromWord p.1 <;> rfl

theorem readBody_drop {kind : Groupless.RecordKind} :
    readBody standard data pos field kind =
      shifted pos (Body.shift pos) (readBody standard (data.drop pos) 0 field kind) := by
  cases kind with
  | varint =>
    have hread : Slice.value64 data pos data.length = Slice.value64 (data.drop pos) 0 _ :=
      tiers_drop Window.value_fits
    unfold readBody readVarint
    rw [hread]
    cases Slice.value64 (data.drop pos) 0 (data.drop pos).length with
    | error cause => rfl
    | ok p =>
      show (if _ then _ else _) = shifted pos _ (if _ then _ else _)
      split
      · rfl
      · simp [shifted, Body.shift]
  | i64 | i32 =>
    unfold readBody readFixed
    simp only [List.length_drop, Nat.sub_zero, List.drop_zero]
    split
    · rfl
    · simp [shifted, Body.shift]
  | len =>
    have hread : Slice.lenWord data pos data.length = Slice.lenWord (data.drop pos) 0 _ :=
      tiers_drop Window.len_fits
    unfold readBody readLen
    rw [hread]
    cases Slice.lenWord (data.drop pos) 0 (data.drop pos).length with
    | error cause => rfl
    | ok p =>
      simp only [List.length_drop, List.drop_drop, Nat.zero_add, Nat.sub_sub]
      split
      · rfl
      · split
        · rfl
        · simp [shifted, Body.shift, Nat.add_assoc]

/-- A head that reads and a body that reads end inside the window. -/
theorem readHead_advances {code : Low3} {tagW : Nat}
    (h : readHead standard data pos = .ok (field, code, tagW)) :
    0 < tagW ∧ pos + tagW ≤ data.length := by
  obtain ⟨tag, rest, he, ht, rfl⟩ := readHead_ok.mp h
  have hl := length_of_drop_eq he
  have hpos := ht.admits.isWord.length_pos
  exact ⟨hpos, by omega⟩

theorem readBody_advances {kind : Groupless.RecordKind} {b : Body} (h : readBody standard data pos field kind = .ok b)
    (hpos : pos ≤ data.length) : pos ≤ b.stop ∧ b.stop ≤ data.length := by
  obtain ⟨p, rest, he, -, -, rfl⟩ := readBody_ok.mp h
  have hl := length_of_drop_eq he
  exact ⟨Nat.le_add_right _ _, by simp only; omega⟩

end Spec

/-! ## Whole records -/

/-- A record: its field, its tag's bytes and what stands behind them. -/
structure Record where
  field : FieldNumber
  tag : List UInt8
  payload : Payload
  deriving DecidableEq, Repr

namespace Record

def bytes (r : Record) : List UInt8 := r.tag ++ r.payload.bytes

structure Lawful (standard : Standard) (r : Record) : Prop where
  isTag : IsTag standard r.field r.payload.kind.low3 r.tag
  payload : r.payload.Lawful standard

theorem Lawful.length_pos {standard : Standard} {r : Record} (h : r.Lawful standard) :
    0 < r.bytes.length := by
  have := h.isTag.admits.isWord.length_pos
  rw [bytes, List.length_append]
  omega

end Record

/-- A payload of a kind, from its bytes and its LEN prefix's width. -/
def Payload.of (kind : Groupless.RecordKind) (lenWidth : Nat) (bytes : List UInt8) : Payload :=
  match kind with
  | .varint => .varint bytes
  | .i64 => .i64 bytes
  | .i32 => .i32 bytes
  | .len => .len (bytes.take lenWidth) (bytes.drop lenWidth)

@[simp] theorem Payload.of_self (p : Payload) : Payload.of p.kind p.lenWidth p.bytes = p := by
  cases p <;> simp [of, kind, lenWidth, bytes]

/-- The first record of some bytes, and the bytes behind it. -/
def first (standard : Standard) (bytes : List UInt8) : Option (Record × List UInt8) :=
  match readHead standard bytes 0 with
  | .error _ => none
  | .ok (field, code, tagW) =>
    match Groupless.classify code with
    | .record kind =>
      match readBody standard bytes tagW field kind with
      | .error _ => none
      | .ok b => some (⟨field, bytes.take tagW,
          .of kind b.lenWidth ((bytes.drop tagW).take (b.stop - tagW))⟩, bytes.drop b.stop)
    | _ => none

/-- The first record is the lawful record the bytes begin with: there is only one. -/
theorem first_iff {standard : Standard} {bytes rest : List UInt8} {r : Record} :
    first standard bytes = some (r, rest) ↔ bytes = r.bytes ++ rest ∧ r.Lawful standard := by
  constructor
  · intro h
    unfold first at h
    split at h
    case h_1 => cases h
    case h_2 field code tagW hhead =>
      obtain ⟨tag, behind, he, htag, rfl⟩ := readHead_ok.mp hhead
      split at h
      case h_2 => cases h
      case h_1 kind hclass =>
        split at h
        case h_1 => cases h
        case h_2 b hbody =>
          obtain ⟨p, rest', hp, hlaw, rfl, rfl⟩ := readBody_ok.mp hbody
          obtain rfl := Groupless.low3_of_classify hclass
          rw [List.drop_zero] at he
          simp only [he, List.take_left, List.drop_left, Nat.add_sub_cancel_left] at h hp
          simp only [hp, List.take_left, Payload.of_self, ← List.drop_drop, List.drop_left,
            Option.some.injEq, Prod.mk.injEq] at h
          obtain ⟨rfl, rfl⟩ := h
          refine ⟨?_, htag, hlaw⟩
          rw [he, hp, Record.bytes, List.append_assoc]
  · rintro ⟨rfl, htag, hlaw⟩
    have hhead : readHead standard (r.bytes ++ rest) 0 =
        .ok (r.field, r.payload.kind.low3, r.tag.length) :=
      readHead_ok.mpr ⟨r.tag, r.payload.bytes ++ rest, by simp [Record.bytes], htag, rfl⟩
    have hdrop : (r.bytes ++ rest).drop r.tag.length = r.payload.bytes ++ rest := by
      rw [Record.bytes, List.append_assoc, List.drop_left]
    have hbody : readBody standard (r.bytes ++ rest) r.tag.length r.field r.payload.kind =
        .ok ⟨r.payload.value, r.tag.length + r.payload.bytes.length, r.payload.lenWidth⟩ :=
      readBody_ok.mpr ⟨r.payload, rest, hdrop, hlaw, rfl, rfl⟩
    simp only [first, hhead, Groupless.classify_low3, hbody, Nat.add_sub_cancel_left,
      ← List.drop_drop, hdrop, List.drop_left, List.take_left, Payload.of_self]
    rw [Record.bytes, List.append_assoc, List.take_left]

section First

variable {standard : Standard} {bytes rest : List UInt8} {r : Record}

theorem first_rest_lt (h : first standard bytes = some (r, rest)) : rest.length < bytes.length := by
  obtain ⟨rfl, hlaw⟩ := first_iff.mp h
  have := hlaw.length_pos
  rw [List.length_append]
  omega

theorem first_payload_lt {word payload : List UInt8} (h : first standard bytes = some (r, rest))
    (hp : r.payload = .len word payload) : payload.length < bytes.length := by
  obtain ⟨rfl, hlaw⟩ := first_iff.mp h
  have := hlaw.isTag.admits.isWord.length_pos
  simp only [Record.bytes, hp, Payload.bytes, List.length_append]
  omega

theorem first_nil : first standard [] = none := by
  cases h : first standard [] with
  | none => rfl
  | some p => exact absurd (first_rest_lt h) (Nat.not_lt_zero _)

end First

end ProtobufEdit.Cursor
