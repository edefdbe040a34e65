import ProtobufEdit.Construct.Replay
import ProtobufEdit.Cursor.Grouped
import ProtobufEdit.Cursor.Groupless

/-!
# The cursors read back what was put

`Told` is the tree a cursor tells: fields, kinds, values and nesting. `Puts` says which tree a
sequence of commands puts, `Delivers` that a cursor, descending the frames, tells it.
-/

namespace ProtobufEdit.Construct

open Wire Varint Base128 Cursor

set_option linter.dupNamespace false

/-! ## Trees -/

/-- A walk's deliveries: a `message` is a LEN record that was descended. -/
inductive Told where
  | nil
  | value (field : FieldNumber) (v : Value) (rest : Told)
  | message (field : FieldNumber) (inner rest : Told)
  | group (field : FieldNumber) (inner rest : Told)
  deriving DecidableEq, Repr

namespace Told

def append : Told → Told → Told
  | nil, t => t
  | value field v rest, t => value field v (rest.append t)
  | message field inner rest, t => message field inner (rest.append t)
  | group field inner rest, t => group field inner (rest.append t)

/-- Nothing was descended. -/
def Closed : Told → Prop
  | nil => True
  | value _ _ rest => rest.Closed
  | message _ _ _ => False
  | group _ inner rest => inner.Closed ∧ rest.Closed

def Groupless : Told → Prop
  | nil => True
  | value _ _ rest => rest.Groupless
  | message _ inner rest => inner.Groupless ∧ rest.Groupless
  | group _ _ _ => False

/-- In every window the groups nest within the limit; `room` is what this one has left. -/
def Fits (limit : Nat) : Nat → Told → Prop
  | _, nil => True
  | room, value _ _ rest => Fits limit room rest
  | room, message _ inner rest => Fits limit limit inner ∧ Fits limit room rest
  | room, group _ inner rest => 0 < room ∧ Fits limit (room - 1) inner ∧ Fits limit room rest

/-- The bytes spell the tree in records lawful under the standard. -/
inductive Spelled (standard : Standard) : Told → List UInt8 → Prop where
  | nil : Spelled standard nil []
  | value {r : Record} {rest : Told} {bytes : List UInt8} : r.Lawful standard →
      Spelled standard rest bytes →
      Spelled standard (value r.field r.payload.value rest) (r.bytes ++ bytes)
  | message {field : FieldNumber} {tag word payload bytes : List UInt8} {inner rest : Told} :
      Record.Lawful standard ⟨field, tag, .len word payload⟩ → Spelled standard inner payload →
      Spelled standard rest bytes →
      Spelled standard (message field inner rest) (tag ++ word ++ payload ++ bytes)
  | group {field : FieldNumber} {opener closer body bytes : List UInt8} {inner rest : Told} :
      IsTag standard field 3 opener → IsTag standard field 4 closer →
      Spelled standard inner body → Spelled standard rest bytes →
      Spelled standard (group field inner rest) (opener ++ body ++ closer ++ bytes)

theorem Spelled.append {standard : Standard} {told told' : Told} {bytes bytes' : List UInt8}
    (h : Spelled standard told bytes) (h' : Spelled standard told' bytes') :
    Spelled standard (told.append told') (bytes ++ bytes') := by
  induction h with
  | nil => exact h'
  | value hlaw _ ih =>
    rw [List.append_assoc]
    exact .value hlaw ih
  | message hlaw hinner _ _ ih =>
    rw [List.append_assoc]
    exact .message hlaw hinner ih
  | group hopen hclose hinner _ _ ih =>
    rw [List.append_assoc]
    exact .group hopen hclose hinner ih

end Told

/-! ## What the commands put -/

/-- The record a put stands for. -/
def Put.record : Put → Record
  | varint field value => ⟨field, minimal (head field .varint), .varint (minimal value.toNat)⟩
  | i32 field bits => ⟨field, minimal (head field .i32), .i32 (toLeBytes 4 bits.toNat)⟩
  | i64 field bits => ⟨field, minimal (head field .i64), .i64 (toLeBytes 8 bits.toNat)⟩
  | len field payload _ => lenOf field payload
  | packedVarints field words => lenOf field (words.flatMap fun w => minimal w.toNat)
  | packedFixed32 field words => lenOf field (words.flatMap fun w => toLeBytes 4 w.toNat)
  | packedFixed64 field words => lenOf field (words.flatMap fun w => toLeBytes 8 w.toNat)
where
  lenOf (field : FieldNumber) (payload : List UInt8) : Record :=
    ⟨field, minimal (head field .len), .len (minimal payload.length) payload⟩

/-- The value a put carries: a packed run is the payload it spells. -/
def Put.value : Put → Value
  | varint _ value => .varint value.toNat
  | i32 _ bits => .i32 bits.toNat
  | i64 _ bits => .i64 bits.toNat
  | len _ payload _ => .len payload
  | packedVarints _ words => .len (words.flatMap fun w => minimal w.toNat)
  | packedFixed32 _ words => .len (words.flatMap fun w => toLeBytes 4 w.toNat)
  | packedFixed64 _ words => .len (words.flatMap fun w => toLeBytes 8 w.toNat)

def Put.field : Put → FieldNumber
  | varint field _ => field
  | i32 field _ => field
  | i64 field _ => field
  | len field _ _ => field
  | packedVarints field _ => field
  | packedFixed32 field _ => field
  | packedFixed64 field _ => field

/-- A stretch of raw faces in front of a sequence. -/
def raws (stretch : List Raw) (rest : Script) : Script := stretch.foldr .raw rest

/-- The tree a lawful sequence puts: raw stretches are whole records, of which no LEN is
descended, and so is the payload of a bytes frame. -/
inductive Puts (standard : Standard) : Script → Told → Prop where
  | nil : Puts standard .nil .nil
  | put (p : Put) {rest : Script} {told : Told} : Puts standard rest told →
      Puts standard (.put p rest) (.value p.field p.value told)
  | raws {stretch : List Raw} {records : Told} {rest : Script} {told : Told} : records.Closed →
      records.Spelled standard (stretch.flatMap Raw.spell) → Puts standard rest told →
      Puts standard (raws stretch rest) (records.append told)
  | message (field : FieldNumber) {body rest : Script} {inner told : Told} :
      Puts standard body inner → Puts standard rest told →
      Puts standard (.message field body rest) (.message field inner told)
  | bytesFrame (field : FieldNumber) (chunks : List (List UInt8 × Bool)) {rest : Script}
      {told : Told} : Puts standard rest told →
      Puts standard (.bytesFrame field chunks rest)
        (.value field (.len (chunks.flatMap Prod.fst)) told)
  | group (field : FieldNumber) {body rest : Script} {inner told : Told} :
      Puts standard body inner → Puts standard rest told →
      Puts standard (.group field body rest) (.group field inner told)

section Spelling

variable {standard : Standard}

theorem lenOf_lawful {field : FieldNumber} {payload : List UInt8}
    (h : payload.length ≤ PayloadLen.max) : (Put.record.lenOf field payload).Lawful standard :=
  ⟨isTag_minimal standard field _, admits_minimal_len standard h, value_minimal _⟩

theorem lenOf_bytes (field : FieldNumber) (payload : List UInt8) :
    (Put.record.lenOf field payload).bytes = lenRecord field payload := by
  unfold Put.record.lenOf lenRecord Record.bytes Payload.bytes
  rw [List.append_assoc]

theorem payload_le {field : FieldNumber} {payload : List UInt8}
    (h : (lenRecord field payload).length ≤ PayloadLen.max) : payload.length ≤ PayloadLen.max := by
  unfold lenRecord at h
  rw [List.length_append] at h
  omega

/-- A put spells its record. -/
theorem Put.record_spec (p : Put) (h : p.bytes.length ≤ PayloadLen.max) :
    p.record.Lawful standard ∧ p.record.bytes = p.bytes ∧ p.record.field = p.field ∧
      p.record.payload.value = p.value := by
  have hlen : ∀ field payload, p.bytes = lenRecord field payload →
      (record.lenOf field payload).Lawful standard ∧ (record.lenOf field payload).bytes = p.bytes := by
    intro field payload he
    exact ⟨lenOf_lawful (payload_le (he ▸ h)), (lenOf_bytes field payload).trans he.symm⟩
  cases p with
  | varint field value =>
    exact ⟨⟨isTag_minimal standard field _, admits_minimal_value standard value.toNat_lt⟩, rfl, rfl,
      congrArg Value.varint (value_minimal _)⟩
  | i32 field bits =>
    exact ⟨⟨isTag_minimal standard field _, toLeBytes_length 4 _⟩, rfl, rfl,
      congrArg Value.i32 (fromLeBytes_toLeBytes bits.toNat_lt)⟩
  | i64 field bits =>
    exact ⟨⟨isTag_minimal standard field _, toLeBytes_length 8 _⟩, rfl, rfl,
      congrArg Value.i64 (fromLeBytes_toLeBytes bits.toNat_lt)⟩
  | len | packedVarints | packedFixed32 | packedFixed64 =>
    obtain ⟨hlaw, hbytes⟩ := hlen _ _ rfl
    exact ⟨hlaw, hbytes, rfl, rfl⟩

theorem raws_bytes (stretch : List Raw) (rest : Script) :
    (raws stretch rest).bytes = stretch.flatMap Raw.spell ++ rest.bytes := by
  induction stretch with
  | nil => rfl
  | cons r stretch ih =>
    show r.spell ++ (raws stretch rest).bytes = _
    rw [ih, List.flatMap_cons, List.append_assoc]

/-- What a sequence stands for spells what it puts. -/
theorem Puts.spelled {s : Script} {told : Told} (h : Puts standard s told)
    (hle : s.bytes.length ≤ PayloadLen.max) : told.Spelled standard s.bytes := by
  induction h with
  | nil => exact .nil
  | put p _ ih =>
    rw [Script.bytes, List.length_append] at hle
    obtain ⟨hlaw, hbytes, hfield, hvalue⟩ := @Put.record_spec standard p (by omega)
    rw [Script.bytes, ← hbytes, ← hfield, ← hvalue]
    exact .value hlaw (ih (by omega))
  | raws _ hspelled _ ih =>
    rw [raws_bytes] at hle ⊢
    rw [List.length_append] at hle
    exact hspelled.append (ih (by omega))
  | message field _ _ ihb ih =>
    rw [Script.bytes, List.length_append] at hle
    have hbody := @payload_le field _ (Nat.le_trans (Nat.le_add_right _ _) hle)
    exact .message (lenOf_lawful hbody) (ihb hbody) (ih (by omega))
  | bytesFrame field chunks _ ih =>
    rw [Script.bytes, List.length_append] at hle
    have hbody := @payload_le field _ (Nat.le_trans (Nat.le_add_right _ _) hle)
    rw [Script.bytes, ← lenOf_bytes]
    exact .value (lenOf_lawful hbody) (ih (by omega))
  | group field _ _ ihb ih =>
    simp only [Script.bytes, List.length_append] at hle
    exact .group (isTag_minimal standard field 3) (isTag_minimal standard field 4)
      (ihb (by omega)) (ih (by omega))

end Spelling

/-! ## The grouped cursor -/

namespace Grouped

open Cursor.Grouped

variable {standard : Standard}

/-- The steps from one cursor to another tell the tree; a descent is a walk of its own over the
payload, under the same limit, to its clean end. -/
inductive Delivers (standard : Standard) :
    Cursor.Grouped.Cursor → Told → Cursor.Grouped.Cursor → Prop where
  | nil {c : Cursor.Grouped.Cursor} : Delivers standard c .nil c
  | value {c c₁ c₂ : Cursor.Grouped.Cursor} {field : FieldNumber} {v : Value} {rest : Told} :
      step standard c = (some (.ok ⟨field, .value v⟩), c₁) → Delivers standard c₁ rest c₂ →
      Delivers standard c (.value field v rest) c₂
  | message {c c₁ c₂ d d' : Cursor.Grouped.Cursor} {field : FieldNumber} {payload : List UInt8}
      {inner rest : Told} : step standard c = (some (.ok ⟨field, .value (.len payload)⟩), c₁) →
      Cursor.Grouped.Cursor.within payload c.limit = some d → Delivers standard d inner d' →
      step standard d' = (none, d') → Delivers standard c₁ rest c₂ →
      Delivers standard c (.message field inner rest) c₂
  | group {c c₁ c₂ c₃ c₄ : Cursor.Grouped.Cursor} {field : FieldNumber} {inner rest : Told} :
      step standard c = (some (.ok ⟨field, .groupEnter⟩), c₁) → Delivers standard c₁ inner c₂ →
      step standard c₂ = (some (.ok ⟨field, .groupExit⟩), c₃) → Delivers standard c₃ rest c₄ →
      Delivers standard c (.group field inner rest) c₄

/-- A document is recovered when the cursor over it tells the tree and then ends. -/
def Recovers (standard : Standard) (limit : DepthLimit) (data : List UInt8) (told : Told) : Prop :=
  ∃ c c', Cursor.Grouped.Cursor.over data limit = some c ∧ Delivers standard c told c' ∧
    step standard c' = (none, c')

/-- A cursor behind a told stretch: the window, the limit and the groups as they were. -/
structure Behind (c : Cursor.Grouped.Cursor) (rest : List UInt8) (c' : Cursor.Grouped.Cursor) :
    Prop where
  data : c'.data = c.data
  limit : c'.limit = c.limit
  opens : c'.opens = c.opens
  rest : c'.data.drop c'.pos = rest

theorem Behind.ends {c c' : Cursor.Grouped.Cursor} (h : Behind c [] c') (ho : c.opens = []) :
    step standard c' = (none, c') := step_end h.rest (h.opens.trans ho)

/-- A spelled tree that fits is told. -/
theorem delivers_spelled {told : Told} {bytes : List UInt8} (h : told.Spelled standard bytes)
    (c : Cursor.Grouped.Cursor) {behind : List UInt8}
    (he : c.data.drop c.pos = bytes ++ behind) (hle : c.data.length ≤ PayloadLen.max)
    (hfits : told.Fits c.limit.asInner (c.limit.asInner - c.opens.length)) :
    ∃ c', Delivers standard c told c' ∧ Behind c behind c' := by
  induction h generalizing c behind with
  | nil => exact ⟨c, .nil, rfl, rfl, rfl, he⟩
  | @value r rest bytes hlaw _ ih =>
    rw [List.append_assoc] at he
    obtain ⟨c', htold, hbehind⟩ := ih (c.past r) (drop_of_drop_eq he) hle hfits
    exact ⟨c', .value (step_record he hlaw) htold, hbehind.data, hbehind.limit, hbehind.opens,
      hbehind.rest⟩
  | @message field tag word payload bytes inner rest hlaw _ _ ihi ih =>
    have he' : c.data.drop c.pos =
        Record.bytes ⟨field, tag, .len word payload⟩ ++ (bytes ++ behind) := by
      rw [he]
      simp [Record.bytes, Payload.bytes]
    have hlen := length_of_drop_eq he'
    have hpay : payload.length ≤ PayloadLen.max := by
      simp only [Record.bytes, Payload.bytes, List.length_append] at hlen
      omega
    obtain ⟨d', hinner, hd'⟩ := ihi ⟨payload, [], 0, c.limit, 0, 0⟩
      (List.append_nil payload).symm hpay hfits.1
    obtain ⟨c', htold, hbehind⟩ := ih (c.past _) (drop_of_drop_eq he') hle hfits.2
    exact ⟨c', .message (step_record he' hlaw) (if_pos hpay) hinner (hd'.ends rfl) htold,
      hbehind.data, hbehind.limit, hbehind.opens, hbehind.rest⟩
  | @group field opener closer body bytes inner rest hopen hclose _ _ ihi ih =>
    obtain ⟨hroom, hin, hout⟩ := hfits
    rw [List.append_assoc, List.append_assoc, List.append_assoc] at he
    obtain ⟨c₂, hinner, hbehind⟩ := ihi (c.framed ((field, c.pos) :: c.opens) opener)
      (drop_of_drop_eq he) hle (by rw [Nat.sub_sub] at hin; exact hin)
    have hexit := step_closer hbehind.rest hclose hbehind.opens
    obtain ⟨c', htold, hlast⟩ := ih (c₂.framed c.opens closer) (drop_of_drop_eq hbehind.rest)
      (by show c₂.data.length ≤ _; rw [hbehind.data]; exact hle)
      (by show rest.Fits c₂.limit.asInner (c₂.limit.asInner - _); rw [hbehind.limit]; exact hout)
    exact ⟨c', .group (step_opener he hopen (by omega)) hinner hexit htold,
      hlast.data.trans hbehind.data, hlast.limit.trans hbehind.limit, hlast.opens, hlast.rest⟩

theorem recovers_spelled {limit : DepthLimit} {told : Told} {data : List UInt8}
    (h : told.Spelled standard data) (hle : data.length ≤ PayloadLen.max)
    (hfits : told.Fits limit.asInner limit.asInner) : Recovers standard limit data told := by
  obtain ⟨c', htold, hbehind⟩ := delivers_spelled h ⟨data, [], 0, limit, 0, 0⟩
    (List.append_nil data).symm hle hfits
  exact ⟨_, c', if_neg (Nat.not_lt.mpr hle), htold, hbehind.ends rfl⟩

end Grouped

/-! ## The groupless cursor -/

namespace Groupless

open Cursor.Groupless

variable {standard : Standard}

inductive Delivers (standard : Standard) :
    Cursor.Groupless.Cursor → Told → Cursor.Groupless.Cursor → Prop where
  | nil {c : Cursor.Groupless.Cursor} : Delivers standard c .nil c
  | value {c c₁ c₂ : Cursor.Groupless.Cursor} {field : FieldNumber} {v : Value} {rest : Told} :
      step standard c = (some (.ok ⟨field, v⟩), c₁) → Delivers standard c₁ rest c₂ →
      Delivers standard c (.value field v rest) c₂
  | message {c c₁ c₂ d d' : Cursor.Groupless.Cursor} {field : FieldNumber} {payload : List UInt8}
      {inner rest : Told} : step standard c = (some (.ok ⟨field, .len payload⟩), c₁) →
      within payload = some d → Delivers standard d inner d' → step standard d' = (none, d') →
      Delivers standard c₁ rest c₂ → Delivers standard c (.message field inner rest) c₂

def Recovers (standard : Standard) (data : List UInt8) (told : Told) : Prop :=
  ∃ c c', Cursor.Groupless.Cursor.over data = some c ∧ Delivers standard c told c' ∧
    step standard c' = (none, c')

theorem delivers_spelled {told : Told} {bytes : List UInt8} (h : told.Spelled standard bytes)
    (c : Cursor.Groupless.Cursor) {behind : List UInt8}
    (he : c.data.drop c.pos = bytes ++ behind) (hle : c.data.length ≤ PayloadLen.max)
    (hflat : told.Groupless) :
    ∃ c', Delivers standard c told c' ∧ c'.data.drop c'.pos = behind := by
  induction h generalizing c behind with
  | nil => exact ⟨c, .nil, he⟩
  | @value r rest bytes hlaw _ ih =>
    rw [List.append_assoc] at he
    obtain ⟨hstep, hrest⟩ := step_record (first_iff.mpr ⟨he, hlaw⟩)
    obtain ⟨c', htold, hbehind⟩ := ih (c.past r) hrest hle hflat
    exact ⟨c', .value hstep htold, hbehind⟩
  | @message field tag word payload bytes inner rest hlaw _ _ ihi ih =>
    have he' : c.data.drop c.pos =
        Record.bytes ⟨field, tag, .len word payload⟩ ++ (bytes ++ behind) := by
      rw [he]
      simp [Record.bytes, Payload.bytes]
    have hlen := length_of_drop_eq he'
    have hpay : payload.length ≤ PayloadLen.max := by
      simp only [Record.bytes, Payload.bytes, List.length_append] at hlen
      omega
    obtain ⟨hstep, hrest⟩ := step_record (first_iff.mpr ⟨he', hlaw⟩)
    obtain ⟨d', hinner, hd'⟩ := ihi ⟨payload, 0, 0, 0⟩
      (List.append_nil payload).symm hpay hflat.1
    obtain ⟨c', htold, hbehind⟩ := ih (c.past _) hrest hle hflat.2
    exact ⟨c', .message hstep (if_pos hpay) hinner (step_end hd') htold, hbehind⟩
  | group => exact hflat.elim

theorem recovers_spelled {told : Told} {data : List UInt8} (h : told.Spelled standard data)
    (hle : data.length ≤ PayloadLen.max) (hflat : told.Groupless) :
    Recovers standard data told := by
  obtain ⟨c', htold, hbehind⟩ := delivers_spelled h ⟨data, 0, 0, 0⟩
    (List.append_nil data).symm hle hflat
  exact ⟨_, c', if_neg (Nat.not_lt.mpr hle), htold, step_end hbehind⟩

end Groupless

/-! ## The machines and the cursors together -/

/-- One machine's three faces come to the same bytes. -/
structure Comes (backing : Backing) (s : Script) (out : List UInt8) : Prop where
  planned : (s.build backing).plannedLen = .done out.length
  buffered : (s.build backing).finish = .done out
  sunk : ∃ slices, (s.build backing).emitSink = .done slices ∧ slices.flatten = out

/-- One machine's three faces come to the same cap break. -/
structure Breaks (backing : Backing) (s : Script) (e : OverCap) : Prop where
  planned : (s.build backing).plannedLen = .overCap e
  buffered : (s.build backing).finish = .overCap e
  sunk : (s.build backing).emitSink = .overCap e

theorem build_comes {backing : Backing} (hb : backing.Faithful) (s : Script) :
    (∃ e, s.ledger [] 0 = .error e ∧ Breaks backing s e) ∨
      (s.ledger [] 0 = .ok s.bytes.length ∧ s.bytes.length ≤ cap ∧ Comes backing s s.bytes) := by
  rcases build_agrees hb s with ⟨e, hl, hp, hf, hs⟩ | ⟨hl, hle, hp, hf, hs⟩
  · exact .inl ⟨e, hl, hp, hf, hs⟩
  · exact .inr ⟨hl, hle, hp, hf, hs⟩

/-- Whatever is put, plan, buffer and sink come to its bytes in both machines where these are
within the cap, and from them the dialect's cursor tells the tree that was put, in the grouped
dialect under a limit that covers the groups nested in each window. Where they are not, every face
of both machines reports the one charge that first passes the cap. -/
theorem built_and_recovered {standard : Standard} {s : Script} {told : Told}
    (hputs : Puts standard s told) :
    (cap < s.bytes.length → ∃ e, s.ledger [] 0 = .error e ∧ cap < e.len ∧
      Breaks .mixed s e ∧ Breaks .copy s e) ∧
    (s.bytes.length ≤ cap → Comes .mixed s s.bytes ∧ Comes .copy s s.bytes ∧
      (∀ limit : DepthLimit, told.Fits limit.asInner limit.asInner →
        Grouped.Recovers standard limit s.bytes told) ∧
      (told.Groupless → Groupless.Recovers standard s.bytes told)) := by
  have hbills : ∀ {e}, s.ledger [] 0 = .error e → cap < e.len ∧ cap < 0 + s.bytes.length := by
    intro e hl
    have hbills := bills_script s [] 0
    rwa [hl] at hbills
  constructor
  · intro hover
    rcases build_comes mixed_faithful s with ⟨e, hl, hmixed⟩ | ⟨-, hle, -⟩
    · rcases build_comes copy_faithful s with ⟨e', hl', hcopy⟩ | ⟨-, hle, -⟩
      · obtain rfl : e = e' := Except.error.inj (hl.symm.trans hl')
        exact ⟨e, hl, (hbills hl).1, hmixed, hcopy⟩
      · omega
    · omega
  · intro hle
    rcases build_comes mixed_faithful s with ⟨e, hl, -⟩ | ⟨-, -, hmixed⟩
    · have hover := (hbills hl).2
      omega
    rcases build_comes copy_faithful s with ⟨e, hl, -⟩ | ⟨-, -, hcopy⟩
    · have hover := (hbills hl).2
      omega
    have hspelled := hputs.spelled hle
    exact ⟨hmixed, hcopy, fun limit hfits => Grouped.recovers_spelled hspelled hle hfits,
      fun hflat => Groupless.recovers_spelled hspelled hle hflat⟩

/-- A group around a LEN frame with a payload of 64 bytes, and a raw record behind it. -/
theorem built_and_recovered_mixed :
    let payload : List UInt8 := List.replicate 64 7
    let field : FieldNumber := ⟨1, by decide, by decide⟩
    let s : Script := .group field (.message field (.put (.len field payload false) .nil) .nil)
      (raws [.varint 8, .varint 1] .nil)
    let told : Told := .group field (.message field (.value field (.len payload) .nil) .nil)
      (.value field (.varint 1) .nil)
    Puts .canonicalMinimal s told ∧ Comes .mixed s s.bytes ∧ Comes .copy s s.bytes ∧
      ∀ limit : DepthLimit, told.Fits limit.asInner limit.asInner →
        Grouped.Recovers .canonicalMinimal limit s.bytes told := by
  have hraw : (Told.value ⟨1, by decide, by decide⟩ (.varint 1) .nil).Spelled .canonicalMinimal
      ([Raw.varint 8, Raw.varint 1].flatMap Raw.spell) :=
    .value (r := ⟨⟨1, _, _⟩, minimal 8, .varint (minimal 1)⟩)
      ⟨isTag_minimal .canonicalMinimal ⟨1, _, _⟩ 0,
        admits_minimal_value .canonicalMinimal (by decide)⟩ .nil
  intro payload field s told
  have hputs : Puts .canonicalMinimal s told :=
    .group field (.message field (.put (.len field payload false) .nil) .nil)
      (@Puts.raws _ _ (.value field (.varint 1) .nil) _ _ trivial hraw .nil)
  have hle : s.bytes.length ≤ cap := by decide
  obtain ⟨hmixed, hcopy, hgrouped, -⟩ := (built_and_recovered hputs).2 hle
  exact ⟨hputs, hmixed, hcopy, hgrouped⟩

/-! ## Nesting past every limit -/

section Nest

variable {standard : Standard} {field : FieldNumber}

/-- Groups in groups, to a depth. -/
def nest (field : FieldNumber) : Nat → Script
  | 0 => .nil
  | n + 1 => .group field (nest field n) .nil

def nestTold (field : FieldNumber) : Nat → Told
  | 0 => .nil
  | n + 1 => .group field (nestTold field n) .nil

theorem nest_puts (n : Nat) : Puts standard (nest field n) (nestTold field n) := by
  induction n with
  | zero => exact .nil
  | succ n ih => exact .group field ih .nil

theorem nest_ledger (hfield : encodedLen64 (Wire.Grouped.headWord field .group) = 1) (n : Nat)
    {heads : List Nat} {total : Nat} (h : total + 2 * n ≤ cap) :
    (nest field n).ledger heads total = .ok (total + 2 * n) := by
  induction n generalizing heads total with
  | zero => rfl
  | succ n ih =>
    unfold nest Script.ledger
    rw [hfield, charge_ok (by omega)]
    show (nest field n).ledger _ (total + 2 * 1) >>= _ = _
    rw [ih (by omega)]
    exact congrArg Except.ok (by omega)

theorem delivers_nest {n : Nat} {c c' : Cursor.Grouped.Cursor}
    (h : Grouped.Delivers standard c (nestTold field n) c') :
    n = 0 ∨ c.opens.length + n ≤ c.limit.asInner := by
  induction n generalizing c c' with
  | zero => exact .inl rfl
  | succ n ih =>
    right
    cases h with
    | group henter hinner _ _ =>
      obtain ⟨hroom, hopens, hlimit⟩ := Cursor.Grouped.step_enters henter
      rcases ih hinner with rfl | hle
      · exact hroom
      · rw [hopens, hlimit] at hle
        omega

/-- The builder has no bound on its groups' nesting and the cursor has: past the largest limit
the output is built and no cursor tells it. -/
theorem nest_unread {n : Nat} (hdeep : 10000 < n) (hcap : 2 * n ≤ cap)
    (hfield : encodedLen64 (Wire.Grouped.headWord field .group) = 1) :
    Puts standard (nest field n) (nestTold field n) ∧
      ∃ out, Comes .mixed (nest field n) out ∧
        ∀ limit : DepthLimit, ¬ Grouped.Recovers standard limit out (nestTold field n) := by
  refine ⟨nest_puts n, ?_⟩
  have hledger := @nest_ledger field hfield n [] 0 (by omega)
  rcases build_comes mixed_faithful (nest field n) with ⟨e, hl, -⟩ | ⟨-, -, hcomes⟩
  · cases hledger.symm.trans hl
  · refine ⟨_, hcomes, ?_⟩
    rintro limit ⟨c, c', hover, hdelivers, -⟩
    have hc : c.limit = limit ∧ c.opens = [] := by
      unfold Cursor.Grouped.Cursor.over at hover
      split at hover
      · cases hover
      · cases hover
        exact ⟨rfl, rfl⟩
    have := limit.le_max
    rcases delivers_nest hdelivers with h | h
    · omega
    · rw [hc.1, hc.2, List.length_nil] at h
      omega

theorem deep_groups_unread :
    Puts .canonicalMinimal (nest ⟨1, by decide, by decide⟩ 10001)
        (nestTold ⟨1, by decide, by decide⟩ 10001) ∧
      ∃ out, Comes .mixed (nest ⟨1, by decide, by decide⟩ 10001) out ∧
        ∀ limit : DepthLimit, ¬ Grouped.Recovers .canonicalMinimal limit out
          (nestTold ⟨1, by decide, by decide⟩ 10001) :=
  nest_unread (by decide) (by decide) (by decide)

end Nest

end ProtobufEdit.Construct
