import ProtobufEdit.Editor.Edit
import ProtobufEdit.Editor.Walk

/-!
# What a row stands for

A row is sound for a record where its geometry spells the record and its value column holds what
was commanded. What the sound rows of a forest write is the reference emission of its records.
-/

namespace ProtobufEdit.Editor

open Wire Wire.Grouped Varint Base128 Arena Cursor

/-! ## Lawful records -/

/-- A record's spelling is lawful under the standard. -/
structure Met.Lawful (standard : Standard) (field : FieldNumber) (kind : RecordKind) (met : Met) :
    Prop where
  tag : IsTag standard field kind.low3 met.tag
  body :
    match kind with
    | .varint => met.delim = [] ∧ Window.value.Admits standard met.content
    | .i64 => met.delim = [] ∧ met.content.length = 8
    | .i32 => met.delim = [] ∧ met.content.length = 4
    | .len => Window.len.Admits standard met.delim ∧ value met.delim = met.content.length
    | .group => IsTag standard field 4 met.delim

/-- What a record says is lawful under the standard. -/
structure Entry.Lawful (standard : Standard) (e : Entry) : Prop where
  met : ∀ met, e.met = some met → met.Lawful standard e.field e.kind
  word : ∀ v, e.content = .word v → v < 2 ^ 64 ∧ (e.kind = .i32 → v < 2 ^ 32)
  payload : ∀ bytes, e.content = .payload bytes → bytes.length ≤ PayloadLen.max

theorem Met.Lawful.content_le {standard : Standard} {field : FieldNumber} {met : Met}
    (h : met.Lawful standard field .len) : met.content.length ≤ PayloadLen.max := by
  rw [← h.body.2]
  exact isWordLen_le h.body.1.isWord

/-! ## Spellings -/

section Stands

variable {standard : Standard} {zone : List UInt8} {r : Row} {met : Met}

/-- A row's geometry names a spelling. -/
structure Stands (standard : Standard) (zone : List UInt8) (r : Row) (met : Met) : Prop where
  bytes : ∃ rest, zone.drop r.start = met.verbatim r.kind ++ rest
  tagW : r.tagW standard = met.tag.length
  delimW : r.delimW standard = met.delim.length
  len : r.payloadLen = met.content.length

theorem slice_of_drop {pos : Nat} {u v w : List UInt8} (h : zone.drop pos = u ++ (v ++ w)) :
    Machine.slice zone (pos + u.length) (pos + u.length + v.length) = v := by
  rw [slice_eq, drop_of_drop_eq h, Nat.add_sub_cancel_left, List.take_left]

theorem Met.verbatim_length (kind : RecordKind) (met : Met) :
    (met.verbatim kind).length = met.tag.length + met.delim.length + met.content.length := by
  unfold Met.verbatim
  split
  · simp only [List.length_append]
    omega
  · simp only [List.length_append]

variable (h : Stands standard zone r met)

include h

theorem Stands.slice_all :
    Machine.slice zone r.start (r.spanEnd standard) = met.verbatim r.kind := by
  obtain ⟨rest, he⟩ := h.bytes
  have hlen : r.spanEnd standard - r.start = (met.verbatim r.kind).length := by
    unfold Row.spanEnd
    rw [h.tagW, h.delimW, h.len, Met.verbatim_length]
    omega
  rw [slice_eq, he, hlen, List.take_left]

theorem Stands.slice_tag :
    Machine.slice zone r.start (r.start + r.tagW standard) = met.tag := by
  obtain ⟨rest, he⟩ := h.bytes
  have htag : ∃ more, zone.drop r.start = met.tag ++ more := by
    rw [he]
    unfold Met.verbatim
    split
    · exact ⟨met.content ++ met.delim ++ rest, by simp only [List.append_assoc]⟩
    · exact ⟨met.delim ++ met.content ++ rest, by simp only [List.append_assoc]⟩
  obtain ⟨more, he⟩ := htag
  rw [slice_eq, he, Nat.add_sub_cancel_left, h.tagW, List.take_left]

theorem Stands.slice_prefix (hk : r.kind = .len) :
    Machine.slice zone (r.start + r.tagW standard)
      (r.start + r.tagW standard + r.delimW standard) = met.delim := by
  obtain ⟨rest, he⟩ := h.bytes
  have he : zone.drop r.start = met.tag ++ (met.delim ++ (met.content ++ rest)) := by
    rw [he, hk]
    unfold Met.verbatim
    simp only [List.append_assoc]
  rw [h.tagW, h.delimW]
  exact slice_of_drop he

theorem Stands.slice_content (hk : r.kind = .len) :
    Machine.slice zone (r.payloadAt standard) (r.payloadAt standard + r.payloadLen) =
      met.content := by
  obtain ⟨rest, he⟩ := h.bytes
  have he : zone.drop r.start = (met.tag ++ met.delim) ++ (met.content ++ rest) := by
    rw [he, hk]
    unfold Met.verbatim
    simp only [List.append_assoc]
  have hat : r.payloadAt standard = r.start + (met.tag ++ met.delim).length := by
    unfold Row.payloadAt
    rw [hk]
    dsimp only
    rw [h.tagW, h.delimW, List.length_append, Nat.add_assoc]
  rw [hat, h.len]
  exact slice_of_drop he

theorem Stands.slice_end (hk : r.kind = .group) :
    Machine.slice zone (r.start + r.tagW standard + r.payloadLen) (r.spanEnd standard) =
      met.delim := by
  obtain ⟨rest, he⟩ := h.bytes
  have he : zone.drop r.start = (met.tag ++ met.content) ++ (met.delim ++ rest) := by
    rw [he, hk]
    unfold Met.verbatim
    simp only [List.append_assoc]
  have hat : r.start + r.tagW standard + r.payloadLen =
      r.start + (met.tag ++ met.content).length := by
    rw [h.tagW, h.len, List.length_append, Nat.add_assoc]
  have hend : r.spanEnd standard =
      r.start + (met.tag ++ met.content).length + met.delim.length := by
    unfold Row.spanEnd
    rw [h.tagW, h.delimW, h.len, List.length_append]
    omega
  rw [hat, hend]
  exact slice_of_drop he

theorem Stands.spanEnd_le (htag : 0 < met.tag.length) : r.spanEnd standard ≤ zone.length := by
  obtain ⟨rest, he⟩ := h.bytes
  have hlen := length_of_drop_eq he
  rw [Met.verbatim_length] at hlen
  unfold Row.spanEnd
  rw [h.tagW, h.delimW, h.len]
  omega

end Stands

/-! ## Payloads -/

/-- A slot holds a payload. -/
def PayloadStore.Holds (s : PayloadStore) (slot : Nat) (bytes : List UInt8) : Prop :=
  match s.slots[slot]? with
  | some (.borrowed b) => b = bytes
  | some (.borrowedParts parts) => parts.flatten = bytes
  | some (.copied start len) =>
    start + len ≤ s.copied.length ∧ (s.copied.drop start).take len = bytes
  | none => False

theorem PayloadStore.Holds.pieces {s : PayloadStore} {slot : Nat} {bytes : List UInt8}
    (h : s.Holds slot bytes) : (s.pieces slot).flatten = bytes ∧ s.len slot = bytes.length := by
  unfold Holds at h
  unfold PayloadStore.pieces PayloadStore.len
  cases hs : s.slots[slot]? with
  | none =>
    rw [hs] at h
    cases h
  | some entry =>
    rw [hs] at h
    cases entry with
    | borrowed b => exact ⟨(List.append_nil b).trans h, congrArg List.length h⟩
    | borrowedParts parts =>
      have h : parts.flatten = bytes := h
      exact ⟨h, by rw [← h, List.length_flatten]⟩
    | copied start len =>
      obtain ⟨hle, h⟩ := h
      refine ⟨(List.append_nil _).trans h, ?_⟩
      rw [← h, List.length_take, List.length_drop]
      dsimp only
      omega

/-! ## Sound rows -/

/-- Where a record's spelling is. -/
inductive Spelt (standard : Standard) (zone : List UInt8) (r : Row) (e : Entry) : Prop where
  | met {met : Met} : r.base = .intact ∨ r.base = .replaced → e.met = some met →
      Stands standard zone r met → Spelt standard zone r e
  | authored : r.base = .inserted → e.met = none → Spelt standard zone r e

/-- Where what was commanded of a record is. -/
inductive Said (m : Machine) (r : Row) (e : Entry) : Prop where
  | kept : e.content = .kept → r.base = .intact ∨ r.base = .inserted ∧ r.kind = .group → Said m r e
  | word {v : Nat} : e.content = .word v → r.base = .replaced ∨ r.base = .inserted →
      r.kind ≠ .len → r.kind ≠ .group → m.words[r.value]? = some v → Said m r e
  | payload {bytes : List UInt8} : e.content = .payload bytes →
      r.base = .replaced ∨ r.base = .inserted → r.kind = .len → r.opened = false →
      m.payloads.Holds r.value bytes → Said m r e

structure Sound (m : Machine) (zone : List UInt8) (r : Row) (e : Entry) : Prop where
  field : r.field = e.field
  kind : r.kind = e.kind
  deleted : r.deleted = e.deleted
  opened : e.opened = (r.opened || r.kind == .group)
  spelt : Spelt m.standard zone r e
  said : Said m r e
  lawful : e.Lawful m.standard

def entries (t : Forest Node) : Doc := t.map Node.entry

@[simp] theorem entries_node (id : Nat) (n : Node) (kids rest : Forest Node) :
    entries (.node id n kids rest) = .node id n.entry (entries kids) (entries rest) := rfl

/-- A node is sound over its children: where it is not known it has none, where it is they are
its content, and what is not dirty was not edited. -/
structure NodeSound (m : Machine) (id : Nat) (n : Node) (kids : Forest Node) : Prop where
  sound : Sound m (m.zoneOf (m.row id)) n.row n.entry
  pos : ∀ met, n.entry.met = some met → n.entry.pos = n.row.start
  closed : n.entry.opened = false → kids = .nil
  tiled : ∀ met, n.entry.met = some met → n.entry.opened = true →
    Doc.source (entries kids) = met.content
  dirt : n.row.dirty = false → n.entry.edited = false ∧ Doc.touched (entries kids) = false

/-! ## What sound rows write -/

namespace Doc

/-- A document without an edit is emitted as it was met. -/
theorem emitted_of_untouched {d : Doc} (h : d.touched = false) : d.emitted = .ok d.source := by
  induction d with
  | nil => rfl
  | node id e kids rest _ ihr =>
    unfold touched at h
    simp only [Bool.or_eq_false_iff] at h
    obtain ⟨⟨⟨hs, he⟩, hk⟩, hr⟩ := h
    have hdel : e.deleted = false := by
      unfold Entry.edited at he
      simp only [Bool.or_eq_false_iff] at he
      exact he.1.1
    have hset : e.settled (touched kids) (emitted kids) = .ok e.verbatim := by
      unfold Entry.settled
      rw [if_neg (by rw [hdel]; decide), if_pos ⟨he, hk⟩]
    unfold emitted source
    rw [hset, ihr hr, hs]
    rfl

end Doc

section Text

variable {m : Machine} {zone : List UInt8} {r : Row} {e : Entry}

theorem emit64_small {v : Nat} (h : v ≤ PayloadLen.max) : emit64 v = minimal v :=
  emit64_eq (Nat.lt_of_le_of_lt h (by decide))

theorem emit64_tag (field : FieldNumber) (code : Low3) :
    emit64 (tagWord field code) = minimal (tagWord field code) :=
  emit64_eq (Nat.lt_trans (tagWord_lt field code) (by decide))

/-- A row's authored word is its record's. -/
theorem authoredWord_bytes {v : Nat} (hlaw : e.Lawful m.standard) (hk : r.kind = e.kind)
    (hc : e.content = .word v) (hw : m.words[r.value]? = some v) :
    (m.authoredWord r).bytes = valueBytes e.kind v := by
  obtain ⟨h64, h32⟩ := hlaw.word v hc
  have hword : m.word r.value = v := by
    unfold Machine.word
    rw [List.getD_eq_getElem?_getD, hw]
    rfl
  unfold Machine.authoredWord valueBytes
  rw [hword, hk]
  cases hkind : e.kind with
  | varint => exact emit64_eq h64
  | i32 =>
    show toLeBytes 4 (v % 2 ^ 32) = _
    rw [Nat.mod_eq_of_lt (h32 hkind)]
  | _ => rfl

/-! ### Verdicts -/

theorem settle_intact (hd : r.deleted = false) (hb : r.base = .intact) :
    m.settle r = m.settleIntact r := by
  unfold Machine.settle
  dsimp only
  rw [if_neg (by rw [hd]; decide), hb]

theorem settle_clean (hd : r.deleted = false) (hb : r.base = .intact) (hr : r.dirty = false) :
    m.settle r = .clean r.start (r.spanEnd m.standard) := by
  rw [settle_intact hd hb]
  exact if_pos hr

theorem settle_spine (hd : r.deleted = false) (hb : r.base = .intact) (hr : r.dirty = true)
    (hk : r.kind = .len) (ho : r.opened = true) :
    m.settle r = .spine r.start (r.start + r.tagW m.standard)
      (r.start + r.tagW m.standard + r.delimW m.standard) r.payloadLen := by
  rw [settle_intact hd hb]
  unfold Machine.settleIntact
  dsimp only
  rw [if_neg (by rw [hr]; decide), if_pos ⟨hk, ho⟩]

theorem settle_reGroup (hd : r.deleted = false) (hb : r.base = .intact) (hr : r.dirty = true)
    (hk : r.kind = .group) :
    m.settle r = .reGroup r.start (r.start + r.tagW m.standard)
      (r.start + r.tagW m.standard + r.payloadLen) (r.spanEnd m.standard) := by
  rw [settle_intact hd hb]
  unfold Machine.settleIntact
  dsimp only
  rw [if_neg (by rw [hr]; decide), if_neg (by rw [hk]; exact nofun), if_pos hk]

theorem settle_leaf (hd : r.deleted = false) (hb : r.base = .intact)
    (hk : ¬ (r.kind = .len ∧ r.opened = true)) (hg : r.kind ≠ .group) :
    m.settle r = .clean r.start (r.spanEnd m.standard) := by
  rw [settle_intact hd hb]
  unfold Machine.settleIntact
  dsimp only
  rw [if_neg hk, if_neg hg]
  exact ite_self _

theorem settle_reBody (hd : r.deleted = false) (hb : r.base = .replaced) (hk : r.kind = .len) :
    m.settle r = .reBody r.start (r.start + r.tagW m.standard)
      (r.start + r.tagW m.standard + r.delimW m.standard) r.payloadLen r.value := by
  unfold Machine.settle
  dsimp only
  rw [if_neg (by rw [hd]; decide), hb, hk]

theorem settle_reValue (hd : r.deleted = false) (hb : r.base = .replaced) (hk : r.kind ≠ .len) :
    m.settle r = .reValue r.start (r.start + r.tagW m.standard) (m.authoredWord r) := by
  unfold Machine.settle
  dsimp only
  rw [if_neg (by rw [hd]; decide), hb]
  dsimp only
  split
  · contradiction
  · rfl

theorem settle_newBody (hd : r.deleted = false) (hb : r.base = .inserted) (hk : r.kind = .len) :
    m.settle r = .newBody (headWord r.field .len) r.value := by
  unfold Machine.settle
  dsimp only
  rw [if_neg (by rw [hd]; decide), hb, hk]

theorem settle_newGroup (hd : r.deleted = false) (hb : r.base = .inserted)
    (hk : r.kind = .group) :
    m.settle r = .newGroup (headWord r.field .group) (groupEndWord r.field) := by
  unfold Machine.settle
  dsimp only
  rw [if_neg (by rw [hd]; decide), hb, hk]

theorem settle_newValue (hd : r.deleted = false) (hb : r.base = .inserted) (hl : r.kind ≠ .len)
    (hg : r.kind ≠ .group) :
    m.settle r = .newValue (headWord r.field r.kind) (m.authoredWord r) := by
  unfold Machine.settle
  dsimp only
  rw [if_neg (by rw [hd]; decide), hb]
  dsimp only
  split
  · contradiction
  · contradiction
  · rfl

end Text

/-! ### Settlements -/

namespace Entry

variable {e : Entry} {below : Bool} {inner : Except SaveFault (List UInt8)}

theorem settled_deleted (h : e.deleted = true) : e.settled below inner = .ok [] := by
  unfold settled
  exact if_pos h

theorem settled_clean (hd : e.deleted = false) (he : e.edited = false) (hb : below = false) :
    e.settled below inner = .ok e.verbatim := by
  unfold settled
  rw [if_neg (by rw [hd]; decide), if_pos ⟨he, hb⟩]

theorem edited_of_content (h : e.content ≠ .kept) : e.edited = true := by
  unfold edited
  rw [Bool.or_eq_true]
  exact .inr (bne_iff_ne.mpr h)

theorem edited_of_authored (h : e.met = none) : e.edited = true := by
  unfold edited
  rw [h]
  simp

theorem settled_word (hd : e.deleted = false) {v : Nat} (hc : e.content = .word v) :
    e.settled below inner = .ok (e.tagBytes ++ valueBytes e.kind v) := by
  have he : e.edited = true := edited_of_content (by rw [hc]; exact nofun)
  unfold settled
  rw [if_neg (by rw [hd]; decide), if_neg (fun h => by rw [he] at h; cases h.1), hc]

theorem settled_payload (hd : e.deleted = false) {bytes : List UInt8}
    (hc : e.content = .payload bytes) :
    e.settled below inner = .ok (e.tagBytes ++ e.prefixBytes bytes.length ++ bytes) := by
  have he : e.edited = true := edited_of_content (by rw [hc]; exact nofun)
  unfold settled
  rw [if_neg (by rw [hd]; decide), if_neg (fun h => by rw [he] at h; cases h.1), hc]

theorem settled_scalar (hd : e.deleted = false) (hc : e.content = .kept) (hl : e.kind ≠ .len)
    (hg : e.kind ≠ .group) : e.settled below inner = .ok e.verbatim := by
  unfold settled
  rw [if_neg (by rw [hd]; decide), hc]
  dsimp only
  split
  · rfl
  · split
    · contradiction
    · contradiction
    · rfl

variable (hd : e.deleted = false) (hc : e.content = .kept) (h : e.edited = true ∨ below = true)

include hd hc h

theorem settled_len (hk : e.kind = .len) :
    e.settled below inner = inner.bind fun body =>
      if PayloadLen.max < body.length then .error (.bodyOverCap e.pos)
      else .ok (e.tagBytes ++ e.prefixBytes body.length ++ body) := by
  unfold settled
  rw [if_neg (by rw [hd]; decide), if_neg ?_, hc, hk]
  rintro ⟨he, hb⟩
  rw [he, hb] at h
  rcases h with h | h <;> cases h

theorem settled_group (hk : e.kind = .group) :
    e.settled below inner = inner.map fun body => e.tagBytes ++ body ++ e.endBytes := by
  unfold settled
  rw [if_neg (by rw [hd]; decide), if_neg ?_, hc, hk]
  rintro ⟨he, hb⟩
  rw [he, hb] at h
  rcases h with h | h <;> cases h

end Entry

/-! ### A node -/

section Node

variable {m : Machine} {i : Nat} {n : Node} {kids : Forest Node}

theorem prefixBytes_met {e : Entry} {met : Met} (h : e.met = some met) {len : Nat}
    (hle : len ≤ PayloadLen.max) :
    (if len = met.content.length then met.delim else emit64 len) = e.prefixBytes len := by
  unfold Entry.prefixBytes
  rw [h, emit64_small hle]

theorem tagBytes_met {e : Entry} {met : Met} (h : e.met = some met) : e.tagBytes = met.tag := by
  unfold Entry.tagBytes
  rw [h]

theorem tagBytes_authored {e : Entry} (h : e.met = none) :
    e.tagBytes = minimal (headWord e.field e.kind) := by
  unfold Entry.tagBytes
  rw [h]

theorem endBytes_met {e : Entry} {met : Met} (h : e.met = some met) : e.endBytes = met.delim := by
  unfold Entry.endBytes
  rw [h]

theorem endBytes_authored {e : Entry} (h : e.met = none) :
    e.endBytes = minimal (groupEndWord e.field) := by
  unfold Entry.endBytes
  rw [h]

theorem verbatim_met {e : Entry} {met : Met} (h : e.met = some met) :
    e.verbatim = met.verbatim e.kind := by
  unfold Entry.verbatim
  rw [h]
  rfl

theorem shapeOf_eq (hrow : (m.row i).body = n.row) :
    m.shapeOf i = m.shape (m.zoneOf (m.row i)) (m.settle n.row) := by
  unfold Machine.shapeOf
  rw [hrow]

/-- A record that rides as it was met. -/
theorem shapeOf_verbatim {met : Met} (hrow : (m.row i).body = n.row)
    (hst : Stands m.standard (m.zoneOf (m.row i)) n.row met)
    (h : m.settle n.row = .clean n.row.start (n.row.spanEnd m.standard)) :
    m.shapeOf i = .leaf (met.verbatim n.row.kind) := by
  rw [shapeOf_eq hrow, h, ← hst.slice_all]
  rfl

/-- A LEN over its edited interior. -/
theorem settled_spine {e : Entry} {met : Met} {inner : Except SaveFault (List UInt8)}
    {text : List UInt8} {cap : Option SaveFault} {srcLen pos : Nat} (hpos : e.pos = pos)
    (hmet : e.met = some met) (hlen : srcLen = met.content.length)
    (hinner : inner = cap.elim (.ok text) .error) :
    (inner.bind fun body =>
      if PayloadLen.max < body.length then .error (.bodyOverCap e.pos)
      else .ok (e.tagBytes ++ e.prefixBytes body.length ++ body)) =
      ((Shape.len pos met.tag met.delim srcLen).overCap text cap).elim
        (.ok ((Shape.len pos met.tag met.delim srcLen).bytes text)) .error := by
  subst hinner hpos hlen
  cases cap with
  | some fault => rfl
  | none =>
    show (if PayloadLen.max < text.length then _ else _) =
      (Option.or none (if PayloadLen.max < text.length then _ else none)).elim _ _
    split
    · rfl
    · next hcap =>
      show _ = Except.ok (met.tag ++ (if text.length = met.content.length then _ else _) ++ text)
      rw [prefixBytes_met hmet (Nat.not_lt.mp hcap), tagBytes_met hmet]

theorem settled_framed {e : Entry} {inner : Except SaveFault (List UInt8)} {text front back : List UInt8}
    {cap : Option SaveFault} (hf : e.tagBytes = front) (hb : e.endBytes = back)
    (hinner : inner = cap.elim (.ok text) .error) :
    (inner.map fun body => e.tagBytes ++ body ++ e.endBytes) =
      ((Shape.group front back).overCap text cap).elim
        (.ok ((Shape.group front back).bytes text)) .error := by
  subst hinner hf hb
  cases cap <;> rfl

/-- What an unedited interior writes is the content. -/
theorem text_of_untouched {content : List UInt8} (ht : (entries kids).touched = false)
    (hsrc : (entries kids).source = content)
    (hkids : (entries kids).emitted = (m.overCap kids).elim (.ok (m.text kids)) .error) :
    m.overCap kids = none ∧ m.text kids = content := by
  rw [Doc.emitted_of_untouched ht, hsrc] at hkids
  cases hover : m.overCap kids with
  | some fault =>
    rw [hover] at hkids
    cases hkids
  | none =>
    rw [hover] at hkids
    exact ⟨rfl, (Except.ok.inj hkids).symm⟩

theorem Said.content_kept {r : Row} {e : Entry} (h : Said m r e) (hb : r.base = .intact) :
    e.content = .kept := by
  rcases h with ⟨hc, -⟩ | ⟨-, hb', -⟩ | ⟨-, hb', -⟩
  · exact hc
  · rcases hb' with h | h <;> simp [hb] at h
  · rcases hb' with h | h <;> simp [hb] at h

theorem unedited_of_intact {met : Met} (h : NodeSound m i n kids) (hdel : n.row.deleted = false)
    (hb : n.row.base = .intact) (hmet : n.entry.met = some met) : n.entry.edited = false := by
  unfold Entry.edited
  rw [← h.sound.deleted, hdel, hmet, h.sound.said.content_kept hb]
  rfl

section Intact

variable {met : Met} (h : NodeSound m i n kids) (hrow : (m.row i).body = n.row)
  (hdel : n.row.deleted = false) (hb : n.row.base = .intact) (hmet : n.entry.met = some met)
  (hst : Stands m.standard (m.zoneOf (m.row i)) n.row met)
  (hkids : (entries kids).emitted = (m.overCap kids).elim (.ok (m.text kids)) .error)

include h hrow hdel hb hmet hst

/-- A row that rides as it was met, over an interior without an edit. -/
theorem settled_verbatim {inner : Except SaveFault (List UInt8)}
    (hclean : m.settle n.row = .clean n.row.start (n.row.spanEnd m.standard))
    (ht : (entries kids).touched = false ∨ n.entry.kind ≠ .len ∧ n.entry.kind ≠ .group) :
    n.entry.settled (entries kids).touched inner =
      ((m.shapeOf i).overCap (m.text kids) (m.overCap kids)).elim
        (.ok ((m.shapeOf i).bytes (m.text kids))) .error := by
  have hd : n.entry.deleted = false := h.sound.deleted ▸ hdel
  rw [shapeOf_verbatim hrow hst hclean, h.sound.kind, ← verbatim_met hmet]
  rcases ht with ht | ⟨hl, hg⟩
  · exact Entry.settled_clean hd (unedited_of_intact h hdel hb hmet) ht
  · exact Entry.settled_scalar hd (h.sound.said.content_kept hb) hl hg

include hkids

theorem settled_intact : n.entry.settled (entries kids).touched (entries kids).emitted =
    ((m.shapeOf i).overCap (m.text kids) (m.overCap kids)).elim
      (.ok ((m.shapeOf i).bytes (m.text kids))) .error := by
  have hd : n.entry.deleted = false := h.sound.deleted ▸ hdel
  have hun := unedited_of_intact h hdel hb hmet
  have hkept := h.sound.said.content_kept hb
  cases hdirty : n.row.dirty with
  | false =>
    exact settled_verbatim h hrow hdel hb hmet hst (settle_clean hdel hb hdirty)
      (.inl (h.dirt hdirty).2)
  | true =>
    by_cases hl : n.row.kind = .len
    · cases hopen : n.row.opened with
      | false =>
        have hnil : kids = .nil := h.closed (by rw [h.sound.opened, hopen, hl]; rfl)
        refine settled_verbatim h hrow hdel hb hmet hst (settle_leaf hdel hb ?_ ?_) (.inl ?_)
        · rw [hopen]
          exact nofun
        · rw [hl]
          decide
        · rw [hnil]
          rfl
      | true =>
        have hshape : m.shapeOf i = .len n.row.start met.tag met.delim n.row.payloadLen := by
          rw [shapeOf_eq hrow, settle_spine hdel hb hdirty hl hopen, ← hst.slice_tag,
            ← hst.slice_prefix hl]
          rfl
        have htiled := h.tiled met hmet (by rw [h.sound.opened, hopen]; rfl)
        rw [hshape]
        cases ht : (entries kids).touched with
        | true =>
          rw [Entry.settled_len hd hkept (.inr rfl) (h.sound.kind ▸ hl)]
          exact settled_spine (h.pos met hmet) hmet hst.len hkids
        | false =>
          obtain ⟨hover, htext⟩ := text_of_untouched ht htiled hkids
          have hcap : ¬ PayloadLen.max < met.content.length := by
            have hlaw := h.sound.lawful.met met hmet
            rw [← h.sound.kind, hl] at hlaw
            exact Nat.not_lt.mpr hlaw.content_le
          rw [Entry.settled_clean hd hun rfl, hover, htext, verbatim_met hmet, ← h.sound.kind, hl,
            hst.len]
          unfold Shape.overCap Shape.bytes
          dsimp only
          rw [if_neg hcap, if_pos rfl]
          rfl
    · by_cases hg : n.row.kind = .group
      · have hshape : m.shapeOf i = .group met.tag met.delim := by
          rw [shapeOf_eq hrow, settle_reGroup hdel hb hdirty hg, ← hst.slice_tag,
            ← hst.slice_end hg]
          rfl
        have htiled := h.tiled met hmet (by rw [h.sound.opened, hg, Bool.or_eq_true]; exact .inr rfl)
        rw [hshape]
        cases ht : (entries kids).touched with
        | true =>
          rw [Entry.settled_group hd hkept (.inr rfl) (h.sound.kind ▸ hg)]
          exact settled_framed (tagBytes_met hmet) (endBytes_met hmet) hkids
        | false =>
          obtain ⟨hover, htext⟩ := text_of_untouched ht htiled hkids
          rw [Entry.settled_clean hd hun rfl, hover, htext, verbatim_met hmet, ← h.sound.kind, hg]
          rfl
      · exact settled_verbatim h hrow hdel hb hmet hst (settle_leaf hdel hb (fun hn => hl hn.1) hg)
          (.inr ⟨h.sound.kind ▸ hl, h.sound.kind ▸ hg⟩)

end Intact

theorem settled_replaced {met : Met} (h : NodeSound m i n kids) (hrow : (m.row i).body = n.row)
    (hdel : n.row.deleted = false) (hb : n.row.base = .replaced) (hmet : n.entry.met = some met)
    (hst : Stands m.standard (m.zoneOf (m.row i)) n.row met)
    {inner : Except SaveFault (List UInt8)} :
    n.entry.settled (entries kids).touched inner =
      ((m.shapeOf i).overCap (m.text kids) (m.overCap kids)).elim
        (.ok ((m.shapeOf i).bytes (m.text kids))) .error := by
  have hd : n.entry.deleted = false := h.sound.deleted ▸ hdel
  rw [shapeOf_eq hrow]
  rcases h.sound.said with ⟨-, hb'⟩ | ⟨hc, -, hl, hg, hw⟩ | ⟨hc, -, hl, -, hp⟩
  · simp [hb] at hb'
  · rw [settle_reValue hdel hb hl, Entry.settled_word hd hc,
      ← authoredWord_bytes h.sound.lawful h.sound.kind hc hw, tagBytes_met hmet, ← hst.slice_tag]
    rfl
  · obtain ⟨hpieces, hlen⟩ := hp.pieces
    have hcap := h.sound.lawful.payload _ hc
    rw [settle_reBody hdel hb hl, Entry.settled_payload hd hc, ← prefixBytes_met hmet hcap,
      tagBytes_met hmet, ← hst.slice_tag, ← hst.slice_prefix hl, ← hst.len]
    show _ = Except.ok (_ ++ (if m.payloads.len n.row.value = _ then _ else _) ++
      (m.payloads.pieces n.row.value).flatten)
    rw [hpieces, hlen]

theorem settled_inserted (h : NodeSound m i n kids) (hrow : (m.row i).body = n.row)
    (hdel : n.row.deleted = false) (hb : n.row.base = .inserted) (hmet : n.entry.met = none)
    (hkids : (entries kids).emitted = (m.overCap kids).elim (.ok (m.text kids)) .error) :
    n.entry.settled (entries kids).touched (entries kids).emitted =
      ((m.shapeOf i).overCap (m.text kids) (m.overCap kids)).elim
        (.ok ((m.shapeOf i).bytes (m.text kids))) .error := by
  have hd : n.entry.deleted = false := h.sound.deleted ▸ hdel
  have htag : n.entry.tagBytes = emit64 (headWord n.row.field n.row.kind) := by
    rw [tagBytes_authored hmet, h.sound.field, h.sound.kind]
    exact (emit64_tag _ _).symm
  rw [shapeOf_eq hrow]
  rcases h.sound.said with ⟨hc, hb'⟩ | ⟨hc, -, hl, hg, hw⟩ | ⟨hc, -, hl, -, hp⟩
  · have hg : n.row.kind = .group := by
      rcases hb' with h | h
      · rw [hb] at h
        cases h
      · exact h.2
    rw [settle_newGroup hdel hb hg, Entry.settled_group hd hc
      (.inl (Entry.edited_of_authored hmet)) (h.sound.kind ▸ hg)]
    refine settled_framed (htag.trans (by rw [hg])) ?_ hkids
    rw [endBytes_authored hmet, h.sound.field]
    exact (emit64_tag _ _).symm
  · rw [settle_newValue hdel hb hl hg, Entry.settled_word hd hc, htag,
      ← authoredWord_bytes h.sound.lawful h.sound.kind hc hw]
    rfl
  · obtain ⟨hpieces, hlen⟩ := hp.pieces
    have hcap := h.sound.lawful.payload _ hc
    have hprefix : n.entry.prefixBytes (m.payloads.len n.row.value) =
        emit64 (m.payloads.len n.row.value) := by
      unfold Entry.prefixBytes
      rw [hmet, hlen, emit64_small hcap]
    rw [settle_newBody hdel hb hl, Entry.settled_payload hd hc, htag, ← hlen, hprefix, hl, ← hpieces]
    rfl

/-- A node is emitted as its row is. -/
theorem NodeSound.settled_eq (h : NodeSound m i n kids) (hrow : (m.row i).body = n.row)
    (hkids : (entries kids).emitted = (m.overCap kids).elim (.ok (m.text kids)) .error) :
    n.entry.settled (entries kids).touched (entries kids).emitted =
      ((m.shapeOf i).overCap (m.text kids) (m.overCap kids)).elim
        (.ok ((m.shapeOf i).bytes (m.text kids))) .error := by
  cases hdel : n.row.deleted with
  | true =>
    rw [Machine.shapeOf_deleted (by rw [hrow]; exact hdel),
      Entry.settled_deleted (h.sound.deleted ▸ hdel)]
    rfl
  | false =>
    rcases h.sound.spelt with ⟨hb | hb, hmet, hst⟩ | ⟨hb, hmet⟩
    · exact settled_intact h hrow hdel hb hmet hst hkids
    · exact settled_replaced h hrow hdel hb hmet hst
    · exact settled_inserted h hrow hdel hb hmet hkids

/-- A sound row is inside its zone. -/
theorem NodeSound.inside (h : NodeSound m i n kids) (hrow : (m.row i).body = n.row) :
    m.Inside (m.zoneOf (m.row i)) (m.settle (m.row i).body) := by
  rw [hrow]
  cases hdel : n.row.deleted with
  | true =>
    have hskip : m.settle n.row = .skip := by
      unfold Machine.settle
      exact if_pos hdel
    rw [hskip]
    exact trivial
  | false =>
    rcases h.sound.spelt with ⟨hb, hmet, hst⟩ | ⟨hb, hmet⟩
    · have hspan := hst.spanEnd_le (h.sound.lawful.met _ hmet).tag.admits.isWord.length_pos
      have hprefix : n.row.start + n.row.tagW m.standard + n.row.delimW m.standard ≤
          (m.zoneOf (m.row i)).length := by
        refine Nat.le_trans ?_ hspan
        unfold Row.spanEnd
        omega
      rcases hb with hb | hb
      · by_cases hl : n.row.kind = .len ∧ n.row.opened = true
        · cases hdirty : n.row.dirty with
          | false =>
            rw [settle_clean hdel hb hdirty]
            exact hspan
          | true =>
            rw [settle_spine hdel hb hdirty hl.1 hl.2]
            exact ⟨Nat.le_add_right _ _, hprefix⟩
        · by_cases hg : n.row.kind = .group
          · cases hdirty : n.row.dirty with
            | false =>
              rw [settle_clean hdel hb hdirty]
              exact hspan
            | true =>
              rw [settle_reGroup hdel hb hdirty hg]
              refine ⟨?_, hspan⟩
              unfold Row.spanEnd
              omega
          · rw [settle_leaf hdel hb hl hg]
            exact hspan
      · rcases h.sound.said with ⟨-, hb'⟩ | ⟨-, -, hl, -, -⟩ | ⟨-, -, hl, -, hp⟩
        · simp [hb] at hb'
        · rw [settle_reValue hdel hb hl]
          exact Nat.le_trans (Nat.le_add_right _ _) hprefix
        · rw [settle_reBody hdel hb hl]
          refine ⟨Nat.le_add_right _ _, hprefix, ?_⟩
          unfold Machine.payload
          rw [hp.pieces.1, hp.pieces.2]
    · rcases h.sound.said with ⟨-, hb'⟩ | ⟨-, -, hl, hg, -⟩ | ⟨-, -, hl, -, hp⟩
      · have hg : n.row.kind = .group := by
          rcases hb' with h | h
          · rw [hb] at h
            cases h
          · exact h.2
        rw [settle_newGroup hdel hb hg]
        exact trivial
      · rw [settle_newValue hdel hb hl hg]
        exact trivial
      · rw [settle_newBody hdel hb hl]
        show _ = (m.payloads.pieces n.row.value).flatten.length
        rw [hp.pieces.1, hp.pieces.2]

end Node

section Forest

variable {m : Machine} {t : Forest Node}

/-- The machine's rows are the forest's. -/
def Rows (m : Machine) (t : Forest Node) : Prop := t.All fun i n _ => (m.row i).body = n.row

/-- A forest of sound nodes is emitted as its rows are. -/
theorem emitted_eq (h : t.All (NodeSound m)) (hrows : Rows m t) :
    (entries t).emitted = (m.overCap t).elim (.ok (m.text t)) .error := by
  induction t with
  | nil => rfl
  | node i n kids rest ihk ihr =>
    have hnode := h.1.settled_eq hrows.1 (ihk h.2.1 hrows.2.1)
    have hrest := ihr h.2.2 hrows.2.2
    show ((n.entry.settled (entries kids).touched (entries kids).emitted).bind fun here =>
      (entries rest).emitted.map fun behind => here ++ behind) =
        (((m.shapeOf i).overCap (m.text kids) (m.overCap kids)).or (m.overCap rest)).elim
          (.ok ((m.shapeOf i).bytes (m.text kids) ++ m.text rest)) .error
    rw [hnode, hrest]
    cases (m.shapeOf i).overCap (m.text kids) (m.overCap kids) with
    | some fault => rfl
    | none => cases m.overCap rest <;> rfl

theorem bounded_of_sound (h : t.All (NodeSound m)) (hrows : Rows m t) : m.Bounded t := by
  induction t with
  | nil => exact trivial
  | node i n kids rest ihk ihr =>
    exact ⟨h.1.inside hrows.1, ihk h.2.1 hrows.2.1, ihr h.2.2 hrows.2.2⟩

/-- A riding row stands at the end of the riding row in front. -/
def Abuts (standard : Standard) : Option Row → Forest Node → Prop
  | _, .nil => True
  | last, .node _ n _ rest =>
    (∀ r, last = some r → r.ridesVerbatim = true → n.row.ridesVerbatim = true →
      n.row.start = r.spanEnd standard) ∧ Abuts standard (some n.row) rest

theorem abut_of_abuts {last : Option Nat} {lastRow : Option Row}
    (h : Abuts m.standard lastRow t) (hrows : Rows m t)
    (hlast : ∀ i, last = some i → lastRow = some (m.row i).body) : m.Abut last t := by
  induction t generalizing last lastRow with
  | nil => exact trivial
  | node i n kids rest _ ihr =>
    refine ⟨fun prev hp hr hn => ?_, ihr h.2 hrows.2.2 fun j hj => ?_⟩
    · rw [hrows.1] at hn ⊢
      exact h.1 _ (hlast prev hp) hr hn
    · cases hj
      rw [hrows.1]

end Forest

end ProtobufEdit.Editor
