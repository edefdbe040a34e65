import ProtobufEdit.Revise.Reference

/-!
# Saved documents are read again

What a plain machine writes is lawful records under its own standard, one behind the other.
-/

namespace ProtobufEdit.Revise

open Wire Wire.Groupless Varint Base128 Arena Cursor
open Editor (Shape slice_eq SaveFault)
open Editor.Machine (slice prefixed)

/-! ## Emitted records -/

/-- What a row may write: nothing, a lawful record, or a LEN around its interior. -/
inductive Piece (standard : Standard) : Shape → Prop where
  | nothing : Piece standard (.leaf [])
  | record {a : Record} : a.Lawful standard → Piece standard (.leaf a.bytes)
  | len {pos srcLen : Nat} {field : FieldNumber} {tag delim : List UInt8} :
      IsTag standard field RecordKind.len.low3 tag → Window.len.Admits standard delim →
      Base128.value delim = srcLen → Piece standard (.len pos tag delim srcLen)

section Piece

variable {standard : Standard} {field : FieldNumber}

/-- A LEN around a payload that fits is a record. -/
theorem framed_record {srcLen : Nat} {tag delim body : List UInt8}
    (htag : IsTag standard field RecordKind.len.low3 tag)
    (hdelim : Window.len.Admits standard delim) (hvalue : Base128.value delim = srcLen)
    (hcap : body.length ≤ PayloadLen.max) :
    ∃ a : Record, a.Lawful standard ∧
      a.bytes = tag ++ (if body.length = srcLen then delim else emit64 body.length) ++ body := by
  refine ⟨⟨field, tag, .len (if body.length = srcLen then delim else emit64 body.length) body⟩,
    ⟨htag, ?_⟩, (List.append_assoc ..).symm⟩
  show Window.len.Admits standard _ ∧ Base128.value _ = body.length
  split
  · next he => exact ⟨hdelim, hvalue.trans he.symm⟩
  · rw [Editor.emit64_small hcap]
    exact ⟨admits_minimal_len standard hcap, value_minimal _⟩

/-- A stored value behind its tag is a record. -/
theorem word_record {s : Store} (hs : s.Sound) {kind : RecordKind} (hk : kind ≠ .len)
    {tag : List UInt8} (htag : IsTag standard field kind.low3 tag) (v : Nat) :
    ∃ a : Record, a.Lawful standard ∧ a.bytes = tag ++ (s.word kind v).bytes := by
  cases kind with
  | varint =>
    have hlt := hs.varint_lt v
    refine ⟨⟨field, tag, .varint (minimal (s.varint v))⟩,
      ⟨htag, admits_minimal_value standard hlt⟩, ?_⟩
    show _ = tag ++ emit64 (s.varint v)
    rw [emit64_eq hlt]
    rfl
  | i64 =>
    exact ⟨⟨field, tag, .i64 (Varint.toLeBytes 8 (s.bits64At v))⟩,
      ⟨htag, Varint.toLeBytes_length _ _⟩, rfl⟩
  | i32 =>
    exact ⟨⟨field, tag, .i32 (Varint.toLeBytes 4 (s.bits32At v))⟩,
      ⟨htag, Varint.toLeBytes_length _ _⟩, rfl⟩
  | len => exact absurd rfl hk

/-- What a row writes, where no body is over its cap. -/
theorem Piece.written {shape : Shape} (h : Piece standard shape) {body : List UInt8}
    {inner : Option SaveFault} (hc : shape.overCap body inner = none) :
    shape.bytes body = [] ∨ ∃ a : Record, a.Lawful standard ∧ a.bytes = shape.bytes body := by
  cases h with
  | nothing => exact .inl rfl
  | record hlaw => exact .inr ⟨_, hlaw, rfl⟩
  | @len pos srcLen field tag delim htag hdelim hvalue =>
    obtain ⟨-, hcap⟩ := Option.or_eq_none_iff.mp hc
    refine .inr (framed_record htag hdelim hvalue ?_)
    by_contra hn
    rw [if_pos (Nat.lt_of_not_le hn)] at hcap
    cases hcap

end Piece

namespace Machine

variable {standard : Standard} {m m' : Machine standard} {t t' u : Forest Unit} {x y : Nat}

/-! ## Pieces of a tidy machine -/

section Tidy

/-- A new record of a payload. -/
theorem Tidy.body_piece (h : m.Tidy t) (field : FieldNumber) (value : Nat) :
    Piece standard (.leaf
      (emit64 (headWord field .len) ++ emit64 (m.spanLen value) ++ m.store.spanBytes value)) := by
  have hlen := h.spanLen value
  have hcap := h.stored_le value
  obtain ⟨a, hlaw, hbytes⟩ := framed_record (isTag_minimal standard field RecordKind.len.low3)
    (admits_minimal_len standard (Nat.zero_le _)) (value_minimal 0) hcap
  have hdelim : (if (m.store.spanBytes value).length = 0 then minimal 0
      else emit64 (m.store.spanBytes value).length) = emit64 (m.spanLen value) := by
    rw [hlen]
    split
    · next hz =>
      rw [hz]
      rfl
    · rfl
  rw [hdelim, ← emit64_head] at hbytes
  exact hbytes ▸ .record hlaw

/-- A new record of a scalar. -/
theorem Tidy.value_piece (h : m.Tidy t) (field : FieldNumber) {kind : RecordKind}
    (hk : kind ≠ .len) (value : Nat) :
    Piece standard (.leaf (emit64 (headWord field kind) ++ (m.store.word kind value).bytes)) := by
  rw [emit64_head]
  obtain ⟨a, hlaw, hbytes⟩ := word_record h.plain.store hk
    (isTag_minimal standard field kind.low3) value
  exact hbytes ▸ .record hlaw

/-- A new container around what its interior writes. -/
theorem spine_piece (field : FieldNumber) (pos : Nat) :
    Piece standard (.len pos (emit64 (headWord field .len)) (emit64 0) 0) := by
  rw [emit64_head]
  exact .len (isTag_minimal standard field RecordKind.len.low3)
    (admits_minimal_len standard (Nat.zero_le _)) (value_minimal 0)

/-- A spelled LEN's tag and prefix frame whatever fits. -/
theorem spelled_framing {r : Row} {zone : List UInt8} {pos : Nat} {a : Record}
    {word payload : List UInt8} (h : Spelled standard zone r pos a)
    (hp : a.payload = .len word payload) :
    IsTag standard a.field RecordKind.len.low3 a.tag ∧ Window.len.Admits standard word ∧
      Base128.value word = payload.length := by
  have htag := h.lawful.isTag
  have hbody := h.lawful.payload
  rw [hp] at htag hbody
  exact ⟨htag, hbody.1, hbody.2⟩

/-- Every live row writes a piece. -/
theorem Tidy.piece (h : m.Tidy t) {arm : Arm} (hs : m.Settles x arm) :
    Piece standard (m.shape (m.backing (m.row x).body) arm) := by
  cases hs with
  | skip => exact .nothing
  | clean hspelled =>
    unfold shape
    dsimp only
    rw [hspelled.slice_all]
    exact .record hspelled.lawful
  | spine hspelled hp =>
    obtain ⟨htag, hword, hvalue⟩ := spelled_framing hspelled hp
    unfold shape
    dsimp only
    rw [hspelled.slice_tag, hspelled.slice_word hp]
    exact .len htag hword hvalue
  | @reBody start value a word payload hspelled hp =>
    obtain ⟨htag, hword, hvalue⟩ := spelled_framing hspelled hp
    have hlen := h.spanLen value
    obtain ⟨b, hlaw, hbytes⟩ := framed_record htag hword hvalue (h.stored_le value)
    unfold shape prefixed
    dsimp only
    rw [hspelled.slice_tag, hspelled.slice_word hp, hlen, ← hbytes]
    exact .record hlaw
  | @reValue start value a hspelled hk =>
    obtain ⟨b, hlaw, hbytes⟩ := word_record h.plain.store hk hspelled.lawful.isTag value
    unfold shape
    dsimp only
    rw [hspelled.slice_tag, ← hbytes]
    exact .record hlaw
  | newSpine => exact spine_piece _ _
  | newBody => exact h.body_piece _ _
  | newValue hk => exact h.value_piece _ hk _

/-- Rows whose bodies all fit write lawful records. -/
theorem Tidy.lawful_text (h : m.Tidy t) (hu : ∀ x ∈ u.ids, x ∈ t.ids)
    (hc : m.overCap u = none) :
    ∃ records, (∀ a ∈ records, a.Lawful standard) ∧ m.text u = Revise.text records := by
  induction u with
  | nil => exact ⟨[], nofun, rfl⟩
  | node x _ kids rest _ ihr =>
    rw [overCap] at hc
    obtain ⟨hhere, hbehind⟩ := Option.or_eq_none_iff.mp hc
    obtain ⟨records, hlaw, htext⟩ := ihr (fun y hy => hu y (List.mem_cons_of_mem _
      (List.mem_append_right _ hy))) hbehind
    rw [text, htext]
    have hpiece : Piece standard (m.shapeOf x) := h.piece (h.settles (hu x List.mem_cons_self)).2
    rcases hpiece.written hhere with he | ⟨a, hlawful, hbytes⟩
    · exact ⟨records, hlaw, by rw [he]; rfl⟩
    · refine ⟨a :: records, fun b hb => ?_, by rw [← hbytes]; rfl⟩
      rcases List.mem_cons.mp hb with rfl | hb
      · exact hlawful
      · exact hlaw b hb

/-- What a tidy machine saves is lawful records. -/
theorem Tidy.saved_lawful (h : m.Tidy t) {out : List UInt8} (hs : m.save = .saved out) :
    ∃ records, (∀ a ∈ records, a.Lawful standard) ∧ out = Revise.text records := by
  have hfaces := h.faces.save
  rw [hs] at hfaces
  cases hc : m.clean with
  | true =>
    rw [if_pos hc, h.clean_text hc] at hfaces
    obtain ⟨w, records, hw, htiles⟩ := h.tiled none (by intro _ e; cases e)
    cases hw
    have hread := htiles.read
    rw [slice_eq] at hread
    have hread : (m.source.drop 0).take (0 + m.source.length - 0) = _ := hread
    rw [List.drop_zero, Nat.zero_add, Nat.sub_zero, List.take_length] at hread
    cases hfaces
    exact ⟨records, htiles.lawful, hread⟩
  | false =>
    rw [if_neg (by rw [hc]; nofun)] at hfaces
    unfold publishes at hfaces
    cases hover : m.overCap t with
    | some fault =>
      rw [hover] at hfaces
      cases hfaces
    | none =>
      rw [hover] at hfaces
      dsimp only [Option.elim] at hfaces
      split at hfaces
      · cases hfaces
      · cases hfaces
        exact h.lawful_text (fun _ hx => hx) hover

end Tidy

/-- Every state of a plain run that saves, saves lawful records. -/
theorem saves_lawful {cap : Nat} {source : List UInt8}
    (h : openSource standard cap source = .ok m) (commands : List (Command standard))
    (hp : ∀ command ∈ commands, command.plain = true) {out : List UInt8}
    (hs : (m.performAll commands).save = .saved out) :
    ∃ records, (∀ a ∈ records, a.Lawful standard) ∧ out = Revise.text records := by
  obtain ⟨t, ht⟩ := tidy_run (tidy_open h) hp
  exact ht.saved_lawful hs

theorem saves_lawful_grown :
    ∃ (m : Machine .tolerant) (out : List UInt8),
      openSource .tolerant PayloadLen.max [0x0A, 0x02, 0x08, 0x05, 0x10, 0x01] = .ok m ∧
      (m.performAll grown).save = .saved out ∧
      ∃ records, (∀ a ∈ records, Record.Lawful .tolerant a) ∧ out = Revise.text records := by
  obtain ⟨m, out, hm, hs⟩ : ∃ (m : Machine .tolerant) (out : List UInt8),
      openSource .tolerant PayloadLen.max [0x0A, 0x02, 0x08, 0x05, 0x10, 0x01] = .ok m ∧
      (m.performAll grown).save = .saved out := ⟨_, _, rfl, rfl⟩
  exact ⟨m, out, hm, hs, saves_lawful hm grown (by decide) hs⟩

end Machine

end ProtobufEdit.Revise
