import ProtobufEdit.Inspect.Grouped
import ProtobufEdit.Source.Closure

/-!
# The tree of a parse

A table is the preorder of a forest. `Lies` says of a forest that its records tile a stretch of
the bytes, groups with their end tags and payloads with their records; `Torn` allows for the open
containers of a parse that was stopped.
-/

namespace ProtobufEdit.Inspect.Grouped

open Wire Wire.Grouped Varint Base128 Cursor
open Cursor.Grouped (ofBody)
open Inplace.Grouped (Doc)
open Source.Grouped (RecordRef)
open Source.Grouped.RecordRef (delimW contentLen)

/-! ## Forests -/

/-- Records in order, each with the records inside it. -/
inductive Nodes where
  | nil
  | node (r : Met) (kids rest : Nodes)
  deriving DecidableEq, Repr

namespace Nodes

def size : Nodes → Nat
  | nil => 0
  | node _ kids rest => 1 + kids.size + rest.size

/-- The rows in preorder, the first of them the table's row `base`. -/
def rows (parent : Option Nat) : Nat → Nodes → List Row
  | _, nil => []
  | base, node r kids rest =>
    r.row parent kids.size ::
      (kids.rows (some base) (base + 1) ++ rest.rows parent (base + 1 + kids.size))

def append : Nodes → Nodes → Nodes
  | nil, ns => ns
  | node r kids rest, ns => node r kids (rest.append ns)

/-- How deep the groups nest that are reached without crossing a LEN. -/
def nesting : Nodes → Nat
  | nil => 0
  | node r kids rest => max (if r.kind = .group then kids.nesting + 1 else 0) rest.nesting

variable {parent : Option Nat} {base : Nat} {ns ns' : Nodes}

theorem rows_length (parent : Option Nat) (base : Nat) (ns : Nodes) :
    (ns.rows parent base).length = ns.size := by
  induction ns generalizing parent base with
  | nil => rfl
  | node r kids rest ihk ih =>
    rw [rows, size, List.length_cons, List.length_append, ihk, ih]
    omega

theorem rows_append (parent : Option Nat) (base : Nat) (ns ns' : Nodes) :
    (ns.append ns').rows parent base =
      ns.rows parent base ++ ns'.rows parent (base + ns.size) := by
  induction ns generalizing base with
  | nil => rfl
  | node r kids rest _ ih =>
    have hbase : base + 1 + kids.size + rest.size = base + (node r kids rest).size := by
      rw [size]
      omega
    rw [append, rows, rows, ih, hbase]
    simp only [List.cons_append, List.append_assoc]

end Nodes

/-! ## What stands for bytes -/

/-- A record that is no group, at its start: everything a row says of it. -/
def IsRecord (bytes : List UInt8) (r : Met) : Prop :=
  ∃ (rec : Record) (rest : List UInt8), bytes.drop r.start = rec.bytes ++ rest ∧
    rec.Lawful .tolerant ∧ r.field = rec.field ∧ r.kind = ofBody rec.payload.kind ∧
    r.tagWidth = rec.tag.length ∧ r.delimWidth = delimW rec.payload ∧
    r.payloadLen = contentLen rec.payload

/-- A framing tag at a position. -/
def TagAt (bytes : List UInt8) (pos : Nat) (field : FieldNumber) (code : Low3) (width : Nat) :
    Prop :=
  ∃ tag rest, bytes.drop pos = tag ++ rest ∧ IsTag .tolerant field code tag ∧ width = tag.length

/-- A group's start tag, at its row. -/
def Opens (bytes : List UInt8) (r : Met) : Prop :=
  r.kind = .group ∧ TagAt bytes r.start r.field 3 r.tagWidth

/-- A group's matching end tag, behind its interior. -/
def Closes (bytes : List UInt8) (r : Met) : Prop :=
  ∃ width, r.delimWidth = some width ∧
    TagAt bytes (r.payloadStart + r.payloadLen) r.field 4 width

/-- The forest tiles a stretch of the bytes, its containers nesting within `room`. -/
inductive Lies (bytes : List UInt8) : Nat → Nat → Nodes → Nat → Prop where
  | nil (room pos : Nat) : Lies bytes room pos .nil pos
  | leaf {room start stop : Nat} {r : Met} {rest : Nodes} : r.start = start → IsRecord bytes r →
      Lies bytes room r.stop rest stop → Lies bytes room start (.node r .nil rest) stop
  | payload {room start stop : Nat} {r : Met} {kids rest : Nodes} : r.start = start →
      IsRecord bytes r → r.kind = .len → 0 < room →
      Lies bytes (room - 1) r.payloadStart kids r.stop → Lies bytes room r.stop rest stop →
      Lies bytes room start (.node r kids rest) stop
  | group {room start stop : Nat} {r : Met} {kids rest : Nodes} : r.start = start →
      Opens bytes r → Closes bytes r → 0 < room →
      Lies bytes (room - 1) r.payloadStart kids (r.payloadStart + r.payloadLen) →
      Lies bytes room r.stop rest stop → Lies bytes room start (.node r kids rest) stop

/-- The forest of a stopped parse: behind whole records, perhaps one container that is cut. -/
inductive Torn (bytes : List UInt8) (cut : Nat) : Nat → Nat → Nodes → Prop where
  | whole {room start : Nat} {ns : Nodes} : Lies bytes room start ns cut →
      Torn bytes cut room start ns
  | payload {room start : Nat} {before kids : Nodes} {r : Met} :
      Lies bytes room start before r.start → IsRecord bytes r → r.kind = .len → cut ≤ r.stop →
      0 < room → Torn bytes cut (room - 1) r.payloadStart kids →
      Torn bytes cut room start (before.append (.node r kids .nil))
  | group {room start : Nat} {before kids : Nodes} {r : Met} :
      Lies bytes room start before r.start → Opens bytes r → r.delimWidth = none → 0 < room →
      r.payloadStart + r.payloadLen = cut → Torn bytes cut (room - 1) r.payloadStart kids →
      Torn bytes cut room start (before.append (.node r kids .nil))

section Lies

variable {bytes : List UInt8} {room start mid stop : Nat} {ns ns' : Nodes} {r : Met}

theorem Lies.append (h : Lies bytes room start ns mid) (h' : Lies bytes room mid ns' stop) :
    Lies bytes room start (ns.append ns') stop := by
  induction h with
  | nil => exact h'
  | leaf hs hr _ ih => exact .leaf hs hr (ih h')
  | payload hs hr hk hroom hkids _ _ ih => exact .payload hs hr hk hroom hkids (ih h')
  | group hs ho hc hroom hkids _ _ ih => exact .group hs ho hc hroom hkids (ih h')

/-- A record's span is its bytes. -/
theorem IsRecord.stop_eq {rec : Record} (htag : r.tagWidth = rec.tag.length)
    (hdelim : r.delimWidth = delimW rec.payload) (hlen : r.payloadLen = contentLen rec.payload) :
    r.stop = r.start + rec.bytes.length := by
  rw [Met.stop, htag, hdelim, hlen, Record.bytes, List.length_append]
  cases rec.payload <;> simp [delimW, contentLen, Payload.bytes, Nat.add_assoc]

theorem IsRecord.lt_stop (h : IsRecord bytes r) : r.start < r.stop := by
  obtain ⟨rec, rest, -, hlaw, -, -, htag, hdelim, hlen⟩ := h
  have := hlaw.length_pos
  rw [IsRecord.stop_eq htag hdelim hlen]
  omega

theorem IsRecord.stop_le (h : IsRecord bytes r) : r.stop ≤ bytes.length := by
  obtain ⟨rec, rest, he, hlaw, -, -, htag, hdelim, hlen⟩ := h
  have := hlaw.length_pos
  have := length_of_drop_eq he
  rw [IsRecord.stop_eq htag hdelim hlen]
  omega

theorem IsRecord.payloadStart_len (h : IsRecord bytes r) (hk : r.kind = .len) :
    r.start < r.payloadStart ∧ r.payloadStart ≤ r.stop := by
  obtain ⟨rec, rest, -, hlaw, -, -, htag, -, -⟩ := h
  have hpos := hlaw.isTag.admits.isWord.length_pos
  rw [Met.payloadStart, if_pos hk, Met.stop]
  omega

theorem Lies.le (h : Lies bytes room start ns stop) : start ≤ stop := by
  induction h with
  | nil => exact Nat.le_refl _
  | leaf hs hr _ ih =>
    have := hr.lt_stop
    omega
  | payload hs hr _ _ _ _ _ ih =>
    have := hr.lt_stop
    omega
  | @group _ _ _ r _ _ hs _ _ _ _ _ _ ih =>
    have : r.start ≤ r.stop := Nat.le_add_right _ _
    omega

end Lies

/-! ## One construct -/

section Judge

variable {standard : Standard} {bytes : List UInt8} {zone start : Nat} {r : Met}
  {failure : Failure} {field : FieldNumber} {tagWidth : Nat}

theorem admits_tolerant {w : Window} {word : List UInt8} (h : IsWord w.cap w.last word) :
    w.Admits .tolerant word := ⟨h, by simp [Window.padded, widthPadded]⟩

/-- A tag read inside a zone. -/
theorem tag_read {word : Nat} (hz : zone ≤ bytes.length)
    (h : Slice.tagWord bytes start zone = .ok (word, tagWidth))
    (hf : FieldNumber.fromWord word = some field) :
    ∃ tag rest, bytes.drop start = tag ++ rest ∧
      IsTag .tolerant field (Low3.fromWord word) tag ∧ tagWidth = tag.length ∧
      start + tagWidth ≤ zone := by
  obtain ⟨tag, rest, he, hword, rfl, rfl, hroom⟩ := read_word .tag hz h
  have hpos := hword.length_pos
  exact ⟨tag, rest, he, ⟨admits_tolerant hword, (tagWord_of_fromWord hf).symm⟩, rfl, by omega⟩

theorem valueWidth_ok {cut width : Nat} (hz : zone ≤ bytes.length)
    (h : valueWidth standard bytes zone start cut field = .ok width) :
    ∃ word rest, bytes.drop start = word ++ rest ∧ IsWord maxLen64 last64 word ∧
      width = word.length ∧ start + width ≤ zone := by
  have hread : ∃ v, Slice.value64 bytes start zone = .ok (v, width) := by
    unfold valueWidth at h
    cases standard with
    | canonicalMinimal =>
      simp only at h
      cases hr : Slice.value64 bytes start zone with
      | error cause => rw [hr] at h; cases h
      | ok p =>
        rw [hr] at h
        simp only at h
        split at h
        · cases h
        · cases h
          exact ⟨p.1, rfl⟩
    | tolerant =>
      simp only at h
      rw [width64Trusted_eq hz] at h
      cases hr : Slice.value64 bytes start zone with
      | error cause => rw [hr] at h; cases h
      | ok p =>
        rw [hr] at h
        cases h
        exact ⟨p.1, rfl⟩
  obtain ⟨v, hread⟩ := hread
  obtain ⟨word, rest, he, hword, -, rfl, hroom⟩ := read_word .value hz hread
  have hpos := hword.length_pos
  exact ⟨word, rest, he, hword, rfl, by omega⟩

/-- A record from its tag and the payload behind it. -/
theorem isRecord_of {p : Payload} {tag rest : List UInt8} {delimWidth : Option Nat}
    {payloadLen : Nat} (he : bytes.drop start = tag ++ (p.bytes ++ rest))
    (ht : IsTag .tolerant field p.kind.low3 tag) (hp : p.Lawful .tolerant)
    (hd : delimWidth = delimW p) (hl : payloadLen = contentLen p) :
    IsRecord bytes ⟨start, field, ofBody p.kind, tag.length, delimWidth, payloadLen⟩ :=
  ⟨⟨field, tag, p⟩, rest, by rw [he, Record.bytes, List.append_assoc], ⟨ht, hp⟩, rfl, rfl, rfl, hd,
    hl⟩

/-- What is judged at a position stands there, inside its zone. -/
def Judged.Stands (bytes : List UInt8) (zone start : Nat) : Judged → Prop
  | .met r => r.start = start ∧ IsRecord bytes r ∧ r.stop ≤ zone
  | .groupOpen field width => TagAt bytes start field 3 width ∧ start + width ≤ zone
  | .groupClose field width => TagAt bytes start field 4 width ∧ start + width ≤ zone

theorem fixedRecord_ok (kind : Groupless.RecordKind) {tag rest : List UInt8} {judged : Judged}
    (hz : zone ≤ bytes.length) (he : bytes.drop start = tag ++ rest)
    (ht : IsTag .tolerant field kind.low3 tag) (hk : kind = .i64 ∨ kind = .i32)
    (h : fixedRecord zone start field (ofBody kind) tag.length = .ok judged) :
    judged.Stands bytes zone start := by
  have hrest := length_of_drop_eq he
  unfold fixedRecord at h
  extract_lets needed at h
  split at h
  · cases h
  next hin =>
    cases h
    have hneed : ∀ {n : Nat}, n = needed → (rest.take n).length = n := by
      intro n hn
      rw [List.length_take]
      omega
    have hsplit : ∀ n, bytes.drop start = tag ++ (rest.take n ++ rest.drop n) := by
      intro n
      rw [he, List.take_append_drop]
    refine ⟨rfl, ?_, ?_⟩
    · rcases hk with rfl | rfl
      · exact isRecord_of (p := .i64 (rest.take 8)) (hsplit 8) ht (hneed rfl) rfl (hneed rfl).symm
      · exact isRecord_of (p := .i32 (rest.take 4)) (hsplit 4) ht (hneed rfl) rfl (hneed rfl).symm
    · simp only [Met.stop, Option.getD_none]
      omega

theorem judge_ok {judged : Judged} (hz : zone ≤ bytes.length)
    (h : judge standard bytes zone start = .ok judged) : judged.Stands bytes zone start := by
  unfold judge at h
  cases htag : Slice.tagWord bytes start zone with
  | error cause => rw [htag] at h; cases h
  | ok p =>
    obtain ⟨word, tagWidth⟩ := p
    rw [htag] at h
    simp only at h
    split at h
    · cases h
    cases hf : FieldNumber.fromWord word with
    | none => rw [hf] at h; cases h
    | some field =>
      rw [hf] at h
      simp only at h
      obtain ⟨tag, rest, he, ht, rfl, hin⟩ := tag_read hz htag hf
      have hrest := drop_of_drop_eq he
      cases hc : classify (Low3.fromWord word) with
      | unassigned => rw [hc] at h; cases h
      | groupEnd =>
        rw [hc] at h
        cases h
        rw [code_of_groupEnd hc] at ht
        exact ⟨⟨tag, rest, he, ht, rfl⟩, hin⟩
      | record kind =>
        have hcode := low3_of_classify hc
        rw [hcode] at ht
        rw [hc] at h
        cases kind with
        | group =>
          cases h
          exact ⟨⟨tag, rest, he, ht, rfl⟩, hin⟩
        | i64 => exact fixedRecord_ok .i64 hz he ht (.inl rfl) h
        | i32 => exact fixedRecord_ok .i32 hz he ht (.inr rfl) h
        | varint =>
          simp only [varintRecord] at h
          cases hw : valueWidth standard bytes zone (start + tag.length) start field with
          | error failure => rw [hw] at h; cases h
          | ok width =>
            rw [hw] at h
            cases h
            obtain ⟨word, behind, hv, hword, rfl, hle⟩ := valueWidth_ok hz hw
            rw [hrest] at hv
            refine ⟨rfl, ?_, ?_⟩
            · exact isRecord_of (p := .varint word) (by rw [he, hv]; rfl) ht
                (admits_tolerant hword) rfl rfl
            · simp only [Met.stop, Option.getD_none]
              omega
        | len =>
          simp only [lenRecord] at h
          cases hl : Slice.lenWord bytes (start + tag.length) zone with
          | error cause => rw [hl] at h; cases h
          | ok q =>
            rw [hl] at h
            simp only at h
            split at h
            · cases h
            split at h
            · cases h
            next hfit =>
              cases h
              obtain ⟨word, behind, hv, hword, hval, hwidth, hroom⟩ := read_word .len hz hl
              have hbehind := length_of_drop_eq hv
              rw [hrest] at hv
              have htake : (behind.take q.1).length = q.1 := by
                rw [List.length_take]
                omega
              refine ⟨rfl, ?_, ?_⟩
              · have hsplit : bytes.drop start =
                    tag ++ ((Payload.len word (behind.take q.1)).bytes ++ behind.drop q.1) := by
                  rw [he, hv, Payload.bytes, List.append_assoc, List.take_append_drop]
                exact isRecord_of hsplit ht
                  ⟨admits_tolerant hword, by rw [← hval, htake]⟩ (by rw [hwidth]; rfl) htake.symm
              · simp only [Met.stop, Option.getD_some]
                omega

theorem valueWidth_cut {cut : Nat}
    (h : valueWidth standard bytes zone start cut field = .error failure) : failure.cut = cut := by
  unfold valueWidth at h
  cases standard with
  | canonicalMinimal =>
    simp only at h
    cases hr : Slice.value64 bytes start zone with
    | error cause => rw [hr] at h; cases h; rfl
    | ok p =>
      rw [hr] at h
      simp only at h
      split at h
      · cases h; rfl
      · cases h
  | tolerant =>
    simp only at h
    cases hr : Slice.width64Trusted bytes start zone with
    | error cause => rw [hr] at h; cases h; rfl
    | ok width => rw [hr] at h; cases h

theorem fixedRecord_cut {kind : RecordKind}
    (h : fixedRecord zone start field kind tagWidth = .error failure) : failure.cut = start := by
  unfold fixedRecord at h
  extract_lets needed at h
  split at h
  · cases h; rfl
  · cases h

theorem lenRecord_cut (h : lenRecord standard bytes zone start field tagWidth = .error failure) :
    failure.cut = start := by
  simp only [lenRecord] at h
  cases hl : Slice.lenWord bytes (start + tagWidth) zone with
  | error cause => rw [hl] at h; cases h; rfl
  | ok q =>
    rw [hl] at h
    simp only at h
    split at h
    · cases h; rfl
    · split at h
      · cases h; rfl
      · cases h

/-- A refusal cuts at the head of the construct it strikes. -/
theorem judge_cut (h : judge standard bytes zone start = .error failure) : failure.cut = start := by
  unfold judge at h
  cases htag : Slice.tagWord bytes start zone with
  | error cause => rw [htag] at h; cases h; rfl
  | ok p =>
    rw [htag] at h
    simp only at h
    split at h
    · cases h; rfl
    cases hf : FieldNumber.fromWord p.1 with
    | none => rw [hf] at h; cases h; rfl
    | some field =>
      rw [hf] at h
      simp only at h
      cases hc : classify (Low3.fromWord p.1) with
      | unassigned => rw [hc] at h; cases h; rfl
      | groupEnd => rw [hc] at h; cases h
      | record kind =>
        rw [hc] at h
        cases kind with
        | group => cases h
        | i64 => exact fixedRecord_cut h
        | i32 => exact fixedRecord_cut h
        | len => exact lenRecord_cut h
        | varint =>
          simp only [varintRecord] at h
          cases hw : valueWidth standard bytes zone (start + p.2) start field with
          | error refused =>
            rw [hw] at h
            cases h
            exact valueWidth_cut hw
          | ok width => rw [hw] at h; cases h

end Judge

end ProtobufEdit.Inspect.Grouped
