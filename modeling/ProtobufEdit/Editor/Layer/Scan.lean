import ProtobufEdit.Editor.Layer
import ProtobufEdit.Editor.Walk

/-!
# The scan of a layer

The scan of bytes whose layer is whole mints the layer's forest behind the arena's end; bytes
whose layer is cut short, or holds more records than there are rows, it refuses.
-/

namespace ProtobufEdit.Editor

open Wire Wire.Grouped Varint Base128 Arena Cursor Loop

/-! ## One construct -/

section Construct

variable {dialect : Dialect} {standard : Standard} {data : List UInt8} {pos : Nat}
  {field : FieldNumber}

theorem scanTag_iff {x : FieldNumber × Low3 × Nat} :
    scanTag standard data pos = .ok x ↔ readHead standard data pos = .ok x := by
  unfold scanTag readHead
  cases Slice.tagWord data pos data.length with
  | error cause => exact ⟨nofun, nofun⟩
  | ok p =>
    dsimp only
    split
    · exact ⟨nofun, nofun⟩
    · cases FieldNumber.fromWord p.1 with
      | none => exact ⟨nofun, nofun⟩
      | some f => exact ⟨fun h => by cases h; rfl, fun h => by cases h; rfl⟩

theorem scanTag_ok {code : Low3} {tagW : Nat} :
    scanTag standard data pos = .ok (field, code, tagW) ↔
      ∃ tag rest, data.drop pos = tag ++ rest ∧ IsTag standard field code tag ∧
        tagW = tag.length :=
  scanTag_iff.trans readHead_ok

/-- The extent of a record's body. -/
def Extent.of (pos : Nat) (kind : Groupless.RecordKind) (b : Body) : Extent :=
  ⟨b.stop - (pos + b.lenWidth), if kind = .len then some b.lenWidth else none, b.stop⟩

theorem scanFixed_iff {need : Nat} (deliver : Nat → Value) {e : Extent} :
    scanFixed need data pos field = .ok e ↔
      ∃ b, readFixed need deliver data pos field = .ok b ∧ b.stop = pos + need ∧
        b.lenWidth = 0 ∧ e = ⟨need, none, pos + need⟩ := by
  unfold scanFixed
  split
  · next h =>
    refine ⟨nofun, fun ⟨b, hb, _⟩ => ?_⟩
    exact absurd (readFixed_ok.mp hb).1 (by omega)
  · next h =>
    refine ⟨fun he => ?_, fun ⟨_, _, _, _, he⟩ => by rw [he]⟩
    cases he
    exact ⟨_, readFixed_ok.mpr ⟨by omega, rfl⟩, rfl, rfl, rfl⟩

theorem scanExtent_iff {kind : Groupless.RecordKind} {e : Extent} :
    scanExtent standard data pos field (Cursor.Grouped.ofBody kind) = .ok e ↔
      ∃ b, readBody standard data pos field kind = .ok b ∧ e = .of pos kind b := by
  have hfixed : ∀ (need : Nat) (deliver : Nat → Value) (kind : Groupless.RecordKind),
      kind ≠ .len → (scanFixed need data pos field = .ok e ↔
        ∃ b, readFixed need deliver data pos field = .ok b ∧ e = .of pos kind b) := by
    intro need deliver kind hk
    rw [scanFixed_iff deliver]
    refine exists_congr fun b => and_congr_right fun hb => ?_
    obtain ⟨-, rfl⟩ := readFixed_ok.mp hb
    unfold Extent.of
    rw [if_neg hk, Nat.add_zero, Nat.add_sub_cancel_left]
    exact ⟨fun h => h.2.2, fun h => ⟨rfl, rfl, h⟩⟩
  cases kind with
  | i64 => exact hfixed 8 .i64 .i64 (by decide)
  | i32 => exact hfixed 4 .i32 .i32 (by decide)
  | varint =>
    show scanExtent _ _ _ _ .varint = _ ↔ ∃ b, readVarint _ _ _ _ = _ ∧ _
    unfold scanExtent readVarint
    cases Slice.value64 data pos data.length with
    | error cause => exact ⟨nofun, fun ⟨_, h, _⟩ => nomatch h⟩
    | ok p =>
      dsimp only
      split
      · exact ⟨nofun, fun ⟨_, h, _⟩ => nomatch h⟩
      · refine ⟨fun h => ⟨_, rfl, ?_⟩, fun ⟨b, hb, he⟩ => ?_⟩
        · cases h
          simp [Extent.of]
        · cases hb
          rw [he]
          simp [Extent.of]
  | len =>
    show scanExtent _ _ _ _ .len = _ ↔ ∃ b, readLen _ _ _ _ = _ ∧ _
    unfold scanExtent readLen
    cases hread : Slice.lenWord data pos data.length with
    | error cause => exact ⟨nofun, fun ⟨_, h, _⟩ => nomatch h⟩
    | ok p =>
      obtain ⟨len, width⟩ := p
      obtain ⟨word, rest, hdrop, hword, -, rfl⟩ := lenWord_ok.mp hread
      have hlen := length_of_drop_eq hdrop
      have hpos := hword.length_pos
      dsimp only
      split
      · exact ⟨nofun, fun ⟨_, h, _⟩ => nomatch h⟩
      · by_cases hcut : data.length < pos + word.length + len
        · rw [if_pos hcut, if_pos (by omega)]
          exact ⟨nofun, fun ⟨_, h, _⟩ => nomatch h⟩
        · rw [if_neg hcut, if_neg (by omega)]
          refine ⟨fun h => ⟨_, rfl, ?_⟩, fun ⟨b, hb, he⟩ => ?_⟩
          · cases h
            simp [Extent.of]
          · cases hb
            rw [he]
            simp [Extent.of]

theorem scanExtent_ok {kind : Groupless.RecordKind} {e : Extent} :
    scanExtent standard data pos field (Cursor.Grouped.ofBody kind) = .ok e ↔
      ∃ (p : Payload) (rest : List UInt8), data.drop pos = p.bytes ++ rest ∧ p.Lawful standard ∧
        p.kind = kind ∧ e = .of pos kind ⟨p.value, pos + p.bytes.length, p.lenWidth⟩ := by
  rw [scanExtent_iff]
  constructor
  · rintro ⟨b, hb, rfl⟩
    obtain ⟨p, rest, he, hlaw, hk, rfl⟩ := readBody_ok.mp hb
    exact ⟨p, rest, he, hlaw, hk, rfl⟩
  · rintro ⟨p, rest, he, hlaw, hk, rfl⟩
    exact ⟨_, readBody_ok.mpr ⟨p, rest, he, hlaw, hk, rfl⟩, rfl⟩

theorem classify_head (kind : Groupless.RecordKind) :
    classify dialect kind.low3 = .record (Cursor.Grouped.ofBody kind) := by
  cases dialect <;> cases kind <;> rfl

theorem classify_record {low3 : Low3} {kind : RecordKind} (h : classify dialect low3 = .record kind) :
    kind = .group ∧ low3 = 3 ∧ dialect = .grouped ∨
      ∃ k : Groupless.RecordKind, kind = Cursor.Grouped.ofBody k ∧ low3 = k.low3 := by
  cases dialect with
  | grouped =>
    unfold classify at h
    dsimp only at h
    split at h <;> cases h
    next hc =>
      obtain rfl := Wire.Grouped.low3_of_classify hc
      cases kind with
      | group => exact .inl ⟨rfl, rfl, rfl⟩
      | varint => exact .inr ⟨.varint, rfl, rfl⟩
      | i64 => exact .inr ⟨.i64, rfl, rfl⟩
      | len => exact .inr ⟨.len, rfl, rfl⟩
      | i32 => exact .inr ⟨.i32, rfl, rfl⟩
  | groupless =>
    unfold classify at h
    dsimp only at h
    split at h <;> cases h <;> next hc =>
      exact .inr ⟨_, rfl, Wire.Groupless.low3_of_classify hc⟩

theorem classify_groupEnd {low3 : Low3} (h : classify dialect low3 = .groupEnd) :
    low3 = 4 ∧ dialect = .grouped := by
  cases dialect with
  | grouped =>
    unfold classify at h
    dsimp only at h
    split at h <;> cases h
    next hc => exact ⟨Wire.Grouped.code_of_groupEnd hc, rfl⟩
  | groupless =>
    unfold classify at h
    dsimp only at h
    split at h <;> cases h

/-- What a scan makes of a record's body. -/
def Record.extent (pos : Nat) (r : Record) : Extent :=
  ⟨(Record.met r).content.length,
    if recordKind r = .len then some (Record.met r).delim.length else none, pos + r.bytes.length⟩

variable {parent : Option Nat} {bound : Nat} {s : Scan} {rest : List UInt8}

theorem construct_record {r : Record} (he : data.drop s.pos = r.bytes ++ rest)
    (hlaw : r.Lawful standard) :
    s.construct dialect standard data parent bound =
      s.push standard parent r.field (recordKind r) r.tag.length (Record.extent s.pos r) := by
  have htag := scanTag_ok.mpr ⟨r.tag, r.payload.bytes ++ rest, by
    rw [he, Record.bytes, List.append_assoc], hlaw.isTag, rfl⟩
  have hbody : data.drop (s.pos + r.tag.length) = r.payload.bytes ++ rest :=
    drop_of_drop_eq (by rw [he, Record.bytes, List.append_assoc])
  have hextent : scanExtent standard data (s.pos + r.tag.length) r.field _ = _ :=
    scanExtent_ok.mpr ⟨r.payload, rest, hbody, hlaw.payload, rfl, rfl⟩
  have hof : Extent.of (s.pos + r.tag.length) r.payload.kind
      ⟨r.payload.value, s.pos + r.tag.length + r.payload.bytes.length, r.payload.lenWidth⟩ =
        Record.extent s.pos r := by
    unfold Extent.of Record.extent recordKind Record.met Record.bytes
    cases r.payload <;> simp [Payload.kind, Cursor.Grouped.ofBody, Payload.bytes,
      Payload.lenWidth, Nat.add_assoc] <;> omega
  unfold Scan.construct
  rw [htag]
  dsimp only
  rw [classify_head]
  dsimp only
  have hkind : Cursor.Grouped.ofBody r.payload.kind ≠ .group := by
    cases r.payload.kind <;> decide
  rw [if_neg fun h => hkind h.1, hextent, hof]
  rfl

variable {tag : List UInt8}

theorem construct_opener (he : data.drop s.pos = tag ++ rest) (ht : IsTag standard field 3 tag)
    (hd : dialect = .grouped) (hroom : s.openDepth ≠ bound) :
    s.construct dialect standard data parent bound =
      s.push standard parent field .group tag.length ⟨0, none, s.pos + tag.length⟩ := by
  have htag := scanTag_ok.mpr ⟨tag, rest, he, ht, rfl⟩
  subst hd
  unfold Scan.construct
  rw [htag]
  dsimp only
  rw [show classify .grouped 3 = .record .group from rfl]
  dsimp only
  rw [if_neg fun h => hroom h.2]
  rfl

theorem construct_closer (he : data.drop s.pos = tag ++ rest) (ht : IsTag standard field 4 tag)
    (hd : dialect = .grouped) :
    s.construct dialect standard data parent bound =
      s.close standard parent field tag.length := by
  have htag := scanTag_ok.mpr ⟨tag, rest, he, ht, rfl⟩
  subst hd
  unfold Scan.construct
  rw [htag]
  dsimp only
  rw [show classify .grouped 4 = .groupEnd from rfl]

/-- The field of the group a scan stands in. -/
def Scan.enclosing (s : Scan) : Option FieldNumber :=
  s.opened.map fun group => (s.rows.getD group default).body.field

/-- Where no construct stands, none is scanned. -/
theorem construct_refuses (parent : Option Nat) {room : Nat} (h : Refuses dialect standard s.enclosing room (data.drop s.pos))
    (hdepth : s.openDepth + room = bound) :
    ∃ halt, s.construct dialect standard data parent bound = .error halt := by
  unfold Scan.construct
  cases htag : scanTag standard data s.pos with
  | error halt => exact ⟨halt, rfl⟩
  | ok head =>
    obtain ⟨field, low3, tagW⟩ := head
    obtain ⟨tag, rest, he, ht, rfl⟩ := scanTag_ok.mp htag
    dsimp only
    cases hclass : classify dialect low3 with
    | groupCode => exact ⟨_, rfl⟩
    | unassigned => exact ⟨_, rfl⟩
    | groupEnd =>
      obtain ⟨rfl, rfl⟩ := classify_groupEnd hclass
      have hne := (h.closer field tag rest he ht).resolve_left (by decide)
      dsimp only
      unfold Scan.close
      cases hopen : s.opened with
      | none => exact ⟨_, rfl⟩
      | some group =>
        have hfield : (s.rows.getD group default).body.field ≠ field := by
          intro hf
          refine hne ?_
          unfold Scan.enclosing
          rw [hopen, ← hf]
          rfl
        dsimp only
        rw [if_pos hfield]
        exact ⟨_, rfl⟩
    | record kind =>
      dsimp only
      rcases classify_record hclass with ⟨rfl, rfl, rfl⟩ | ⟨k, rfl, rfl⟩
      · have hroom := (h.opener field tag rest he ht).resolve_left (by decide)
        rw [if_pos ⟨rfl, by omega⟩]
        exact ⟨_, rfl⟩
      · have hkind : Cursor.Grouped.ofBody k ≠ .group := by cases k <;> decide
        rw [if_neg fun hk => hkind hk.1]
        cases hextent : scanExtent standard data (s.pos + tag.length) field
            (Cursor.Grouped.ofBody k) with
        | error halt => exact ⟨halt, rfl⟩
        | ok e =>
          obtain ⟨p, behind, hp, hlaw, rfl, -⟩ := scanExtent_ok.mp hextent
          rw [drop_of_drop_eq he] at hp
          refine absurd ⟨ht, hlaw⟩ (h.record ⟨field, tag, p⟩ behind ?_)
          rw [he, hp, Record.bytes, List.append_assoc]

end Construct

/-! ## Minting -/

section Mint

variable {dialect : Dialect} {standard : Standard} {data : List UInt8} {field : FieldNumber}
  {parent : Option Nat} {bound : Nat} {s : Scan}

/-- The rows, with the link that leads to the next one. -/
def Scan.linked (s : Scan) : Option Nat → List (Cell Row)
  | none => s.rows
  | some id =>
    match s.last with
    | some prev => s.rows.modify prev fun c => { c with next := some id }
    | none =>
      match s.opened with
      | some group => s.rows.modify group fun c => { c with kid := some id }
      | none => s.rows

@[simp] theorem linked_length (s : Scan) (o : Option Nat) :
    (s.linked o).length = s.rows.length := by
  unfold Scan.linked
  split
  · rfl
  · split
    · exact List.length_modify ..
    · split
      · exact List.length_modify ..
      · rfl

/-- What a scan's next row makes the layer's first. -/
def Scan.headed (s : Scan) (o : Option Nat) : Option Nat :=
  if s.last = none ∧ s.opened = none then o.or s.first else s.first

theorem headed_none (s : Scan) : s.headed none = s.first := by
  unfold Scan.headed
  split <;> rfl

theorem headed_last {s : Scan} {i : Nat} (h : s.last = some i) (o : Option Nat) :
    s.headed o = s.first := if_neg fun hn => by simp [h] at hn

theorem headed_opened {s : Scan} {i : Nat} (h : s.opened = some i) (o : Option Nat) :
    s.headed o = s.first := if_neg fun hn => by simp [h] at hn

theorem push_eq {kind : RecordKind} {tagW : Nat} {e : Extent} (h : s.rows.length ≤ rowMax) :
    s.push standard parent field kind tagW e =
      .ok
        { rows := s.linked (some s.rows.length) ++ [⟨s.opened.or parent, none, none,
            Row.scanned field kind s.pos e.payloadLen (column standard (some tagW))
              (column standard e.delimWidth)⟩]
          first := s.headed (some s.rows.length)
          opened := if kind = .group then some s.rows.length else s.opened
          openDepth := if kind = .group then s.openDepth + 1 else s.openDepth
          last := if kind = .group then none else some s.rows.length
          pos := e.recordEnd } := by
  unfold Scan.push mintRow
  rw [if_pos h]
  rfl

theorem push_full {kind : RecordKind} {tagW : Nat} {e : Extent} (h : ¬ s.rows.length ≤ rowMax) :
    s.push standard parent field kind tagW e = .error .exhausted := by
  unfold Scan.push mintRow
  rw [if_neg h]

theorem isTag_width {field : FieldNumber} {code : Low3} {tag : List UInt8}
    (h : IsTag .canonicalMinimal field code tag) : tag.length = encodedLen32 (tagWord field code) := by
  have hw := h.admits.width
  unfold Window.padded widthPadded at hw
  rw [h.spells] at hw
  have hw : tag.length = Window.tag.minimal (tagWord field code) := by simpa using hw
  exact hw

theorem tagW_column {standard : Standard} {r : Row} {code : Low3} {tag : List UInt8}
    (ht : IsTag standard r.field code tag) (hc : r.kind.low3 = code) (hb : r.base = .intact)
    (hw : r.tagWidth = column standard (some tag.length)) : r.tagW standard = tag.length := by
  cases standard with
  | tolerant =>
    show r.tagWidth.getD 0 = _
    rw [hw]
    rfl
  | canonicalMinimal =>
    have hgeo : r.hasGeometry .canonicalMinimal = true := by
      unfold Row.hasGeometry
      dsimp only
      rw [hb]
    show (if r.hasGeometry .canonicalMinimal then headWidth r.field r.kind else 0) = _
    rw [if_pos hgeo, isTag_width ht, ← hc]
    rfl

theorem linked_last {s : Scan} {i : Nat} {c : Cell Row} (hl : s.last = some i)
    (hi : s.rows[i]? = some c) (hc : c.next = none) (o : Option Nat) :
    (s.linked o)[i]? = some { c with next := o } ∧
      ∀ x, x ≠ i → (s.linked o)[x]? = s.rows[x]? := by
  unfold Scan.linked
  rw [hl]
  cases o with
  | none => exact ⟨by rw [hi, ← hc], fun _ _ => rfl⟩
  | some id =>
    refine ⟨?_, fun x hx => List.getElem?_modify_ne _ _ (Ne.symm hx)⟩
    show (s.rows.modify i _)[i]? = _
    rw [List.getElem?_modify_eq, hi]
    rfl

theorem linked_opened {s : Scan} {i : Nat} {c : Cell Row} (hl : s.last = none)
    (ho : s.opened = some i) (hi : s.rows[i]? = some c) (hc : c.kid = none) (o : Option Nat) :
    (s.linked o)[i]? = some { c with kid := o } ∧
      ∀ x, x ≠ i → (s.linked o)[x]? = s.rows[x]? := by
  unfold Scan.linked
  rw [hl, ho]
  cases o with
  | none => exact ⟨by rw [hi, ← hc], fun _ _ => rfl⟩
  | some id =>
    refine ⟨?_, fun x hx => List.getElem?_modify_ne _ _ (Ne.symm hx)⟩
    show (s.rows.modify i _)[i]? = _
    rw [List.getElem?_modify_eq, hi]
    rfl

/-- A stretch of a scan that mints a forest behind its rows. -/
structure Mints (dialect : Dialect) (standard : Standard) (data : List UInt8)
    (parent : Option Nat) (bound : Nat) (s : Scan) (forest : Forest Node) (width : Nat)
    (rows : List (Cell Row)) : Prop where
  takes : ∃ n ≤ width, Takes (Scan.turn dialect standard data parent bound) n s
    ⟨rows, s.headed forest.first, s.opened, s.openDepth, forest.last.or s.last, s.pos + width⟩
  length : rows.length = s.rows.length + forest.size
  frame : ∀ x < s.rows.length, rows[x]? = (s.linked forest.first)[x]?
  chain : Chain Node.row rows (s.opened.or parent) forest.first forest

theorem turn_construct {s' : Scan} (hpos : s.pos < data.length)
    (h : s.construct dialect standard data parent bound = .ok s') :
    s.turn dialect standard data parent bound = .next s' := by
  unfold Scan.turn
  rw [if_pos hpos, h]

theorem turn_fails {halt : Halt} (hpos : s.pos < data.length)
    (h : s.construct dialect standard data parent bound = .error halt) :
    s.turn dialect standard data parent bound = .halt (.error halt) := by
  unfold Scan.turn
  rw [if_pos hpos, h]

theorem turn_unclosed (dialect : Dialect) (standard : Standard) (parent : Option Nat) (bound : Nat)
    {group : Nat} (hpos : ¬ s.pos < data.length) (hg : s.opened = some group) :
    ∃ halt, s.turn dialect standard data parent bound = .halt (.error halt) := by
  refine ⟨haltWire (s.rows.getD group default).body.start
    (.groupUnclosed (s.rows.getD group default).body.field), ?_⟩
  unfold Scan.turn
  rw [if_neg hpos, hg]

theorem pos_lt_of_drop {pos : Nat} {u rest : List UInt8} (h : data.drop pos = u ++ rest)
    (hu : 0 < u.length) : pos < data.length := by
  have := length_of_drop_eq h
  omega

theorem column_record (standard : Standard) (pos : Nat) (r : Record) :
    column standard (Record.extent pos r).delimWidth =
      column standard
        (match recordKind r with
        | .len | .group => some (Record.met r).delim.length
        | _ => none) := by
  unfold Record.extent recordKind Record.met
  cases r.payload <;> rfl

theorem met_tag (r : Record) : (Record.met r).tag = r.tag := by
  unfold Record.met
  cases r.payload <;> rfl

theorem recordKind_ne (r : Record) : recordKind r ≠ .group := by
  unfold recordKind
  cases r.payload.kind <;> decide

/-- A scan has minted a node, whose children are the forest, `width` bytes on. -/
structure Minted (parent : Option Nat) (s s' : Scan) (a : Node) (t : Forest Node) (width : Nat) :
    Prop where
  length : s'.rows.length = s.rows.length + 1 + t.size
  pos : s'.pos = s.pos + width
  opened : s'.opened = s.opened
  depth : s'.openDepth = s.openDepth
  last : s'.last = some s.rows.length
  first : s'.first = s.headed (some s.rows.length)
  frame : ∀ x < s.rows.length, s'.rows[x]? = (s.linked (some s.rows.length))[x]?
  cell : s'.rows[s.rows.length]? = some ⟨s.opened.or parent, none, t.first, a.row⟩
  kids : Chain Node.row s'.rows (some s.rows.length) t.first t
  ids : ∀ x ∈ t.ids, s.rows.length < x

/-- A node in front of a minted forest. -/
theorem Minted.mints {s' : Scan} {a : Node} {t forest : Forest Node} {turns width width' : Nat}
    {rows : List (Cell Row)} (h : Minted parent s s' a t width)
    (ht : Takes (Scan.turn dialect standard data parent bound) turns s s') (hn : turns ≤ width)
    (hm : Mints dialect standard data parent bound s' forest width' rows) :
    Mints dialect standard data parent bound s (.node s.rows.length a t forest) (width + width')
      rows := by
  obtain ⟨hhere, hother⟩ := linked_last h.last h.cell rfl forest.first
  have hlen := h.length
  refine ⟨?_, ?_, ?_, ?_⟩
  · obtain ⟨n, hn', ht'⟩ := hm.takes
    have htail : forest.last.or (some s.rows.length) =
        (some (forest.last.getD s.rows.length)).or s.last := by
      cases forest.last <;> rfl
    rw [headed_last h.last, h.first, h.opened, h.depth, h.last, htail, h.pos, Nat.add_assoc] at ht'
    exact ⟨turns + n, Nat.add_le_add hn hn', ht.trans ht'⟩
  · rw [hm.length, h.length]
    unfold Forest.size
    show _ = _ + (List.length (t.ids ++ forest.ids) + 1)
    rw [List.length_append]
    omega
  · intro x hx
    rw [hm.frame x (by omega), hother x (by omega), h.frame x hx]
    rfl
  · have hchain := hm.chain
    rw [h.opened] at hchain
    refine .node (by rw [hm.frame _ (by omega), hhere]) (h.kids.frame fun x hx => ?_) hchain
    have hlow := h.ids x hx
    rw [hm.frame x (h.kids.lt hx), hother x (by omega)]

/-- A record's turn. -/
theorem minted_record (dialect : Dialect) (parent : Option Nat) (bound : Nat) {r : Record}
    {rest : List UInt8} (he : data.drop s.pos = r.bytes ++ rest) (hlaw : r.Lawful standard)
    (hfull : s.rows.length ≤ rowMax) :
    ∃ s', s.turn dialect standard data parent bound = .next s' ∧
      Minted parent s s' (.scanned standard r.field (recordKind r) s.pos (Record.met r)) .nil
        r.bytes.length := by
  have hstep : s.construct dialect standard data parent bound = _ :=
    (construct_record he hlaw).trans (push_eq hfull)
  rw [if_neg (recordKind_ne r), if_neg (recordKind_ne r), if_neg (recordKind_ne r)] at hstep
  refine ⟨_, turn_construct (pos_lt_of_drop he hlaw.length_pos) hstep, ?_⟩
  refine ⟨?_, rfl, rfl, rfl, rfl, rfl, fun x hx => ?_, ?_, .nil, nofun⟩
  · show (s.linked _ ++ _).length = _
    rw [List.length_append, linked_length]
    rfl
  · exact List.getElem?_append_left (by rwa [linked_length])
  · show (s.linked _ ++ _)[_]? = _
    rw [List.getElem?_append_right (by rw [linked_length]), linked_length, Nat.sub_self,
      column_record, ← met_tag r]
    rfl

/-- A group's row is patched at its end tag. -/
def patched (standard : Standard) (pos tagW : Nat) (r : Row) : Row :=
  { r with
    payloadLen := pos - (r.start + r.tagW standard)
    delimWidth := column standard (some tagW) }

theorem close_eq {group tagW : Nat} {c : Cell Row} (ho : s.opened = some group)
    (hc : s.rows[group]? = some c) (hf : c.body.field = field) :
    s.close standard parent field tagW =
      .ok
        { s with
          rows := s.rows.modify group (Cell.map (patched standard s.pos tagW))
          opened := if c.parent = parent then none else c.parent
          openDepth := s.openDepth - 1
          last := some group
          pos := s.pos + tagW } := by
  unfold Scan.close
  rw [ho]
  dsimp only
  rw [List.getD_eq_getElem?_getD, hc]
  show (if c.body.field ≠ field then _ else _) = _
  rw [if_neg (by rw [hf]; exact fun h => h rfl)]
  rfl

theorem patched_group {pos : Nat} {opener inner closer : List UInt8}
    (ht : IsTag standard field 3 opener) :
    patched standard (pos + opener.length + inner.length) closer.length
        (Row.scanned field .group pos 0 (column standard (some opener.length))
          (column standard none)) =
      (Node.scanned standard field .group pos ⟨opener, closer, inner⟩).row := by
  have hw : (Row.scanned field .group pos 0 (column standard (some opener.length))
      (column standard none)).tagW standard = opener.length :=
    tagW_column ht rfl rfl rfl
  unfold patched
  rw [hw]
  show Row.mk _ _ _ (pos + opener.length + inner.length - (pos + opener.length)) _ _ _ _ _ _ _ _ _
    = _
  rw [Nat.add_sub_cancel_left]
  rfl

/-- The group a scan stands in is a row, and not the container it scans. -/
def Scan.Below (parent : Option Nat) (s : Scan) : Prop :=
  ∀ group, s.opened = some group → parent ≠ some group ∧ group < s.rows.length

/-- A scan has opened a group. -/
structure Opens (standard : Standard) (parent : Option Nat) (field : FieldNumber)
    (opener : List UInt8) (s s' : Scan) : Prop where
  length : s'.rows.length = s.rows.length + 1
  pos : s'.pos = s.pos + opener.length
  opened : s'.opened = some s.rows.length
  depth : s'.openDepth = s.openDepth + 1
  last : s'.last = none
  first : s'.first = s.headed (some s.rows.length)
  frame : ∀ x < s.rows.length, s'.rows[x]? = (s.linked (some s.rows.length))[x]?
  cell : s'.rows[s.rows.length]? = some ⟨s.opened.or parent, none, none,
    Row.scanned field .group s.pos 0 (column standard (some opener.length))
      (column standard none)⟩

variable {opener inner closer tail : List UInt8} {s' : Scan}

theorem opens_group (parent : Option Nat) (bound : Nat) (he : data.drop s.pos = opener ++ tail) (hd : dialect = .grouped)
    (hto : IsTag standard field 3 opener) (hroom : s.openDepth ≠ bound)
    (hfull : s.rows.length ≤ rowMax) :
    ∃ s', s.turn dialect standard data parent bound = .next s' ∧
      Opens standard parent field opener s s' := by
  have hstep : s.construct dialect standard data parent bound = _ :=
    (construct_opener he hto hd hroom).trans (push_eq hfull)
  rw [if_pos rfl, if_pos rfl, if_pos rfl] at hstep
  refine ⟨_, turn_construct (pos_lt_of_drop he hto.admits.isWord.length_pos) hstep, ?_⟩
  refine ⟨?_, rfl, rfl, rfl, rfl, rfl, fun x hx => ?_, ?_⟩
  · show (s.linked _ ++ _).length = _
    rw [List.length_append, linked_length]
    rfl
  · exact List.getElem?_append_left (by rwa [linked_length])
  · show (s.linked _ ++ _)[_]? = _
    rw [List.getElem?_append_right (by rw [linked_length]), linked_length, Nat.sub_self]
    rfl

theorem Opens.below (h : Opens standard parent field opener s s')
    (hparent : ∀ p, parent = some p → p < s.rows.length) : s'.Below parent := by
  intro group hg
  rw [h.opened] at hg
  cases hg
  refine ⟨fun hp => Nat.lt_irrefl _ (hparent _ hp), ?_⟩
  rw [h.length]
  exact Nat.lt_succ_self _

theorem Opens.enclosing (h : Opens standard parent field opener s s') :
    s'.enclosing = some field := by
  unfold Scan.enclosing
  rw [h.opened, Option.map_some, List.getD_eq_getElem?_getD, h.cell]
  rfl

/-- A group, where its interior is minted. -/
theorem Opens.minted {t : Forest Node} {rows : List (Cell Row)}
    (h : Opens standard parent field opener s s')
    (he : data.drop s.pos = opener ++ (inner ++ (closer ++ tail)))
    (hd : dialect = .grouped) (hto : IsTag standard field 3 opener)
    (htc : IsTag standard field 4 closer) (hbelow : s.Below parent)
    (hids : t.ids = List.range' (s.rows.length + 1) t.size)
    (hm : Mints dialect standard data parent bound s' t inner.length rows) :
    ∃ s'', ∃ n ≤ inner.length + 1,
      Takes (Scan.turn dialect standard data parent bound) n s' s'' ∧
      Minted parent s s'' (.scanned standard field .group s.pos ⟨opener, closer, inner⟩) t
        (opener ++ inner ++ closer).length := by
  obtain ⟨n, hn, ht⟩ := hm.takes
  rw [headed_opened h.opened, h.first, h.opened, h.depth, h.last, h.pos, Option.or_none] at ht
  obtain ⟨hhere, hother⟩ := linked_opened h.last h.opened h.cell rfl t.first
  have hlen := h.length
  have hcell := (hm.frame s.rows.length (by omega)).trans hhere
  have he' : data.drop (s.pos + opener.length + inner.length) = closer ++ tail :=
    drop_of_drop_eq (drop_of_drop_eq he)
  generalize hs : Scan.mk _ _ _ _ _ _ = s₂ at ht
  have hclose : s₂.construct dialect standard data parent bound = _ :=
    (construct_closer (by rw [← hs]; exact he') htc hd).trans
      (close_eq (by rw [← hs]) (by rw [← hs]; exact hcell) rfl)
  have hpos : s₂.pos < data.length := by
    rw [← hs]
    exact pos_lt_of_drop he' htc.admits.isWord.length_pos
  refine ⟨_, n + 1, Nat.succ_le_succ hn, ht.trans (.head (turn_construct hpos hclose) (.refl _)), ?_⟩
  subst hs
  have hother' : ∀ x, x ≠ s.rows.length →
      (rows.modify s.rows.length (Cell.map (patched standard
        (s.pos + opener.length + inner.length) closer.length)))[x]? = rows[x]? :=
    fun x hx => List.getElem?_modify_ne _ _ (Ne.symm hx)
  refine ⟨?_, ?_, ?_, rfl, rfl, rfl, fun x hx => ?_, ?_, ?_, fun x hx => ?_⟩
  · show (rows.modify _ _).length = _
    rw [List.length_modify, hm.length, h.length]
  · show s.pos + opener.length + inner.length + closer.length = _
    rw [List.length_append, List.length_append, ← Nat.add_assoc, ← Nat.add_assoc]
  · show (if s.opened.or parent = parent then none else s.opened.or parent) = s.opened
    cases hopen : s.opened with
    | none => exact if_pos rfl
    | some group => exact if_neg fun h => (hbelow group hopen).1 h.symm
  · show (rows.modify _ _)[x]? = _
    rw [hother' x (by omega), hm.frame x (by omega), hother x (by omega), h.frame x hx]
  · show (rows.modify _ _)[_]? = _
    rw [List.getElem?_modify_eq, hcell, ← patched_group hto]
    rfl
  · have hkids := hm.chain
    rw [h.opened] at hkids
    refine hkids.frame fun x hx => ?_
    rw [hids, List.mem_range'_1] at hx
    exact hother' x (by omega)
  · rw [hids, List.mem_range'_1] at hx
    omega

theorem linked_body (s : Scan) (o : Option Nat) (x : Nat) :
    (s.linked o)[x]?.map Cell.body = s.rows[x]?.map Cell.body := by
  have hmodify : ∀ (i : Nat) (f : Cell Row → Cell Row), (∀ c, (f c).body = c.body) →
      (s.rows.modify i f)[x]?.map Cell.body = s.rows[x]?.map Cell.body := by
    intro i f hf
    rw [List.getElem?_modify]
    cases s.rows[x]? with
    | none => rfl
    | some c =>
      refine congrArg some ?_
      show Cell.body (if i = x then f c else c) = _
      split
      · exact hf c
      · rfl
  unfold Scan.linked
  split
  · rfl
  · split
    · exact hmodify _ _ fun _ => rfl
    · split
      · exact hmodify _ _ fun _ => rfl
      · rfl

section Minted

variable {a : Node} {t : Forest Node} {width : Nat}

theorem Minted.below (h : Minted parent s s' a t width) (hb : s.Below parent) :
    s'.Below parent := by
  intro group hg
  rw [h.opened] at hg
  obtain ⟨hp, hlt⟩ := hb group hg
  refine ⟨hp, ?_⟩
  rw [h.length]
  omega

theorem Minted.enclosing (h : Minted parent s s' a t width) (hb : s.Below parent) :
    s'.enclosing = s.enclosing := by
  unfold Scan.enclosing
  rw [h.opened]
  cases hg : s.opened with
  | none => rfl
  | some group =>
    have hbody := linked_body s (some s.rows.length) group
    rw [← h.frame group (hb group hg).2] at hbody
    have hlt := (hb group hg).2
    have hlt' : group < s'.rows.length := by
      rw [h.length]
      omega
    rw [List.getElem?_eq_getElem hlt, List.getElem?_eq_getElem hlt'] at hbody
    rw [Option.map_some, Option.map_some, List.getD_eq_getElem?_getD, List.getD_eq_getElem?_getD,
      List.getElem?_eq_getElem hlt, List.getElem?_eq_getElem hlt']
    exact congrArg (fun r : Row => some r.field) (Option.some.inj hbody)

end Minted

/-! ## Whole layers -/

theorem Layer.ids_forest {layer : Layer} {opened : Option FieldNumber} {room : Nat}
    (hlaw : layer.Lawful dialect standard opened room) (hcut : layer.cut = false)
    (base pos : Nat) : (layer.forest standard base pos).ids = List.range' base layer.size := by
  induction layer generalizing base pos opened room with
  | nil => rfl
  | record r rest ih =>
    show base :: ([] ++ (rest.forest _ _ _).ids) = _
    rw [ih hlaw.2 hcut, List.nil_append]
    rfl
  | group field opener inner closer rest ihi ihr =>
    obtain ⟨-, -, -, hinner, hli, -, hlr⟩ := hlaw
    show base :: ((inner.forest _ _ _).ids ++ (rest.forest _ _ _).ids) = List.range' base
      (inner.size + rest.size + 1)
    rw [ihi hli hinner, ihr hlr hcut, List.range'_append_1]
    rfl
  | refused unread => cases hcut
  | torn field opener inner => cases hcut

theorem Layer.size_forest {layer : Layer} {opened : Option FieldNumber} {room : Nat}
    (hlaw : layer.Lawful dialect standard opened room) (hcut : layer.cut = false)
    (base pos : Nat) : (layer.forest standard base pos).size = layer.size := by
  unfold Forest.size
  rw [Layer.ids_forest hlaw hcut, List.length_range']

section Group

variable {inner : Layer} {room : Nat} {rows : List (Cell Row)}

/-- A group whose interior is whole and minted is minted, end tag and all. -/
theorem Opens.group (h : Opens standard parent field opener s s')
    (he : data.drop s.pos = opener ++ (inner.bytes ++ (closer ++ tail)))
    (hd : dialect = .grouped) (hto : IsTag standard field 3 opener)
    (hli : inner.Lawful dialect standard (some field) room) (hinner : inner.cut = false)
    (htc : IsTag standard field 4 closer) (hbelow : s.Below parent)
    (hm : Mints dialect standard data parent bound s'
      (inner.forest standard s'.rows.length s'.pos) inner.bytes.length rows) :
    ∃ s'', ∃ n ≤ inner.bytes.length + 1,
      Takes (Scan.turn dialect standard data parent bound) n s' s'' ∧
      Minted parent s s'' (.scanned standard field .group s.pos ⟨opener, closer, inner.bytes⟩)
        (inner.forest standard (s.rows.length + 1) (s.pos + opener.length))
        (opener ++ inner.bytes ++ closer).length ∧
      s''.rows.length = s.rows.length + (inner.size + 1) ∧ data.drop s''.pos = tail := by
  have hids := Layer.ids_forest hli hinner (s.rows.length + 1) (s.pos + opener.length)
  rw [← Layer.size_forest hli hinner (s.rows.length + 1) (s.pos + opener.length)] at hids
  rw [h.length, h.pos] at hm
  obtain ⟨s'', n, hn, ht, hm'⟩ := h.minted he hd hto htc hbelow hids hm
  refine ⟨s'', n, hn, ht, hm', ?_, ?_⟩
  · rw [hm'.length, Layer.size_forest hli hinner]
    omega
  · rw [hm'.pos]
    refine drop_of_drop_eq ?_
    rw [he]
    simp only [List.append_assoc]

end Group

theorem mints_layer {layer : Layer} {opened : Option FieldNumber} {room : Nat}
    (hlaw : layer.Lawful dialect standard opened room) (hcut : layer.cut = false)
    (he : data.drop s.pos = layer.bytes ++ tail) (hdepth : s.openDepth + room = bound)
    (hbelow : s.Below parent) (hparent : ∀ p, parent = some p → p < s.rows.length)
    (hfit : s.rows.length + layer.size ≤ rowMax + 1) :
    ∃ rows, Mints dialect standard data parent bound s
      (layer.forest standard s.rows.length s.pos) layer.bytes.length rows := by
  induction layer generalizing s opened room tail with
  | nil =>
    refine ⟨s.rows, ⟨0, Nat.le_refl _, ?_⟩, rfl, fun _ _ => rfl, .nil⟩
    show Takes _ 0 s (Scan.mk s.rows (s.headed none) _ _ _ _)
    rw [headed_none]
    exact .refl s
  | record r rest ih =>
    have he' : data.drop s.pos = r.bytes ++ (rest.bytes ++ tail) := by
      rw [he, Layer.bytes, List.append_assoc]
    have hsize : s.rows.length + (rest.size + 1) ≤ rowMax + 1 := hfit
    obtain ⟨s', hturn, hm⟩ := minted_record dialect parent bound he' hlaw.1 (by omega)
    have hlen : s'.rows.length = s.rows.length + 1 := hm.length
    obtain ⟨rows, hrest⟩ := ih (s := s') hlaw.2 hcut
      (by rw [hm.pos]; exact drop_of_drop_eq he') (by rw [hm.depth]; exact hdepth)
      (hm.below hbelow) (fun p hp => by have := hparent p hp; omega) (by omega)
    rw [hlen, hm.pos] at hrest
    refine ⟨rows, ?_⟩
    rw [Layer.bytes, List.length_append]
    exact hm.mints (.head hturn (.refl _)) hlaw.1.length_pos hrest
  | group field opener inner closer rest ihi ihr =>
    obtain ⟨hd, hto, hroom, hinner, hli, htc, hlr⟩ := hlaw
    have he' : data.drop s.pos = opener ++ (inner.bytes ++ (closer ++ (rest.bytes ++ tail))) := by
      rw [he, Layer.bytes]
      simp only [List.append_assoc]
    have hsize : s.rows.length + (inner.size + rest.size + 1) ≤ rowMax + 1 := hfit
    obtain ⟨s₁, hturn, ho⟩ := opens_group parent bound he' hd hto
      (by omega) (by omega)
    have hlen₁ := ho.length
    obtain ⟨rows₁, hm₁⟩ := ihi (s := s₁) hli hinner
      (by rw [ho.pos]; exact drop_of_drop_eq he') (by rw [ho.depth]; omega) (ho.below hparent)
      (fun p hp => by have := hparent p hp; omega) (by omega)
    obtain ⟨s₂, n, hn, ht, hm₂, hlen₂, hbehind⟩ :=
      ho.group he' hd hto hli hinner htc hbelow hm₁
    obtain ⟨rows, hrest⟩ := ihr (s := s₂) hlr hcut hbehind
      (by rw [hm₂.depth]; exact hdepth) (hm₂.below hbelow)
      (fun p hp => by have := hparent p hp; omega) (by omega)
    have hnext : s₂.rows.length = s.rows.length + 1 + inner.size := by omega
    rw [hnext, hm₂.pos] at hrest
    refine ⟨rows, ?_⟩
    have hopenPos := hto.admits.isWord.length_pos
    rw [Layer.bytes, List.length_append]
    refine hm₂.mints (.head hturn ht) ?_ hrest
    rw [List.length_append, List.length_append]
    have := htc.admits.isWord.length_pos
    omega
  | refused unread => cases hcut
  | torn field opener inner => cases hcut

/-- The scan gets to an error in at most so many turns. -/
def Fails (dialect : Dialect) (standard : Standard) (data : List UInt8) (parent : Option Nat)
    (bound : Nat) (s : Scan) (turns : Nat) : Prop :=
  ∃ n ≤ turns, ∃ s' halt, Takes (Scan.turn dialect standard data parent bound) n s s' ∧
    s'.turn dialect standard data parent bound = .halt (.error halt)

theorem Fails.behind {n turns turns' : Nat}
    (ht : Takes (Scan.turn dialect standard data parent bound) n s s')
    (h : Fails dialect standard data parent bound s' turns) (hn : n + turns ≤ turns') :
    Fails dialect standard data parent bound s turns' := by
  obtain ⟨k, hk, s'', halt, ht', he⟩ := h
  exact ⟨n + k, by omega, s'', halt, ht.trans ht', he⟩

theorem fails_full {turns : Nat} {kind : RecordKind} {tagW : Nat} {e : Extent}
    (hpos : s.pos < data.length) (hfull : ¬ s.rows.length ≤ rowMax)
    (h : s.construct dialect standard data parent bound =
      s.push standard parent field kind tagW e) :
    Fails dialect standard data parent bound s turns :=
  ⟨0, Nat.zero_le _, s, _, .refl s, turn_fails hpos (h.trans (push_full hfull))⟩

/-- The scan stands before a layer that is cut short, or does not fit. -/
structure Doomed (dialect : Dialect) (standard : Standard) (data : List UInt8)
    (parent : Option Nat) (bound : Nat) (layer : Layer) (room : Nat) (tail : List UInt8)
    (s : Scan) : Prop where
  lawful : layer.Lawful dialect standard s.enclosing room
  bytes : data.drop s.pos = layer.bytes ++ tail
  last : layer.cut = true → tail = []
  depth : s.openDepth + room = bound
  below : s.Below parent
  parent : ∀ p, parent = some p → p < s.rows.length
  bad : layer.cut = true ∨ rowMax + 1 < s.rows.length + layer.size
  rows : s.rows.length ≤ rowMax + 1

/-- The scan fails at the layer, wherever it is doomed there. -/
def Dooms (dialect : Dialect) (standard : Standard) (data : List UInt8) (parent : Option Nat)
    (bound : Nat) (layer : Layer) : Prop :=
  ∀ s room tail, Doomed dialect standard data parent bound layer room tail s →
    Fails dialect standard data parent bound s layer.bytes.length

section Dooms

variable {a : Node} {t : Forest Node} {width room : Nat} {inner rest : Layer}

/-- What follows a minted node is doomed with it. -/
theorem Minted.doomed (hm : Minted parent s s' a t width) (hbelow : s.Below parent)
    (hparent : ∀ p, parent = some p → p < s.rows.length) (hdepth : s.openDepth + room = bound)
    (hlaw : rest.Lawful dialect standard s.enclosing room)
    (he : data.drop s'.pos = rest.bytes ++ tail) (htail : rest.cut = true → tail = [])
    (hbad : rest.cut = true ∨ rowMax + 1 < s'.rows.length + rest.size)
    (hrows : s'.rows.length ≤ rowMax + 1) :
    Doomed dialect standard data parent bound rest room tail s' where
  lawful := by rwa [hm.enclosing hbelow]
  bytes := he
  last := htail
  depth := by rw [hm.depth, hdepth]
  below := hm.below hbelow
  parent p hp := by
    have hp := hparent p hp
    rw [hm.length]
    omega
  bad := hbad
  rows := hrows

/-- So is the interior of a group that was opened. -/
theorem Opens.doomed (ho : Opens standard parent field opener s s')
    (hparent : ∀ p, parent = some p → p < s.rows.length) (hroom : 0 < room)
    (hdepth : s.openDepth + room = bound)
    (hlaw : inner.Lawful dialect standard (some field) (room - 1))
    (he : data.drop s.pos = opener ++ (inner.bytes ++ tail)) (htail : inner.cut = true → tail = [])
    (hbad : inner.cut = true ∨ rowMax + 1 < s'.rows.length + inner.size)
    (hfull : s.rows.length ≤ rowMax) :
    Doomed dialect standard data parent bound inner (room - 1) tail s' where
  lawful := by rwa [ho.enclosing]
  bytes := by
    rw [ho.pos]
    exact drop_of_drop_eq he
  last := htail
  depth := by
    rw [ho.depth]
    omega
  below := ho.below hparent
  parent p hp := by
    have hp := hparent p hp
    rw [ho.length]
    omega
  bad := hbad
  rows := by
    rw [ho.length]
    omega

theorem dooms_record {r : Record} (ih : Dooms dialect standard data parent bound rest) :
    Dooms dialect standard data parent bound (.record r rest) := by
  rintro s room tail ⟨⟨hr, hlaw⟩, he, htail, hdepth, hbelow, hparent, hbad, -⟩
  have he' : data.drop s.pos = r.bytes ++ (rest.bytes ++ tail) := by
    rw [he, Layer.bytes, List.append_assoc]
  have hpos := hr.length_pos
  by_cases hfull : s.rows.length ≤ rowMax
  · obtain ⟨s', hturn, hm⟩ := minted_record dialect parent bound he' hr hfull
    have hlen : s'.rows.length = s.rows.length + 1 := hm.length
    have hbad' : rest.cut = true ∨ rowMax + 1 < s'.rows.length + rest.size := by
      rcases hbad with h | h
      · exact .inl h
      · have h : rowMax + 1 < s.rows.length + (rest.size + 1) := h
        exact .inr (by omega)
    have hbehind : data.drop s'.pos = rest.bytes ++ tail := by
      rw [hm.pos]
      exact drop_of_drop_eq he'
    have h := hm.doomed hbelow hparent hdepth hlaw hbehind htail hbad' (by omega)
    refine (ih s' room tail h).behind (.head hturn (.refl _)) ?_
    rw [Layer.bytes, List.length_append]
    omega
  · exact fails_full (pos_lt_of_drop he' hpos) hfull (construct_record he' hr)

/-- A group that closes: its interior does not fit, or it is minted and what follows is doomed. -/
theorem dooms_group (ihi : Dooms dialect standard data parent bound inner)
    (ihr : Dooms dialect standard data parent bound rest) :
    Dooms dialect standard data parent bound (.group field opener inner closer rest) := by
  rintro s room tail ⟨⟨hd, hto, hroom, hinner, hli, htc, hlr⟩, he, htail, hdepth, hbelow,
    hparent, hbad, -⟩
  have he' : data.drop s.pos = opener ++ (inner.bytes ++ (closer ++ (rest.bytes ++ tail))) := by
    rw [he, Layer.bytes]
    simp only [List.append_assoc]
  have hwidth : (Layer.group field opener inner closer rest).bytes.length =
      opener.length + inner.bytes.length + closer.length + rest.bytes.length := by
    simp only [Layer.bytes, List.length_append]
  have hopenPos := hto.admits.isWord.length_pos
  have hclosePos := htc.admits.isWord.length_pos
  by_cases hfull : s.rows.length ≤ rowMax
  case neg =>
    exact fails_full (pos_lt_of_drop he' hopenPos) hfull (construct_opener he' hto hd (by omega))
  obtain ⟨s₁, hturn, ho⟩ := opens_group parent bound he' hd hto (by omega) hfull
  by_cases hfit : s₁.rows.length + inner.size ≤ rowMax + 1
  · have hlen₁ := ho.length
    have hdepth₁ : s₁.openDepth + (room - 1) = bound := by
      rw [ho.depth]
      omega
    obtain ⟨rows, hm₁⟩ := mints_layer (s := s₁) hli hinner
      (by rw [ho.pos]; exact drop_of_drop_eq he') hdepth₁ (ho.below hparent)
      (fun p hp => by have := hparent p hp; omega) hfit
    obtain ⟨s₂, n, hn, ht, hm₂, hlen₂, hbehind⟩ :=
      ho.group he' hd hto hli hinner htc hbelow hm₁
    have hbad' : rest.cut = true ∨ rowMax + 1 < s₂.rows.length + rest.size := by
      rcases hbad with h | h
      · exact .inl h
      · have h : rowMax + 1 < s.rows.length + (inner.size + rest.size + 1) := h
        exact .inr (by omega)
    have h := hm₂.doomed hbelow hparent hdepth hlr hbehind htail hbad' (by omega)
    exact (ihr s₂ room tail h).behind (.head hturn ht) (by omega)
  · have h := ho.doomed hparent hroom hdepth hli he'
      (fun h => by rw [hinner] at h; cases h) (.inr (by omega)) hfull
    exact (ihi s₁ _ _ h).behind (.head hturn (.refl _)) (by omega)

theorem dooms_refused {unread : List UInt8} :
    Dooms dialect standard data parent bound (.refused unread) := by
  rintro s room tail ⟨hlaw, he, htail, hdepth, -, -, -, -⟩
  have he' : data.drop s.pos = unread := by
    rw [he, htail rfl, List.append_nil]
    rfl
  refine ⟨0, Nat.zero_le _, s, ?_⟩
  by_cases hpos : s.pos < data.length
  · have href : Refuses dialect standard s.enclosing room (data.drop s.pos) := by
      rw [he']
      exact hlaw
    obtain ⟨halt, hc⟩ := construct_refuses parent href hdepth
    exact ⟨halt, .refl s, turn_fails hpos hc⟩
  · have hnil : unread = [] := by
      rw [← he', List.drop_eq_nil_iff]
      omega
    have hne : s.opened ≠ none := by
      intro hn
      refine hlaw.ends hnil ?_
      unfold Scan.enclosing
      rw [hn]
      rfl
    obtain ⟨group, hg⟩ := Option.ne_none_iff_exists'.mp hne
    obtain ⟨halt, ht⟩ := turn_unclosed dialect standard parent bound hpos hg
    exact ⟨halt, .refl s, ht⟩

theorem dooms_torn (ih : Dooms dialect standard data parent bound inner) :
    Dooms dialect standard data parent bound (.torn field opener inner) := by
  rintro s room tail ⟨⟨hd, hto, hroom, hinner, hli⟩, he, htail, hdepth, -, hparent, -, -⟩
  have he' : data.drop s.pos = opener ++ (inner.bytes ++ tail) := by
    rw [he, Layer.bytes, List.append_assoc]
  have hopenPos := hto.admits.isWord.length_pos
  by_cases hfull : s.rows.length ≤ rowMax
  · obtain ⟨s₁, hturn, ho⟩ := opens_group parent bound he' hd hto (by omega) hfull
    have h := ho.doomed hparent hroom hdepth hli he' (fun _ => htail rfl) (.inl hinner) hfull
    refine (ih s₁ _ _ h).behind (.head hturn (.refl _)) ?_
    rw [Layer.bytes, List.length_append]
    omega
  · exact fails_full (pos_lt_of_drop he' hopenPos) hfull (construct_opener he' hto hd (by omega))

end Dooms

/-- A layer that is cut short, or does not fit. -/
theorem fails_layer (layer : Layer) : Dooms dialect standard data parent bound layer := by
  induction layer with
  | nil =>
    rintro s room tail ⟨-, -, -, -, -, -, hbad, hrows⟩
    rcases hbad with h | h
    · cases h
    · exact absurd h (Nat.not_lt.mpr hrows)
  | record r rest ih => exact dooms_record ih
  | group field opener inner closer rest ihi ihr => exact dooms_group ihi ihr
  | refused unread => exact dooms_refused
  | torn field opener inner ih => exact dooms_torn ih

end Mint

/-! ## The layer scan -/

section Scanned

variable {dialect : Dialect} {standard : Standard} {rows : List (Cell Row)} {bytes : List UInt8}
  {start stop : Nat} {parent : Option Nat} {depth : Nat} {limit : DepthLimit} {layer : Layer}
  (hr : layer.Reads dialect standard (limit.asInner - depth) (Machine.slice bytes start stop))
  (hdepth : depth ≤ limit.asInner) (hparent : ∀ p, parent = some p → p < rows.length)

include hr

theorem layer_fuel : layer.bytes.length < stop - start + 1 := by
  rw [hr.bytes, slice_eq, List.length_take, List.length_drop]
  omega

include hdepth hparent

/-- A layer that is whole, and fits, is minted. -/
theorem scanLayer_ok (hcut : layer.cut = false) (hfit : rows.length + layer.size ≤ rowMax + 1) :
    ∃ rows', scanLayer dialect standard rows bytes start stop parent depth limit =
        .ok (rows', (layer.forest standard rows.length start).first) ∧
      rows'.length = rows.length + layer.size ∧ (∀ x < rows.length, rows'[x]? = rows[x]?) ∧
      Chain Node.row rows' parent (layer.forest standard rows.length start).first
        (layer.forest standard rows.length start) := by
  have hfuel := layer_fuel hr
  have he : (bytes.take stop).drop start = layer.bytes ++ [] := by
    rw [List.append_nil]
    exact hr.bytes.symm
  obtain ⟨rows', hm⟩ := mints_layer (s := ⟨rows, none, none, depth, none, start⟩)
    hr.lawful hcut he (Nat.add_sub_cancel' hdepth) nofun hparent hfit
  obtain ⟨n, hn, ht⟩ := hm.takes
  have hlen := hm.length
  rw [Layer.size_forest hr.lawful hcut] at hlen
  have hend : ¬ start + layer.bytes.length < (bytes.take stop).length := by
    rw [hr.bytes]
    unfold Machine.slice
    rw [List.length_drop]
    omega
  have hlast : Scan.turn dialect standard (bytes.take stop) parent limit.asInner
      ⟨rows', (layer.forest standard rows.length start).first, none, depth,
        (layer.forest standard rows.length start).last.or none, start + layer.bytes.length⟩ =
        .halt (.ok (rows', (layer.forest standard rows.length start).first)) := if_neg hend
  refine ⟨rows', ?_, hlen, fun x hx => ?_, hm.chain⟩
  · have hhead : (Scan.mk rows none none depth none start).headed
        (layer.forest standard rows.length start).first =
          (layer.forest standard rows.length start).first := Option.or_none
    rw [hhead] at ht
    unfold scanLayer
    rw [ht.halts hlast (by omega)]
    rfl
  · rw [hm.frame x hx]
    unfold Scan.linked
    cases (layer.forest standard rows.length start).first <;> rfl

/-- A layer that is cut short, or does not fit, is refused. -/
theorem scanLayer_error (hrows : rows.length ≤ rowMax + 1)
    (hbad : layer.cut = true ∨ rowMax + 1 < rows.length + layer.size) :
    ∃ halt, scanLayer dialect standard rows bytes start stop parent depth limit = .error halt := by
  have hfuel := layer_fuel hr
  have he : (bytes.take stop).drop start = layer.bytes ++ [] := by
    rw [List.append_nil]
    exact hr.bytes.symm
  obtain ⟨n, hn, s', halt, ht, hs⟩ := fails_layer layer ⟨rows, none, none, depth, none, start⟩ _ []
    ⟨hr.lawful, he, fun _ => rfl, Nat.add_sub_cancel' hdepth, nofun, hparent, hbad, hrows⟩
  refine ⟨halt, ?_⟩
  unfold scanLayer
  rw [ht.halts hs (by omega)]
  rfl

end Scanned

end ProtobufEdit.Editor
