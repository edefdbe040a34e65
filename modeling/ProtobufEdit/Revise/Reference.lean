import ProtobufEdit.Revise.Emission

/-!
# What a save should write

The emission by edit states: a row that was taken back or deleted writes nothing, one that was not
touched its record as it stands in its zone, one that was edited the framing it has and the value
stored for it, and a container that holds dirt its framing around what its interior writes. A
plain machine's saves come to it.
-/

namespace ProtobufEdit.Revise

open Wire Wire.Groupless Varint Base128 Arena Cursor
open Editor (Shape SaveFault slice_eq)
open Editor.Machine (slice prefixed)

/-! ## Spellings -/

theorem Store.Sound.varint_lt {s : Store} (hs : s.Sound) (v : Nat) : s.varint v < 2 ^ 64 := by
  unfold Store.varint
  rw [List.getD_eq_getElem?_getD]
  cases hv : s.varints[v]? with
  | none => decide
  | some word => exact hs.varints word (List.mem_of_getElem? hv)

theorem emit64_head (field : FieldNumber) (kind : RecordKind) :
    emit64 (headWord field kind) = minimal (tagWord field kind.low3) :=
  Editor.emit64_tag field kind.low3

/-! ## The reference -/

/-- A prefix for a body of `len` bytes: the word there is, while the length is what it was. -/
def framingWord (word : List UInt8) (was len : Nat) : List UInt8 :=
  if len = was then word else minimal len

namespace Machine

variable {standard : Standard}

/-- The record that stands at a row's offset. -/
def ownRecord (m : Machine standard) (r : Row) : Option Record :=
  r.start.bind fun start => (first standard ((m.backing r).drop start)).map Prod.fst

/-- A scalar stored, as its kind is spelled. -/
def storedWord (m : Machine standard) (kind : RecordKind) (value : Nat) : List UInt8 :=
  match kind with
  | .varint => minimal (m.store.varint value)
  | .i32 => toLeBytes 4 (m.store.bits32At value)
  | _ => toLeBytes 8 (m.store.bits64At value)

/-- What a row writes, given what its interior does. No plain run comes to the states of
transfers. -/
def emitted (m : Machine standard) (r : Row) (inner : Except SaveFault (List UInt8)) :
    Except SaveFault (List UInt8) :=
  match r.edit with
  | .intact =>
    match m.ownRecord r with
    | none => .ok []
    | some a =>
      match r.dirty, a.payload with
      | true, .len word payload =>
        inner.bind fun body =>
          if PayloadLen.max < body.length then .error (.bodyOverCap (r.start.getD 0))
          else .ok (a.tag ++ framingWord word payload.length body.length ++ body)
      | _, _ => .ok a.bytes
  | .replaced value =>
    match m.ownRecord r with
    | none => .ok []
    | some a =>
      match a.payload with
      | .len word payload =>
        let body := m.store.spanBytes value
        .ok (a.tag ++ framingWord word payload.length body.length ++ body)
      | p => .ok (a.tag ++ m.storedWord p.kind value)
  | .inserted value =>
    match r.kind with
    | .len =>
      let body := m.store.spanBytes value
      .ok (minimal (tagWord r.field RecordKind.len.low3) ++ minimal body.length ++ body)
    | kind => .ok (minimal (tagWord r.field kind.low3) ++ m.storedWord kind value)
  | _ => .ok []

/-- What the rows write, or the first body over the cap. -/
def emission (m : Machine standard) : Forest Unit → Except SaveFault (List UInt8)
  | .nil => .ok []
  | .node x _ kids rest =>
    (m.emitted (m.row x).body (m.emission kids)).bind fun here =>
      (m.emission rest).map fun behind => here ++ behind

/-- What a save of the rows comes to: a document without dirt as it was opened, any other the
emission, where it is within the machine's cap. -/
def published (m : Machine standard) (t : Forest Unit) : Saved (List UInt8) :=
  if m.clean then .saved m.source
  else
    match m.emission t with
    | .error fault => .refused fault
    | .ok out => if m.cap < out.length then .refused (.docOverCap out.length) else .saved out

/-! ## The walks' rows -/

variable {m : Machine standard} {t u : Forest Unit} {x : Nat}

/-- A row's shape in the walks says what the row writes. -/
inductive Tells (m : Machine standard) (x : Nat) : Shape → Prop where
  | leaf {p : List UInt8} : (∀ inner, m.emitted (m.row x).body inner = .ok p) →
      Tells m x (.leaf p)
  | len {pos n : Nat} {tag delim : List UInt8} :
      (∀ inner, m.emitted (m.row x).body inner = inner.bind fun body =>
        if PayloadLen.max < body.length then .error (.bodyOverCap pos)
        else .ok (tag ++ (if body.length = n then delim else emit64 body.length) ++ body)) →
      Tells m x (.len pos tag delim n)

theorem ownRecord_spelled {r : Row} {start : Nat} {a : Record}
    (h : Spelled standard (m.backing r) r start a) : m.ownRecord r = some a := by
  obtain ⟨rest, he⟩ := h.bytes
  unfold ownRecord
  rw [h.start]
  show (first standard _).map Prod.fst = some a
  rw [first_iff.mpr ⟨he, h.lawful⟩]
  rfl

/-- A canonical record is framed as any record is authored. -/
theorem canonical_framing {a : Record} (h : a.Lawful .canonicalMinimal) :
    a.tag = minimal (tagWord a.field a.payload.kind.low3) ∧
      ∀ word payload, a.payload = .len word payload →
        ∀ len, framingWord word payload.length len = minimal len := by
  refine ⟨?_, fun word payload hp len => ?_⟩
  · have htag := (minimal_iff .tag h.isTag.admits.isWord).mp h.isTag.admits.width
    rwa [h.isTag.spells] at htag
  · have hlaw := h.payload
    rw [hp] at hlaw
    have hword := (minimal_iff .len hlaw.1.isWord).mp hlaw.1.width
    unfold framingWord
    split
    · next he => rw [hword, hlaw.2, he]
    · rfl

section Tidy

/-- A stored scalar is spelled as the walks write it. -/
theorem Tidy.storedWord_eq (h : m.Tidy t) {kind : RecordKind} (hk : kind ≠ .len) (value : Nat) :
    m.storedWord kind value = (m.store.word kind value).bytes := by
  cases kind with
  | varint => exact (emit64_eq (h.plain.store.varint_lt value)).symm
  | i64 => rfl
  | i32 => rfl
  | len => exact absurd rfl hk

theorem Tidy.stored_le (h : m.Tidy t) (value : Nat) :
    (m.store.spanBytes value).length ≤ PayloadLen.max := by
  rw [← h.spanLen value]
  exact (h.plain.store.span value).2

/-- A row scanned into its layer is spelled. -/
theorem Tidy.spelled_of (h : m.Tidy t) (hx : x ∈ t.ids)
    (hb : (m.row x).body.edit.isBorn = false) :
    ∃ start a, Spelled standard (m.backing (m.row x).body) (m.row x).body start a := by
  obtain ⟨start, hs⟩ := (h.sorted.at x).start hb
  obtain ⟨a, hspelled⟩ := h.spelled_at hx hs
  exact ⟨start, a, hspelled⟩

/-- A payload behind a tag and a prefix of its own. -/
theorem Tidy.body_bytes (h : m.Tidy t) (value : Nat) :
    emit64 (m.spanLen value) ++ m.store.spanBytes value =
      minimal (m.store.spanBytes value).length ++ m.store.spanBytes value := by
  rw [h.spanLen value, Editor.emit64_small (h.stored_le value)]

variable {start value : Nat} {a : Record} {word payload : List UInt8}

theorem emitted_replaced_len
    (hs : Spelled standard (m.backing (m.row x).body) (m.row x).body start a)
    (he : (m.row x).body.edit = .replaced value) (hp : a.payload = .len word payload)
    (inner : Except SaveFault (List UInt8)) :
    m.emitted (m.row x).body inner = .ok (a.tag ++ framingWord word payload.length
      (m.store.spanBytes value).length ++ m.store.spanBytes value) := by
  unfold emitted
  simp only [he, ownRecord_spelled hs, hp]

theorem Tidy.emitted_replaced_word (h : m.Tidy t)
    (hs : Spelled standard (m.backing (m.row x).body) (m.row x).body start a)
    (he : (m.row x).body.edit = .replaced value) (hk : a.payload.kind ≠ .len)
    (inner : Except SaveFault (List UInt8)) :
    m.emitted (m.row x).body inner =
      .ok (a.tag ++ (m.store.word a.payload.kind value).bytes) := by
  rw [← h.storedWord_eq hk]
  unfold emitted
  simp only [he, ownRecord_spelled hs]
  cases hp : a.payload with
  | len word payload => exact absurd (by rw [hp]; rfl) hk
  | _ => rfl

/-- A replaced row keeps its framing. -/
theorem Tidy.tells_replaced (h : m.Tidy t)
    (hs : Spelled standard (m.backing (m.row x).body) (m.row x).body start a)
    (he : (m.row x).body.edit = .replaced value) : m.Tells x (m.shapeOf x) := by
  have hkind := hs.kind
  have hstart := hs.start
  by_cases hk : a.payload.kind = .len
  · obtain ⟨word, payload, hp⟩ := hs.len (hkind.trans hk)
    have hframed := emitted_replaced_len hs he hp
    rw [hk] at hkind
    cases standard with
    | tolerant =>
      have hshape : m.shapeOf x = .leaf (a.tag ++ framingWord word payload.length
          (m.store.spanBytes value).length ++ m.store.spanBytes value) := by
        unfold shapeOf armOf settle settleTolerant
        simp only [he, hstart, hkind, Option.map_some, Option.getD_some, shape, prefixed,
          hs.srcLen hp, hs.prefixEnd hp, hs.tagEnd, hs.slice_tag, hs.slice_word hp, h.spanLen value,
          framingWord, Editor.emit64_small (h.stored_le value)]
      rw [hshape]
      exact .leaf hframed
    | canonicalMinimal =>
      obtain ⟨htag, hword⟩ := canonical_framing hs.lawful
      have hshape : m.shapeOf x = .leaf (a.tag ++ framingWord word payload.length
          (m.store.spanBytes value).length ++ m.store.spanBytes value) := by
        unfold shapeOf armOf settle settleCanonical
        simp only [he, hkind, Option.getD_some, shape, htag, hword word payload hp, hk, hs.field,
          emit64_head, List.append_assoc, h.body_bytes]
      rw [hshape]
      exact .leaf hframed
  · have hframed := h.emitted_replaced_word hs he hk
    cases standard with
    | tolerant =>
      have hshape : m.shapeOf x = .leaf (a.tag ++ (m.store.word a.payload.kind value).bytes) := by
        unfold shapeOf armOf settle settleTolerant
        simp only [he, hstart, hkind, Option.map_some]
        cases hp : a.payload.kind with
        | len => exact absurd hp hk
        | _ => simp only [Option.getD_some, shape, hs.tagEnd, hs.slice_tag]
      rw [hshape]
      exact .leaf hframed
    | canonicalMinimal =>
      obtain ⟨htag, -⟩ := canonical_framing hs.lawful
      have hshape : m.shapeOf x = .leaf (a.tag ++ (m.store.word a.payload.kind value).bytes) := by
        unfold shapeOf armOf settle settleCanonical
        simp only [he, hkind]
        cases hp : a.payload.kind with
        | len => exact absurd hp hk
        | _ => simp only [Option.getD_some, shape, htag, hp, hs.field, emit64_head]
      rw [hshape]
      exact .leaf hframed

/-- An inserted row is framed anew. -/
theorem Tidy.tells_inserted (h : m.Tidy t) (he : (m.row x).body.edit = .inserted value) :
    m.Tells x (m.shapeOf x) := by
  by_cases hk : (m.row x).body.kind = .len
  · have hshape : m.shapeOf x =
        .leaf (minimal (tagWord (m.row x).body.field RecordKind.len.low3) ++
          minimal (m.store.spanBytes value).length ++ m.store.spanBytes value) := by
      cases standard <;> unfold shapeOf armOf settle
      · simp only [settleTolerant, he, hk, Option.getD_some, shape, emit64_head, List.append_assoc,
          h.body_bytes]
      · simp only [settleCanonical, he, hk, Option.getD_some, shape, emit64_head,
          List.append_assoc, h.body_bytes]
    rw [hshape]
    refine .leaf fun inner => ?_
    unfold emitted
    simp only [he, hk]
  · have hshape : m.shapeOf x = .leaf (minimal (tagWord (m.row x).body.field
        (m.row x).body.kind.low3) ++ m.storedWord (m.row x).body.kind value) := by
      rw [h.storedWord_eq hk]
      cases hkind : (m.row x).body.kind with
      | len => exact absurd hkind hk
      | _ =>
        cases standard <;> unfold shapeOf armOf settle <;>
          simp only [settleTolerant, settleCanonical, he, hkind, Option.getD_some, shape,
            emit64_head]
    rw [hshape]
    refine .leaf fun inner => ?_
    unfold emitted
    simp only [he]

/-- A row that is intact is its record, or its framing around a dirty interior. -/
theorem Tidy.tells_intact (h : m.Tidy t) (hx : x ∈ t.ids)
    (hs : Spelled standard (m.backing (m.row x).body) (m.row x).body start a)
    (he : (m.row x).body.edit = .intact) : m.Tells x (m.shapeOf x) := by
  have hstart := hs.start
  cases hd : (m.row x).body.dirty with
  | false =>
    have hrides : (m.row x).body.rides = true := by
      unfold Row.rides
      rw [he, hd]
      rfl
    obtain ⟨start', hstart', hsettle⟩ :=
      rides_settle hrides (Option.isSome_iff_ne_none.mpr (h.sorted.settles x))
    obtain rfl := Option.some.inj (hstart.symm.trans hstart')
    have hshape : m.shapeOf x = .leaf a.bytes := by
      unfold shapeOf armOf
      simp only [hsettle, Option.getD_some, shape, hs.slice_all]
    rw [hshape]
    refine .leaf fun inner => ?_
    unfold emitted
    simp only [he, ownRecord_spelled hs, hd]
  | true =>
    obtain ⟨hk, hopened⟩ := h.dirty_opened hx he hd
    obtain ⟨word, payload, hp⟩ := hs.len hk
    have hemitted : ∀ inner, m.emitted (m.row x).body inner = inner.bind fun body =>
        if PayloadLen.max < body.length then .error (.bodyOverCap start)
        else .ok (a.tag ++ framingWord word payload.length body.length ++ body) := by
      intro inner
      unfold emitted
      simp only [he, ownRecord_spelled hs, hd, hp, hstart, Option.getD_some]
    cases standard with
    | tolerant =>
      have hshape : m.shapeOf x = .len start a.tag word payload.length := by
        unfold shapeOf armOf settle settleTolerant
        simp only [he, hstart, hd, hk, hopened, and_self, if_true, Option.map_some,
          Option.getD_some, Row.spine, shape, hs.srcLen hp, hs.prefixEnd hp, hs.tagEnd,
          hs.slice_tag, hs.slice_word hp]
      rw [hshape]
      refine .len fun inner => (hemitted inner).trans ?_
      refine congrArg inner.bind (funext fun body => ?_)
      split
      · rfl
      · next hcap => rw [framingWord, Editor.emit64_small (Nat.le_of_not_lt hcap)]
    | canonicalMinimal =>
      obtain ⟨htag, hword⟩ := canonical_framing hs.lawful
      have hshape : m.shapeOf x = .len start (emit64 (headWord (m.row x).body.field .len))
          (emit64 0) 0 := by
        unfold shapeOf armOf settle settleCanonical
        simp only [he, hstart, hd, hk, if_true, Option.map_some, Option.getD_some, shape]
      rw [hshape]
      refine .len fun inner => (hemitted inner).trans ?_
      refine congrArg inner.bind (funext fun body => ?_)
      split
      · rfl
      · next hcap =>
        have hdelim : (if body.length = 0 then emit64 0 else emit64 body.length) =
            minimal body.length := by
          rw [← Editor.emit64_small (Nat.le_of_not_lt hcap)]
          split
          · next hz => rw [hz]
          · rfl
        rw [hword word payload hp, htag, ← hs.kind, hk, ← hs.field, emit64_head, hdelim]

/-- A row's shape is what its edit state says. -/
theorem Tidy.tells (h : m.Tidy t) (hx : x ∈ t.ids) : m.Tells x (m.shapeOf x) := by
  obtain ⟨-, hspoken, -⟩ := h.row hx
  have hplain := hspoken.plain
  have hskip : m.settle (m.row x).body = some .skip →
      (∀ inner, m.emitted (m.row x).body inner = .ok []) → m.Tells x (m.shapeOf x) := by
    intro hsettle hemitted
    have hshape : m.shapeOf x = .leaf [] := by
      unfold shapeOf armOf
      simp only [hsettle, Option.getD_some, shape]
    rw [hshape]
    exact .leaf hemitted
  cases he : (m.row x).body.edit with
  | intact =>
    obtain ⟨start, a, hs⟩ := h.spelled_of hx (by rw [he]; rfl)
    exact h.tells_intact hx hs he
  | replaced value =>
    obtain ⟨start, a, hs⟩ := h.spelled_of hx (by rw [he]; rfl)
    exact h.tells_replaced hs he
  | inserted value => exact h.tells_inserted he
  | deleted value | insertedDeleted value =>
    refine hskip ?_ fun inner => ?_
    · cases standard
      · simp only [settle, settleTolerant, he]
      · simp only [settle, settleCanonical, he]
    · simp only [emitted, he]
  | _ =>
    rw [he] at hplain
    cases hplain

/-- The rows write what their edit states say, or stop at the first body over the cap. -/
theorem Tidy.emission_eq (h : m.Tidy t) (hu : ∀ x ∈ u.ids, x ∈ t.ids) :
    m.emission u = (m.overCap u).elim (.ok (m.text u)) .error := by
  induction u with
  | nil => rfl
  | node x _ kids rest ihk ihr =>
    have hkids := ihk fun y hy => hu y (List.mem_cons_of_mem _ (List.mem_append_left _ hy))
    have hrest := ihr fun y hy => hu y (List.mem_cons_of_mem _ (List.mem_append_right _ hy))
    have hhere : m.emitted (m.row x).body (m.emission kids) =
        ((m.shapeOf x).overCap (m.text kids) (m.overCap kids)).elim
          (.ok ((m.shapeOf x).bytes (m.text kids))) .error := by
      have htells := h.tells (hu x List.mem_cons_self)
      generalize m.shapeOf x = shape at htells ⊢
      cases htells with
      | leaf hemitted => exact hemitted _
      | len hemitted =>
        rw [hemitted, hkids]
        cases m.overCap kids with
        | some fault => rfl
        | none =>
          show (if _ then _ else _) = Option.elim (if _ then _ else _) _ _
          split <;> rfl
    rw [emission, overCap, text, hhere, hrest]
    cases (m.shapeOf x).overCap (m.text kids) (m.overCap kids) with
    | some fault => rfl
    | none => cases m.overCap rest <;> rfl

/-- No body is over the cap where the walks go into no row. -/
theorem overCap_leaves {p : Nat → List UInt8} (h : ∀ x ∈ u.tops, m.shapeOf x = .leaf (p x)) :
    m.overCap u = none := by
  induction u with
  | nil => rfl
  | node x _ kids rest _ ihr =>
    rw [overCap, h x List.mem_cons_self, ihr fun y hy => h y (List.mem_cons_of_mem _ hy)]
    rfl

/-- A clean machine's rows write the document. -/
theorem Tidy.clean_emission (h : m.Tidy t) (hc : m.clean = true) :
    m.emission t = .ok m.source := by
  rw [h.emission_eq fun _ hx => hx, overCap_leaves fun x hx => h.clean_shape hc hx,
    h.clean_text hc]
  rfl

theorem Tidy.published_eq (h : m.Tidy t) :
    m.published t = if m.clean then .saved (m.text t) else m.publishes t := by
  unfold published publishes
  split
  · next hc => rw [h.clean_text hc]
  · rw [h.emission_eq fun _ hx => hx]
    cases m.overCap t <;> rfl

end Tidy

/-! ## Plain runs -/

/-- Every face of a save comes to what should be written, and that is the document where nothing
is dirty. -/
structure SavesRows (m : Machine standard) (t : Forest Unit) : Prop where
  laid : Laid (links m.rows) none m.top t
  nodup : t.ids.Nodup
  faces : m.Faces (m.published t)
  document : m.clean = true → m.emission t = .ok m.source

theorem Tidy.savesRows (h : m.Tidy t) : m.SavesRows t := by
  refine ⟨h.rooted.laid, h.rooted.nodup, ?_, h.clean_emission⟩
  rw [h.published_eq]
  exact h.faces

/-- Every state of a plain run saves what its rows' edit states say. -/
theorem saves_rows {cap : Nat} {source : List UInt8}
    (h : openSource standard cap source = .ok m) (commands : List (Command standard))
    (hp : ∀ command ∈ commands, command.plain = true) :
    ∃ t, (m.performAll commands).SavesRows t := by
  obtain ⟨t, ht⟩ := tidy_run (tidy_open h) hp
  exact ⟨t, ht.savesRows⟩

/-- A container opened, and a record of its interior replaced. -/
def grown : List (Command .tolerant) := [.descend 0, .setVarint 1 300]

theorem saves_rows_grown :
    ∃ m : Machine .tolerant,
      openSource .tolerant PayloadLen.max [0x0A, 0x02, 0x08, 0x05, 0x10, 0x01] = .ok m ∧
      ∃ t, (m.performAll grown).SavesRows t := by
  obtain ⟨m, hm⟩ : ∃ m : Machine .tolerant,
      openSource .tolerant PayloadLen.max [0x0A, 0x02, 0x08, 0x05, 0x10, 0x01] = .ok m := ⟨_, rfl⟩
  exact ⟨m, hm, saves_rows hm grown (by decide)⟩

end Machine

end ProtobufEdit.Revise
