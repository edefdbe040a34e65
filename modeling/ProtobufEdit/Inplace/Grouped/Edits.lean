import ProtobufEdit.Inplace.Actions
import ProtobufEdit.Inplace.Grouped.Document

/-!
# What a rule set makes of a document of groups

`Edits` is a document with what each record and group becomes, `Commanded` says that the rules
command exactly that of it, and `Commanded.patches` that landing the planned writes turns the
document met into the one that became of it, byte for byte.
-/

namespace ProtobufEdit.Inplace.Grouped

open Wire Wire.Grouped Varint Base128 ProtobufEdit.Path Cursor

/-! ## A document's edits -/

/-- Records and groups in order, each with what stands in its extent behind the job. A `record`'s
payload and an `owned` group's interior are left to the action over them; a `crossed` record and a
`group` keep their extent around the edits of their interior, renumbered or not. -/
inductive Edits where
  | nil
  | record (r : Record) (action : Option Action) (became : Doc) (rest : Edits)
  | crossed (field : FieldNumber) (tag word : List UInt8) (renumbered : Option FieldNumber)
      (interior rest : Edits)
  | group (field : FieldNumber) (opener : List UInt8) (renumbered : Option FieldNumber)
      (inner : Edits) (closer : List UInt8) (rest : Edits)
  | owned (field : FieldNumber) (opener : List UInt8) (inner : Doc) (closer : List UInt8)
      (action : Action) (became : Doc) (rest : Edits)

/-- A tag under the field it is renumbered to, at the width it was met. -/
def retag (renumbered : Option FieldNumber) (code : Low3) (tag : List UInt8) : List UInt8 :=
  match renumbered with
  | none => tag
  | some new => write64At (tagWord new code) tag.length

/-- The write over a tag standing at `head`, if it is renumbered. -/
def tagWrites (renumbered : Option FieldNumber) (code : Low3) (tag : List UInt8) (head : Nat) :
    List Write :=
  (renumbered.map fun new => .tag head tag.length (tagWord new code)).toList

/-- The write over a whole extent standing at `head`. -/
def ownedWrite (extent head : Nat) : Action → Option Write
  | .tombstone field => some (.filler head extent field)
  | .replaceRecord bytes => some (.payload head bytes)
  | _ => none

namespace Edits

/-- The document as it was. -/
def met : Edits → Doc
  | nil => .nil
  | record r _ _ rest => .record r rest.met
  | crossed field tag word _ interior rest => .crossed field tag word interior.met rest.met
  | group field opener _ inner closer rest => .group field opener inner.met closer rest.met
  | owned field opener inner closer _ _ rest => .group field opener inner closer rest.met

/-- The document behind the job. -/
def became : Edits → Doc
  | nil => .nil
  | record _ _ became rest => became.append rest.became
  | crossed field tag word renumbered interior rest =>
    .crossed (renumbered.getD field) (retag renumbered 2 tag) word interior.became rest.became
  | group field opener renumbered inner closer rest =>
    .group (renumbered.getD field) (retag renumbered 3 opener) inner.became
      (retag renumbered 4 closer) rest.became
  | owned _ _ _ _ _ became rest => became.append rest.became

/-- The writes planned, the layer's first byte standing at `head`: a group's two tags are planned
together, behind its interior's writes. -/
def writes : Edits → Nat → List Write
  | nil, _ => []
  | record r action _ rest, head =>
    (action.map (planned head r)).toList ++ rest.writes (head + r.bytes.length)
  | crossed field tag word renumbered interior rest, head =>
    tagWrites renumbered 2 tag head ++ (interior.writes (head + (tag ++ word).length) ++
      rest.writes (head + (Record.bytes ⟨field, tag, .len word interior.met.bytes⟩).length))
  | group _ opener renumbered inner closer rest, head =>
    let inside := inner.met.bytes.length
    inner.writes (head + opener.length) ++
      (tagWrites renumbered 3 opener head ++
        tagWrites renumbered 4 closer (head + opener.length + inside)) ++
      rest.writes (head + (opener.length + inside + closer.length))
  | owned _ opener inner closer action _ rest, head =>
    let extent := opener.length + inner.bytes.length + closer.length
    (ownedWrite extent head action).toList ++ rest.writes (head + extent)

/-- The actions landed, in the order their writes are planned. -/
def actions : Edits → List Action
  | nil => []
  | record _ action _ rest => action.toList ++ rest.actions
  | crossed _ _ _ renumbered interior rest =>
    (renumbered.map .renumber).toList ++ (interior.actions ++ rest.actions)
  | group _ _ renumbered inner _ rest =>
    inner.actions ++ (renumbered.map .renumber).toList ++ rest.actions
  | owned _ _ _ _ action _ rest => action :: rest.actions

end Edits

namespace Edits

def append : Edits → Edits → Edits
  | nil, t => t
  | record r action became rest, t => record r action became (rest.append t)
  | crossed field tag word renumbered interior rest, t =>
    crossed field tag word renumbered interior (rest.append t)
  | group field opener renumbered inner closer rest, t =>
    group field opener renumbered inner closer (rest.append t)
  | owned field opener inner closer action became rest, t =>
    owned field opener inner closer action became (rest.append t)

theorem met_append (t t' : Edits) : (t.append t').met = t.met.append t'.met := by
  induction t with
  | nil => rfl
  | record r action became rest ih => rw [append, met, ih]; rfl
  | crossed field tag word renumbered interior rest _ ih => rw [append, met, ih]; rfl
  | group field opener renumbered inner closer rest _ ih => rw [append, met, ih]; rfl
  | owned field opener inner closer action became rest ih => rw [append, met, ih]; rfl

theorem actions_append (t t' : Edits) : (t.append t').actions = t.actions ++ t'.actions := by
  induction t with
  | nil => rfl
  | record r action became rest ih => simp only [append, actions, ih, List.append_assoc]
  | crossed field tag word renumbered interior rest _ ih =>
    simp only [append, actions, ih, List.append_assoc]
  | group field opener renumbered inner closer rest _ ih =>
    simp only [append, actions, ih, List.append_assoc]
  | owned field opener inner closer action became rest ih =>
    simp only [append, actions, ih, List.cons_append]

theorem writes_append (t t' : Edits) (head : Nat) :
    (t.append t').writes head = t.writes head ++ t'.writes (head + t.met.bytes.length) := by
  induction t generalizing head with
  | nil => rfl
  | record r action became rest ih =>
    simp only [append, writes, ih, met, Doc.bytes, List.length_append, List.append_assoc,
      Nat.add_assoc]
  | crossed field tag word renumbered interior rest _ ih =>
    simp only [append, writes, ih, met, Doc.bytes, List.length_append, List.append_assoc,
      Nat.add_assoc]
  | group field opener renumbered inner closer rest _ ih =>
    simp only [append, writes, ih, met, Doc.bytes, List.length_append, List.append_assoc,
      Nat.add_assoc]
  | owned field opener inner closer action became rest ih =>
    simp only [append, writes, ih, met, Doc.bytes, List.length_append, List.append_assoc,
      Nat.add_assoc]

end Edits

/-! ## What the rules command -/

/-- A replacement that fits where it is to stand: one record or group whose own groups nest within
the room left there. -/
structure Candidate (standard : Standard) (room extent : Nat) (bytes : List UInt8) (d : Doc) :
    Prop where
  extent : bytes.length = extent
  bytes : d.bytes = bytes
  single : d.Single
  closed : d.Closed
  lawful : d.Lawful standard room

/-- What becomes of a record's extent. -/
inductive Becomes (standard : Standard) (room : Nat) (r : Record) : Option Action → Doc → Prop where
  | kept : Becomes standard room r none (.record r .nil)
  | recast {a : Action} {out : List Record} : recast standard r a = some out →
      Becomes standard room r (some a) (.ofRecords out)
  | replaced {bytes : List UInt8} {d : Doc} : Candidate standard room r.bytes.length bytes d →
      Becomes standard room r (some (.replaceRecord bytes)) d

/-- What becomes of an owned group's extent. -/
inductive Supplants (standard : Standard) (room extent : Nat) : Action → Doc → Prop where
  | tombstoned {field : FieldNumber} : fillerNeed field ≤ extent →
      Supplants standard room extent (.tombstone field)
        (.ofRecords (fillers standard extent field))
  | replaced {bytes : List UInt8} {d : Doc} : Candidate standard room extent bytes d →
      Supplants standard room extent (.replaceRecord bytes) d

/-- A tag the new field's word fits. -/
def Retags (standard : Standard) (renumbered : Option FieldNumber) (code : Low3)
    (tag : List UInt8) : Prop :=
  ∀ new ∈ renumbered, widthFits standard (encodedLen32 (tagWord new code)) tag.length = true

/-- The edits are what the rules command of a layer behind a chain, with `room` for groups and
crossings: whatever one rule targets has its action, whatever none does is as it was, and the
walk goes on in every group no action owns and in every LEN record some path goes on through. -/
def Edits.Commanded (set : RuleSet) (standard : Standard) : List FieldNumber → Nat → Edits → Prop
  | _, _, .nil => True
  | chain, room, .record r action became rest =>
    r.Lawful standard ∧ commanded set chain r.field = some action ∧
      entered set chain r action = none ∧ Becomes standard room r action became ∧
      rest.Commanded set standard chain room
  | chain, room, .crossed field tag word renumbered interior rest =>
    0 < room ∧ Record.Lawful standard ⟨field, tag, .len word interior.met.bytes⟩ ∧
      commanded set chain field = some (renumbered.map .renumber) ∧
      set.provider.routes chain field = true ∧ Retags standard renumbered 2 tag ∧
      interior.Commanded set standard (chain ++ [field]) (room - 1) ∧
      rest.Commanded set standard chain room
  | chain, room, .group field opener renumbered inner closer rest =>
    0 < room ∧ IsTag standard field 3 opener ∧ IsTag standard field 4 closer ∧
      commanded set chain field = some (renumbered.map .renumber) ∧
      Retags standard renumbered 3 opener ∧ Retags standard renumbered 4 closer ∧
      inner.Commanded set standard (chain ++ [field]) (room - 1) ∧
      rest.Commanded set standard chain room
  | chain, room, .owned field opener inner closer action became rest =>
    0 < room ∧ IsTag standard field 3 opener ∧ IsTag standard field 4 closer ∧ inner.Closed ∧
      inner.Lawful standard (room - 1) ∧ commanded set chain field = some (some action) ∧
      Supplants standard room (opener.length + inner.bytes.length + closer.length) action became ∧
      rest.Commanded set standard chain room

/-! ## What the commanded edits come to -/

section Pieces

variable {standard : Standard} {room extent : Nat} {r : Record} {action : Option Action}
  {a : Action} {d : Doc} {renumbered : Option FieldNumber} {code : Low3} {field : FieldNumber}
  {tag : List UInt8}

theorem retag_patches (standard : Standard) (renumbered : Option FieldNumber) (code : Low3)
    (tag : List UInt8) :
    Patches standard (tagWrites renumbered code tag) tag (retag renumbered code tag) := by
  cases renumbered with
  | none => exact .keep standard tag
  | some new =>
    exact .one (w := fun head => .tag head tag.length (tagWord new code))
      fun head => .whole rfl (write64At_length _ _) rfl

theorem Retags.isTag (h : Retags standard renumbered code tag)
    (htag : IsTag standard field code tag) :
    IsTag standard (renumbered.getD field) code (retag renumbered code tag) := by
  cases renumbered with
  | none => exact htag
  | some new => exact isTag_write (h new rfl) htag.admits.isWord.fits

theorem Becomes.lawful (h : Becomes standard room r action d) (hr : r.Lawful standard)
    (hle : r.bytes.length ≤ PayloadLen.max) : d.Lawful standard room := by
  cases h with
  | kept => exact ⟨hr, trivial⟩
  | recast hout => exact Doc.lawful_ofRecords (recast_spec hr hle hout 0).1
  | replaced hcandidate => exact hcandidate.lawful

theorem Becomes.patches (h : Becomes standard room r action d) (hr : r.Lawful standard)
    (hle : r.bytes.length ≤ PayloadLen.max) :
    Patches standard (fun head => (action.map (planned head r)).toList) r.bytes d.bytes := by
  cases h with
  | kept =>
    rw [Doc.bytes, Doc.bytes, List.append_nil]
    exact .keep standard r.bytes
  | @recast a out hout =>
    rw [Doc.bytes_ofRecords]
    exact .one (w := fun head => planned head r a) fun head => (recast_spec hr hle hout head).2.2
  | @replaced bytes _ hcandidate =>
    rw [hcandidate.bytes]
    exact .one (w := fun head => planned head r (.replaceRecord bytes))
      fun head => .whole rfl hcandidate.extent rfl

theorem Supplants.lawful (h : Supplants standard room extent a d) (hle : extent ≤ PayloadLen.max) :
    d.Lawful standard room := by
  cases h with
  | tombstoned hneed => exact Doc.lawful_ofRecords (fillers_filled standard hneed hle).lawful
  | replaced hcandidate => exact hcandidate.lawful

theorem Supplants.patches {met : List UInt8} (h : Supplants standard room met.length a d)
    (hle : met.length ≤ PayloadLen.max) :
    Patches standard (fun head => (ownedWrite met.length head a).toList) met d.bytes := by
  cases h with
  | @tombstoned field hneed =>
    have hfilled := fillers_filled standard hneed hle
    have hlen : (fill standard met.length field).length = met.length := by
      rw [fill_eq]
      exact hfilled.width
    rw [Doc.bytes_ofRecords, ← fill_eq]
    exact .one (w := fun head => .filler head met.length field) fun head => .whole rfl hlen rfl
  | @replaced bytes _ hcandidate =>
    rw [hcandidate.bytes]
    exact .one (w := fun head => .payload head bytes)
      fun head => .whole rfl hcandidate.extent rfl

end Pieces

namespace Edits

variable {set : RuleSet} {standard : Standard} {chain : List FieldNumber} {room : Nat} {t : Edits}

theorem lenBytes (field : FieldNumber) (tag word payload : List UInt8) :
    Record.bytes ⟨field, tag, .len word payload⟩ = tag ++ (word ++ payload) := rfl

/-- Landing the planned writes turns the document met into the one that became of it. -/
theorem Commanded.patches (h : t.Commanded set standard chain room)
    (hle : t.met.bytes.length ≤ PayloadLen.max) :
    Patches standard t.writes t.met.bytes t.became.bytes := by
  induction t generalizing chain room with
  | nil => exact .keep standard []
  | record r action became rest ih =>
    obtain ⟨hr, -, -, hbecomes, hrest⟩ := h
    rw [met, Doc.bytes, List.length_append] at hle
    rw [Edits.became, Doc.bytes_append]
    exact (hbecomes.patches hr (by omega)).append (ih hrest (by omega))
  | crossed field tag word renumbered interior rest ihi ih =>
    obtain ⟨-, -, -, -, -, hin, hrest⟩ := h
    simp only [met, Doc.bytes, lenBytes, List.length_append] at hle
    have htag := retag_patches standard renumbered 2 tag
    have hinside := (Patches.keep standard word).append (ihi hin (by omega))
    have hall := (htag.append hinside).append (ih hrest (by omega))
    refine ⟨?_, fun before after => ?_, fun head => ?_⟩
    · exact hall.length
    · have hcommits := hall.commits before after
      simp only [met, Edits.became, Doc.bytes, lenBytes, writes, List.length_append,
        List.nil_append, List.append_assoc, Nat.add_assoc] at hcommits ⊢
      exact hcommits
    · have hapart := hall.apart head
      simp only [met, Doc.bytes, lenBytes, writes, List.length_append, List.nil_append,
        List.append_assoc, Nat.add_assoc] at hapart ⊢
      exact hapart
  | group field opener renumbered inner closer rest ihi ih =>
    obtain ⟨-, -, -, -, -, -, hin, hrest⟩ := h
    simp only [met, Doc.bytes, List.length_append] at hle
    have hall := ((ihi hin (by omega)).around (retag_patches standard renumbered 3 opener)
      (retag_patches standard renumbered 4 closer)).append (ih hrest (by omega))
    refine ⟨?_, fun before after => ?_, fun head => ?_⟩
    · exact hall.length
    · have hcommits := hall.commits before after
      simp only [List.length_append] at hcommits
      exact hcommits
    · have hapart := hall.apart head
      simp only [List.length_append] at hapart
      simp only [met, Doc.bytes, writes, List.length_append]
      exact hapart
  | owned field opener inner closer action became rest ih =>
    obtain ⟨-, -, -, -, -, -, hsupplants, hrest⟩ := h
    simp only [met, Doc.bytes, List.length_append] at hle
    have hextent : (opener ++ inner.bytes ++ closer).length =
        opener.length + inner.bytes.length + closer.length := by
      simp only [List.length_append]
    rw [← hextent] at hsupplants
    have hall := (hsupplants.patches (by omega)).append (ih hrest (by omega))
    rw [hextent] at hall
    rw [Edits.became, Doc.bytes_append]
    exact hall

theorem Commanded.append {t' : Edits} (h : t.Commanded set standard chain room)
    (h' : t'.Commanded set standard chain room) :
    (t.append t').Commanded set standard chain room := by
  induction t with
  | nil => exact h'
  | record r action became rest ih =>
    obtain ⟨hr, hc, he, hb, hrest⟩ := h
    exact ⟨hr, hc, he, hb, ih hrest⟩
  | crossed field tag word renumbered interior rest _ ih =>
    obtain ⟨hroom, hr, hc, hroute, hretags, hin, hrest⟩ := h
    exact ⟨hroom, hr, hc, hroute, hretags, hin, ih hrest⟩
  | group field opener renumbered inner closer rest _ ih =>
    obtain ⟨hroom, hopen, hclose, hc, hfront, hback, hin, hrest⟩ := h
    exact ⟨hroom, hopen, hclose, hc, hfront, hback, hin, ih hrest⟩
  | owned field opener inner closer action became rest ih =>
    obtain ⟨hroom, hopen, hclose, hclosed, hlaw, hc, hs, hrest⟩ := h
    exact ⟨hroom, hopen, hclose, hclosed, hlaw, hc, hs, ih hrest⟩

/-- Both documents are lawful within the room. -/
theorem Commanded.lawful (h : t.Commanded set standard chain room)
    (hle : t.met.bytes.length ≤ PayloadLen.max) :
    t.met.Lawful standard room ∧ t.became.Lawful standard room := by
  induction t generalizing chain room with
  | nil => exact ⟨trivial, trivial⟩
  | record r action became rest ih =>
    obtain ⟨hr, -, -, hbecomes, hrest⟩ := h
    rw [met, Doc.bytes, List.length_append] at hle
    obtain ⟨hmet, hout⟩ := ih hrest (by omega)
    exact ⟨⟨hr, hmet⟩, (hbecomes.lawful hr (by omega)).append hout⟩
  | crossed field tag word renumbered interior rest ihi ih =>
    obtain ⟨hroom, hr, -, -, hretags, hin, hrest⟩ := h
    simp only [met, Doc.bytes, lenBytes, List.length_append] at hle
    obtain ⟨himet, hiout⟩ := ihi hin (by omega)
    obtain ⟨hmet, hout⟩ := ih hrest (by omega)
    have hlen := (hin.patches (by omega)).length
    have hr' : Record.Lawful standard
        ⟨renumbered.getD field, retag renumbered 2 tag, .len word interior.became.bytes⟩ :=
      ⟨hretags.isTag hr.isTag, hr.payload.1, hr.payload.2.trans hlen.symm⟩
    exact ⟨⟨hroom, hr, himet, hmet⟩, ⟨hroom, hr', hiout, hout⟩⟩
  | group field opener renumbered inner closer rest ihi ih =>
    obtain ⟨hroom, hopen, hclose, -, hfront, hback, hin, hrest⟩ := h
    simp only [met, Doc.bytes, List.length_append] at hle
    obtain ⟨himet, hiout⟩ := ihi hin (by omega)
    obtain ⟨hmet, hout⟩ := ih hrest (by omega)
    exact ⟨⟨hroom, hopen, hclose, himet, hmet⟩,
      ⟨hroom, hfront.isTag hopen, hback.isTag hclose, hiout, hout⟩⟩
  | owned field opener inner closer action became rest ih =>
    obtain ⟨hroom, hopen, hclose, -, hlaw, -, hsupplants, hrest⟩ := h
    simp only [met, Doc.bytes, List.length_append] at hle
    obtain ⟨hmet, hout⟩ := ih hrest (by omega)
    exact ⟨⟨hroom, hopen, hclose, hlaw, hmet⟩, (hsupplants.lawful (by omega)).append hout⟩

end Edits

end ProtobufEdit.Inplace.Grouped
