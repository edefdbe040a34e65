import ProtobufEdit.Editor.Layer.Sound
import ProtobufEdit.Revise.Narrowest
import ProtobufEdit.Revise.Plain
import ProtobufEdit.Varint.Agreement

/-!
# Tiled layers

The rows that were scanned into a layer are the records of the payload the layer's container
speaks with, in their order and one behind the other, whatever was put between them.
-/

namespace ProtobufEdit.Revise

open Wire Wire.Groupless Varint Base128 Arena Cursor
open Editor (slice_eq slice_append slice_length)
open Editor.Machine (slice)

/-! ## Spelled rows -/

def Row.isScanned (r : Row) : Bool := r.start.isSome

/-- The row was scanned off a record that stands at a position of its zone. -/
structure Spelled (standard : Standard) (zone : List UInt8) (r : Row) (pos : Nat) (a : Record) :
    Prop where
  shape : r.shape = .met standard r.authoredZone pos a
  lawful : a.Lawful standard
  bytes : ∃ rest, zone.drop pos = a.bytes ++ rest

section Spelled

variable {standard : Standard} {zone zone' : List UInt8} {r r' : Row} {pos : Nat} {a : Record}

theorem Spelled.start (h : Spelled standard zone r pos a) : r.start = some pos := by
  have he := congrArg Row.start h.shape
  exact he

theorem Spelled.stop (h : Spelled standard zone r pos a) : r.stop = pos + a.bytes.length := by
  have he := congrArg Row.stop h.shape
  exact he

theorem Spelled.kind (h : Spelled standard zone r pos a) : r.kind = a.payload.kind := by
  have he := congrArg Row.kind h.shape
  exact he

theorem Spelled.field (h : Spelled standard zone r pos a) : r.field = a.field := by
  have he := congrArg Row.field h.shape
  exact he

theorem Spelled.len (h : Spelled standard zone r pos a) (hk : r.kind = .len) :
    ∃ word payload, a.payload = .len word payload := by
  have hkind := h.kind.symm.trans hk
  cases hp : a.payload with
  | len word payload => exact ⟨word, payload, rfl⟩
  | _ => rw [hp] at hkind; cases hkind

theorem Spelled.stop_le (h : Spelled standard zone r pos a) : r.stop ≤ zone.length := by
  obtain ⟨rest, he⟩ := h.bytes
  have hlen := length_of_drop_eq he
  have hpos := h.lawful.length_pos
  rw [h.stop]
  omega

theorem Spelled.tagW (h : Spelled standard zone r pos a) : r.tagW standard = a.tag.length := by
  cases standard with
  | tolerant =>
    have hwidth : r.tagWidth = some a.tag.length := by
      have he := congrArg Row.tagWidth h.shape
      exact he
    unfold Row.tagW
    rw [hwidth]
    rfl
  | canonicalMinimal =>
    show headWidth r.field r.kind = _
    rw [Editor.isTag_width h.lawful.isTag, h.field, h.kind]
    rfl

theorem Spelled.congr (h : Spelled standard zone r pos a) (hs : r'.shape = r.shape)
    (hz : zone <+: zone') : Spelled standard zone' r' pos a := by
  have hauth : r'.authoredZone = r.authoredZone := by
    have he := congrArg Row.authoredZone hs
    exact he
  refine ⟨?_, h.lawful, ?_⟩
  · rw [hs, hauth]
    exact h.shape
  · obtain ⟨rest, he⟩ := h.bytes
    obtain ⟨more, rfl⟩ := hz
    have hle : pos ≤ zone.length := by
      have := h.stop_le
      rw [h.stop] at this
      omega
    refine ⟨rest ++ more, ?_⟩
    rw [List.drop_append_of_le_length hle, he, List.append_assoc]

/-- The bytes of a spelled row, part by part. -/
theorem Spelled.slice_tag (h : Spelled standard zone r pos a) :
    slice zone pos (pos + a.tag.length) = a.tag := by
  obtain ⟨rest, he⟩ := h.bytes
  rw [slice_eq, Nat.add_sub_cancel_left, he, Record.bytes, List.append_assoc, List.take_left]

theorem Spelled.slice_all (h : Spelled standard zone r pos a) :
    slice zone pos r.stop = a.bytes := by
  obtain ⟨rest, he⟩ := h.bytes
  rw [slice_eq, h.stop, Nat.add_sub_cancel_left, he, List.take_left]

theorem Spelled.slice_word (h : Spelled standard zone r pos a) {word payload : List UInt8}
    (hp : a.payload = .len word payload) :
    slice zone (pos + a.tag.length) (pos + a.tag.length + word.length) = word := by
  obtain ⟨rest, he⟩ := h.bytes
  rw [Record.bytes, hp, Payload.bytes, List.append_assoc, List.append_assoc] at he
  rw [slice_eq, drop_of_drop_eq he, Nat.add_sub_cancel_left, List.take_left]

end Spelled

/-! ## The rows of some records -/

section Met

variable {standard : Standard} {authored : Bool} {zone : List UInt8}

/-- Every row of some records is spelled. -/
theorem metRows_spelled {pos : Nat} {records : List Record} {r r' : Row} {rest : List UInt8}
    (hlaw : ∀ a ∈ records, a.Lawful standard) (he : zone.drop pos = text records ++ rest)
    (hr : r ∈ metRows standard authored pos records) (hs : r'.shape = r) :
    r'.authoredZone = authored ∧ ∃ pos' a, Spelled standard zone r' pos' a := by
  induction records generalizing pos with
  | nil => cases hr
  | cons a records ih =>
    have he' : zone.drop pos = a.bytes ++ (text records ++ rest) := by
      rw [he, ← List.append_assoc]
      rfl
    rcases List.mem_cons.mp hr with rfl | hr
    · have hauth : r'.authoredZone = authored := by
        have h := congrArg Row.authoredZone hs
        exact h
      refine ⟨hauth, pos, a, ?_, hlaw a List.mem_cons_self, _, he'⟩
      rw [hs, hauth]
    · exact ih (fun b hb => hlaw b (List.mem_cons_of_mem _ hb)) (drop_of_drop_eq he') hr

/-- Neighbouring rows abut. -/
theorem metRows_abut {pos : Nat} {records : List Record} {front back : List Row} {r r' : Row}
    (h : metRows standard authored pos records = front ++ r :: r' :: back) :
    r'.start = some r.stop ∧ r'.authoredZone = r.authoredZone := by
  induction records generalizing pos front with
  | nil => cases front <;> cases h
  | cons a records ih =>
    cases front with
    | cons b front => exact ih (List.cons.inj h).2
    | nil =>
      obtain ⟨hfirst, hbehind⟩ := List.cons.inj h
      cases records with
      | nil => cases hbehind
      | cons b records =>
        rw [← hfirst, ← (List.cons.inj hbehind).1]
        exact ⟨rfl, rfl⟩

end Met

namespace Machine

variable {standard : Standard} {m m' : Machine standard} {t t' : Forest Unit} {id x : Nat}

/-! ## Payloads of spelled rows -/

/-- The geometry of a LEN names its payload. -/
theorem lenGeometry_spelled {r : Row} {pos : Nat} {a : Record} {word payload : List UInt8}
    (h : Spelled standard (m.backing r) r pos a) (hp : a.payload = .len word payload) :
    m.lenGeometry r pos = (pos + a.tag.length + word.length, payload.length) := by
  have hlen : a.bytes.length = a.tag.length + word.length + payload.length := by
    unfold Record.bytes
    rw [hp, Payload.bytes]
    simp only [List.length_append]
    omega
  have hend : r.stop - (pos + a.tag.length + word.length) = payload.length := by
    rw [h.stop, hlen]
    omega
  have htag := h.tagW
  cases standard with
  | tolerant =>
    have hwidth : r.delimWidth = some word.length := by
      have he := congrArg Row.delimWidth h.shape
      have he : r.delimWidth =
        (if a.payload.kind = .len then some a.payload.lenWidth else none) := he
      rw [he, hp]
      rfl
    show (pos + r.tagW .tolerant + r.delimWidth.getD 0, _) = _
    rw [htag, hwidth]
    exact congrArg (Prod.mk _) hend
  | canonicalMinimal =>
    have hkind : r.kind = .len := by rw [h.kind, hp]; rfl
    have hhead : headWidth r.field .len = a.tag.length := by rw [← htag, ← hkind]; rfl
    have hlaw := h.lawful.payload
    rw [hp] at hlaw
    obtain ⟨hadmits, hvalue⟩ := hlaw
    obtain ⟨rest, he⟩ := h.bytes
    rw [Record.bytes, hp, Payload.bytes, List.append_assoc, List.append_assoc] at he
    have hread : Slice.value64Unchecked (m.backing r) (pos + a.tag.length) =
        some payload.length := by
      rw [← hvalue]
      exact value64Unchecked_word Window.len_fits (by decide) (drop_of_drop_eq he)
        hadmits.isWord
    have hwidth : encodedLen64 payload.length = word.length := by
      rw [← hvalue]
      exact (Editor.len_width hadmits).symm
    have hat : pos + headWidth r.field .len + encodedLen64 ((Slice.value64Unchecked (m.backing r)
        (pos + headWidth r.field .len)).getD 0) = pos + a.tag.length + word.length := by
      rw [hhead, hread, Option.getD_some, hwidth]
    unfold lenGeometry
    dsimp only
    rw [hat, hend]

/-! ## Tiled layers -/

def scanned (m : Machine standard) (x : Nat) : Bool := (m.row x).body.isScanned

/-- The scanned rows among some are the records of a payload, in their order. -/
structure Tiles (m : Machine standard) (l : List Nat) (w : Interior) (records : List Record) :
    Prop where
  lawful : ∀ a ∈ records, a.Lawful standard
  inside : w.start + w.len ≤ (m.zoneOf w).length
  read : slice (m.zoneOf w) w.start (w.start + w.len) = Revise.text records
  rows : (l.filter m.scanned).map (fun x => (m.row x).body.shape) =
    metRows standard w.authored w.start records
  whole : w.authored = true → ∀ x ∈ l, m.scanned x = true

/-- What speaks in a layer: the document, or what its opened container was parsed from. -/
def held (m : Machine standard) : Option Nat → Option Interior
  | none => some ⟨false, false, 0, m.source.length⟩
  | some x => (m.interior (m.row x).body).toOption

/-- Every layer there is is tiled. -/
def Tiled (m : Machine standard) (t : Forest Unit) : Prop :=
  ∀ o, (∀ x, o = some x → x ∈ t.ids ∧ (m.row x).body.isOpened = true) →
    ∃ w records, m.held o = some w ∧ m.Tiles (t.layer o) w records

section Tiles

variable {l l' : List Nat} {w : Interior} {records : List Record}

theorem Tiles.text (h : m.Tiles l w records) :
    ∃ rest, (m.zoneOf w).drop w.start = Revise.text records ++ rest := by
  have hread := h.read
  rw [slice_eq] at hread
  rw [← hread]
  exact ⟨_, (List.take_append_drop _ _).symm⟩

/-- A scanned row of a tiled layer is spelled. -/
theorem Tiles.spelled (h : m.Tiles l w records) (hx : x ∈ l) (hs : m.scanned x = true) :
    (m.row x).body.authoredZone = w.authored ∧
      ∃ pos a, Spelled standard (m.backing (m.row x).body) (m.row x).body pos a := by
  have hmem : (m.row x).body.shape ∈ metRows standard w.authored w.start records := by
    rw [← h.rows]
    exact List.mem_map.mpr ⟨x, List.mem_filter.mpr ⟨hx, hs⟩, rfl⟩
  obtain ⟨rest, he⟩ := h.text
  obtain ⟨hauth, pos, a, hspelled⟩ := metRows_spelled h.lawful he hmem rfl
  have hzone : m.backing (m.row x).body = m.zoneOf w := by
    unfold backing zoneOf
    rw [hauth]
  exact ⟨hauth, pos, a, hzone ▸ hspelled⟩

/-- Neighbouring scanned rows of a tiled layer abut. -/
theorem Tiles.abut (h : m.Tiles l w records) {front back : List Nat} {y : Nat}
    (hl : l = front ++ x :: y :: back) (hx : m.scanned x = true) (hy : m.scanned y = true) :
    (m.row y).body.start = some (m.row x).body.stop ∧
      m.backing (m.row y).body = m.backing (m.row x).body := by
  have hrows := h.rows
  rw [hl, List.filter_append, List.filter_cons_of_pos hx, List.filter_cons_of_pos hy,
    List.map_append, List.map_cons, List.map_cons] at hrows
  obtain ⟨hstart, hauth⟩ := metRows_abut hrows.symm
  refine ⟨hstart, ?_⟩
  unfold backing
  have hauth : (m.row y).body.authoredZone = (m.row x).body.authoredZone := hauth
  rw [hauth]

theorem backing_grows (hs : m'.source = m.source) (hg : m.store.Grows m'.store) {r r' : Row}
    (h : r'.authoredZone = r.authoredZone) : m.backing r <+: m'.backing r' := by
  unfold backing
  rw [h, hs]
  split
  · exact hg.bytes
  · exact List.prefix_rfl

theorem zoneOf_grows (hs : m'.source = m.source) (hg : m.store.Grows m'.store) (w : Interior) :
    m.zoneOf w <+: m'.zoneOf w := by
  unfold zoneOf
  rw [hs]
  split
  · exact hg.bytes
  · exact List.prefix_rfl

theorem slice_grows {zone zone' : List UInt8} {pos stop : Nat} (h : zone <+: zone')
    (hle : stop ≤ zone.length) : slice zone' pos stop = slice zone pos stop := by
  obtain ⟨more, rfl⟩ := h
  unfold Editor.Machine.slice
  rw [List.take_append_of_le_length hle]

theorem scanned_shape (h : (m'.row x).body.shape = (m.row x).body.shape) :
    m'.scanned x = m.scanned x := by
  unfold scanned Row.isScanned
  rw [Row.shape_start h]

/-- A layer in which the scanned rows stay. -/
theorem Tiles.frame (h : m.Tiles l w records) (hs : m'.source = m.source)
    (hg : m.store.Grows m'.store)
    (hshape : ∀ x ∈ l, (m'.row x).body.shape = (m.row x).body.shape)
    (hl : l'.filter m'.scanned = l.filter m'.scanned)
    (hwhole : w.authored = true → ∀ x ∈ l', x ∈ l) : m'.Tiles l' w records := by
  have hzone := zoneOf_grows hs hg w
  have hscanned : ∀ x ∈ l, m'.scanned x = m.scanned x := fun x hx => scanned_shape (hshape x hx)
  refine ⟨h.lawful, Nat.le_trans h.inside hzone.length_le, ?_, ?_, fun ha x hx => ?_⟩
  · rw [slice_grows hzone h.inside]
    exact h.read
  · rw [hl, List.filter_congr hscanned, ← h.rows]
    exact List.map_congr_left fun x hx => hshape x (List.mem_filter.mp hx).1
  · have hin := hwhole ha x hx
    rw [hscanned x hin]
    exact h.whole ha x hin

end Tiles

/-! ## What speaks in a layer -/

/-- What speaks for a plain row. -/
theorem interior_plain {r : Row} (h : r.edit.isPlain = true) :
    m.interior r = match r.edit.speaker with
      | .store v => .ok ⟨true, false, (m.store.span v).1, (m.store.span v).2⟩
      | _ => (scannedAt r).map fun start =>
        ⟨r.authoredZone, false, (m.lenGeometry r start).1, (m.lenGeometry r start).2⟩ := by
  unfold Machine.interior
  cases he : r.edit with
  | deleted value => cases value <;> rfl
  | intact | replaced _ | inserted _ | insertedDeleted _ => rfl
  | _ =>
    rw [he] at h
    cases h

/-- The geometry of a spelled LEN stays. -/
theorem lenGeometry_congr {r r' : Row} {pos : Nat} {a : Record}
    (h : Spelled standard (m.backing r) r pos a) (hk : r.kind = .len) (hshape : r'.shape = r.shape)
    (hz : m.backing r <+: m'.backing r') : m'.lenGeometry r' pos = m.lenGeometry r pos := by
  obtain ⟨word, payload, hp⟩ := h.len hk
  rw [lenGeometry_spelled h hp, lenGeometry_spelled (h.congr hshape hz) hp]

/-! ## Tidy machines -/

/-- A plain machine whose lattices are exact and whose layers are tiled. -/
structure Tidy (m : Machine standard) (t : Forest Unit) : Prop where
  sound : m.Sound t
  plain : m.Plain
  sorted : m.Sorted
  tiled : m.Tiled t
  lens : ∀ x ∈ t.ids, (m.row x).body.isOpened = true → (m.row x).body.kind = .len

section Tidy

theorem Tidy.rooted (h : m.Tidy t) : m.Rooted t := h.sound.exact.rooted

theorem Tidy.row (h : m.Tidy t) (hx : x ∈ t.ids) :
    (m.row x).body.isAlias = false ∧ Says m.store (m.row x).body.kind (m.row x).body.edit ∧
      ((m.row x).body.authoredZone = true → (m.row x).body.edit = .intact ∧ ¬ Named m.log x) :=
  h.plain.cell (h.rooted.cell hx).1

theorem Tidy.fits (h : m.Tidy t) (x : Nat) :
    (m.row x).body.start = none ↔ (m.row x).body.edit.isBorn = true := (h.sorted.at x).family

theorem isOpened_of {r : Row} {layer : Layer} (h : r.slot = .opened layer) :
    r.isOpened = true := by
  unfold Row.isOpened
  rw [h]

theorem isOpened_bare (h : m'.bare.rows = m.bare.rows) (x : Nat) :
    (m'.row x).body.isOpened = (m.row x).body.isOpened := by
  have hrow : m'.bare.row x = m.bare.row x := by
    unfold Machine.row
    rw [h]
  rw [bare_row, bare_row] at hrow
  have hslot : (m'.row x).body.slot.bare = (m.row x).body.slot.bare :=
    congrArg (fun c : Cell Row => c.body.slot) hrow
  have hbare : ∀ r : Row, r.isOpened = true ↔ ∃ layer, r.slot.bare = .opened layer := fun r => by
    unfold Row.isOpened
    cases r.slot with
    | opened layer => exact ⟨fun _ => ⟨_, rfl⟩, fun _ => rfl⟩
    | _ =>
      refine ⟨fun h => (by cases h), fun h => ?_⟩
      obtain ⟨layer, h⟩ := h
      cases h
  rw [Bool.eq_iff_iff, hbare, hbare, hslot]

/-- A scanned row stands where it was scanned. -/
theorem Tidy.spelled (h : m.Tidy t) (hx : x ∈ t.ids) (hs : m.scanned x = true) :
    ∃ pos a, Spelled standard (m.backing (m.row x).body) (m.row x).body pos a := by
  have hlayer : x ∈ t.layer (m.row x).parent := h.rooted.mem_layer.mpr ⟨hx, rfl⟩
  obtain ⟨w, records, -, htiles⟩ := h.tiled (m.row x).parent fun p hp => by
    rw [hp] at hlayer
    obtain ⟨hpt, layer, hslot⟩ := h.rooted.opened hlayer
    exact ⟨hpt, isOpened_of hslot⟩
  exact (htiles.spelled hlayer hs).2

/-- What speaks for a row is as it was, while its state speaks alike. -/
theorem Tidy.interior_congr (h : m.Tidy t) (hx : x ∈ t.ids) (hk : (m.row x).body.kind = .len)
    (hs : m'.source = m.source) (hg : m.store.Grows m'.store)
    (hshape : (m'.row x).body.shape = (m.row x).body.shape)
    (hspeak : (m'.row x).body.edit.speaker = (m.row x).body.edit.speaker)
    (hp : (m'.row x).body.edit.isPlain = true) :
    m'.interior (m'.row x).body = m.interior (m.row x).body := by
  obtain ⟨-, hspoken, -⟩ := h.row hx
  have hauth : (m'.row x).body.authoredZone = (m.row x).body.authoredZone := by
    have he := congrArg Row.authoredZone hshape
    exact he
  have hscan : (scannedAt (m'.row x).body).map (fun start => (⟨(m'.row x).body.authoredZone, false,
        (m'.lenGeometry (m'.row x).body start).1, (m'.lenGeometry (m'.row x).body start).2⟩ :
          Interior)) =
      (scannedAt (m.row x).body).map fun start => ⟨(m.row x).body.authoredZone, false,
        (m.lenGeometry (m.row x).body start).1, (m.lenGeometry (m.row x).body start).2⟩ := by
    unfold scannedAt
    rw [Row.shape_start hshape, hauth]
    cases hstart : (m.row x).body.start with
    | none => rfl
    | some start =>
      obtain ⟨pos, a, hspelled⟩ := h.spelled hx (by
        unfold scanned Row.isScanned
        rw [hstart]
        rfl)
      obtain rfl : start = pos := Option.some.inj (hstart.symm.trans hspelled.start)
      have hgeo := lenGeometry_congr hspelled hk hshape (backing_grows hs hg hauth)
      show Except.ok _ = Except.ok _
      dsimp only
      rw [hgeo]
  rw [interior_plain hp, interior_plain hspoken.plain, hspeak]
  cases hsp : (m.row x).body.edit.speaker with
  | store v =>
    dsimp only
    have hv := hspoken.stored v hsp
    rw [hk] at hv
    rw [hg.span hv]
  | scanned => exact hscan
  | sourceRow row => exact hscan

/-- A machine behind a step: the rows keep their shapes, and a layer that stays opened keeps what
speaks in it and its scanned rows. -/
theorem Tidy.frame (h : m.Tidy t) (hsound : m'.Sound t') (hplain : m'.Plain) (hsorted : m'.Sorted)
    (hs : m'.source = m.source) (hg : m.store.Grows m'.store)
    (hshape : ∀ x ∈ t.ids, (m'.row x).body.shape = (m.row x).body.shape)
    (hopened : ∀ x ∈ t'.ids, (m'.row x).body.isOpened = true →
      (x ∈ t.ids ∧ (m.row x).body.isOpened = true ∧
        (m'.row x).body.edit.speaker = (m.row x).body.edit.speaker) ∨
      (m'.row x).body.kind = .len ∧
        ∃ w records, m'.held (some x) = some w ∧ m'.Tiles (t'.layer (some x)) w records)
    (hlayer : ∀ o, (∀ x, o = some x → x ∈ t.ids ∧ x ∈ t'.ids ∧ (m.row x).body.isOpened = true ∧
        (m'.row x).body.isOpened = true) →
      (t'.layer o).filter m'.scanned = (t.layer o).filter m'.scanned ∧
      ∀ w, m.held o = some w → w.authored = true → ∀ x ∈ t'.layer o, x ∈ t.layer o) :
    m'.Tidy t' := by
  have hkind : ∀ x ∈ t.ids, (m'.row x).body.kind = (m.row x).body.kind := fun x hx => by
    have he := congrArg Row.kind (hshape x hx)
    exact he
  have hkept : ∀ o, (∀ x, o = some x → x ∈ t.ids ∧ x ∈ t'.ids ∧ (m.row x).body.isOpened = true ∧
      (m'.row x).body.isOpened = true) → m'.held o = m.held o →
      ∃ w records, m'.held o = some w ∧ m'.Tiles (t'.layer o) w records := by
    intro o ho hheld
    obtain ⟨w, records, hw, htiles⟩ := h.tiled o fun x hx => ⟨(ho x hx).1, (ho x hx).2.2.1⟩
    obtain ⟨hfilter, hwhole⟩ := hlayer o ho
    refine ⟨w, records, hheld.trans hw, htiles.frame hs hg (fun x hx => ?_) hfilter fun ha =>
      hwhole w hw ha⟩
    exact hshape x ((Forest.layer_sublist _).subset hx)
  refine ⟨hsound, hplain, hsorted, fun o ho => ?_, fun x hx hop => ?_⟩
  · cases o with
    | none =>
      refine hkept none nofun ?_
      show some _ = some _
      rw [hs]
    | some x =>
      obtain ⟨hx', hop'⟩ := ho x rfl
      rcases hopened x hx' hop' with ⟨hx, hop, hspeak⟩ | ⟨-, htiles⟩
      · refine hkept (some x) (by rintro _ ⟨⟩; exact ⟨hx, hx', hop, hop'⟩) ?_
        have hcell := (hsound.exact.rooted.cell hx').1
        exact congrArg Except.toOption (h.interior_congr hx (h.lens x hx hop) hs hg (hshape x hx)
          hspeak (hplain.cell hcell).2.1.plain)
      · exact htiles
  · rcases hopened x hx hop with ⟨hxt, hopt, -⟩ | ⟨hk, -⟩
    · rw [hkind x hxt]
      exact h.lens x hxt hopt
    · exact hk

end Tidy

end Machine

end ProtobufEdit.Revise
