import ProtobufEdit.Revise.Tidy
import ProtobufEdit.Revise.Walk

/-!
# What a plain machine saves

In a tidy machine every row the walks reach has an arm inside its zone, and neighbours that are
copied as they stand abut. So every face of a save comes to the recursive emission of the rows.
-/

namespace ProtobufEdit.Revise

open Wire Wire.Groupless Varint Base128 Arena Cursor
open Editor (Shape slice_eq)
open Editor.Machine (slice)

/-! ## Spelled rows in their zones -/

section Spelled

variable {standard : Standard} {r : Row} {zone : List UInt8} {pos : Nat} {a : Record}

/-- A spelled row stands in its zone. -/
theorem Spelled.start_le (h : Spelled standard zone r pos a) : pos ≤ r.stop := by
  rw [h.stop]
  exact Nat.le_add_right _ _

/-- The source tag's end, and a LEN's prefix and length, as a tolerant row keeps them. -/
theorem Spelled.tagEnd (h : Spelled .tolerant zone r pos a) :
    r.tagEnd pos = pos + a.tag.length := congrArg (pos + ·) h.tagW

theorem Spelled.prefixEnd (h : Spelled .tolerant zone r pos a) {word payload : List UInt8}
    (hp : a.payload = .len word payload) :
    r.prefixEnd pos = pos + a.tag.length + word.length := by
  have hwidth : r.delimWidth = some word.length := by
    have he := congrArg Row.delimWidth h.shape
    have he : r.delimWidth =
      (if a.payload.kind = .len then some a.payload.lenWidth else none) := he
    rw [he, hp]
    rfl
  unfold Row.prefixEnd
  rw [h.tagEnd, hwidth]
  rfl

theorem Spelled.srcLen (h : Spelled .tolerant zone r pos a) {word payload : List UInt8}
    (hp : a.payload = .len word payload) : r.srcLen pos = payload.length := by
  unfold Row.srcLen
  rw [h.prefixEnd hp, h.stop, Record.bytes, hp, Payload.bytes]
  simp only [List.length_append]
  omega

/-- The parts of a LEN stand in its zone. -/
theorem Spelled.parts_le (h : Spelled standard zone r pos a) {word payload : List UInt8}
    (hp : a.payload = .len word payload) :
    pos + a.tag.length + word.length ≤ zone.length := by
  have hle := h.stop_le
  rw [h.stop, Record.bytes, hp, Payload.bytes] at hle
  simp only [List.length_append] at hle
  omega

theorem Spelled.tag_le (h : Spelled standard zone r pos a) :
    pos + a.tag.length ≤ zone.length := by
  have hle := h.stop_le
  rw [h.stop, Record.bytes, List.length_append] at hle
  omega

end Spelled

namespace Machine

variable {standard : Standard} {m m' : Machine standard} {t t' u : Forest Unit} {x y : Nat}

/-! ## Arms -/

/-- The rows of a forest all have arms where each has one. -/
theorem armed_of (h : ∀ x ∈ u.ids, (m.settle (m.row x).body).isSome ∧
    m.Inside (m.backing (m.row x).body) (m.armOf x)) : m.Armed u := by
  induction u with
  | nil => exact trivial
  | node x _ kids rest ihk ihr =>
    refine ⟨h x List.mem_cons_self, fun _ => ihk fun y hy => h y ?_, ihr fun y hy => h y ?_⟩
    · exact List.mem_cons_of_mem _ (List.mem_append_left _ hy)
    · exact List.mem_cons_of_mem _ (List.mem_append_right _ hy)

section Tidy

/-- A row that has an offset is spelled where it has it. -/
theorem Tidy.spelled_at (h : m.Tidy t) (hx : x ∈ t.ids) {start : Nat}
    (hs : (m.row x).body.start = some start) :
    ∃ a, Spelled standard (m.backing (m.row x).body) (m.row x).body start a := by
  obtain ⟨pos, a, hspelled⟩ := h.spelled hx (by
    unfold scanned Row.isScanned
    rw [hs]
    rfl)
  obtain rfl := Option.some.inj (hs.symm.trans hspelled.start)
  exact ⟨a, hspelled⟩

/-- A payload of the store is as long as its span says. -/
theorem Tidy.spanLen (h : m.Tidy t) (value : Nat) :
    m.spanLen value = (m.store.spanBytes value).length :=
  (h.plain.store.spanBytes_length value).symm

/-- A dirty row that is intact was opened. -/
theorem Tidy.dirty_opened (h : m.Tidy t) (hx : x ∈ t.ids) (he : (m.row x).body.edit = .intact)
    (hd : (m.row x).body.dirty = true) :
    (m.row x).body.kind = .len ∧ (m.row x).body.isOpened = true := by
  have hkids : 0 < (m.row x).body.kids .dirt := by
    refine (((h.sound.exact.tallied .dirt).flags x hx nofun).mp hd).resolve_left fun hown => ?_
    have hown : (m.row x).body.edit.ownDirty = true := hown
    rw [he] at hown
    cases hown
  have hopened : (m.row x).body.isOpened = true := by
    by_contra hn
    have hclean := clean_unopened (Bool.eq_false_iff.mpr hn) .dirt
    omega
  exact ⟨h.lens x hx hopened, hopened⟩

/-- What a live row of a tidy machine settles to. -/
inductive Settles (m : Machine standard) (x : Nat) : Arm → Prop where
  | skip : Settles m x .skip
  | clean {start : Nat} {a : Record} :
      Spelled standard (m.backing (m.row x).body) (m.row x).body start a →
      Settles m x (.clean start (m.row x).body.stop)
  | spine {start : Nat} {a : Record} {word payload : List UInt8} :
      Spelled standard (m.backing (m.row x).body) (m.row x).body start a →
      a.payload = .len word payload →
      Settles m x (.spine start (start + a.tag.length) (start + a.tag.length + word.length)
        payload.length)
  | reBody {start value : Nat} {a : Record} {word payload : List UInt8} :
      Spelled standard (m.backing (m.row x).body) (m.row x).body start a →
      a.payload = .len word payload →
      Settles m x (.reBody start (start + a.tag.length) (start + a.tag.length + word.length)
        payload.length value)
  | reValue {start value : Nat} {a : Record} :
      Spelled standard (m.backing (m.row x).body) (m.row x).body start a →
      a.payload.kind ≠ .len →
      Settles m x (.reValue start (start + a.tag.length) (m.store.word a.payload.kind value))
  | newSpine {field : FieldNumber} {pos : Nat} :
      Settles m x (.newSpine (headWord field .len) pos)
  | newBody {field : FieldNumber} {value : Nat} :
      Settles m x (.newBody (headWord field .len) value)
  | newValue {field : FieldNumber} {kind : RecordKind} {value : Nat} : kind ≠ .len →
      Settles m x (.newValue (headWord field kind) (m.store.word kind value))

theorem Tidy.settles_tolerant {m : Machine .tolerant} (h : m.Tidy t) (hx : x ∈ t.ids)
    {arm : Arm} (harm : m.settleTolerant (m.row x).body = some arm) : m.Settles x arm := by
  obtain ⟨-, hspoken, -⟩ := h.row hx
  unfold settleTolerant at harm
  cases he : (m.row x).body.edit with
  | intact =>
    rw [he] at harm
    obtain ⟨start, hs, rfl⟩ := Option.map_eq_some_iff.mp harm
    obtain ⟨a, hspelled⟩ := h.spelled_at hx hs
    split
    · next hc =>
      obtain ⟨word, payload, hp⟩ := hspelled.len hc.2.1
      unfold Row.spine
      rw [hspelled.srcLen hp, hspelled.prefixEnd hp, hspelled.tagEnd]
      exact .spine hspelled hp
    · exact .clean hspelled
  | replaced value =>
    rw [he] at harm
    obtain ⟨start, hs, rfl⟩ := Option.map_eq_some_iff.mp harm
    obtain ⟨a, hspelled⟩ := h.spelled_at hx hs
    cases hk : (m.row x).body.kind with
    | len =>
      obtain ⟨word, payload, hp⟩ := hspelled.len hk
      dsimp only
      rw [hspelled.srcLen hp, hspelled.prefixEnd hp, hspelled.tagEnd]
      exact .reBody hspelled hp
    | _ =>
      have hkind := hspelled.kind.symm.trans hk
      dsimp only
      rw [hspelled.tagEnd, ← hkind]
      exact .reValue hspelled (by rw [hkind]; nofun)
  | inserted value =>
    rw [he] at harm
    dsimp only at harm
    cases hk : (m.row x).body.kind with
    | len =>
      rw [hk] at harm
      cases harm
      exact .newBody
    | _ =>
      rw [hk] at harm
      cases harm
      exact .newValue (by nofun)
  | deleted value =>
    rw [he] at harm
    cases harm
    exact .skip
  | insertedDeleted value =>
    rw [he] at harm
    cases harm
    exact .skip
  | _ =>
    have hplain := hspoken.plain
    rw [he] at hplain
    cases hplain

theorem Tidy.settles_canonical {m : Machine .canonicalMinimal} (h : m.Tidy t) (hx : x ∈ t.ids)
    {arm : Arm} (harm : m.settleCanonical (m.row x).body = some arm) : m.Settles x arm := by
  obtain ⟨-, hspoken, -⟩ := h.row hx
  unfold settleCanonical at harm
  cases he : (m.row x).body.edit with
  | intact =>
    rw [he] at harm
    obtain ⟨start, hs, rfl⟩ := Option.map_eq_some_iff.mp harm
    obtain ⟨a, hspelled⟩ := h.spelled_at hx hs
    split
    · next hd =>
      rw [(h.dirty_opened hx he hd).1]
      exact .newSpine
    · exact .clean hspelled
  | replaced value | inserted value =>
    rw [he] at harm
    dsimp only at harm
    cases hk : (m.row x).body.kind with
    | len =>
      rw [hk] at harm
      cases harm
      exact .newBody
    | _ =>
      rw [hk] at harm
      cases harm
      exact .newValue (by nofun)
  | deleted value =>
    rw [he] at harm
    cases harm
    exact .skip
  | insertedDeleted value =>
    rw [he] at harm
    cases harm
    exact .skip
  | _ =>
    have hplain := hspoken.plain
    rw [he] at hplain
    cases hplain

theorem Tidy.settles (h : m.Tidy t) (hx : x ∈ t.ids) :
    (m.settle (m.row x).body).isSome ∧ m.Settles x (m.armOf x) := by
  obtain ⟨arm, harm⟩ := Option.ne_none_iff_exists'.mp (h.sorted.settles x)
  unfold armOf
  rw [harm]
  refine ⟨rfl, ?_⟩
  cases standard with
  | tolerant => exact h.settles_tolerant hx harm
  | canonicalMinimal => exact h.settles_canonical hx harm

/-- The arm of a live row indexes its zone. -/
theorem Tidy.inside (h : m.Tidy t) {arm : Arm} (hs : m.Settles x arm) :
    m.Inside (m.backing (m.row x).body) arm := by
  cases hs with
  | skip | newSpine | newValue => trivial
  | clean hspelled => exact ⟨hspelled.start_le, hspelled.stop_le⟩
  | spine hspelled hp =>
    exact ⟨Nat.le_add_right _ _, Nat.le_add_right _ _, hspelled.parts_le hp⟩
  | reBody hspelled hp =>
    exact ⟨Nat.le_add_right _ _, Nat.le_add_right _ _, hspelled.parts_le hp, h.spanLen _⟩
  | reValue hspelled => exact ⟨Nat.le_add_right _ _, hspelled.tag_le⟩
  | newBody => exact h.spanLen _

theorem Tidy.armed (h : m.Tidy t) : m.Armed t :=
  armed_of fun _ hx => ⟨(h.settles hx).1, h.inside (h.settles hx).2⟩

end Tidy

/-! ## Neighbours -/

/-- Riding neighbours abut. -/
def Joins (m : Machine standard) (x y : Nat) : Prop :=
  (m.row x).body.rides = true → (m.row y).body.rides = true →
    (m.row y).body.start = some (m.row x).body.stop ∧
      m.backing (m.row y).body = m.backing (m.row x).body

theorem abut_of (hnodup : u.ids.Nodup)
    (h : ∀ o x y front back, u.layer o = front ++ x :: y :: back → m.Joins x y)
    {last : Option Nat}
    (hlast : ∀ prev y back, last = some prev → u.tops = y :: back → m.Joins prev y) :
    m.Abut last u := by
  induction u generalizing last with
  | nil => exact trivial
  | node x a kids rest ihk ihr =>
    obtain ⟨-, -, hkids, hrest, -⟩ := Forest.nodup_node.mp hnodup
    have hself : (Forest.node x a kids rest).layer (some x) = kids.tops := by
      rw [Forest.layer_some, Forest.kidsOf, if_pos rfl]
      rfl
    refine ⟨fun prev hp => hlast prev x rest.tops hp rfl, fun _ => ?_, ?_⟩
    · refine ihk hkids (fun o y z front back hl => ?_) fun prev y back hp => by cases hp
      cases o with
      | none => exact h (some x) y z front back (hself.trans hl)
      | some p =>
        have hp : p ∈ kids.ids :=
          Forest.mem_of_layer (hl ▸ List.mem_append_right front List.mem_cons_self)
        exact h (some p) y z front back ((Forest.layer_kids hnodup hp).trans hl)
    · refine ihr hrest (fun o y z front back hl => ?_) fun prev y back hp hl => ?_
      · cases o with
        | none => exact h none y z (x :: front) back (congrArg (x :: ·) hl)
        | some p =>
          have hp : p ∈ rest.ids :=
            Forest.mem_of_layer (hl ▸ List.mem_append_right front List.mem_cons_self)
          exact h (some p) y z front back ((Forest.layer_rest hnodup hp).trans hl)
      · cases hp
        exact h none x y [] back (congrArg (x :: ·) hl)

section Tidy

theorem Tidy.scanned_rides (h : m.Tidy t) (hr : (m.row x).body.rides = true) :
    m.scanned x = true := by
  have hstart := h.sorted.rides hr
  unfold scanned Row.isScanned
  cases hs : (m.row x).body.start with
  | none => exact absurd hs hstart
  | some start => rfl

theorem Tidy.joins (h : m.Tidy t) {o : Option Nat} {front back : List Nat}
    (hl : t.layer o = front ++ x :: y :: back) : m.Joins x y := fun hx hy => by
  have hin : x ∈ t.layer o := by
    rw [hl]
    exact List.mem_append_right _ List.mem_cons_self
  obtain ⟨w, records, -, htiles⟩ := h.tiled o fun p hp => by
    rw [hp] at hin
    obtain ⟨hpt, layer, hslot⟩ := h.rooted.opened hin
    exact ⟨hpt, isOpened_of hslot⟩
  exact htiles.abut hl (h.scanned_rides hx) (h.scanned_rides hy)

theorem Tidy.abut (h : m.Tidy t) : m.Abut none t :=
  abut_of h.rooted.nodup (fun _ _ _ _ _ hl => h.joins hl) fun _ _ _ hp => by cases hp

end Tidy

/-! ## A clean machine -/

/-- Rows that the walks do not go into, one behind the other. -/
theorem text_leaves {p : Nat → List UInt8} (h : ∀ x ∈ u.tops, m.shapeOf x = .leaf (p x)) :
    m.text u = (u.tops.map p).flatten := by
  induction u with
  | nil => rfl
  | node x _ kids rest _ ihr =>
    rw [text, h x List.mem_cons_self, ihr fun y hy => h y (List.mem_cons_of_mem _ hy)]
    rfl

/-- Rows that write nothing, left out. -/
theorem flatten_filter {p : Nat → List UInt8} {q : Nat → Bool} {l : List Nat}
    (h : ∀ x ∈ l, q x = false → p x = []) :
    (l.map p).flatten = ((l.filter q).map p).flatten := by
  induction l with
  | nil => rfl
  | cons x l ih =>
    have hrest := ih fun y hy => h y (List.mem_cons_of_mem _ hy)
    rw [List.map_cons, List.flatten_cons, hrest]
    cases hq : q x with
    | true => rw [List.filter_cons_of_pos hq, List.map_cons, List.flatten_cons]
    | false =>
      rw [List.filter_cons_of_neg (by rw [hq]; nofun), h x List.mem_cons_self hq]
      rfl

/-- The spans of the rows of some records are the records. -/
theorem metRows_text {authored : Bool} {zone : List UInt8} {pos : Nat} {records : List Record}
    {l : List Nat} {p : Nat → List UInt8} {rest : List UInt8}
    (he : zone.drop pos = Revise.text records ++ rest)
    (hl : l.map (fun x => (m.row x).body.shape) = metRows standard authored pos records)
    (hp : ∀ x ∈ l, ∀ start, (m.row x).body.start = some start →
      p x = slice zone start (m.row x).body.stop) :
    (l.map p).flatten = Revise.text records := by
  induction records generalizing l pos with
  | nil =>
    rw [List.map_eq_nil_iff.mp hl]
    rfl
  | cons a records ih =>
    cases l with
    | nil => cases hl
    | cons x l =>
      obtain ⟨hx, hrest⟩ := List.cons.inj hl
      have he' : zone.drop pos = a.bytes ++ (Revise.text records ++ rest) := by
        rw [he, ← List.append_assoc]
        rfl
      have hstart : (m.row x).body.start = some pos := by
        have hs := congrArg Row.start hx
        exact hs
      have hstop : (m.row x).body.stop = pos + a.bytes.length := by
        have hs := congrArg Row.stop hx
        exact hs
      rw [List.map_cons, List.flatten_cons,
        ih (drop_of_drop_eq he') hrest fun y hy => hp y (List.mem_cons_of_mem _ hy),
        hp x List.mem_cons_self pos hstart, hstop, slice_eq, Nat.add_sub_cancel_left, he',
        List.take_left]
      rfl

section Tidy

/-- No row of the document's layer is dirty in a clean machine. -/
theorem Tidy.unflagged (h : m.Tidy t) (hc : m.clean = true) (hx : x ∈ t.tops) :
    (m.row x).body.dirty = false := by
  have hcount := (h.sound.exact.tallied .dirt).counted none (by intro _ e; cases e)
  have hzero : m.root.dirtyKids = 0 := of_decide_eq_true hc
  have hnone : (t.layer none).countP (m.flagged .dirt) = 0 := hcount.symm.trans hzero
  exact Bool.eq_false_iff.mpr fun hd => List.countP_eq_zero.mp hnone x hx hd

/-- What a clean machine's row writes: its span, or nothing. -/
theorem Tidy.clean_shape (h : m.Tidy t) (hc : m.clean = true) (hx : x ∈ t.tops) :
    m.shapeOf x = .leaf (((m.row x).body.start.map fun start =>
      slice m.source start (m.row x).body.stop).getD []) := by
  have hxt := Forest.tops_sublist.subset hx
  have hdirty := h.unflagged hc hx
  have hown : (m.row x).body.edit.ownDirty = false := by
    refine Bool.eq_false_iff.mpr fun hd => ?_
    have hflag := ((h.sound.exact.tallied .dirt).flags x hxt nofun).mpr (.inl hd)
    exact absurd (hflag.symm.trans hdirty) nofun
  obtain ⟨-, hspoken, -⟩ := h.row hxt
  have hfamily := h.fits x
  have hsettled := Option.isSome_iff_ne_none.mpr (h.sorted.settles x)
  cases he : (m.row x).body.edit with
  | intact =>
    have hrides : (m.row x).body.rides = true := by
      unfold Row.rides
      rw [he, hdirty]
      rfl
    obtain ⟨start, hstart, hsettle⟩ := rides_settle hrides hsettled
    obtain ⟨w, records, hw, htiles⟩ := h.tiled none (by intro _ e; cases e)
    have hauth := (htiles.spelled hx (h.scanned_rides hrides)).1
    cases hw
    have hzone : m.backing (m.row x).body = m.source := by
      unfold backing
      rw [hauth]
      rfl
    unfold shapeOf armOf
    rw [hsettle, hzone, hstart]
    rfl
  | insertedDeleted value =>
    have hstart : (m.row x).body.start = none := hfamily.mpr (by rw [he]; rfl)
    have hsettle : m.settle (m.row x).body = some .skip := by
      cases standard with
      | tolerant =>
        unfold settle settleTolerant
        rw [he]
      | canonicalMinimal =>
        unfold settle settleCanonical
        rw [he]
    unfold shapeOf armOf
    rw [hsettle, hstart]
    rfl
  | replaced _ | deleted _ | inserted _ =>
    rw [he] at hown
    cases hown
  | _ =>
    have hplain := hspoken.plain
    rw [he] at hplain
    cases hplain

/-- The rows of a clean machine write the document. -/
theorem Tidy.clean_text (h : m.Tidy t) (hc : m.clean = true) : m.text t = m.source := by
  obtain ⟨w, records, hw, htiles⟩ := h.tiled none (by intro _ e; cases e)
  cases hw
  have hread : m.source = Revise.text records := by
    have hread := htiles.read
    rw [slice_eq] at hread
    have hread : (m.source.drop 0).take (0 + m.source.length - 0) = _ := hread
    rw [List.drop_zero, Nat.zero_add, Nat.sub_zero, List.take_length] at hread
    exact hread
  obtain ⟨rest, hrest⟩ := htiles.text
  have hrows := htiles.rows
  rw [text_leaves fun x hx => h.clean_shape hc hx, flatten_filter fun x hx hq => ?_]
  · refine (metRows_text hrest hrows fun x hx start hs => ?_).trans hread.symm
    rw [hs]
    rfl
  · unfold scanned Row.isScanned at hq
    cases hs : (m.row x).body.start with
    | none => rfl
    | some start =>
      rw [hs] at hq
      cases hq

/-- Every face of a save comes to what the rows write. -/
theorem Tidy.faces (h : m.Tidy t) :
    m.Faces (if m.clean then .saved (m.text t) else m.publishes t) := by
  cases hc : m.clean with
  | true =>
    rw [if_pos rfl, h.clean_text hc]
    exact faces_clean hc
  | false =>
    rw [if_neg nofun]
    exact faces_walks hc h.rooted.laid h.rooted.nodup h.armed h.abut

end Tidy

end Machine

end ProtobufEdit.Revise
