import ProtobufEdit.Revise.Family
import ProtobufEdit.Revise.Lattice

/-!
# Source runs

A layer scanned from the document keeps the run of rows its scan minted. The rows of a run stand
in the arena one behind the other as their records do in the container's payload, whatever is
spliced between them and whatever their edits are; and every live row of the document stands in
its layer's run.
-/

namespace ProtobufEdit.Revise

open Wire Wire.Groupless Varint Arena
open Editor (InsertAt)

namespace Row

/-- What a row was scanned or born as. -/
def shape (r : Row) : Row := { r.core with edit := .intact }

/-- The row was scanned from the document: it has an offset there, and lies in no copy and no
authored payload. -/
def FromSource (r : Row) : Prop :=
  r.authoredZone = false ∧ r.isAlias = false ∧ r.start ≠ none

instance (r : Row) : Decidable r.FromSource := inferInstanceAs (Decidable (_ ∧ _ ∧ _))

theorem shape_start {r r' : Row} (h : r'.shape = r.shape) : r'.start = r.start := by
  have he := congrArg Row.start h
  exact he

theorem shape_stop {r r' : Row} (h : r'.shape = r.shape) : r'.stop = r.stop := by
  have he := congrArg Row.stop h
  exact he

theorem fromSource_shape {r r' : Row} (h : r'.shape = r.shape) :
    r'.FromSource ↔ r.FromSource := by
  have hauthored := congrArg Row.authoredZone h
  have halias := congrArg Row.isAlias h
  unfold FromSource
  rw [shape_start h]
  exact and_congr (Eq.congr_left hauthored) (and_congr_left' (Eq.congr_left halias))

end Row

theorem shape_met {standard : Standard} {authored : Bool} {pos : Nat}
    {records : List Cursor.Record} {r : Row} (h : r ∈ metRows standard authored pos records) :
    r.shape = r := by
  induction records generalizing pos with
  | nil => cases h
  | cons a records ih =>
    rcases List.mem_cons.mp h with rfl | h
    · rfl
    · exact ih h

namespace Machine

variable {standard : Standard} {m m' : Machine standard} {t t' : Forest Unit} {id x : Nat}

/-! ## Shapes -/

def shapes (m : Machine standard) : List (Option Nat × Row) :=
  m.cores.map fun p => (p.1, { p.2 with edit := .intact })

theorem shapes_getElem? (x : Nat) :
    m.shapes[x]? = m.rows[x]?.map fun c => (c.parent, c.body.shape) := by
  unfold shapes
  rw [List.getElem?_map, cores_getElem?, Option.map_map]
  rfl

theorem shapes_same (h : m'.cores = m.cores) : m'.shapes = m.shapes := by
  unfold shapes
  rw [h]

theorem shapes_modify {edit : Edit} (h : m'.cores = m.cores.modify id (coreEdit edit)) :
    m'.shapes = m.shapes := by
  unfold shapes
  rw [h]
  apply List.ext_getElem?
  intro x
  rw [List.getElem?_map, List.getElem?_modify, List.getElem?_map]
  cases m.cores[x]? with
  | none => rfl
  | some p => by_cases hx : id = x <;> simp [hx, coreEdit]

/-- A row that keeps its shape and its parent. -/
theorem row_shape (hx : x < m.rows.length) (h : m'.shapes[x]? = m.shapes[x]?) :
    (m'.row x).parent = (m.row x).parent ∧ (m'.row x).body.shape = (m.row x).body.shape := by
  rw [shapes_getElem?, shapes_getElem?, List.getElem?_eq_getElem hx] at h
  obtain ⟨c, hc, he⟩ := Option.map_eq_some_iff.mp h
  rw [m'.row_eq hc, m.row_eq (List.getElem?_eq_getElem hx)]
  exact ⟨congrArg Prod.fst he, congrArg Prod.snd he⟩

/-! ## Runs -/

/-- The run of a layer. -/
def src (m : Machine standard) (o : Option Nat) : Option (Nat × Nat) := (m.holdingLayer o).source

theorem src_some (x : Nat) : m.src (some x) = (m.row x).body.slot.layer.source := by
  unfold src
  rw [holdingLayer_some]

theorem src_bare (h : m'.bare.rows = m.bare.rows) (hr : m'.bare.root = m.bare.root)
    (o : Option Nat) : m'.src o = m.src o := by
  cases o with
  | none =>
    have hroot := congrArg Layer.source hr
    exact hroot
  | some x =>
    have hrow : m'.bare.row x = m.bare.row x := by
      unfold Machine.row
      rw [h]
    rw [bare_row, bare_row] at hrow
    have hslot : (m'.row x).body.slot.bare = (m.row x).body.slot.bare :=
      congrArg (fun c : Cell Row => c.body.slot) hrow
    have hbare : ∀ s : Slot, s.bare.layer.source = s.layer.source := fun s => by
      cases s <;> rfl
    rw [src_some, src_some, ← hbare, hslot, hbare]

/-- Where a container's payload stands in the document, and how long it is. -/
def extent (m : Machine standard) : Option Nat → Nat × Nat
  | none => (0, m.source.length)
  | some x => m.lenGeometry (m.row x).body ((m.row x).body.start.getD 0)

theorem lenGeometry_shape (hs : m'.source = m.source) {r r' : Row} (h : r'.shape = r.shape)
    (hr : r.FromSource) (start : Nat) : m'.lenGeometry r' start = m.lenGeometry r start := by
  have hb' : m'.backing r' = m.backing r := by
    unfold backing
    rw [((Row.fromSource_shape h).mpr hr).1, hr.1, hs]
    rfl
  have htag : r'.tagWidth = r.tagWidth := by
    have he := congrArg Row.tagWidth h
    exact he
  have hdelim : r'.delimWidth = r.delimWidth := by
    have he := congrArg Row.delimWidth h
    exact he
  have hfield : r'.field = r.field := by
    have he := congrArg Row.field h
    exact he
  unfold lenGeometry
  cases standard with
  | tolerant =>
    unfold Row.tagW
    simp only [Row.shape_stop h, htag, hdelim]
  | canonicalMinimal => simp only [hb', Row.shape_stop h, hfield]

theorem extent_shape (hs : m'.source = m.source)
    (h : (m'.row x).body.shape = (m.row x).body.shape) (hr : (m.row x).body.FromSource) :
    m'.extent (some x) = m.extent (some x) := by
  show m'.lenGeometry _ ((m'.row x).body.start.getD 0) = _
  rw [Row.shape_start h]
  exact lenGeometry_shape hs h hr _

/-- The rows of a run are its container's records. -/
structure Run (m : Machine standard) (t : Forest Unit) (o : Option Nat) (first : Nat)
    (records : List Cursor.Record) : Prop where
  nonempty : records ≠ []
  lawful : ∀ r ∈ records, Cursor.Record.Lawful standard r
  read : (m.source.take ((m.extent o).1 + (m.extent o).2)).drop (m.extent o).1 = text records
  container : ∀ x, o = some x → (m.row x).body.FromSource
  rows : ∀ (i : Nat) (r : Row), (metRows standard false (m.extent o).1 records)[i]? = some r →
    first + i ∈ t.ids ∧ (m.row (first + i)).parent = o ∧ (m.row (first + i)).body.shape = r

/-! ## Dead rows -/

/-- The interior a row died with hangs off it yet, and is dead. -/
def Interred (m : Machine standard) (t : Forest Unit) : Prop :=
  ∀ (x : Nat) (c : Cell Row), m.rows[x]? = some c → x ∉ t.ids →
    ∃ u, Laid (links m.rows) (some x) c.kid u ∧ u.ids.Nodup ∧ ∀ y ∈ u.ids, y ∉ t.ids

/-- A row with its old links. -/
theorem kid_of_links {cells cells' : List (Cell Row)} {b c : Cell Row}
    (h : (links cells')[x]? = (links cells)[x]?) (hc : cells'[x]? = some c)
    (hb : cells[x]? = some b) : c.kid = b.kid := by
  rw [links_of_cell hc, links_of_cell hb] at h
  injection h with h
  injection h

theorem Interred.frame (h : m.Interred t)
    (hlinks : ∀ x < m.rows.length, x ∉ t.ids → (links m'.rows)[x]? = (links m.rows)[x]?)
    (hids : ∀ x, x ∉ t'.ids → x < m'.rows.length → x < m.rows.length ∧ x ∉ t.ids)
    (hdead : ∀ x < m.rows.length, x ∉ t.ids → x ∉ t'.ids) : m'.Interred t' := by
  intro x c hc hx
  obtain ⟨hlt, hxt⟩ := hids x hx (List.getElem?_eq_some_iff.mp hc).1
  have hb := List.getElem?_eq_getElem hlt
  obtain ⟨u, hu, hnodup, hout⟩ := h x _ hb hxt
  have hlen : ∀ y ∈ u.ids, y < m.rows.length := fun y hy => by
    have := hu.lt hy
    rwa [links_length] at this
  refine ⟨u, ?_, hnodup, fun y hy => hdead y (hlen y hy) (hout y hy)⟩
  rw [kid_of_links (hlinks x hlt hxt) hc hb]
  exact hu.frame fun y hy => hlinks y (hlen y hy) (hout y hy)

theorem Interred.same (h : m.Interred t) (hlinks : links m'.rows = links m.rows) :
    m'.Interred t := by
  have hlen : m'.rows.length = m.rows.length := by rw [← links_length, hlinks, links_length]
  exact h.frame (fun _ _ _ => by rw [hlinks]) (fun x hx hlt => ⟨hlen ▸ hlt, hx⟩) fun _ _ hx => hx

theorem Interred.orphan (h : m.Interred t) (hr : m.Rooted t) {u : Forest Unit}
    (hu : t.kidsOf id = some u) : (m.orphanInterior id).Interred (t.rekid id .nil) := by
  have hid : id ∈ t.ids := Forest.mem_of_kidsOf hu
  have hmem : ∀ {x : Nat}, x ∈ (t.rekid id .nil).ids ↔ x ∈ t.ids ∧ x ∉ u.ids :=
    mem_rekid_nil hr.nodup hu
  have hnot := Forest.not_mem_kidsOf hr.nodup hu
  have hlinks : ∀ {x : Nat}, x ≠ id →
      (links (m.orphanInterior id).rows)[x]? = (links m.rows)[x]? := fun {x} hx => by
    rw [hr.orphanInterior_rows hu, bury_links, links_setSlot]
    cases (links m.rows)[x]? with
    | none => rfl
    | some b => exact congrArg some (if_neg hx)
  intro x c hc hx
  have hne : x ≠ id := fun e => hx (hmem.mpr ⟨e ▸ hid, e ▸ hnot⟩)
  have hlt : x < m.rows.length := by
    have := (List.getElem?_eq_some_iff.mp hc).1
    rwa [hr.orphanInterior_rows hu, bury_length, show (m.setSlot id .unopened none).rows.length =
      m.rows.length from List.length_modify _ _ _] at this
  have hb := List.getElem?_eq_getElem hlt
  rw [kid_of_links (hlinks hne) hc hb]
  by_cases hxt : x ∈ t.ids
  · -- a row of the orphaned interior
    have hxu : x ∈ u.ids := not_not.mp fun hn => hx (hmem.mpr ⟨hxt, hn⟩)
    obtain ⟨v, hv⟩ := Forest.exists_kidsOf hxu
    have hvt : t.kidsOf x = some v := (Forest.kidsOf_kidsOf hr.nodup hu hxu).trans hv
    obtain ⟨d, hd, hchain⟩ := hr.laid.kids hvt
    obtain rfl := Option.some.inj ((links_of_cell hb).symm.trans hd)
    have hvu : ∀ y ∈ v.ids, y ∈ u.ids := fun y hy => (Forest.kidsOf_sublist hv).subset hy
    refine ⟨v, hchain.frame fun y hy => hlinks fun e => hnot (e ▸ hvu y hy),
      hr.nodup.sublist (Forest.kidsOf_sublist hvt), fun y hy hin => (hmem.mp hin).2 (hvu y hy)⟩
  · obtain ⟨v, hv, hnodup, hout⟩ := h x _ hb hxt
    exact ⟨v, hv.frame fun y hy => hlinks fun e => hout y hy (e ▸ hid), hnodup,
      fun y hy hin => hout y hy (hmem.mp hin).1⟩

/-- The rows behind a dead row's orphaning: its own is sealed again. -/
theorem Interred.rest_rows (h : m.Interred t) (hr : m.Rooted t) (hid : id ∉ t.ids)
    (hlt : id < m.rows.length) :
    ∃ dead, (∀ y ∈ dead, y ∉ t.ids) ∧
      (m.orphanInterior id).rows = bury dead (m.setSlot id .unopened none).rows := by
  have hc := List.getElem?_eq_getElem hlt
  obtain ⟨u, hu, hnodup, hout⟩ := h id _ hc hid
  have hnot : id ∉ u.ids := fun hin => Nat.lt_irrefl id (hr.grown.lt (hu.hung rfl hin))
  have hlaid : Laid (links (m.setSlot id .unopened none).rows) (some id) (m.row id).kid u := by
    rw [m.row_eq hc]
    refine hu.frame fun x hx => ?_
    rw [links_setSlot]
    cases (links m.rows)[x]? with
    | none => rfl
    | some b => exact congrArg some (if_neg fun e : x = id => hnot (e ▸ hx))
  have hgrown : Grown (links (m.setSlot id .unopened none).rows) :=
    grown_congr hr.grown (setSlot_parent m id _ _)
  have hsize : u.size ≤ m.rows.length := by
    have := hu.size_le hnodup
    rwa [links_length] at this
  exact ⟨u.ids, hout, orphanFrom_eq hgrown hlaid hnot rfl hsize⟩

theorem Interred.rest_row (h : m.Interred t) (hr : m.Rooted t) (hid : id ∉ t.ids)
    (hlt : id < m.rows.length) : ∀ x ∈ t.ids, (m.orphanInterior id).row x = m.row x := by
  intro x hx
  obtain ⟨dead, hdead, hrows⟩ := h.rest_rows hr hid hlt
  refine row_eq _ ?_
  have hset : (m.setSlot id .unopened none).rows[x]? = m.rows[x]? :=
    modify_other fun e => hid (e ▸ hx)
  rw [hrows, bury_getElem?, hset, (hr.cell hx).1]
  exact congrArg some (if_neg fun hin => hdead x hin hx)

theorem Interred.rest (h : m.Interred t) (hr : m.Rooted t) (hid : id ∉ t.ids)
    (hlt : id < m.rows.length) :
    (m.orphanInterior id).Rooted t ∧ (m.orphanInterior id).Interred t := by
  obtain ⟨dead, hdead, hrows⟩ := h.rest_rows hr hid hlt
  have hrow := h.rest_row hr hid hlt
  have hlinks : links (m.orphanInterior id).rows = links (m.setSlot id .unopened none).rows := by
    rw [hrows, bury_links]
  have hother : ∀ {x : Nat}, x ≠ id →
      (links (m.orphanInterior id).rows)[x]? = (links m.rows)[x]? := fun {x} hx => by
    rw [hlinks, links_setSlot]
    cases (links m.rows)[x]? with
    | none => rfl
    | some b => exact congrArg some (if_neg hx)
  have hself : (links (m.orphanInterior id).rows)[id]? =
      some ⟨(m.row id).parent, (m.row id).next, none, ()⟩ := by
    rw [hlinks, links_setSlot, links_of_cell (List.getElem?_eq_getElem hlt),
      m.row_eq (List.getElem?_eq_getElem hlt)]
    exact congrArg some (if_pos rfl)
  refine ⟨⟨?_, hr.nodup, fun {x c} hc => ?_, ?_, fun o ho => ?_⟩, fun x c hc hx => ?_⟩
  · exact hr.laid.frame fun x hx => hother fun e => hid (e ▸ hx)
  · rw [hrows, bury_getElem?] at hc
    obtain ⟨b, hb, rfl⟩ := Option.map_eq_some_iff.mp hc
    obtain ⟨d, hd, rfl⟩ := row_modify _ _ _ _ hb
    rw [hr.alive hd]
    by_cases hin : x ∈ dead
    · have hdead' : d.body.dead = true := by
        cases hdd : d.body.dead with
        | true => rfl
        | false => exact absurd ((hr.alive hd).mpr hdd) (hdead x hin)
      rw [if_pos hin, hdead']
      exact ⟨nofun, nofun⟩
    · rw [if_neg hin]
      split <;> exact Iff.rfl
  · rw [hlinks]
    exact grown_congr hr.grown (setSlot_parent m id _ _)
  · rw [← hr.tail o ho]
    cases o with
    | none => rfl
    | some x => rw [holdingLayer_some, holdingLayer_some, hrow x (ho x rfl)]
  · have hlen : x < m.rows.length := by
      have := (List.getElem?_eq_some_iff.mp hc).1
      rwa [hrows, bury_length, show (m.setSlot id .unopened none).rows.length =
        m.rows.length from List.length_modify _ _ _] at this
    have hb := List.getElem?_eq_getElem hlen
    obtain ⟨u, hu, hnodup, hout⟩ := h x _ hb hx
    by_cases he : x = id
    · subst he
      have hkid := hself
      rw [links_of_cell hc] at hkid
      have hk : c.kid = none := congrArg Cell.kid (Option.some.inj hkid)
      rw [hk]
      exact ⟨.nil, .nil, List.nodup_nil, nofun⟩
    · rw [kid_of_links (hother he) hc hb]
      have hidc := List.getElem?_eq_getElem hlt
      refine ⟨u.rekid id .nil, hu.rekid hnodup (fun y _ hne => hother hne) (links_of_cell hidc) ?_
        .nil, hnodup.sublist Forest.rekid_nil_sublist, fun y hy =>
          hout y (Forest.rekid_nil_sublist.subset hy)⟩
      rw [hself, m.row_eq hidc]

/-! ## Paved machines -/

/-- Every run is its container's records, and every live row of the document is in a run. -/
structure Paved (m : Machine standard) (t : Forest Unit) : Prop where
  rooted : m.Rooted t
  interred : m.Interred t
  runs : ∀ (o : Option Nat) (first stop : Nat), (∀ x, o = some x → x ∈ t.ids) →
    m.src o = some (first, stop) →
    ∃ records, stop = first + records.length ∧ m.Run t o first records
  backed : ∀ x ∈ t.ids, (m.row x).body.FromSource →
    ∃ first stop, m.src (m.row x).parent = some (first, stop) ∧ first ≤ x ∧ x < stop
  top : m.source ≠ [] → m.src none ≠ none

/-- Nothing scanned from the document is minted, and no run's row dies but with its container. -/
theorem Paved.frame (h : m.Paved t) (hr : m'.Rooted t') (hi : m'.Interred t')
    (hs : m'.source = m.source)
    (hold : ∀ x ∈ t.ids, (m'.row x).parent = (m.row x).parent ∧
      (m'.row x).body.shape = (m.row x).body.shape)
    (hnew : ∀ x ∈ t'.ids, x ∉ t.ids → ¬ (m'.row x).body.FromSource ∧ m'.src (some x) = none)
    (htop : m'.src none = m.src none)
    (hsrc : ∀ x ∈ t.ids, x ∈ t'.ids → m'.src (some x) = m.src (some x) ∨
      m'.src (some x) = none ∧ ∀ y ∈ t'.ids, (m'.row y).parent ≠ some x)
    (hkept : ∀ x ∈ t.ids, (∀ p, (m.row x).parent = some p →
      p ∈ t'.ids ∧ m'.src (some p) ≠ none) → x ∈ t'.ids) : m'.Paved t' := by
  refine ⟨hr, hi, fun o first stop ho hrun => ?_, fun x hx hf => ?_, fun hne => ?_⟩
  · have hin : ∀ x, o = some x → x ∈ t.ids := fun x hx => not_not.mp fun hn => by
      have hnone := (hnew x (ho x hx) hn).2
      rw [← hx, hrun] at hnone
      cases hnone
    have hsame : m'.src o = m.src o := by
      cases o with
      | none => exact htop
      | some x =>
        rcases hsrc x (hin x rfl) (ho x rfl) with he | ⟨he, -⟩
        · exact he
        · rw [hrun] at he
          cases he
    obtain ⟨records, hstop, hne, hlaw, hread, hcon, hrows⟩ := h.runs o first stop hin (hsame ▸ hrun)
    have hextent : m'.extent o = m.extent o := by
      cases o with
      | none => exact congrArg (fun s : List UInt8 => (0, s.length)) hs
      | some x => exact extent_shape hs (hold x (hin x rfl)).2 (hcon x rfl)
    refine ⟨records, hstop, hne, hlaw, by rw [hextent, hs]; exact hread, fun x hx => ?_,
      fun i r hi => ?_⟩
    · exact (Row.fromSource_shape (hold x (hin x hx)).2).mpr (hcon x hx)
    · rw [hextent] at hi
      obtain ⟨hit, hp, hshape⟩ := hrows i r hi
      obtain ⟨hp', hshape'⟩ := hold _ hit
      refine ⟨hkept _ hit fun p hpp => ?_, hp'.trans hp, hshape'.trans hshape⟩
      have hop : o = some p := hp.symm.trans hpp
      exact ⟨ho p hop, by rw [← hop, hrun]; nofun⟩
  · have hxt : x ∈ t.ids := not_not.mp fun hn => (hnew x hx hn).1 hf
    obtain ⟨hp, hshape⟩ := hold x hxt
    obtain ⟨first, stop, hrun, hle, hlt⟩ := h.backed x hxt ((Row.fromSource_shape hshape).mp hf)
    refine ⟨first, stop, ?_, hle, hlt⟩
    rw [hp, ← hrun]
    cases hpar : (m.row x).parent with
    | none => exact htop
    | some p =>
      rcases hsrc p (h.rooted.parent hxt hpar) (hr.parent hx (hp.trans hpar)) with he | ⟨-, he⟩
      · exact he
      · exact absurd (hp.trans hpar) (he x hx)
  · rw [htop]
    exact h.top (hs ▸ hne)

/-- A step that leaves the forest, the shapes and the runs. -/
theorem Paved.same (h : m.Paved t) (hr : m'.Rooted t) (hlinks : links m'.rows = links m.rows)
    (hs : m'.source = m.source) (hshapes : m'.shapes = m.shapes)
    (hsrc : ∀ o, (∀ x, o = some x → x ∈ t.ids) → m'.src o = m.src o) : m'.Paved t :=
  h.frame hr (h.interred.same hlinks) hs
    (fun x hx => row_shape (h.rooted.lt hx) (by rw [hshapes])) (fun _ hx hn => absurd hx hn)
    (hsrc none nofun) (fun x hx _ => .inl (hsrc (some x) (by rintro _ ⟨⟩; exact hx)))
    fun _ hx _ => hx

theorem Paved.of_bare (h : m.Paved t) (hb : m'.bare = m.bare) : m'.Paved t := by
  have hrows : m'.bare.rows = m.bare.rows := congrArg Machine.rows hb
  refine h.same (h.rooted.of_bare hb) ?_ ?_ (shapes_same (cores_of_bare hb))
    fun o _ => src_bare hrows (congrArg Machine.root hb) o
  · rw [bare_rows, bare_rows] at hrows
    rw [← links_bare, hrows, links_bare]
  · have hsource := congrArg Machine.source hb
    exact hsource

/-- The tables that no run stands in. -/
theorem Paved.of_rows (h : m.Paved t) (hrows : m'.rows = m.rows) (htop : m'.top = m.top)
    (hroot : m'.root = m.root) (hs : m'.source = m.source) : m'.Paved t := by
  refine h.same (h.rooted.of_rows hrows htop (congrArg Layer.last hroot)) (by rw [hrows]) hs ?_
    fun o _ => ?_
  · refine shapes_same ?_
    unfold cores
    rw [hrows]
  · cases o with
    | none => exact congrArg Layer.source hroot
    | some x =>
      have hrow : m'.row x = m.row x := by
        unfold Machine.row
        rw [hrows]
      rw [src_some, src_some, hrow]

/-! ## Transitions -/

theorem Paved.setEdit (h : m.Paved t) (id : Nat) (edit : Edit) : (m.setEdit id edit).Paved t := by
  refine h.same ?_ (links_modify _ _ _) rfl (shapes_modify (m.setEdit_cores id edit)) fun o ho => ?_
  · exact h.rooted.setRow (f := fun r => { r with edit }) (fun _ => rfl) (fun _ => rfl) id
  · cases o with
    | none => rfl
    | some x =>
      rw [src_some, src_some, setEdit_row h.rooted (ho x rfl)]
      split <;> rfl

/-- A live row's interior orphaned. -/
theorem Paved.orphan (h : m.Paved t) (hid : id ∈ t.ids) :
    ∃ t', (m.orphanInterior id).Paved t' := by
  obtain ⟨u, hu⟩ := Forest.exists_kidsOf hid
  have hr := h.rooted
  have hr' := hr.orphan hu
  have hmem : ∀ {x : Nat}, x ∈ (t.rekid id .nil).ids ↔ x ∈ t.ids ∧ x ∉ u.ids :=
    mem_rekid_nil hr.nodup hu
  have hself : (m.orphanInterior id).src (some id) = none := by
    rw [src_some, hr.orphanInterior_row hu hid (Forest.not_mem_kidsOf hr.nodup hu), if_pos rfl]
    rfl
  refine ⟨_, h.frame hr' (h.interred.orphan hr hu) rfl (fun x hx => ?_) (fun x hx hn => ?_) rfl
    (fun x hx hx' => ?_) fun x hx hp => ?_⟩
  · exact row_shape (hr.lt hx) (by rw [shapes_same (m.orphanInterior_cores id)])
  · exact absurd (hmem.mp hx).1 hn
  · by_cases he : x = id
    · subst he
      refine .inr ⟨hself, fun y hy hp => ?_⟩
      have hlayer := hr'.mem_layer.mpr ⟨hy, hp⟩
      rw [Forest.layer_rekid_self hid] at hlayer
      cases hlayer
    · left
      rw [src_some, src_some, hr.orphanInterior_row hu hx (hmem.mp hx').2, if_neg he]
  · -- a child of the orphaned interior has its parent there
    refine hmem.mpr ⟨hx, fun hxu => ?_⟩
    obtain ⟨c, -, hchain⟩ := hr.laid.kids hu
    obtain ⟨p, ⟨d, hd, hdp⟩, hb⟩ := Relation.TransGen.head'_iff.mp (hchain.hung rfl hxu)
    obtain rfl := Option.some.inj ((links_of_cell (hr.cell hx).1).symm.trans hd)
    obtain ⟨hp', hsrc⟩ := hp p hdp
    rcases Relation.reflTransGen_iff_eq_or_transGen.mp hb with rfl | hb
    · exact hsrc hself
    · obtain ⟨v, hv, hpv⟩ := (hr.laid.beneath_iff hr.nodup (hmem.mp hp').1).mp hb
      rw [hu] at hv
      cases hv
      exact (hmem.mp hp').2 hpv

/-- A dead row's interior orphaned: the rows it died with are dead. -/
theorem Paved.rest (h : m.Paved t) (hid : id ∉ t.ids) (hlt : id < m.rows.length) :
    (m.orphanInterior id).Paved t := by
  obtain ⟨hr, hi⟩ := h.interred.rest h.rooted hid hlt
  have hrow := h.interred.rest_row h.rooted hid hlt
  refine h.frame hr hi rfl (fun x hx => ?_) (fun _ hx hn => absurd hx hn) rfl
    (fun x hx _ => .inl ?_) fun _ hx _ => hx
  · exact row_shape (h.rooted.lt hx) (by rw [shapes_same (m.orphanInterior_cores id)])
  · rw [src_some, src_some, hrow x hx]

theorem Paved.writeState (h : m.Paved t) (id : Nat) (edit : Edit) :
    ∃ t', (m.writeState id edit).Paved t' := by
  have hset := h.setEdit id edit
  suffices ht : ∃ t', (m.turned id edit).Paved t' by
    obtain ⟨t', ht⟩ := ht
    exact ⟨t', ht.of_bare (m.writeState_bare id edit)⟩
  rw [turned_eq]
  split
  · next hturns =>
    by_cases hid : id ∈ t.ids
    · exact hset.orphan hid
    · refine ⟨t, hset.rest hid ?_⟩
      have hlen : (m.setEdit id edit).rows.length = m.rows.length := List.length_modify _ _ _
      rw [hlen]
      refine Nat.lt_of_not_le fun hge => hturns.2 ?_
      have hrow : m.row id = default := by
        unfold Machine.row
        rw [List.getD_eq_getElem?_getD, List.getElem?_eq_none_iff.mpr hge]
        rfl
      rw [hrow]
      rfl
  · exact ⟨t, hset⟩

/-- A transition that leaves what speaks for its row. -/
theorem Paved.writeState_same (h : m.Paved t) {edit : Edit} (hn : ¬ m.Turns id edit) :
    (m.writeState id edit).Paved t := by
  have hturned : (m.turned id edit).Paved t := by
    rw [turned_eq, if_neg hn]
    exact h.setEdit id edit
  exact hturned.of_bare (m.writeState_bare id edit)

theorem Paved.logPush (h : m.Paved t) (id : Nat) (past : Edit) : (m.logPush id past).Paved t := by
  have hlog : ({ m with log := ⟨id, past, !(m.row id).body.ownHist⟩ :: m.log } :
      Machine standard).Paved t := h.of_rows rfl rfl rfl rfl
  exact hlog.of_bare (m.logPush_bare id past)

theorem Paved.logPop (h : m.Paved t) (step : Transition) (log : List Transition) :
    (m.logPop step log).Paved t := by
  have hlog : ({ m with log } : Machine standard).Paved t := h.of_rows rfl rfl rfl rfl
  exact hlog.of_bare (m.logPop_bare step log)

theorem Paved.applyEdit (h : m.Paved t) (id : Nat) (edit : Edit) :
    ∃ t', (m.applyEdit id edit).Paved t' := (h.logPush id _).writeState id edit

theorem Paved.applyMove (h : m.Paved t) (source dest : Nat) :
    ∃ t', (m.applyMove source dest).Paved t' := by
  unfold Machine.applyMove
  extract_lets moved
  have hmoved : moved.Paved t :=
    ((h.logPush source _).setEdit source _).of_bare (raise_bare _ _ _)
  exact hmoved.writeState dest _

theorem Paved.reverted (h : m.Paved t) : ∃ t', m.revert.1.Paved t' := by
  unfold Machine.revert
  cases m.log with
  | nil => exact ⟨t, h⟩
  | cons step log =>
    have hpop := h.logPop step log
    simp only
    split
    · unfold Machine.revertMove
      extract_lets restored
      have hrestored : restored.Paved t := (hpop.setEdit step.row _).of_bare (lower_bare _ _ _)
      exact hrestored.writeState _ _
    · exact hpop.writeState _ _

/-! ## Births -/

section Splice

variable {plan : Plan} {r : Row}

theorem splice_source (id : Nat) : (m.splice plan id r).source = m.source := by
  have hlinked : (m.linked plan id r).source = m.source := by
    obtain ⟨parent, prev⟩ := plan
    cases prev <;> cases parent <;> rfl
  rw [splice_eq]
  split
  · cases plan.parent <;> exact hlinked
  · exact hlinked

/-- A row that was not scanned from the document, put at an anchor. -/
theorem Paved.splice (h : m.Paved t) (ha : m.Anchored t plan) (hblank : r.Blank)
    (hborn : ¬ r.FromSource) :
    (m.splice plan m.rows.length r).Paved (spliced t plan m.rows.length) := by
  have hr := h.rooted
  have hmem : ∀ {x : Nat}, x ∈ (spliced t plan m.rows.length).ids ↔ x = m.rows.length ∨ x ∈ t.ids :=
    fun {x} => (spliced_ids ha _).mem_iff.trans List.mem_cons
  have hlen : (m.splice plan m.rows.length r).rows.length = m.rows.length + 1 := by
    rw [← cores_length, splice_cores, List.length_append, cores_length]
    rfl
  refine h.frame (hr.splice ha hblank.dead hblank.slot) (h.interred.frame (fun x hlt hx => ?_)
    (fun x hx hlt => ?_) fun x hlt hx hin => ?_) (splice_source _) (fun x hx => ?_)
    (fun x hx hn => ?_) splice_root.1 (fun x hx _ => .inl ?_) fun x hx _ => hmem.mpr (.inr hx)
  · rw [links_getElem?, links_getElem?, (hr.splice_getElem? ha).2.1 hlt hx]
  · obtain ⟨hne, hxt⟩ := not_or.mp (mt hmem.mpr hx)
    exact ⟨by omega, hxt⟩
  · rcases hmem.mp hin with rfl | hin
    · omega
    · exact hx hin
  · obtain ⟨hp, slot, hb, -⟩ := hr.splice_row (r := r) ha hx
    rw [hb]
    exact ⟨hp, rfl⟩
  · obtain rfl := (hmem.mp hx).resolve_right hn
    have hrow : (m.splice plan m.rows.length r).row m.rows.length =
        ⟨plan.parent, m.planNext plan, none, r⟩ :=
      row_eq _ (hr.splice_getElem? (x := 0) ha).2.2
    rw [src_some, hrow, hblank.slot]
    exact ⟨hborn, rfl⟩
  · obtain ⟨-, slot, hb, hs, -⟩ := hr.splice_row (r := r) ha hx
    rw [src_some, src_some, hb]
    exact hs

theorem Paved.insert (h : m.Paved t) (ha : m.Anchored t plan) (hblank : r.Blank)
    (hborn : ¬ r.FromSource) (edit : Edit) :
    (m.applyInsert plan m.rows.length r edit).Paved (spliced t plan m.rows.length) := by
  refine ((h.splice ha hblank hborn).logPush _ _).writeState_same fun hturns => ?_
  rw [turns_push] at hturns
  exact hturns.2 ((splice_slot h.rooted ha).trans hblank.slot)

end Splice

/-! ## Descents -/

/-- A fault parked in a slot that was never parsed. -/
theorem Paved.park (h : m.Paved t) (hid : id ∈ t.ids) (hslot : (m.row id).body.slot = .unopened)
    (index : Nat) : (m.setSlot id (.fault index) none).Paved t := by
  have hr := h.rooted
  have hlen : (m.setSlot id (.fault index) none).rows.length = m.rows.length :=
    List.length_modify _ _ _
  refine h.frame (hr.park hid (by rw [hslot]; rfl) index) (h.interred.frame (fun x _ hx => ?_)
    (fun x hx hlt => ⟨hlen ▸ hlt, hx⟩) fun _ _ hx => hx) rfl (fun x hx => ?_)
    (fun _ hx hn => absurd hx hn) rfl (fun x hx _ => .inl ?_) fun _ hx _ => hx
  · rw [links_setSlot]
    cases (links m.rows)[x]? with
    | none => rfl
    | some b => exact congrArg some (if_neg fun e : x = id => hx (e ▸ hid))
  · exact row_shape (hr.lt hx) (by rw [shapes_same (m.setSlot_cores id _ _)])
  · rw [src_some, src_some, setSlot_row _ _ _ (hr.lt hx)]
    split
    · next he =>
      subst he
      rw [hslot]
      rfl
    · rfl

/-- The interior that mints a run is a scanned row's own payload. -/
theorem interior_source {r : Row} {w : Interior} (h : m.interior r = .ok w)
    (hw : w.authored = false) (ha : w.isAlias = false) (hr : r.isAlias = false) :
    r.FromSource ∧ m.lenGeometry r (r.start.getD 0) = (w.start, w.len) := by
  have hscanned : ∀ {b : Bool}, (scannedAt r).map (fun start =>
        (⟨r.authoredZone, b, (m.lenGeometry r start).1, (m.lenGeometry r start).2⟩ : Interior)) =
        .ok w → r.FromSource ∧ m.lenGeometry r (r.start.getD 0) = (w.start, w.len) := by
    intro b he
    unfold scannedAt at he
    cases hs : r.start with
    | none =>
      rw [hs] at he
      cases he
    | some start =>
      rw [hs] at he
      cases he
      exact ⟨⟨hw, hr, by rw [hs]; nofun⟩, rfl⟩
  unfold Machine.interior at h
  split at h
  all_goals first
    | exact hscanned h
    | cases h; cases hw
    | obtain ⟨span, -, rfl⟩ := map_ok h; cases ha

/-- A run is minted over a document's own rows, from the first of them on. -/
theorem run_eq {w : Interior} {isAlias : Bool} {base n first stop : Nat} :
    w.run isAlias base n = some (first, stop) ↔
      w.authored = false ∧ w.isAlias = false ∧ isAlias = false ∧ n ≠ 0 ∧
        first = base ∧ stop = base + n := by
  unfold Interior.run firstAt
  cases w.authored <;> cases w.isAlias <;> cases isAlias <;> by_cases hn : n = 0 <;>
    simp [hn, eq_comm]

/-- The rows of a run are as their scan met them. -/
theorem interiorRows_source {w : Interior} {isAlias : Bool} {records : List Cursor.Record}
    (hw : w.authored = false) (ha : w.isAlias = false) (hr : isAlias = false) :
    interiorRows standard w isAlias records = metRows standard false w.start records := by
  unfold interiorRows
  rw [hw, ha, hr]
  refine (List.map_congr_left fun r _ => ?_).trans (List.map_id _)
  show ({ r with isAlias := r.isAlias || false } : Row) = r
  rw [Bool.or_false]

section Parse

variable {rows : List Row} {run : Option (Nat × Nat)}

theorem Sprouts.shape_old (hs : m.Sprouts m' id rows run) (hx : x < m.rows.length) :
    (m'.row x).parent = (m.row x).parent ∧ (m'.row x).body.shape = (m.row x).body.shape := by
  obtain ⟨hp, hcore⟩ := hs.row_old hx
  refine ⟨hp, ?_⟩
  unfold Row.shape
  rw [hcore]

/-- Layers that were there keep their runs, but for the container's. -/
theorem Sprouts.src_other (hs : m.Sprouts m' id rows run) {o : Option Nat}
    (ho : ∀ x, o = some x → x < m.rows.length) (hne : o ≠ some id) : m'.src o = m.src o := by
  cases o with
  | none => exact congrArg Layer.source hs.root
  | some x =>
    rw [src_some, src_some, hs.row_other (ho x rfl) fun e => hne (congrArg some e)]

theorem Sprouts.src_self (hs : m.Sprouts m' id rows run) (hid : id < m.rows.length) :
    m'.src (some id) = run := by
  rw [src_some, hs.row_self hid]
  rfl

theorem Interred.sprouts (h : m.Interred t) (hr : m.Rooted t) (hid : id ∈ t.ids)
    (hlast : (m.row id).body.slot.layer.last = none) (hs : m.Sprouts m' id rows run) :
    m'.Interred (t.rekid id (line (List.range' m.rows.length rows.length))) := by
  refine h.frame (fun x hlt hx => hs.links_other hlt fun e => hx (e ▸ hid)) (fun x hx hlt => ?_)
    fun x hlt hx hin => ?_
  · obtain ⟨hxt, hrange⟩ := not_or.mp (mt (hr.mem_sprouts hid hlast).mpr hx)
    rw [hs.length] at hlt
    exact ⟨by omega, hxt⟩
  · rcases (hr.mem_sprouts hid hlast).mp hin with hxt | ⟨hle, -⟩
    · exact hx hxt
    · omega

variable (h : m.Paved t) (hid : id ∈ t.ids) (hslot : (m.row id).body.slot = .unopened)
  (hs : m.Sprouts m' id rows run)

include h hid hslot hs

/-- A run that was there is its container's records yet. -/
theorem Paved.run_kept {o : Option Nat} {first stop : Nat} (hin : ∀ x, o = some x → x ∈ t.ids)
    (hsome : m.src o = some (first, stop)) :
    ∃ records, stop = first + records.length ∧
      m'.Run (t.rekid id (line (List.range' m.rows.length rows.length))) o first records := by
  have hr := h.rooted
  have hlast : (m.row id).body.slot.layer.last = none := by rw [hslot]; rfl
  obtain ⟨records, hstop, hne, hlaw, hread, hcon, hrows⟩ := h.runs o first stop hin hsome
  have hextent : m'.extent o = m.extent o := by
    cases o with
    | none => exact congrArg (fun s : List UInt8 => (0, s.length)) hs.source
    | some x => exact extent_shape hs.source (hs.shape_old (hr.lt (hin x rfl))).2 (hcon x rfl)
  refine ⟨records, hstop, hne, hlaw, by rw [hextent, hs.source]; exact hread, fun x hx => ?_,
    fun i r hi => ?_⟩
  · exact (Row.fromSource_shape (hs.shape_old (hr.lt (hin x hx))).2).mpr (hcon x hx)
  · rw [hextent] at hi
    obtain ⟨hit, hp, hshape⟩ := hrows i r hi
    obtain ⟨hp', hshape'⟩ := hs.shape_old (hr.lt hit)
    exact ⟨(hr.mem_sprouts hid hlast).mpr (.inl hit), hp'.trans hp, hshape'.trans hshape⟩

variable {w : Interior} {records : List Cursor.Record}
  (hw : m.interior (m.row id).body = .ok w)
  (hrows : rows = interiorRows standard w (m.row id).body.isAlias records)

include hw hrows

/-- The interior's own run is its records. -/
theorem Paved.run_minted (hlaw : ∀ r ∈ records, Cursor.Record.Lawful standard r)
    (hread : ((m.zoneOf w).take (w.start + w.len)).drop w.start = text records)
    {first stop : Nat}
    (hsome : w.run (m.row id).body.isAlias m.rows.length rows.length = some (first, stop)) :
    stop = first + records.length ∧
      m'.Run (t.rekid id (line (List.range' m.rows.length rows.length))) (some id) first
        records := by
  have hr := h.rooted
  have hlast : (m.row id).body.slot.layer.last = none := by rw [hslot]; rfl
  obtain ⟨hauthored, halias, hown, hn, rfl, rfl⟩ := run_eq.mp hsome
  obtain ⟨hfrom, hgeometry⟩ := interior_source hw hauthored halias hown
  rw [interiorRows_source hauthored halias hown] at hrows
  have hlen : rows.length = records.length := by rw [hrows, metRows_length]
  have hshape := (hs.shape_old (hr.lt hid)).2
  have hextent : m'.extent (some id) = (w.start, w.len) :=
    (extent_shape hs.source hshape hfrom).trans hgeometry
  have hzone : m.zoneOf w = m.source := by
    unfold zoneOf
    rw [hauthored]
    rfl
  refine ⟨by rw [hlen], fun e => hn ?_, hlaw, ?_, ?_, fun i r hi => ?_⟩
  · rw [hlen, e]
    rfl
  · rw [hextent, hs.source, ← hzone]
    exact hread
  · rintro _ ⟨⟩
    exact (Row.fromSource_shape hshape).mpr hfrom
  · rw [hextent, ← hrows] at hi
    obtain ⟨hp, hb⟩ := hs.row_new hi
    have hlt := (List.getElem?_eq_some_iff.mp hi).1
    refine ⟨(hr.mem_sprouts hid hlast).mpr (.inr ⟨by omega, by omega⟩), hp, ?_⟩
    rw [hb]
    exact shape_met (hrows ▸ List.mem_of_getElem? hi)

omit h hid hslot hs hw in
/-- Where the interior has a row of the document's, a run is minted over it. -/
theorem run_of_source {i : Nat} {r : Row} (hi : rows[i]? = some r) (hf : r.FromSource) :
    w.run (m.row id).body.isAlias m.rows.length rows.length =
      some (m.rows.length, m.rows.length + rows.length) := by
  have hin := List.mem_of_getElem? hi
  have hlt := (List.getElem?_eq_some_iff.mp hi).1
  rw [hrows] at hin
  obtain ⟨b, hb, rfl⟩ := List.mem_map.mp hin
  obtain ⟨pos, a, rfl⟩ := metRows_met hb
  obtain ⟨hauthored, halias, -⟩ := hf
  have hor : (w.isAlias || (m.row id).body.isAlias) = false := halias
  obtain ⟨hwa, hra⟩ := Bool.or_eq_false_iff.mp hor
  exact run_eq.mpr ⟨hauthored, hwa, hra, by omega, rfl, rfl⟩

/-- An interior parsed: its run, if its bytes are the document's, or rows from elsewhere. -/
theorem Paved.parse (hlaw : ∀ r ∈ records, Cursor.Record.Lawful standard r)
    (hread : ((m.zoneOf w).take (w.start + w.len)).drop w.start = text records)
    (hrun : run = w.run (m.row id).body.isAlias m.rows.length rows.length) :
    m'.Paved (t.rekid id (line (List.range' m.rows.length rows.length))) := by
  have hr := h.rooted
  have hlast : (m.row id).body.slot.layer.last = none := by rw [hslot]; rfl
  have hblank : ∀ r ∈ rows, r.Blank := fun r hr => blank_interior (hrows ▸ hr)
  have hself := (hs.src_self (hr.lt hid)).trans hrun
  refine ⟨hr.parse hid hlast hs fun r hin => ⟨(hblank r hin).dead, (hblank r hin).slot⟩,
    h.interred.sprouts hr hid hlast hs, fun o first stop ho hsome => ?_, fun x hx hf => ?_,
    fun hne => ?_⟩
  · by_cases he : o = some id
    · subst he
      exact ⟨records, h.run_minted hid hslot hs hw hrows hlaw hread (hself ▸ hsome)⟩
    · by_cases hin : ∀ x, o = some x → x ∈ t.ids
      · rw [hs.src_other (fun x hx => hr.lt (hin x hx)) he] at hsome
        exact h.run_kept hid hslot hs hin hsome
      · -- a row of the interior has no run of its own
        obtain ⟨x, hx⟩ := not_forall.mp hin
        obtain ⟨rfl, hxt⟩ := Classical.not_imp.mp hx
        obtain ⟨hle, hlt⟩ := ((hr.mem_sprouts hid hlast).mp (ho x rfl)).resolve_left hxt
        rcases hs.old_or_new (x := x) (by rw [hs.length]; exact hlt) with hx | ⟨i, r, rfl, hi⟩
        · omega
        · rw [src_some, (hs.row_new hi).2, (hblank r (List.mem_of_getElem? hi)).slot] at hsome
          cases hsome
  · rcases (hr.mem_sprouts hid hlast).mp hx with hxt | ⟨hle, hlt⟩
    · obtain ⟨hp, hshape⟩ := hs.shape_old (hr.lt hxt)
      obtain ⟨first, stop, hsome, hbounds⟩ :=
        h.backed x hxt ((Row.fromSource_shape hshape).mp hf)
      refine ⟨first, stop, ?_, hbounds⟩
      rw [hp, ← hsome]
      refine hs.src_other (fun p hpar => hr.lt (hr.parent hxt hpar)) fun hpar => ?_
      rw [hpar, src_some, hslot] at hsome
      cases hsome
    · rcases hs.old_or_new (x := x) (by rw [hs.length]; exact hlt) with hx | ⟨i, r, rfl, hi⟩
      · omega
      · obtain ⟨hp, hb⟩ := hs.row_new hi
        rw [hb] at hf
        exact ⟨_, _, by rw [hp, hself, run_of_source hrows hi hf], hle, hlt⟩
  · have htop : m'.src none = m.src none :=
      hs.src_other (by intro _ e; cases e) (by intro e; cases e)
    rw [htop]
    exact h.top (hs.source ▸ hne)

end Parse

theorem Paved.entered (h : m.Paved t) {c : Cell Row} (hl : m.live id = .ok c)
    (hslot : c.body.slot = .unopened) : ∃ t', (m.enter id c.body).1.Paved t' := by
  have hid := h.rooted.mem hl
  have hrow := m.row_eq (live_ok hl).1
  rw [← hrow] at hslot ⊢
  rcases enter_minted id (m.row id).body with he | ⟨faults, index, he⟩ |
    ⟨w, records, layers, runs, hw, hlaw, hread, he⟩
  · exact ⟨t, he ▸ h⟩
  · have hf : ({ m with faults } : Machine standard).Paved t := h.of_rows rfl rfl rfl rfl
    exact ⟨t, he ▸ hf.park hid hslot index⟩
  · have hlen : (interiorRows standard w (m.row id).body.isAlias records).length =
        records.length := by
      unfold interiorRows
      rw [List.length_map, metRows_length]
    rw [he, ← hlen]
    exact ⟨_, h.parse hid hslot (sprouts (h.rooted.lt hid) _ _ _ _) hw rfl hlaw hread rfl⟩

/-! ## An opened machine -/

theorem paved_open {cap : Nat} {source : List UInt8} (h : openSource standard cap source = .ok m) :
    m.Paved (line (List.range' 0 m.rows.length)) := by
  have hr := rooted_open h
  obtain ⟨records, hlaw, hread, rfl⟩ := openSource_eq h
  have hlen : (laid none 0 (metRows standard false 0 records)).length = records.length :=
    (laid_length _ _).trans (metRows_length _ _)
  have hrow : ∀ {x : Nat} {c : Cell Row},
      (laid none 0 (metRows standard false 0 records))[x]? = some c →
        c.parent = none ∧ c.body.slot = .unopened := by
    intro x c hc
    obtain ⟨hp, -, hmem, -⟩ := laid_cell hc
    exact ⟨hp, (blank_met hmem).slot⟩
  refine ⟨hr, fun x c hc hx => absurd ?_ hx, fun o first stop ho hrun => ?_, fun x hx _ => ?_,
    fun hne => ?_⟩
  · have hlt := (List.getElem?_eq_some_iff.mp hc).1
    rw [line_ids, List.mem_range'_1]
    exact ⟨Nat.zero_le _, by omega⟩
  · cases o with
    | some x =>
      have hx := ho x rfl
      rw [line_ids, List.mem_range'_1] at hx
      have hc := List.getElem?_eq_getElem (show x <
        (laid none 0 (metRows standard false 0 records)).length by dsimp only at hx; omega)
      rw [src_some, row_eq _ hc, (hrow hc).2] at hrun
      cases hrun
    | none =>
      obtain ⟨y, hy, he⟩ := Option.map_eq_some_iff.mp hrun
      unfold firstAt at hy
      split at hy
      · cases hy
      · next hne =>
        cases hy
        cases he
        refine ⟨records, (Nat.zero_add _).symm, fun e => hne (by rw [e]; rfl), hlaw, ?_, nofun,
          fun i r hi => ?_⟩
        · show (source.take (0 + source.length)).drop 0 = _
          rw [Nat.zero_add, List.take_length, hread]
          rfl
        · have hlt := (List.getElem?_eq_some_iff.mp hi).1
          rw [metRows_length] at hlt
          have hc : (laid none 0 (metRows standard false 0 records))[0 + i]? = some
              ⟨none, if i + 1 < (metRows standard false 0 records).length then some (0 + i + 1)
                else none, none, r⟩ := by
            have hi' : (metRows standard false 0 records)[i]? = some r := hi
            rw [Nat.zero_add, laid_getElem?, hi']
            simp only [Option.map_some, Nat.zero_add]
          rw [row_eq _ hc, line_ids, List.mem_range'_1]
          refine ⟨⟨Nat.zero_le _, ?_⟩, rfl, shape_met (List.mem_of_getElem? hi)⟩
          dsimp only
          omega
  · rw [line_ids, List.mem_range'_1] at hx
    have hlt : x < records.length := by dsimp only at hx; omega
    have hc := List.getElem?_eq_getElem (show x <
      (laid none 0 (metRows standard false 0 records)).length by omega)
    have hrun : (if records.length = 0 then none else some 0 : Option Nat).map
        (fun id => (id, records.length)) = some (0, records.length) := by
      rw [if_neg (by omega)]
      rfl
    refine ⟨0, records.length, ?_, Nat.zero_le _, hlt⟩
    rw [row_eq _ hc, (hrow hc).1]
    exact hrun
  · show (firstAt 0 records.length).map _ ≠ none
    unfold firstAt
    rw [if_neg fun e => hne (by rw [hread, List.length_eq_zero_iff.mp e]; rfl)]
    nofun

/-! ## Runs -/

theorem Birth.blank {command : Command standard} {store : Store} {r : Row} {edit : Edit}
    (h : m.Birth command store r edit) : r.Blank ∧ ¬ r.FromSource := by
  cases h with
  | stored => exact ⟨blank_authored _ _ rfl, fun e => e.2.2 rfl⟩
  | @copied src s => exact ⟨blank_cloned s.body, fun e => nomatch e.2.1⟩
  | designated => exact ⟨blank_authored _ _ rfl, fun e => e.2.2 rfl⟩
  | imported => exact ⟨blank_authored _ _ rfl, fun e => e.2.2 rfl⟩

theorem Landing.blank {src : Nat} {s : Cell Row} {r : Row} (h : Landing src s r) :
    r.Blank ∧ ¬ r.FromSource := by
  cases h with
  | record => exact ⟨blank_cloned s.body, fun e => nomatch e.2.1⟩
  | payload => exact ⟨blank_authored _ _ rfl, fun e => e.2.2 rfl⟩

theorem Paved.effect {command : Command standard} (h : m.Paved t) (he : m.Effect command m') :
    ∃ t', m'.Paved t' := by
  cases he with
  | refl => exact ⟨t, h⟩
  | @edited store id edit _ =>
    have hs : (m.withStore store).Paved t := h.of_rows rfl rfl rfl rfl
    exact hs.applyEdit id edit
  | @born store anchor plan id r edit ha hid hb =>
    have hp := h.rooted.anchored ha
    have hs : (m.withStore store).Paved t := h.of_rows rfl rfl rfl rfl
    rw [mintRow_eq hid]
    exact ⟨_, hs.insert ⟨hp.parent, hp.prev⟩ hb.blank.1 hb.blank.2 edit⟩
  | @moved src s anchor plan id r _ _ ha _ hid hl =>
    rw [mintRow_eq hid]
    exact (h.splice (h.rooted.anchored ha) hl.blank.1 hl.blank.2).applyMove _ _
  | entered hl _ hslot => exact h.entered hl hslot
  | reverted => exact h.reverted

/-- Every reachable machine is paved. -/
theorem paved_run (h : m.Paved t) (commands : List (Command standard)) :
    ∃ t', (m.performAll commands).Paved t' := by
  induction commands generalizing m t with
  | nil => exact ⟨t, h⟩
  | cons command commands ih =>
    obtain ⟨t', h'⟩ := h.effect (perform_effect m command)
    exact ih h'

end Machine

end ProtobufEdit.Revise
