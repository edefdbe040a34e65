import ProtobufEdit.Arena.Links
import ProtobufEdit.Arena.Walk
import ProtobufEdit.Revise.Enter

/-!
# The live rows as a forest

The links of the live rows lay out a forest, and every layer's tail is the row its links reach.
Marks leave the forest; an orphaned interior, a parsed one and a spliced row change one layer.
-/

namespace ProtobufEdit.Revise

open Wire Wire.Groupless Varint Arena

/-- The layer an opened slot holds. -/
def Slot.layer : Slot → Layer
  | .opened layer => layer
  | _ => ⟨none, 0, 0, none⟩

namespace Machine

variable {standard : Standard} {m m' : Machine standard} {t : Forest Unit}

theorem holdingLayer_some (id : Nat) :
    m.holdingLayer (some id) = (m.row id).body.slot.layer := by
  cases h : (m.row id).body.slot <;> simp only [holdingLayer, Slot.layer, h]

/-- The forest's rows are the live ones, children stand behind their parents in the arena, and
every layer knows its last row. -/
structure Rooted (m : Machine standard) (t : Forest Unit) : Prop where
  laid : Laid (links m.rows) none m.top t
  nodup : t.ids.Nodup
  alive : ∀ {x : Nat} {c : Cell Row}, m.rows[x]? = some c → (x ∈ t.ids ↔ c.body.dead = false)
  grown : Grown (links m.rows)
  tail : ∀ o : Option Nat, (∀ x, o = some x → x ∈ t.ids) →
    (m.holdingLayer o).last = (t.layer o).getLast?

/-! ## What the forest hangs on -/

theorem links_bare (rows : List (Cell Row)) : links (rows.map (Cell.map Row.bare)) = links rows := by
  unfold links
  rw [List.map_map]
  rfl

theorem holdingLayer_bare (o : Option Nat) :
    (m.bare.holdingLayer o).last = (m.holdingLayer o).last := by
  cases o with
  | none => rfl
  | some id =>
    rw [holdingLayer_some, holdingLayer_some, bare_row]
    show (m.row id).body.slot.bare.layer.last = _
    cases (m.row id).body.slot <;> rfl

theorem rooted_bare : m.bare.Rooted t ↔ m.Rooted t := by
  constructor
  · rintro ⟨hlaid, hnodup, ha, hgrown, htail⟩
    rw [bare_rows, links_bare] at hlaid hgrown
    refine ⟨hlaid, hnodup, fun {x c} hc => ?_, hgrown, fun o ho => ?_⟩
    · have hb : m.bare.rows[x]? = some (c.map Row.bare) := by
        rw [bare_getElem?, hc]
        rfl
      have hdead := ha hb
      exact hdead
    · exact (holdingLayer_bare o).symm.trans (htail o ho)
  · rintro ⟨hlaid, hnodup, ha, hgrown, htail⟩
    refine ⟨?_, hnodup, fun {x c} hc => ?_, ?_, fun o ho => ?_⟩
    · rw [bare_rows, links_bare]
      exact hlaid
    · rw [bare_getElem?] at hc
      obtain ⟨b, hb, rfl⟩ := Option.map_eq_some_iff.mp hc
      have hdead := ha hb
      exact hdead
    · rw [bare_rows, links_bare]
      exact hgrown
    · exact (holdingLayer_bare o).trans (htail o ho)

/-- The marks are no part of the forest. -/
theorem Rooted.of_bare (h : m.Rooted t) (hb : m'.bare = m.bare) : m'.Rooted t :=
  rooted_bare.mp (hb ▸ rooted_bare.mpr h)

/-- Neither are the other tables. -/
theorem Rooted.of_rows (h : m.Rooted t) (hrows : m'.rows = m.rows) (htop : m'.top = m.top)
    (hroot : m'.root.last = m.root.last) : m'.Rooted t := by
  obtain ⟨hlaid, hnodup, ha, hgrown, htail⟩ := h
  refine ⟨by rwa [hrows, htop], hnodup, fun hc => ha (hrows ▸ hc), by rwa [hrows], ?_⟩
  intro o ho
  rw [← htail o ho]
  cases o with
  | none => exact hroot
  | some id =>
    have hrow : m'.row id = m.row id := by
      show m'.rows.getD id default = m.rows.getD id default
      rw [hrows]
    rw [holdingLayer_some, holdingLayer_some, hrow]

theorem row_modify (f : Cell Row → Cell Row) (id x : Nat) (c : Cell Row)
    (h : (m.rows.modify id f)[x]? = some c) :
    ∃ b, m.rows[x]? = some b ∧ c = if x = id then f b else b := by
  rw [List.getElem?_modify] at h
  cases hb : m.rows[x]? with
  | none => rw [hb] at h; cases h
  | some b =>
    rw [hb] at h
    refine ⟨b, rfl, ?_⟩
    by_cases hx : id = x
    · simpa [hx] using h.symm
    · simpa [hx, Ne.symm hx] using h.symm

theorem setRow_row {f : Row → Row} (id x : Nat) (hx : x < m.rows.length) :
    (m.setRow id f).row x = if x = id then (m.row x).map f else m.row x := by
  show (m.rows.modify id (Cell.map f)).getD x default = _
  rw [List.getD_eq_getElem?_getD, List.getElem?_modify, List.getElem?_eq_getElem hx]
  have hrow : m.row x = m.rows[x] := m.row_eq (List.getElem?_eq_getElem hx)
  by_cases he : id = x
  · subst he
    simp [hrow]
  · simp [he, Ne.symm he, hrow]

/-- A row that keeps its death and its slot. -/
theorem Rooted.setRow (h : m.Rooted t) {f : Row → Row} (hdead : ∀ r, (f r).dead = r.dead)
    (hslot : ∀ r, (f r).slot.layer.last = r.slot.layer.last) (id : Nat) :
    (m.setRow id f).Rooted t := by
  obtain ⟨hlaid, hnodup, ha, hgrown, htail⟩ := h
  have hlinks : links (m.setRow id f).rows = links m.rows := links_modify _ _ _
  refine ⟨by rwa [hlinks], hnodup, fun {x c} hc => ?_, by rwa [hlinks], fun o ho => ?_⟩
  · obtain ⟨b, hb, rfl⟩ := row_modify _ _ _ _ hc
    rw [ha hb]
    split
    · show _ ↔ (f b.body).dead = false
      rw [hdead]
    · exact Iff.rfl
  · rw [← htail o ho]
    cases o with
    | none => rfl
    | some x =>
      have hx : x < m.rows.length := by
        have := hlaid.lt (ho x rfl)
        rwa [links_length] at this
      rw [holdingLayer_some, holdingLayer_some, setRow_row id x hx]
      split
      · exact hslot _
      · rfl

theorem Rooted.lt (h : m.Rooted t) {x : Nat} (hx : x ∈ t.ids) : x < m.rows.length := by
  have := h.laid.lt hx
  rwa [links_length] at this

theorem Rooted.cell (h : m.Rooted t) {x : Nat} (hx : x ∈ t.ids) :
    m.rows[x]? = some (m.row x) ∧ (m.row x).body.dead = false := by
  have hc := List.getElem?_eq_getElem (h.lt hx)
  rw [m.row_eq hc]
  exact ⟨hc, (h.alive hc).mp hx⟩

theorem Rooted.mem (h : m.Rooted t) {x : Nat} {c : Cell Row} (hl : m.live x = .ok c) :
    x ∈ t.ids := by
  obtain ⟨hc, hd⟩ := live_ok hl
  exact (h.alive hc).mpr hd

/-- A live row's parent is live. -/
theorem Rooted.parent (h : m.Rooted t) {x p : Nat} (hx : x ∈ t.ids)
    (hp : (m.row x).parent = some p) : p ∈ t.ids := by
  have hhangs : Hangs (links m.rows) x p := ⟨_, links_of_cell (h.cell hx).1, hp⟩
  obtain ⟨u, hu, -⟩ := h.laid.hangs h.nodup hx hhangs
  exact Forest.mem_of_kidsOf hu

theorem Rooted.parent_lt (h : m.Rooted t) {x p : Nat} (hx : x < m.rows.length)
    (hp : (m.row x).parent = some p) : p < x := by
  have hc := List.getElem?_eq_getElem hx
  refine h.grown x p ⟨_, links_of_cell hc, ?_⟩
  rwa [m.row_eq hc] at hp

/-- The rows of a layer. -/
theorem Rooted.mem_layer (h : m.Rooted t) {x : Nat} {o : Option Nat} :
    x ∈ t.layer o ↔ x ∈ t.ids ∧ (m.row x).parent = o := by
  rw [h.laid.mem_layer h.nodup]
  refine and_congr_right fun hx => ?_
  have hc := links_of_cell (h.cell hx).1
  constructor
  · rintro ⟨c, hc', hp⟩
    obtain rfl := Option.some.inj (hc.symm.trans hc')
    exact hp
  · intro hp
    exact ⟨_, hc, hp⟩

/-! ## Orphans -/

/-- The rows, some of them dead. -/
def bury (ids : List Nat) (rows : List (Cell Row)) : List (Cell Row) :=
  ids.foldl (fun rows x => rows.modify x (Cell.map Row.setDead)) rows

@[simp] theorem bury_links (ids : List Nat) (rows : List (Cell Row)) :
    links (bury ids rows) = links rows := by
  induction ids generalizing rows with
  | nil => rfl
  | cons x ids ih => exact (ih _).trans (links_modify _ _ _)

@[simp] theorem bury_length (ids : List Nat) (rows : List (Cell Row)) :
    (bury ids rows).length = rows.length := by
  rw [← links_length, bury_links, links_length]

theorem bury_append (a b : List Nat) (rows : List (Cell Row)) :
    bury (a ++ b) rows = bury b (bury a rows) := List.foldl_append

theorem bury_getElem? (ids : List Nat) (rows : List (Cell Row)) (x : Nat) :
    (bury ids rows)[x]? =
      rows[x]?.map fun c => if x ∈ ids then c.map Row.setDead else c := by
  induction ids generalizing rows with
  | nil => cases h : rows[x]? <;> simp [bury, h]
  | cons y ids ih =>
    have hstep : (bury (y :: ids) rows)[x]? =
        (bury ids (rows.modify y (Cell.map Row.setDead)))[x]? := rfl
    rw [hstep, ih, List.getElem?_modify]
    cases rows[x]? with
    | none => rfl
    | some c =>
      by_cases hy : y = x
      · subst hy
        by_cases hin : y ∈ ids <;> simp [hin, Cell.map, Row.setDead]
      · simp [hy, Ne.symm hy]

/-- The links of a row, of those that say where a walk goes. -/
theorem getD_links {rows rows' : List (Cell Row)} (h : links rows' = links rows) (x : Nat) :
    (rows'.getD x default).parent = (rows.getD x default).parent ∧
      (rows'.getD x default).next = (rows.getD x default).next ∧
      (rows'.getD x default).kid = (rows.getD x default).kid := by
  have hx := congrArg (·[x]?) h
  simp only [links_getElem?] at hx
  rw [List.getD_eq_getElem?_getD, List.getD_eq_getElem?_getD]
  cases hr' : rows'[x]? with
  | none =>
    cases hr : rows[x]? with
    | none => exact ⟨rfl, rfl, rfl⟩
    | some c => rw [hr', hr] at hx; cases hx
  | some c' =>
    cases hr : rows[x]? with
    | none => rw [hr', hr] at hx; cases hx
    | some c =>
      rw [hr', hr] at hx
      have he := Option.some.inj hx
      injection he with hp hn hk
      exact ⟨hp, hn, hk⟩

theorem preorderClimb_links {rows rows' : List (Cell Row)} (h : links rows' = links rows)
    (root fuel x : Nat) : preorderClimb rows' root fuel x = preorderClimb rows root fuel x := by
  induction fuel generalizing x with
  | zero => rfl
  | succ fuel ih =>
    obtain ⟨hp, hn, -⟩ := getD_links h x
    unfold preorderClimb
    simp only [hp, hn]
    split
    · rfl
    · split
      · rfl
      · split
        · exact ih _
        · rfl

/-- A climb to a link up takes no more turns than the row's place in the arena. -/
theorem preorderClimb_fuel {rows : List (Cell Row)} (hg : Grown (links rows)) (root : Nat)
    {fuel fuel' x : Nat} (hx : x < fuel) (hx' : x < fuel') :
    preorderClimb rows root fuel x = preorderClimb rows root fuel' x := by
  induction fuel generalizing fuel' x with
  | zero => omega
  | succ fuel ih =>
    cases fuel' with
    | zero => omega
    | succ fuel' =>
      unfold preorderClimb
      simp only
      split
      · rfl
      · split
        · rfl
        · split
          · next parent hp =>
            have hlt : parent < x := by
              rw [List.getD_eq_getElem?_getD] at hp
              cases hc : rows[x]? with
              | none =>
                rw [hc] at hp
                cases hp
              | some c =>
                rw [hc] at hp
                exact hg x parent ⟨_, links_of_cell hc, hp⟩
            exact ih (by omega) (by omega)
          · rfl

section Walk

variable {rows rows' : List (Cell Row)} {root : Nat}

theorem orphanFrom_step (h : links rows' = links rows) (fuel id : Nat) :
    orphanFrom root (fuel + 1) (some id) rows' =
      orphanFrom root fuel
        ((rows.getD id default).kid.or (preorderClimb rows root (rows.length + 1) id))
        (rows'.modify id (Cell.map Row.setDead)) := by
  have hlinks : links (rows'.modify id (Cell.map Row.setDead)) = links rows :=
    (links_modify _ _ _).trans h
  have hlen : (rows'.modify id (Cell.map Row.setDead)).length = rows.length := by
    rw [← links_length, hlinks, links_length]
  have hkid := (getD_links hlinks id).2.2
  show orphanFrom root fuel (preorderNext _ id root) _ = _
  unfold preorderNext
  rw [hkid, hlen, preorderClimb_links hlinks]
  cases (rows.getD id default).kid <;> rfl

/-- The climb out of a row that is not the root. -/
theorem preorderClimb_out (hg : Grown (links rows)) {id p : Nat} {c : Cell Row}
    (hc : rows[id]? = some c) (hp : c.parent = some p) (hid : id ≠ root) :
    preorderClimb rows root (rows.length + 1) id =
      c.next.or (preorderClimb rows root (rows.length + 1) p) := by
  obtain ⟨hlt, -⟩ := List.getElem?_eq_some_iff.mp hc
  have hup : p < id := hg id p ⟨_, links_of_cell hc, hp⟩
  conv => lhs; unfold preorderClimb
  rw [if_neg hid, List.getD_eq_getElem?_getD, hc]
  simp only [Option.getD_some, hp]
  cases c.next with
  | some next => rfl
  | none => exact preorderClimb_fuel hg root (by omega) (by omega)

/-- The walk over a layer's rows and all that is below them buries these, and goes on behind. -/
theorem orphanFrom_layer (hg : Grown (links rows)) {p : Nat} {parent first : Option Nat}
    {u : Forest Unit} (hu : Laid (links rows) parent first u) (hp : parent = some p)
    (hroot : root ∉ u.ids) (hne : u ≠ .nil) (h : links rows' = links rows) (fuel : Nat) :
    orphanFrom root (fuel + u.size) first rows' =
      orphanFrom root fuel (preorderClimb rows root (rows.length + 1) p) (bury u.ids rows') := by
  induction hu generalizing p rows' fuel with
  | nil => exact absurd rfl hne
  | @node parent next kid id b kids rest hcell hk hr ihk ihr =>
    obtain ⟨c, hc, hparent, hnext, hkid⟩ := cell_of_links hcell
    simp only at hparent hnext hkid
    simp only [Forest.mem_ids_node, not_or] at hroot
    obtain ⟨hid, hrootk, hrootr⟩ := hroot
    have hsize : fuel + (Forest.node id b kids rest).size =
        (fuel + rest.size + kids.size) + 1 := by
      simp only [Forest.size, Forest.ids, List.length_cons, List.length_append]
      omega
    have hout := preorderClimb_out hg hc (hparent.trans hp) (Ne.symm hid)
    rw [hnext] at hout
    rw [hsize, orphanFrom_step h, List.getD_eq_getElem?_getD, hc, Option.getD_some, hkid]
    have hlinks : links (rows'.modify id (Cell.map Row.setDead)) = links rows :=
      (links_modify _ _ _).trans h
    -- into the children and out of the row
    have hin : orphanFrom root (fuel + rest.size + kids.size)
          (kid.or (preorderClimb rows root (rows.length + 1) id))
          (rows'.modify id (Cell.map Row.setDead)) =
        orphanFrom root (fuel + rest.size) (preorderClimb rows root (rows.length + 1) id)
          (bury kids.ids (rows'.modify id (Cell.map Row.setDead))) := by
      cases kids with
      | nil =>
        cases hk
        rfl
      | node y a kids' rest' =>
        cases hk with
        | node hcell' hk' hr' =>
          exact ihk rfl hrootk nofun hlinks _
    rw [hin, hout]
    have hlinks' : links (bury kids.ids (rows'.modify id (Cell.map Row.setDead))) = links rows :=
      (bury_links _ _).trans hlinks
    have hbury : bury (Forest.node id b kids rest).ids rows' =
        bury rest.ids (bury kids.ids (rows'.modify id (Cell.map Row.setDead))) := by
      rw [Forest.ids]
      exact bury_append kids.ids rest.ids _
    rw [hbury]
    cases rest with
    | nil =>
      cases hr
      rfl
    | node y a kids' rest' =>
      cases hr with
      | node hcell' hk' hr' =>
        exact ihr hp hrootr nofun hlinks' _

/-- The walk bounded to a row's subtree buries the subtree. -/
theorem orphanFrom_eq (hg : Grown (links rows)) {first : Option Nat} {u : Forest Unit}
    (hu : Laid (links rows) (some root) first u) (hroot : root ∉ u.ids)
    (h : links rows' = links rows) {fuel : Nat} (hfuel : u.size ≤ fuel) :
    orphanFrom root (fuel + 1) first rows' = bury u.ids rows' := by
  obtain ⟨extra, rfl⟩ := Nat.exists_eq_add_of_le hfuel
  cases u with
  | nil =>
    cases hu
    rfl
  | node id b kids rest =>
    rw [show (Forest.node id b kids rest).size + extra + 1 =
      (extra + 1) + (Forest.node id b kids rest).size by omega,
      orphanFrom_layer hg hu rfl hroot nofun h]
    unfold preorderClimb
    rw [if_pos rfl]
    rfl

end Walk

/-- A slot set: the row's link to its first child is new. -/
theorem links_setSlot (m : Machine standard) (id : Nat) (slot : Slot) (first : Option Nat)
    (x : Nat) :
    (links (m.setSlot id slot first).rows)[x]? =
      (links m.rows)[x]?.map fun c => if x = id then { c with kid := first } else c := by
  rw [links_getElem?, links_getElem?]
  show ((m.rows.modify id _)[x]?).map _ = _
  rw [List.getElem?_modify]
  cases m.rows[x]? with
  | none => rfl
  | some c =>
    by_cases hx : id = x
    · simp [hx]
    · simp [hx, Ne.symm hx]

theorem grown_congr {cells cells' : List (Cell Unit)} (h : Grown cells)
    (he : ∀ (x : Nat) (c : Cell Unit), cells'[x]? = some c → ∃ b, cells[x]? = some b ∧ b.parent = c.parent) :
    Grown cells' := by
  rintro x p ⟨c, hc, hp⟩
  obtain ⟨b, hb, hparent⟩ := he x c hc
  exact h x p ⟨b, hb, hparent.trans hp⟩

theorem setSlot_parent (m : Machine standard) (id : Nat) (slot : Slot) (first : Option Nat)
    (x : Nat) (c : Cell Unit) (hc : (links (m.setSlot id slot first).rows)[x]? = some c) :
    ∃ b, (links m.rows)[x]? = some b ∧ b.parent = c.parent := by
  rw [links_setSlot] at hc
  obtain ⟨b, hb, rfl⟩ := Option.map_eq_some_iff.mp hc
  refine ⟨b, hb, ?_⟩
  split <;> rfl

theorem setSlot_row (id : Nat) (slot : Slot) (first : Option Nat) {x : Nat}
    (hx : x < m.rows.length) :
    (m.setSlot id slot first).row x =
      if x = id then { m.row x with kid := first, body := { (m.row x).body with slot } }
      else m.row x := by
  show (m.rows.modify id _).getD x default = _
  rw [List.getD_eq_getElem?_getD, List.getElem?_modify, List.getElem?_eq_getElem hx]
  have hrow : m.row x = m.rows[x] := m.row_eq (List.getElem?_eq_getElem hx)
  by_cases he : id = x
  · subst he
    simp [hrow]
  · simp [he, Ne.symm he, hrow]

/-- The rows of an orphaned interior. -/
theorem Rooted.orphanInterior_rows (h : m.Rooted t) {id : Nat} {u : Forest Unit}
    (hu : t.kidsOf id = some u) :
    (m.orphanInterior id).rows = bury u.ids (m.setSlot id .unopened none).rows := by
  have hid : id ∈ t.ids := Forest.mem_of_kidsOf hu
  have hnot : id ∉ u.ids := Forest.not_mem_kidsOf h.nodup hu
  obtain ⟨c, hc, hkids⟩ := h.laid.kids hu
  obtain rfl := Option.some.inj ((links_of_cell (h.cell hid).1).symm.trans hc)
  have hlaid : Laid (links (m.setSlot id .unopened none).rows) (some id) (m.row id).kid u := by
    refine hkids.frame fun x hx => ?_
    rw [links_setSlot]
    cases (links m.rows)[x]? with
    | none => rfl
    | some b => exact congrArg some (if_neg fun e : x = id => hnot (e ▸ hx))
  have hgrown : Grown (links (m.setSlot id .unopened none).rows) :=
    grown_congr h.grown (setSlot_parent m id _ _)
  have hsize : u.size ≤ m.rows.length := by
    have := hkids.size_le (h.nodup.sublist (Forest.kidsOf_sublist hu))
    rwa [links_length] at this
  exact orphanFrom_eq hgrown hlaid hnot rfl hsize

/-- What an orphaned interior leaves of a row. -/
theorem Rooted.orphanInterior_getElem? (h : m.Rooted t) {id : Nat} {u : Forest Unit}
    (hu : t.kidsOf id = some u) (x : Nat) :
    (m.orphanInterior id).rows[x]? = m.rows[x]?.map fun c =>
      if x = id then { c with kid := none, body := { c.body with slot := .unopened } }
      else if x ∈ u.ids then c.map Row.setDead else c := by
  have hnot : id ∉ u.ids := Forest.not_mem_kidsOf h.nodup hu
  rw [h.orphanInterior_rows hu, bury_getElem?]
  show ((m.rows.modify id _)[x]?).map _ = _
  rw [List.getElem?_modify]
  cases m.rows[x]? with
  | none => rfl
  | some c =>
    by_cases hx : id = x
    · subst hx
      simp [hnot]
    · simp [hx, Ne.symm hx]

theorem Rooted.orphanInterior_row (h : m.Rooted t) {id : Nat} {u : Forest Unit}
    (hu : t.kidsOf id = some u) {x : Nat} (hx : x ∈ t.ids) (hn : x ∉ u.ids) :
    (m.orphanInterior id).row x =
      if x = id then { m.row x with kid := none, body := { (m.row x).body with slot := .unopened } }
      else m.row x := by
  have hc := h.orphanInterior_getElem? hu x
  rw [(h.cell hx).1, Option.map_some] at hc
  rw [row_eq _ hc]
  by_cases he : x = id
  · simp [he]
  · simp [he, hn]

theorem mem_rekid_nil (hnodup : t.ids.Nodup) {id x : Nat} {u : Forest Unit}
    (hu : t.kidsOf id = some u) : x ∈ (t.rekid id .nil).ids ↔ x ∈ t.ids ∧ x ∉ u.ids := by
  rw [Forest.ids_rekid hnodup hu]
  exact or_iff_left List.not_mem_nil

theorem Rooted.orphan (h : m.Rooted t) {id : Nat} {u : Forest Unit}
    (hu : t.kidsOf id = some u) : (m.orphanInterior id).Rooted (t.rekid id .nil) := by
  have hid : id ∈ t.ids := Forest.mem_of_kidsOf hu
  have hlinks : links (m.orphanInterior id).rows = links (m.setSlot id .unopened none).rows := by
    rw [h.orphanInterior_rows hu, bury_links]
  have hids : ∀ {x : Nat}, x ∈ (t.rekid id .nil).ids ↔ x ∈ t.ids ∧ x ∉ u.ids :=
    mem_rekid_nil h.nodup hu
  refine ⟨?_, h.nodup.sublist ?_, fun {x c} hc => ?_, ?_, fun o ho => ?_⟩
  · rw [hlinks]
    refine h.laid.rekid h.nodup (fun x _ hne => ?_) (links_of_cell (h.cell hid).1) ?_ .nil
    · rw [links_setSlot]
      cases (links m.rows)[x]? with
      | none => rfl
      | some b => exact congrArg some (if_neg hne)
    · rw [links_setSlot, links_of_cell (h.cell hid).1]
      exact congrArg some (if_pos rfl)
  · exact Forest.rekid_nil_sublist
  · rw [h.orphanInterior_getElem? hu] at hc
    obtain ⟨b, hb, rfl⟩ := Option.map_eq_some_iff.mp hc
    rw [hids, h.alive hb]
    by_cases he : x = id
    · subst he
      have hnot := Forest.not_mem_kidsOf h.nodup hu
      simp [hnot]
    · by_cases hin : x ∈ u.ids
      · simp [he, hin, Cell.map, Row.setDead]
      · simp [he, hin]
  · rw [hlinks]
    exact grown_congr h.grown (setSlot_parent m id _ _)
  · cases o with
    | none =>
      refine (h.tail none (by intro _ e; cases e)).trans ?_
      rw [Forest.layer_none, Forest.layer_none, Forest.rekid, Forest.tops_hang fun _ => rfl]
    | some x =>
      obtain ⟨hx, hn⟩ := hids.mp (ho x rfl)
      rw [holdingLayer_some, h.orphanInterior_row hu hx hn]
      by_cases he : x = id
      · subst he
        rw [if_pos rfl, Forest.layer_rekid_self hid]
        rfl
      · rw [if_neg he, ← holdingLayer_some, h.tail (some x) (by rintro _ ⟨⟩; exact hx)]
        rw [Forest.layer_rekid h.nodup List.not_mem_nil (by rwa [hu]) he]

/-! ## Parsed interiors -/

/-- Rows with no children, one behind the other. -/
def line (ids : List Nat) : Forest Unit := ids.foldr (fun x rest => .node x () .nil rest) .nil

@[simp] theorem line_ids (ids : List Nat) : (line ids).ids = ids := by
  induction ids with
  | nil => rfl
  | cons x ids ih => exact congrArg (x :: ·) ih

@[simp] theorem line_tops (ids : List Nat) : (line ids).tops = ids := by
  induction ids with
  | nil => rfl
  | cons x ids ih => exact congrArg (x :: ·) ih

theorem laid_line {cells : List (Cell Row)} {parent : Option Nat} {rows : List Row}
    {base k n : Nat} (h : ∀ i, cells[base + i]? = (laid parent base rows)[i]?)
    (hk : k + n = rows.length) :
    Laid (links cells) parent (if n = 0 then none else some (base + k))
      (line (List.range' (base + k) n)) := by
  induction n generalizing k with
  | zero => exact .nil
  | succ n ih =>
    have hcell : cells[base + k]? =
        some ⟨parent, if k + 1 < rows.length then some (base + k + 1) else none, none,
          rows.get ⟨k, by omega⟩⟩ := by
      rw [h, laid_getElem?, List.getElem?_eq_getElem (by omega)]
      rfl
    have hrest := ih (k := k + 1) (by omega)
    have hnext : (if k + 1 < rows.length then some (base + k + 1) else none) =
        if n = 0 then none else some (base + (k + 1)) := by
      by_cases hn : n = 0
      · rw [if_neg (by omega), if_pos hn]
      · rw [if_pos (by omega), if_neg hn]
        rfl
    rw [if_neg (Nat.succ_ne_zero n), List.range'_succ]
    refine .node (links_of_cell hcell) .nil ?_
    rw [hnext]
    exact hrest

theorem getLast?_range' (base n : Nat) : (List.range' base n).getLast? = lastAt base n := by
  unfold lastAt
  cases n with
  | zero => rfl
  | succ n =>
    rw [if_neg (Nat.succ_ne_zero n), List.range'_concat, List.getLast?_concat]
    exact congrArg some (by omega)

/-- A row that was never parsed has no children. -/
theorem Rooted.unopened (h : m.Rooted t) {id : Nat} (hid : id ∈ t.ids)
    (hslot : (m.row id).body.slot.layer.last = none) : t.kidsOf id = some .nil := by
  obtain ⟨u, hu⟩ := Forest.exists_kidsOf hid
  have htail := h.tail (some id) (by rintro _ ⟨⟩; exact hid)
  rw [holdingLayer_some, hslot, Forest.layer_some, hu] at htail
  have hnil : u.tops = [] := List.getLast?_eq_none_iff.mp htail.symm
  rw [hu, Forest.tops_eq_nil.mp hnil]

/-- A row's interior parsed: `rows` lie behind the arena, and the row opens onto them. -/
structure Sprouts (m m' : Machine standard) (id : Nat) (rows : List Row)
    (run : Option (Nat × Nat)) : Prop where
  source : m'.source = m.source
  store : m'.store = m.store
  root : m'.root = m.root
  top : m'.top = m.top
  log : m'.log = m.log
  length : m'.rows.length = m.rows.length + rows.length
  old : ∀ x < m.rows.length, m'.rows[x]? = m.rows[x]?.map fun c =>
    if x = id then
      { c with
        kid := firstAt m.rows.length rows.length
        body := { c.body with slot := .opened ⟨lastAt m.rows.length rows.length, 0, 0, run⟩ } }
    else c
  fresh : ∀ i, m'.rows[m.rows.length + i]? = (Revise.laid (some id) m.rows.length rows)[i]?

section Sprouts

variable {id x : Nat} {rows : List Row} {run : Option (Nat × Nat)}

theorem sprouts (hid : id < m.rows.length) (rows : List Row) (run : Option (Nat × Nat))
    (layers runs : Nat) :
    m.Sprouts (({ m with rows := m.rows ++ Revise.laid (some id) m.rows.length rows, layers, runs } :
        Machine standard).setSlot id (.opened ⟨lastAt m.rows.length rows.length, 0, 0, run⟩)
      (firstAt m.rows.length rows.length)) id rows run := by
  refine ⟨rfl, rfl, rfl, rfl, rfl, ?_, fun x hx => ?_, fun i => ?_⟩
  · show (List.modify _ _ _).length = _
    rw [List.length_modify, List.length_append, laid_length]
  · show ((m.rows ++ Revise.laid (some id) m.rows.length rows).modify id _)[x]? = _
    rw [List.getElem?_modify, List.getElem?_append_left hx]
    cases m.rows[x]? with
    | none => rfl
    | some c => by_cases he : id = x <;> simp [he, eq_comm (a := x)]
  · show ((m.rows ++ Revise.laid (some id) m.rows.length rows).modify id _)[m.rows.length + i]? = _
    rw [List.getElem?_modify, List.getElem?_append_right (Nat.le_add_right _ _),
      Nat.add_sub_cancel_left]
    have hne : id ≠ m.rows.length + i := by omega
    cases (Revise.laid (some id) m.rows.length rows)[i]? <;> simp [hne]

namespace Sprouts

variable (hs : m.Sprouts m' id rows run)

include hs

theorem row_other (hx : x < m.rows.length) (hne : x ≠ id) : m'.row x = m.row x := by
  have hc := List.getElem?_eq_getElem hx
  rw [m.row_eq hc, m'.row_eq]
  rw [hs.old x hx, hc, Option.map_some, if_neg hne]

theorem row_self (hid : id < m.rows.length) : m'.row id =
    { m.row id with
      kid := firstAt m.rows.length rows.length
      body := { (m.row id).body with
        slot := .opened ⟨lastAt m.rows.length rows.length, 0, 0, run⟩ } } := by
  have hc := List.getElem?_eq_getElem hid
  rw [m.row_eq hc, m'.row_eq]
  rw [hs.old id hid, hc, Option.map_some, if_pos rfl]

/-- What a row that was there is, it stays, but for where the interior hangs. -/
theorem row_old (hx : x < m.rows.length) : (m'.row x).parent = (m.row x).parent ∧
    (m'.row x).body.core = (m.row x).body.core := by
  by_cases he : x = id
  · subst he
    rw [hs.row_self hx]
    exact ⟨rfl, rfl⟩
  · rw [hs.row_other hx he]
    exact ⟨rfl, rfl⟩

theorem cell_new {i : Nat} {c : Cell Row} (hc : m'.rows[m.rows.length + i]? = some c) :
    c.parent = some id ∧ rows[i]? = some c.body := by
  rw [hs.fresh, laid_getElem?] at hc
  obtain ⟨r, hr, rfl⟩ := Option.map_eq_some_iff.mp hc
  exact ⟨rfl, hr⟩

theorem row_new {i : Nat} {r : Row} (hi : rows[i]? = some r) :
    (m'.row (m.rows.length + i)).parent = some id ∧ (m'.row (m.rows.length + i)).body = r := by
  have hc := hs.fresh i
  rw [laid_getElem?, hi] at hc
  rw [m'.row_eq hc]
  exact ⟨rfl, rfl⟩

theorem links_other (hx : x < m.rows.length) (hne : x ≠ id) :
    (links m'.rows)[x]? = (links m.rows)[x]? := by
  rw [links_getElem?, links_getElem?, hs.old x hx]
  cases m.rows[x]? with
  | none => rfl
  | some c => rw [Option.map_some, if_neg hne]

theorem links_self (hid : id < m.rows.length) : (links m'.rows)[id]? =
    some ⟨(m.row id).parent, (m.row id).next, firstAt m.rows.length rows.length, ()⟩ := by
  have hc := List.getElem?_eq_getElem hid
  rw [m.row_eq hc, links_getElem?, hs.old id hid, hc, Option.map_some, if_pos rfl]
  rfl

/-- A row behind the parse is one that was there or one of the interior's. -/
theorem old_or_new (hx : x < m'.rows.length) :
    x < m.rows.length ∨ ∃ i r, x = m.rows.length + i ∧ rows[i]? = some r := by
  rw [hs.length] at hx
  rcases Nat.lt_or_ge x m.rows.length with hlt | hge
  · exact .inl hlt
  · exact .inr ⟨x - m.rows.length, _, by omega, List.getElem?_eq_getElem (by omega)⟩

/-- Rows hang on rows that were there. -/
theorem hangs (hg : Grown (links m.rows)) (hid : id < m.rows.length) {p : Nat}
    (hp : Hangs (links m'.rows) x p) : p < x ∧ p < m.rows.length := by
  obtain ⟨c, hc, hp⟩ := hp
  obtain ⟨b, hb, hbp, -, -⟩ := cell_of_links hc
  have hbp : b.parent = some p := hbp.trans hp
  rcases hs.old_or_new (List.getElem?_eq_some_iff.mp hb).1 with hlt | ⟨i, r, rfl, hi⟩
  · obtain ⟨hparent, -⟩ := hs.row_old hlt
    have hd := List.getElem?_eq_getElem hlt
    rw [m.row_eq hd, m'.row_eq hb, hbp] at hparent
    have := hg x p ⟨_, links_of_cell hd, hparent.symm⟩
    omega
  · obtain rfl := Option.some.inj ((hs.cell_new hb).1.symm.trans hbp)
    omega

end Sprouts

/-- The forest behind a parse: the rows that were there, and the interior's. -/
theorem Rooted.mem_sprouts (h : m.Rooted t) (hid : id ∈ t.ids)
    (hslot : (m.row id).body.slot.layer.last = none) {n : Nat} :
    x ∈ (t.rekid id (line (List.range' m.rows.length n))).ids ↔
      x ∈ t.ids ∨ m.rows.length ≤ x ∧ x < m.rows.length + n := by
  rw [Forest.ids_rekid h.nodup (h.unopened hid hslot), line_ids, List.mem_range'_1]
  exact or_congr_left ⟨fun hx => hx.1, fun hx => ⟨hx, List.not_mem_nil⟩⟩

/-- Every layer that was there stays, but for the container's. -/
theorem Rooted.layer_sprouts (h : m.Rooted t) (hid : id ∈ t.ids)
    (hslot : (m.row id).body.slot.layer.last = none) {n : Nat} {o : Option Nat}
    (ho : ∀ x, o = some x → x ∈ t.ids) (hne : o ≠ some id) :
    (t.rekid id (line (List.range' m.rows.length n))).layer o = t.layer o := by
  cases o with
  | none => rw [Forest.layer_none, Forest.layer_none, Forest.rekid, Forest.tops_hang fun _ => rfl]
  | some x =>
    refine Forest.layer_rekid h.nodup (fun hn => ?_) ?_ fun e => hne (congrArg some e)
    · rw [line_ids, List.mem_range'_1] at hn
      exact absurd (h.lt (ho x rfl)) (by omega)
    · rw [h.unopened hid hslot]
      exact List.not_mem_nil

variable (h : m.Rooted t) (hid : id ∈ t.ids) (hslot : (m.row id).body.slot.layer.last = none)
  (hs : m.Sprouts m' id rows run)

include h hid

omit hid in
theorem Rooted.nodup_sprouts (n : Nat) :
    (t.rekid id (line (List.range' m.rows.length n))).ids.Nodup := by
  refine Forest.nodup_rekid h.nodup ?_ fun x hx hin => ?_
  · rw [line_ids]
    exact List.nodup_range'
  · rw [line_ids, List.mem_range'_1] at hx
    exact absurd (h.lt hin) (by omega)

include hs

theorem Rooted.laid_sprouts :
    Laid (links m'.rows) none m'.top (t.rekid id (line (List.range' m.rows.length rows.length))) := by
  have hlt := h.lt hid
  rw [hs.top]
  refine h.laid.rekid h.nodup (fun x hx hne => hs.links_other (h.lt hx) hne)
    (links_of_cell (h.cell hid).1) (hs.links_self hlt) ?_
  exact laid_line (k := 0) hs.fresh (Nat.zero_add _)

include hslot

/-- Every layer behind a parse knows its last row. -/
theorem Rooted.tail_sprouts (hrows : ∀ r ∈ rows, r.slot = .unopened) (o : Option Nat)
    (ho : ∀ x, o = some x → x ∈ (t.rekid id (line (List.range' m.rows.length rows.length))).ids) :
    (m'.holdingLayer o).last =
      ((t.rekid id (line (List.range' m.rows.length rows.length))).layer o).getLast? := by
  have hlt := h.lt hid
  cases o with
  | none =>
    have hnone : ∀ x, none = some x → x ∈ t.ids := by
      intro _ e
      cases e
    rw [h.layer_sprouts hid hslot hnone (by intro e; cases e), ← h.tail none hnone]
    exact congrArg Layer.last hs.root
  | some x =>
    rcases (h.mem_sprouts hid hslot).mp (ho x rfl) with hin | ⟨hge, hxlt⟩
    · by_cases he : x = id
      · subst he
        rw [holdingLayer_some, hs.row_self hlt, Forest.layer_rekid_self hid, line_tops,
          getLast?_range']
        rfl
      · have hin' : ∀ y, some x = some y → y ∈ t.ids := by
          rintro _ ⟨⟩
          exact hin
        rw [h.layer_sprouts hid hslot hin' fun e => he (Option.some.inj e), ← h.tail (some x) hin',
          holdingLayer_some, holdingLayer_some, hs.row_other (h.lt hin) he]
    · -- a row of the interior has no children
      have hnil : (t.rekid id (line (List.range' m.rows.length rows.length))).layer (some x) =
          [] := by
        refine List.eq_nil_iff_forall_not_mem.mpr fun y hy => ?_
        obtain ⟨c, hc, hp⟩ := (h.laid_sprouts hid hs).parent_layer hy
        have := hs.hangs h.grown hlt ⟨c, hc, hp.trans Option.or_none⟩
        omega
      rcases hs.old_or_new (x := x) (by rw [hs.length]; omega) with hlt' | ⟨i, r, rfl, hi⟩
      · omega
      · rw [hnil, holdingLayer_some, (hs.row_new hi).2, hrows r (List.mem_of_getElem? hi)]
        rfl

/-- An interior parsed: its rows lie behind the arena. -/
theorem Rooted.parse (hrows : ∀ r ∈ rows, r.dead = false ∧ r.slot = .unopened) :
    m'.Rooted (t.rekid id (line (List.range' m.rows.length rows.length))) := by
  have hlt := h.lt hid
  refine ⟨h.laid_sprouts hid hs, h.nodup_sprouts _, fun {x c} hc => ?_,
    fun x p hp => (hs.hangs h.grown hlt hp).1,
    h.tail_sprouts hid hslot hs fun r hr => (hrows r hr).2⟩
  rw [h.mem_sprouts hid hslot]
  rcases hs.old_or_new (List.getElem?_eq_some_iff.mp hc).1 with hx | ⟨i, r, rfl, hi⟩
  · rw [hs.old x hx] at hc
    obtain ⟨b, hb, rfl⟩ := Option.map_eq_some_iff.mp hc
    rw [h.alive hb]
    have hout : ¬ (m.rows.length ≤ x ∧ x < m.rows.length + rows.length) := by omega
    rw [or_iff_left hout]
    split <;> exact Iff.rfl
  · have hbody := (hs.cell_new hc).2
    have hdead := (hrows _ (List.mem_of_getElem? hbody)).1
    have hi := (List.getElem?_eq_some_iff.mp hbody).1
    exact ⟨fun _ => hdead, fun _ => .inr ⟨by omega, by omega⟩⟩

end Sprouts

/-- A fault parked in a slot that was never parsed. -/
theorem Rooted.park (h : m.Rooted t) {id : Nat} (hid : id ∈ t.ids)
    (hslot : (m.row id).body.slot.layer.last = none) (index : Nat) :
    (m.setSlot id (.fault index) none).Rooted t := by
  have hkids := h.unopened hid hslot
  obtain ⟨c, hc, hchain⟩ := h.laid.kids hkids
  obtain rfl := Option.some.inj ((links_of_cell (h.cell hid).1).symm.trans hc)
  have hkid : (m.row id).kid = none := by
    have hnil : Laid (links m.rows) (some id) (m.row id).kid .nil := hchain
    generalize (m.row id).kid = kid at hnil
    cases hnil
    rfl
  have hlinks : links (m.setSlot id (.fault index) none).rows = links m.rows := by
    apply List.ext_getElem?
    intro x
    rw [links_setSlot]
    by_cases hx : x = id
    · subst hx
      rw [hc, ← hkid]
      exact congrArg some (if_pos rfl)
    · cases (links m.rows)[x]? with
      | none => rfl
      | some b => exact congrArg some (if_neg hx)
  refine ⟨by rw [hlinks]; exact h.laid, h.nodup, fun {x c} hc => ?_, by rw [hlinks]; exact h.grown,
    fun o ho => ?_⟩
  · obtain ⟨b, hb, rfl⟩ := row_modify _ _ _ _ hc
    rw [h.alive hb]
    split <;> exact Iff.rfl
  · rw [← h.tail o ho]
    cases o with
    | none => rfl
    | some x =>
      rw [holdingLayer_some, holdingLayer_some, setSlot_row _ _ _ (h.lt (ho x rfl))]
      split
      · next he =>
        subst he
        exact hslot.symm
      · rfl

/-! ## Splices -/

/-- A splice point in the forest. -/
structure Anchored (m : Machine standard) (t : Forest Unit) (plan : Plan) : Prop where
  parent : ∀ q, plan.parent = some q → q ∈ t.ids ∧ ∃ layer, (m.row q).body.slot = .opened layer
  prev : ∀ p, plan.prev = some p → p ∈ t.layer plan.parent

/-- A row in a layer has an opened parent. -/
theorem Rooted.opened (h : m.Rooted t) {x q : Nat} (hx : x ∈ t.layer (some q)) :
    q ∈ t.ids ∧ ∃ layer, (m.row q).body.slot = .opened layer := by
  have hq : q ∈ t.ids := by
    by_contra hn
    rw [Forest.layer_absent hn] at hx
    cases hx
  refine ⟨hq, ?_⟩
  have htail := h.tail (some q) (by rintro _ ⟨⟩; exact hq)
  rw [holdingLayer_some] at htail
  cases hs : (m.row q).body.slot with
  | opened layer => exact ⟨layer, rfl⟩
  | unopened =>
    rw [hs] at htail
    rw [List.getLast?_eq_none_iff.mp htail.symm] at hx
    cases hx
  | fault index =>
    rw [hs] at htail
    rw [List.getLast?_eq_none_iff.mp htail.symm] at hx
    cases hx

theorem Rooted.gate (h : m.Rooted t) {o : Option Nat} {layer : Layer}
    (hg : m.containerGate o = .ok layer) :
    layer = m.holdingLayer o ∧
      ∀ q, o = some q → q ∈ t.ids ∧ ∃ layer, (m.row q).body.slot = .opened layer := by
  cases o with
  | none =>
    cases hg
    exact ⟨rfl, nofun⟩
  | some q =>
    simp only [containerGate] at hg
    cases hl : m.live q with
    | error fault => rw [hl] at hg; cases hg
    | ok c =>
      rw [hl] at hg
      simp only at hg
      split at hg
      · cases hg
      · split at hg
        · cases hg
        · split at hg
          · cases hg
          · have hrow := m.row_eq (live_ok hl).1
            cases hs : c.body.slot with
            | unopened => rw [hs] at hg; cases hg
            | fault index => rw [hs] at hg; cases hg
            | opened layer' =>
              rw [hs] at hg
              cases hg
              refine ⟨?_, ?_⟩
              · rw [holdingLayer_some, hrow, hs]
                rfl
              · rintro _ ⟨⟩
                exact ⟨h.mem hl, layer, by rw [hrow, hs]⟩

theorem Rooted.anchored (h : m.Rooted t) {anchor : Editor.InsertAt} {plan : Plan}
    (ha : m.resolveAnchor anchor = .ok plan) : m.Anchored t plan := by
  cases anchor with
  | headOf o =>
    obtain ⟨layer, hg, rfl⟩ := map_ok ha
    exact ⟨(h.gate hg).2, nofun⟩
  | tailOf o =>
    obtain ⟨layer, hg, rfl⟩ := map_ok ha
    obtain ⟨rfl, hopen⟩ := h.gate hg
    refine ⟨hopen, fun p hp => ?_⟩
    have htail := h.tail o fun x hx => (hopen x hx).1
    exact List.mem_of_getLast? (htail.symm.trans hp)
  | after anchor =>
    simp only [resolveAnchor] at ha
    cases hl : m.live anchor with
    | error fault => rw [hl] at ha; cases ha
    | ok c =>
      rw [hl] at ha
      simp only at ha
      split at ha
      · cases ha
      · cases ha
        have hmem : anchor ∈ t.layer c.parent := by
          refine h.mem_layer.mpr ⟨h.mem hl, ?_⟩
          rw [m.row_eq (live_ok hl).1]
        refine ⟨fun q hq => ?_, ?_⟩
        · have hparent : c.parent = some q := hq
          rw [hparent] at hmem
          exact h.opened hmem
        · rintro _ ⟨⟩
          exact hmem

/-- One more in a layer: behind another, or in front. -/
def put (prev : Option Nat) (id : Nat) (l : List Nat) : List Nat :=
  match prev with
  | some p => Forest.insertBehind p id l
  | none => id :: l

/-- The forest behind a splice. -/
def spliced (t : Forest Unit) (plan : Plan) (id : Nat) : Forest Unit :=
  match plan.prev with
  | some prev => t.putBehind prev id ()
  | none =>
    match plan.parent with
    | some parent => t.putUnder parent id ()
    | none => .node id () .nil t

/-- A splice, less the layer's tail. -/
def linked (m : Machine standard) (plan : Plan) (id : Nat) (r : Row) : Machine standard :=
  let pushed : Machine standard :=
    { m with rows := m.rows ++ [⟨plan.parent, m.planNext plan, none, r⟩] }
  match plan.prev with
  | some prev => { pushed with rows := pushed.rows.modify prev fun c => { c with next := some id } }
  | none =>
    match plan.parent with
    | some parent =>
      { pushed with rows := pushed.rows.modify parent fun c => { c with kid := some id } }
    | none => { pushed with top := some id }

theorem splice_eq (plan : Plan) (id : Nat) (r : Row) :
    m.splice plan id r =
      if m.planNext plan = none then
        (m.linked plan id r).onLayer plan.parent fun layer => { layer with last := some id }
      else m.linked plan id r := rfl

theorem Anchored.prev_mem {plan : Plan} (ha : m.Anchored t plan) {p : Nat}
    (hp : plan.prev = some p) : p ∈ t.ids := (Forest.layer_sublist _).subset (ha.prev p hp)

theorem spliced_ids {plan : Plan} (ha : m.Anchored t plan) (id : Nat) :
    (spliced t plan id).ids.Perm (id :: t.ids) := by
  obtain ⟨parent, prev⟩ := plan
  cases prev with
  | some p => exact Forest.ids_putBehind (ha.prev_mem rfl)
  | none =>
    cases parent with
    | some q => exact Forest.ids_putUnder (ha.parent q rfl).1
    | none => exact List.Perm.refl _

theorem spliced_layer (h : m.Rooted t) {plan : Plan} (ha : m.Anchored t plan) {id : Nat}
    {o : Option Nat} (ho : o ≠ some id) :
    (spliced t plan id).layer o =
      if o = plan.parent then put plan.prev id (t.layer o) else t.layer o := by
  obtain ⟨parent, prev⟩ := plan
  cases prev with
  | some p =>
    show (t.putBehind p id ()).layer o = _
    rw [Forest.layer_putBehind h.nodup ho]
    split
    · rfl
    · next hne =>
      refine Forest.insertBehind_absent fun hin => hne ?_
      rw [← (h.mem_layer.mp hin).2]
      exact (h.mem_layer.mp (ha.prev p rfl)).2
  | none =>
    cases parent with
    | some q =>
      have hq := (ha.parent q rfl).1
      show (t.putUnder q id ()).layer o = _
      cases o with
      | none => exact Forest.tops_hang fun _ => rfl
      | some x =>
        have hx : x ≠ id := fun e => ho (congrArg some e)
        by_cases he : x = q
        · subst he
          rw [Forest.layer_putUnder_self hq]
          exact (if_pos rfl).symm
        · rw [Forest.layer_putUnder h.nodup hx he]
          exact (if_neg fun e => he (Option.some.inj e)).symm
    | none =>
      cases o with
      | none => rfl
      | some x =>
        have hx : id ≠ x := fun e => ho (congrArg some e.symm)
        show (Forest.kidsOf x (.node id () .nil t)).elim [] Forest.tops = _
        rw [Forest.kidsOf, if_neg hx]
        rfl

/-- The row that follows the splice, and the layer's tail. -/
theorem Rooted.put_last (h : m.Rooted t) {plan : Plan} (ha : m.Anchored t plan) (id : Nat) :
    (put plan.prev id (t.layer plan.parent)).getLast? =
      if m.planNext plan = none then some id else (t.layer plan.parent).getLast? := by
  obtain ⟨parent, prev⟩ := plan
  cases prev with
  | some p =>
    have hp := ha.prev p rfl
    have hin := (Forest.layer_sublist _).subset hp
    have hnext := h.laid.next_none h.nodup hp (links_of_cell (h.cell hin).1)
    show (Forest.insertBehind p id _).getLast? = if (m.row p).next = none then _ else _
    rw [Forest.getLast?_insertBehind (Forest.layer_nodup h.nodup _)]
    by_cases hl : (t.layer parent).getLast? = some p
    · rw [if_pos hl, if_pos (hnext.mpr hl)]
    · rw [if_neg hl, if_neg fun e => hl (hnext.mp e)]
  | none =>
    have hfirst : m.firstOf parent = none ↔ t.layer parent = [] := by
      have hchain : ∀ {o first} {u : Forest Unit}, Laid (links m.rows) o first u →
          (first = none ↔ u.tops = []) := by
        intro o first u hu
        cases hu with
        | nil => exact ⟨fun _ => rfl, fun _ => rfl⟩
        | node => exact ⟨nofun, nofun⟩
      cases parent with
      | none => exact hchain h.laid
      | some q =>
        have hq := (ha.parent q rfl).1
        obtain ⟨u, hu⟩ := Forest.exists_kidsOf hq
        obtain ⟨c, hc, hkids⟩ := h.laid.kids hu
        obtain rfl := Option.some.inj ((links_of_cell (h.cell hq).1).symm.trans hc)
        rw [Forest.layer_some, hu]
        exact hchain hkids
    show (id :: t.layer parent).getLast? = if m.firstOf parent = none then _ else _
    by_cases hl : t.layer parent = []
    · rw [if_pos (hfirst.mpr hl), hl]
      rfl
    · rw [if_neg fun e => hl (hfirst.mp e), List.getLast?_cons_of_ne_nil hl]

section Linked

variable {plan : Plan} {r : Row}

theorem linked_length (id : Nat) : (m.linked plan id r).rows.length = m.rows.length + 1 := by
  obtain ⟨parent, prev⟩ := plan
  cases prev <;> cases parent <;> simp [linked]

/-- The rows behind a splice, less the layer's tail. -/
theorem linked_getElem? (id : Nat) {x : Nat} (hx : x < m.rows.length) :
    (m.linked plan id r).rows[x]? = m.rows[x]?.map fun c =>
      { c with
        next := if plan.prev = some x then some id else c.next
        kid := if plan.prev = none ∧ plan.parent = some x then some id else c.kid } := by
  obtain ⟨parent, prev⟩ := plan
  cases prev with
  | some p =>
    show ((m.rows ++ _).modify p _)[x]? = _
    rw [List.getElem?_modify, List.getElem?_append_left hx]
    cases m.rows[x]? with
    | none => rfl
    | some c =>
      by_cases he : p = x
      · simp [he]
      · simp [he]
  | none =>
    cases parent with
    | some q =>
      show ((m.rows ++ _).modify q _)[x]? = _
      rw [List.getElem?_modify, List.getElem?_append_left hx]
      cases m.rows[x]? with
      | none => rfl
      | some c =>
        by_cases he : q = x
        · simp [he]
        · simp [he]
    | none =>
      show (m.rows ++ _)[x]? = _
      rw [List.getElem?_append_left hx]
      cases m.rows[x]? <;> simp

theorem linked_new (h : m.Rooted t) (ha : m.Anchored t plan) (id : Nat) :
    (m.linked plan id r).rows[m.rows.length]? =
      some ⟨plan.parent, m.planNext plan, none, r⟩ := by
  have hpush : ∀ (x : Nat) (f : Cell Row → Cell Row), x < m.rows.length →
      ((m.rows ++ ([⟨plan.parent, m.planNext plan, none, r⟩] : List (Cell Row))).modify x
        f)[m.rows.length]? = some ⟨plan.parent, m.planNext plan, none, r⟩ := by
    intro x f hx
    rw [List.getElem?_modify, List.getElem?_append_right (Nat.le_refl _), Nat.sub_self]
    simp [Nat.ne_of_lt hx]
  obtain ⟨parent, prev⟩ := plan
  cases prev with
  | some p => exact hpush p _ (h.lt (ha.prev_mem rfl))
  | none =>
    cases parent with
    | some q => exact hpush q _ (h.lt (ha.parent q rfl).1)
    | none =>
      show (m.rows ++ _)[m.rows.length]? = _
      rw [List.getElem?_append_right (Nat.le_refl _), Nat.sub_self]
      rfl

theorem Rooted.linked_laid (h : m.Rooted t) (ha : m.Anchored t plan) :
    Laid (links (m.linked plan m.rows.length r).rows) none (m.linked plan m.rows.length r).top
      (spliced t plan m.rows.length) := by
  have hnew := links_of_cell (linked_new (r := r) h ha m.rows.length)
  have hold : ∀ {x : Nat}, x ∈ t.ids →
      (links (m.linked plan m.rows.length r).rows)[x]? = some
        ⟨(m.row x).parent,
          if plan.prev = some x then some m.rows.length else (m.row x).next,
          if plan.prev = none ∧ plan.parent = some x then some m.rows.length else (m.row x).kid,
          ()⟩ := fun {x} hx => by
    rw [links_getElem?, linked_getElem? _ (h.lt hx), (h.cell hx).1]
    rfl
  have hcell : ∀ {x : Nat}, x ∈ t.ids → (links m.rows)[x]? =
      some ⟨(m.row x).parent, (m.row x).next, (m.row x).kid, ()⟩ := fun {x} hx =>
    links_of_cell (h.cell hx).1
  obtain ⟨parent, prev⟩ := plan
  cases prev with
  | some p =>
    have hp : p ∈ t.ids := ha.prev_mem rfl
    have hparent : (m.row p).parent = parent := (h.mem_layer.mp (ha.prev p rfl)).2
    have htop : (m.linked ⟨parent, some p⟩ m.rows.length r).top = m.top := rfl
    rw [htop]
    refine h.laid.putBehind h.nodup (fun x hx hne => ?_) (hcell hp) ?_ ?_
    · rw [hold hx, hcell hx, if_neg fun e => hne (Option.some.inj e).symm,
        if_neg fun e => nomatch e.1]
    · rw [hold hp, if_pos rfl, if_neg fun e => nomatch e.1]
    · rw [hnew, hparent]
      rfl
  | none =>
    cases parent with
    | some q =>
      have hq : q ∈ t.ids := (ha.parent q rfl).1
      have htop : (m.linked ⟨some q, none⟩ m.rows.length r).top = m.top := rfl
      rw [htop]
      refine h.laid.putUnder h.nodup (fun x hx hne => ?_) (hcell hq) ?_ ?_
      · rw [hold hx, hcell hx, if_neg nofun, if_neg fun e => hne (Option.some.inj e.2).symm]
      · rw [hold hq, if_neg nofun, if_pos ⟨rfl, rfl⟩]
      · rw [hnew]
        rfl
    | none =>
      refine .node hnew .nil (h.laid.frame fun x hx => ?_)
      rw [hold hx, hcell hx, if_neg nofun, if_neg fun e => nomatch e.2]

theorem Rooted.linked_row (h : m.Rooted t) (ha : m.Anchored t plan) {x : Nat} :
    (x < m.rows.length → ((m.linked plan m.rows.length r).row x).body = (m.row x).body) ∧
      ((m.linked plan m.rows.length r).row m.rows.length).body = r := by
  refine ⟨fun hx => ?_, ?_⟩
  · have hc := @linked_getElem? _ m plan r m.rows.length _ hx
    have hm := List.getElem?_eq_getElem hx
    rw [hm] at hc
    rw [row_eq _ hc, m.row_eq hm]
  · rw [row_eq _ (linked_new h ha _)]

theorem Rooted.linked_alive (h : m.Rooted t) (ha : m.Anchored t plan) (hdead : r.dead = false)
    {x : Nat} {c : Cell Row} (hc : (m.linked plan m.rows.length r).rows[x]? = some c) :
    x ∈ (spliced t plan m.rows.length).ids ↔ c.body.dead = false := by
  rw [(spliced_ids ha _).mem_iff, List.mem_cons]
  rcases Nat.lt_trichotomy x m.rows.length with hx | hx | hx
  · rw [linked_getElem? _ hx] at hc
    obtain ⟨b, hb, rfl⟩ := Option.map_eq_some_iff.mp hc
    exact ⟨fun hin => (h.alive hb).mp (hin.resolve_left (by omega)),
      fun hd => .inr ((h.alive hb).mpr hd)⟩
  · subst hx
    rw [linked_new h ha] at hc
    cases hc
    exact ⟨fun _ => hdead, fun _ => .inl rfl⟩
  · have hlt := (List.getElem?_eq_some_iff.mp hc).1
    rw [linked_length] at hlt
    omega

theorem Rooted.linked_grown (h : m.Rooted t) (ha : m.Anchored t plan) :
    Grown (links (m.linked plan m.rows.length r).rows) := by
  rintro x p ⟨c, hc, hp⟩
  obtain ⟨b, hb, hbp, -, -⟩ := cell_of_links hc
  rcases Nat.lt_trichotomy x m.rows.length with hx | hx | hx
  · rw [linked_getElem? _ hx] at hb
    obtain ⟨d, hd, rfl⟩ := Option.map_eq_some_iff.mp hb
    exact h.grown x p ⟨_, links_of_cell hd, hbp.trans hp⟩
  · subst hx
    rw [linked_new h ha] at hb
    cases hb
    exact h.lt (ha.parent p (hbp.trans hp)).1
  · have hlt := (List.getElem?_eq_some_iff.mp hb).1
    rw [linked_length] at hlt
    omega

theorem Rooted.linked_tail (h : m.Rooted t) (ha : m.Anchored t plan) (hslot : r.slot = .unopened)
    {o : Option Nat} (ho : ∀ x, o = some x → x ∈ (spliced t plan m.rows.length).ids) :
    ((m.linked plan m.rows.length r).holdingLayer o).last =
      if o = some m.rows.length then none else (t.layer o).getLast? := by
  cases o with
  | none =>
    rw [if_neg nofun, ← h.tail none nofun]
    obtain ⟨parent, prev⟩ := plan
    cases prev <;> cases parent <;> rfl
  | some x =>
    rw [holdingLayer_some]
    rcases List.mem_cons.mp ((spliced_ids ha _).mem_iff.mp (ho x rfl)) with rfl | hx
    · rw [(h.linked_row (r := r) ha (x := 0)).2, hslot, if_pos rfl]
      rfl
    · have hlt := h.lt hx
      rw [(h.linked_row (r := r) ha).1 hlt, ← holdingLayer_some,
        if_neg fun e => absurd (Option.some.inj e) (by omega)]
      exact h.tail (some x) (by rintro _ ⟨⟩; exact hx)

/-- The forest's layers behind a splice. -/
theorem Rooted.spliced_tail (h : m.Rooted t) (ha : m.Anchored t plan) (hslot : r.slot = .unopened)
    {o : Option Nat} (ho : ∀ x, o = some x → x ∈ (spliced t plan m.rows.length).ids) :
    ((spliced t plan m.rows.length).layer o).getLast? =
      if o = plan.parent ∧ m.planNext plan = none then some m.rows.length
      else ((m.linked plan m.rows.length r).holdingLayer o).last := by
  have hparent : plan.parent ≠ some m.rows.length := fun e =>
    Nat.lt_irrefl _ (h.lt (ha.parent _ e).1)
  rw [h.linked_tail ha hslot ho]
  by_cases hn : o = some m.rows.length
  · subst hn
    have hnil : (spliced t plan m.rows.length).layer (some m.rows.length) = [] := by
      refine List.eq_nil_iff_forall_not_mem.mpr fun y hy => ?_
      obtain ⟨c, hc, hp⟩ := (h.linked_laid (r := r) ha).parent_layer hy
      have hlt := h.linked_grown (r := r) ha y _ ⟨c, hc, hp.trans (Option.or_none)⟩
      have hylt := (List.getElem?_eq_some_iff.mp hc).1
      rw [links_length, linked_length] at hylt
      omega
    rw [hnil, if_pos rfl, if_neg fun e => hparent e.1.symm]
    rfl
  · rw [if_neg hn, spliced_layer h ha hn]
    by_cases hp : o = plan.parent
    · subst hp
      rw [if_pos rfl, h.put_last ha]
      simp only [true_and]
    · rw [if_neg hp, if_neg fun e => hp e.1]

theorem Rooted.splice (h : m.Rooted t) (ha : m.Anchored t plan) (hdead : r.dead = false)
    (hslot : r.slot = .unopened) :
    (m.splice plan m.rows.length r).Rooted (spliced t plan m.rows.length) := by
  have hnodup : (spliced t plan m.rows.length).ids.Nodup := by
    refine (spliced_ids ha _).nodup_iff.mpr (List.nodup_cons.mpr ⟨fun hin => ?_, h.nodup⟩)
    exact Nat.lt_irrefl _ (h.lt hin)
  have hlaid := h.linked_laid (r := r) ha
  rw [splice_eq]
  by_cases hnext : m.planNext plan = none
  · rw [if_pos hnext]
    have htail : ∀ o : Option Nat, (∀ x, o = some x → x ∈ (spliced t plan m.rows.length).ids) →
        (((m.linked plan m.rows.length r).onLayer plan.parent fun layer =>
          { layer with last := some m.rows.length }).holdingLayer o).last =
        ((spliced t plan m.rows.length).layer o).getLast? := by
      intro o ho
      rw [h.spliced_tail ha hslot ho]
      cases hp : plan.parent with
      | none =>
        cases o with
        | none =>
          rw [if_pos ⟨rfl, hnext⟩]
          rfl
        | some x =>
          rw [if_neg fun e => nomatch e.1]
          rfl
      | some q =>
        obtain ⟨hq, layer, hopen⟩ := ha.parent q hp
        cases o with
        | none =>
          rw [if_neg fun e => nomatch e.1]
          rfl
        | some x =>
          have hxlt : x < (m.linked plan m.rows.length r).rows.length := by
            rw [← links_length]
            exact hlaid.lt (ho x rfl)
          rw [holdingLayer_some]
          show ((Machine.setRow _ q _).row x).body.slot.layer.last = _
          rw [setRow_row q x hxlt]
          by_cases he : x = q
          · subst he
            have hbody := (h.linked_row (r := r) ha).1 (h.lt hq)
            rw [if_pos rfl, if_pos ⟨rfl, hnext⟩]
            simp only [Cell.map, hbody, hopen]
            rfl
          · rw [if_neg he, if_neg fun e => he (Option.some.inj e.1), holdingLayer_some]
    have hlinks : ∀ f, links ((m.linked plan m.rows.length r).onLayer plan.parent f).rows =
        links (m.linked plan m.rows.length r).rows := fun f => by
      cases plan.parent with
      | none => rfl
      | some q => exact links_modify _ _ _
    have htop : ∀ f, ((m.linked plan m.rows.length r).onLayer plan.parent f).top =
        (m.linked plan m.rows.length r).top := fun f => by
      cases plan.parent <;> rfl
    refine ⟨?_, hnodup, fun {x c} hc => ?_, ?_, htail⟩
    · rw [hlinks, htop]
      exact hlaid
    · cases hp : plan.parent with
      | none =>
        rw [hp] at hc
        exact h.linked_alive ha hdead hc
      | some q =>
        rw [hp] at hc
        obtain ⟨b, hb, rfl⟩ := row_modify _ _ _ _ hc
        rw [h.linked_alive ha hdead hb]
        split
        · show _ ↔ (match b.body.slot with
            | .opened layer => { b.body with slot := .opened _ }
            | _ => b.body : Row).dead = false
          cases b.body.slot <;> exact Iff.rfl
        · exact Iff.rfl
    · rw [hlinks]
      exact h.linked_grown ha
  · rw [if_neg hnext]
    refine ⟨hlaid, hnodup, fun hc => h.linked_alive ha hdead hc, h.linked_grown ha, fun o ho => ?_⟩
    rw [h.spliced_tail ha hslot ho, if_neg fun e => hnext e.2]

end Linked

/-! ## An opened machine -/

theorem metRows_met {authored : Bool} {pos : Nat} {records : List Cursor.Record} {r : Row}
    (h : r ∈ metRows standard authored pos records) : ∃ pos a, r = .met standard authored pos a := by
  induction records generalizing pos with
  | nil => cases h
  | cons a records ih =>
    rcases List.mem_cons.mp h with rfl | h
    · exact ⟨_, _, rfl⟩
    · exact ih h

/-- A row of one layer, laid behind an arena. -/
theorem laid_cell {parent : Option Nat} {base : Nat} {rows : List Row} {x : Nat} {c : Cell Row}
    (h : (laid parent base rows)[x]? = some c) :
    c.parent = parent ∧ c.kid = none ∧ c.body ∈ rows ∧ x < rows.length := by
  rw [laid_getElem?] at h
  obtain ⟨r, hr, rfl⟩ := Option.map_eq_some_iff.mp h
  exact ⟨rfl, rfl, List.mem_of_getElem? hr, (List.getElem?_eq_some_iff.mp hr).1⟩

theorem openSource_eq {cap : Nat} {source : List UInt8}
    (h : openSource standard cap source = .ok m) :
    ∃ records, (∀ r ∈ records, Cursor.Record.Lawful standard r) ∧ source = text records ∧
      m = { cap, source, rows := laid none 0 (metRows standard false 0 records), store := .new,
            faults := [], log := [], top := firstAt 0 records.length,
            root := ⟨lastAt 0 records.length, 0, 0,
              (firstAt 0 records.length).map fun id => (id, records.length)⟩,
            layers := 0, runs := if (firstAt 0 records.length).isSome then 1 else 0 } := by
  unfold openSource at h
  split at h
  · cases h
  · cases hscan : scanLayer standard [] source false 0 source.length none with
    | error halt => cases halt <;> rw [hscan] at h <;> cases h
    | ok x =>
      obtain ⟨rows, first, last⟩ := x
      rw [hscan] at h
      obtain ⟨records, hlaw, hread, rfl, rfl, rfl⟩ := scanLayer_ok hscan
      cases h
      have hlen : (laid none 0 (metRows standard false 0 records)).length = records.length :=
        (laid_length _ _).trans (metRows_length _ _)
      refine ⟨records, hlaw, ?_, ?_⟩
      · rw [List.take_length] at hread
        exact hread
      · simp only [List.nil_append, List.length_nil, hlen]

theorem rooted_open {cap : Nat} {source : List UInt8}
    (h : openSource standard cap source = .ok m) :
    m.Rooted (line (List.range' 0 m.rows.length)) := by
  obtain ⟨records, -, -, rfl⟩ := openSource_eq h
  have hlen : (laid none 0 (metRows standard false 0 records)).length = records.length :=
    (laid_length _ _).trans (metRows_length _ _)
  have hrow : ∀ {x : Nat} {c : Cell Row},
      (laid none 0 (metRows standard false 0 records))[x]? = some c →
        c.parent = none ∧ c.body.dead = false ∧ c.body.slot = .unopened ∧ x < records.length := by
    intro x c hc
    obtain ⟨hp, -, hmem, hx⟩ := laid_cell hc
    obtain ⟨pos, a, he⟩ := metRows_met hmem
    rw [metRows_length] at hx
    exact ⟨hp, by rw [he]; rfl, by rw [he]; rfl, hx⟩
  have hline := @laid_line (laid none 0 (metRows standard false 0 records)) none
    (metRows standard false 0 records) 0 0 _ (fun i => by rw [Nat.zero_add]) (Nat.zero_add _)
  rw [metRows_length] at hline
  dsimp only
  rw [hlen]
  refine ⟨hline, ?_, fun {x c} hc => ?_, ?_, fun o ho => ?_⟩
  · rw [line_ids]
    exact List.nodup_range'
  · obtain ⟨-, hd, -, hx⟩ := hrow hc
    rw [line_ids, List.mem_range'_1]
    exact ⟨fun _ => hd, fun _ => by omega⟩
  · rintro x p ⟨c, hc, hp⟩
    obtain ⟨b, hb, hbp, -, -⟩ := cell_of_links hc
    have hparent := (hrow hb).1
    rw [hbp, hp] at hparent
    cases hparent
  · cases o with
    | none =>
      rw [Forest.layer_none, line_tops, getLast?_range']
      rfl
    | some x =>
      have hx := ho x rfl
      rw [line_ids, List.mem_range'_1] at hx
      have hc := List.getElem?_eq_getElem (show x <
        (laid none 0 (metRows standard false 0 records)).length by omega)
      have hnil : (line (List.range' 0 records.length)).layer (some x) = [] := by
        refine List.eq_nil_iff_forall_not_mem.mpr fun y hy => ?_
        obtain ⟨c, hc, hp⟩ := hline.parent_layer hy
        obtain ⟨b, hb, hbp, -, -⟩ := cell_of_links hc
        have hparent := (hrow hb).1
        rw [hbp, hp] at hparent
        cases hparent
      rw [hnil, holdingLayer_some, row_eq _ hc, (hrow hc).2.2.1]
      rfl

end Machine

end ProtobufEdit.Revise
