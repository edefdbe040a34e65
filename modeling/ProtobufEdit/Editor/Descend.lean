import ProtobufEdit.Editor.Replace

/-!
# Interiors read

A descent reads the layer a LEN's payload is, and hangs its forest off the row; one that finds
no layer parks its verdict and leaves the document.
-/

namespace ProtobufEdit.Editor

open Wire Wire.Grouped Varint Arena Cursor

/-! ## Parking -/

section Park

variable {m m' : Machine} {t : Forest Node} {i : Nat} {n : Node}

/-- A parked verdict is on the row alone. -/
theorem Models.park (h : Models m t) (hn : t.find i = some n) (hb : n.row.base = .intact)
    {fault : SlotFault} {d : Descent} (he : m.park i fault = (m', .ok d)) :
    m'.StandsFor (entries t) ∧ d = project fault := by
  unfold Machine.park at he
  split at he
  · cases he
  next index _ =>
  cases he
  refine ⟨?_, rfl⟩
  have hi := Forest.mem_of_find hn
  obtain ⟨u, hu, -⟩ := Forest.all_at h.nodup hn
  obtain ⟨parent, next, kid, hcell⟩ := h.chain.find hn
  let f : Row → Row := fun r => { r with value := index, faulted := true }
  let m' : Machine := { m.setRow i f with faults := m.faults ++ [fault] }
  have hself : m'.rows[i]? = some ⟨parent, next, kid, f n.row⟩ := by
    show (m.rows.modify i (Cell.map f))[i]? = _
    rw [List.getElem?_modify_eq, hcell]
    rfl
  have hother : ∀ x, x ≠ i → m'.rows[x]? = m.rows[x]? :=
    fun x hx => List.getElem?_modify_ne _ _ (Ne.symm hx)
  have hlen : m'.rows.length = m.rows.length := List.length_modify ..
  have hplain : (f n.row).Plain := ⟨(h.plain i _ hcell).base, (h.plain i _ hcell).zone⟩
  have hnot : ¬ (f n.row).ownsWord ∧ ¬ (f n.row).ownsPayload := Row.not_owns_intact hb
  have hsteps : Steps m m' i [] false := by
    refine ⟨rfl, rfl, (Bool.or_false _).symm, hlen, ?_, List.nodup_nil, hlen ▸ h.rowsLen, ?_, ?_,
      fun x c e _ _ hs => hs.stores rfl rfl⟩
    · intro x
      rw [hlen]
      exact ⟨nofun, fun hx => absurd hx.1 (Nat.not_le.mpr hx.2)⟩
    · refine h.owns.change (i := i) (fun x c' hx hc' => ?_) fun c' hc' => ?_
      · rw [hother x hx] at hc'
        exact .inr ⟨c', hc', rfl, rfl, rfl⟩
      · rw [hself] at hc'
        cases hc'
        exact ⟨fun ho => absurd ho hnot.1, fun ho => absurd ho hnot.2⟩
    · intro x c' hc'
      by_cases hx : x = i
      · rw [hx, hself] at hc'
        cases hc'
        exact hplain
      · rw [hother x hx] at hc'
        exact h.plain x c' hc'
  have hzone : m'.zoneOf (m'.row i) = m.zoneOf (m.row i) := by
    rw [h.zone (h.lt hi), Machine.row_of_cell hself]
    exact zoneOf_plain hplain
  have hnode : NodeSound m i n u → NodeSound m' i ⟨f n.row, n.entry⟩ u := by
    intro hs
    have hkept := hs.sound.said.content_kept hb
    have hsaid : Said m' (n.row.recast index .intact n.row.deleted true n.row.dirty)
        (n.entry.recast .kept n.row.deleted) := .kept rfl (.inl rfl)
    have hentry : n.entry.recast .kept n.row.deleted = n.entry := by
      rw [hs.sound.deleted, ← hkept]
      rfl
    have hcast : NodeSound m' i _ u := hs.amended rfl hzone (.inl hb.symm) hsaid
      (by rw [hentry]; exact hs.sound.lawful) (by rw [hentry]; exact hs.dirt)
    rw [hentry] at hcast
    unfold Row.recast at hcast
    rw [← hb] at hcast
    exact hcast
  have hspan : (f n.row).spanEnd m.standard = n.row.spanEnd m.standard := by
    simp only [f, Row.spanEnd, Row.tagW, Row.delimW, Row.hasGeometry, hb]
  have hbrings : Brings m m' i n u [] false fun rest => .node i ⟨f n.row, n.entry⟩ u rest :=
    ⟨fun rest => List.Perm.refl _, fun rest hs hk hr => ⟨hnode hs, hk, hr⟩,
      fun rest hb hk hr => ⟨hb, hk, hr⟩, fun _ _ => rfl,
      fun last rest ha => ⟨ha.1, ha.2.front fun r' hr' hride => by
        cases hr'
        exact ⟨n.row, rfl, hride, hspan⟩⟩,
      fun _ => rfl, fun _ _ => rfl⟩
  refine ⟨t.graft i (fun b kids rest => .node i ⟨f b.row, b.entry⟩ kids rest) (Node.raise false),
    ?_, ?_⟩
  · refine h.graft hn hu hsteps hbrings (h.chain.graft h.nodup ?_ ?_ ?_)
    · intro x _ hne parent next kid b hc
      exact (hother x hne).trans hc
    · intro x _ hx
      exact hother x fun e => hx (by rw [e]; exact Forest.mem_path_self hi)
    · intro parent b kids rest hchain hsame
      cases hchain with
      | node hc hk hr =>
        refine .node ?_ (hk.frame fun x hx => hsame x (.inl hx))
          (hr.frame fun x hx => hsame x (.inr hx))
        show (m.rows.modify i (Cell.map f))[i]? = _
        rw [List.getElem?_modify_eq, hc]
        rfl
  · have hmap : entries (t.graft i (fun b kids rest => .node i ⟨f b.row, b.entry⟩ kids rest)
        (Node.raise false)) = (entries t).graft i (fun e kids rest => .node i e kids rest) id :=
      Forest.graft_map _ (fun _ _ _ => rfl) fun b => Node.raise_entry false b
    rw [hmap]
    exact Forest.graft_id

end Park

/-! ## Interiors -/

theorem climbed_eq {rows : List (Cell Row)} {o : Option Nat} {l : List Nat} (h : Up rows o l none)
    {fuel : Nat} (hfuel : l.length ≤ fuel) : Machine.climbed rows fuel o = l.length := by
  induction l generalizing o fuel with
  | nil =>
    cases h
    cases fuel <;> rfl
  | cons x l ih =>
    cases h with
    | @cons _ c _ _ hcell hup =>
      cases fuel with
      | zero => cases hfuel
      | succ fuel =>
        unfold Machine.climbed
        rw [List.getD_eq_getElem?_getD, hcell, Option.getD_some,
          ih hup (Nat.le_of_succ_le_succ hfuel)]
        rfl

/-- The containers around a row are the nodes above it. -/
theorem Models.depthOf {m : Machine} {t : Forest Node} (h : Models m t) {i : Nat}
    (hi : i ∈ t.ids) : m.depthOf i + 1 = (t.path i).length := by
  obtain ⟨c, l, hc, hpath, hup⟩ := h.chain.up_tail hi
  have hle : l.length + 1 ≤ m.rows.length := by
    have hlen : (t.path i).length ≤ m.rows.length :=
      length_le_of_lt (Forest.path_nodup h.nodup) fun x hx => h.lt (Forest.path_subset hx)
    rwa [hpath] at hlen
  unfold Machine.depthOf
  rw [Machine.row_of_cell hc, climbed_eq hup (by omega), hpath]
  rfl

/-- A layer that holds no record is as good read from anywhere. -/
theorem forest_getD (layer : Layer) (standard : Standard) (base pos : Nat) :
    layer.forest standard ((layer.forest standard base pos).first.getD 0) pos =
      layer.forest standard base pos := by
  cases layer <;> rfl

section Reveal

variable {m m' : Machine} {t : Forest Node} {i : Nat} {n : Node} {met : Met} {dialect : Dialect}
  {room : Nat} {layer : Layer}

/-- A node whose interior is known. -/
def Node.opened (n : Node) : Node := ⟨n.row.setOpened, { n.entry with opened := true }⟩

/-- An unopened LEN of the source, its payload a layer the scan minted. -/
structure Unopened (m : Machine) (t : Forest Node) (i : Nat) (n : Node) (met : Met) : Prop where
  find : t.find i = some n
  base : n.row.base = .intact
  kind : n.row.kind = .len
  closed : n.entry.opened = false
  spelt : n.entry.met = some met
  stands : Stands m.standard m.source n.row met
  bodyAt : n.entry.bodyAt = n.row.payloadAt m.standard

theorem Unopened.drop (h : Unopened m t i n met) :
    ∃ rest, m.source.drop (n.row.payloadAt m.standard) = met.content ++ rest := by
  obtain ⟨rest, he⟩ := h.stands.bytes
  refine ⟨rest, ?_⟩
  have hat : n.row.payloadAt m.standard = n.row.start + (met.tag ++ met.delim).length := by
    unfold Row.payloadAt
    rw [h.kind, List.length_append, ← h.stands.tagW, ← h.stands.delimW, ← Nat.add_assoc]
  rw [hat]
  refine drop_of_drop_eq ?_
  rw [he, h.kind]
  exact List.append_assoc ..

/-- The rows a scan minted below a row, and the row opened over them. -/
structure Reveals (m m' : Machine) (i : Nat) (inner : Forest Node) (first : Option Nat)
    (size : Nat) : Prop where
  same : m'.dialect = m.dialect ∧ m'.standard = m.standard ∧ m'.source = m.source ∧
    m'.limit = m.limit ∧ m'.words = m.words ∧ m'.payloads = m.payloads ∧ m'.top = m.top ∧
      m'.dirty = m.dirty
  ids : inner.ids = List.range' m.rows.length size
  length : m'.rows.length = m.rows.length + size
  fits : m.rows.length + size ≤ rowMax + 1
  chain : Chain Node.row m'.rows (some i) first inner
  self : m'.rows[i]? = m.rows[i]?.map fun c => { c with kid := first, body := c.body.setOpened }
  other : ∀ x, x ≠ i → x < m.rows.length → m'.rows[x]? = m.rows[x]?

section Reveals

variable {size : Nat} {first : Option Nat} {u : Forest Node}

/-- The interior that a descent mints below the row, at its payload. -/
def Layer.minted (layer : Layer) (m : Machine) (n : Node) : Forest Node :=
  layer.forest m.standard m.rows.length (n.row.payloadAt m.standard)

theorem Reveals.body_new (hv : Reveals m m' i (layer.minted m n) first size) {x : Nat}
    {c : Cell Row} (hx : m.rows.length ≤ x) (hc : m'.rows[x]? = some c) :
    c.body.base = .intact ∧ c.body.zone = .document := by
  have hx' : x ∈ (layer.minted m n).ids := by
    have hxl := (List.getElem?_eq_some_iff.mp hc).1
    rw [hv.length] at hxl
    rw [hv.ids, List.mem_range'_1]
    omega
  obtain ⟨b, hb, he⟩ := hv.chain.body_of hx' hc
  obtain ⟨-, -, hp⟩ := (intact_forest layer m.standard m.rows.length _).find hb
  rw [he]
  exact hp

theorem Reveals.cell (h : Models m t) (hi : Unopened m t i n met)
    (hv : Reveals m m' i (layer.minted m n) first size) :
    ∃ parent next, m'.rows[i]? = some ⟨parent, next, first, n.row.setOpened⟩ := by
  obtain ⟨parent, next, kid, hcell⟩ := h.chain.find hi.find
  refine ⟨parent, next, ?_⟩
  rw [hv.self, hcell]
  rfl

theorem Reveals.plain (h : Models m t) (hi : Unopened m t i n met)
    (hv : Reveals m m' i (layer.minted m n) first size) (x : Nat) (c : Cell Row)
    (hc : m'.rows[x]? = some c) : c.body.Plain := by
  by_cases hx : x = i
  · obtain ⟨parent, next, kid, hcell⟩ := h.chain.find hi.find
    obtain ⟨parent', next', hself⟩ := hv.cell h hi
    rw [hx, hself] at hc
    cases hc
    exact ⟨(h.plain i _ hcell).base, (h.plain i _ hcell).zone⟩
  · by_cases hxl : x < m.rows.length
    · rw [hv.other x hx hxl] at hc
      exact h.plain x c hc
    · obtain ⟨hb, hz⟩ := hv.body_new (Nat.not_lt.mp hxl) hc
      exact ⟨by rw [hb]; exact nofun, hz⟩

theorem Reveals.steps (h : Models m t) (hi : Unopened m t i n met)
    (hv : Reveals m m' i (layer.minted m n) first size) :
    Steps m m' i (layer.minted m n).ids false := by
  obtain ⟨-, hstd, hsrc, -, hwords, hpayloads, -, hdirty⟩ := hv.same
  obtain ⟨parent, next, hself⟩ := hv.cell h hi
  have hsize : (layer.minted m n).ids.length = size := by rw [hv.ids, List.length_range']
  refine ⟨hstd, hsrc, by rw [hdirty, Bool.or_false], by rw [hsize]; exact hv.length, fun x => ?_,
    ?_, by rw [hv.length]; exact hv.fits, ?_, hv.plain h hi,
    fun x c e _ _ hs => hs.stores hwords hpayloads⟩
  · rw [hv.ids, hv.length, List.mem_range'_1]
  · rw [hv.ids]
    exact List.nodup_range'
  · refine h.owns.change (i := i) (fun x c' hx hc' => ?_) fun c' hc' => ?_
    · by_cases hxl : x < m.rows.length
      · rw [hv.other x hx hxl] at hc'
        exact .inr ⟨c', hc', rfl, rfl, rfl⟩
      · exact .inl (hv.body_new (Nat.not_lt.mp hxl) hc').1
    · rw [hself] at hc'
      cases hc'
      have hnot := Row.not_owns_intact (show n.row.setOpened.base = .intact from hi.base)
      exact ⟨fun ho => absurd ho hnot.1, fun ho => absurd ho hnot.2⟩

/-- Every row speaks of the source. -/
theorem Reveals.zone (h : Models m t) (hi : Unopened m t i n met)
    (hv : Reveals m m' i (layer.minted m n) first size) (x : Nat) (c : Cell Row)
    (hc : m'.rows[x]? = some c) : m'.zoneOf (m'.row x) = m.source := by
  rw [Machine.row_of_cell hc, zoneOf_plain (hv.plain h hi x c hc), hv.same.2.2.1]

/-- The interior's rows say what they stand for. -/
theorem Reveals.inner (h : Models m t) (hi : Unopened m t i n met)
    (hr : layer.Reads dialect m.standard room met.content) (hcut : layer.cut = false)
    (hv : Reveals m m' i (layer.minted m n) first size) :
    (layer.minted m n).All (NodeSound m') := by
  obtain ⟨rest, he⟩ := hi.drop
  rw [← hr.bytes] at he
  have hall : ∀ standard, m'.standard = standard → layer.Lawful dialect standard none room →
      (∀ x ∈ (layer.forest standard m.rows.length (n.row.payloadAt m.standard)).ids,
        m'.zoneOf (m'.row x) = m.source) →
      (layer.forest standard m.rows.length (n.row.payloadAt m.standard)).All (NodeSound m') := by
    rintro _ rfl hlaw hz
    exact sound_forest hlaw hcut he hz
  refine hall _ hv.same.2.1 hr.lawful fun x hx => ?_
  exact hv.zone h hi x _ (List.getElem?_eq_getElem (hv.chain.lt hx))

/-- So does the row that was opened over them. -/
theorem Reveals.node (h : Models m t) (hi : Unopened m t i n met)
    (hr : layer.Reads dialect m.standard room met.content) (hcut : layer.cut = false)
    (hv : Reveals m m' i (layer.minted m n) first size) (hs : NodeSound m i n u) :
    NodeSound m' i n.opened (layer.minted m n) := by
  obtain ⟨-, hstd, -⟩ := hv.same
  obtain ⟨parent, next, hself⟩ := hv.cell h hi
  obtain ⟨hsd, hpos, -, -, hdirt⟩ := hs
  have hkept := hsd.said.content_kept hi.base
  refine ⟨⟨hsd.field, hsd.kind, hsd.deleted, rfl, .met (.inl hi.base) hi.spelt ?_,
    .kept hkept (.inl hi.base), ?_⟩, hpos, nofun, fun met' hm _ => ?_,
    fun hd => ⟨(hdirt hd).1, touched_forest _ _ _ _⟩⟩
  · rw [hstd, hv.zone h hi i _ hself]
    exact ⟨hi.stands.bytes, hi.stands.tagW, hi.stands.delimW, hi.stands.len⟩
  · rw [hstd]
    exact ⟨hsd.lawful.met, hsd.lawful.word, hsd.lawful.payload⟩
  · have hm : n.entry.met = some met' := hm
    rw [hi.spelt] at hm
    cases hm
    rw [← hr.bytes]
    exact source_forest hr.lawful hcut _ _

end Reveals

/-- A machine behind a descent models the document with the interior read. -/
theorem Models.reveal (h : Models m t) (hi : Unopened m t i n met)
    (hr : layer.Reads dialect m.standard room met.content) (hcut : layer.cut = false)
    {first : Option Nat} {size : Nat} (hv : Reveals m m' i (layer.minted m n) first size) :
    m'.StandsFor ((entries t).reveal i (entries (layer.minted m n))) := by
  obtain ⟨-, -, -, -, -, -, htop, -⟩ := hv.same
  have hmem := Forest.mem_of_find hi.find
  obtain ⟨u, hu, hs⟩ := h.nodes.find hi.find
  obtain rfl : u = .nil := hs.closed hi.closed
  have htouched : (entries (layer.minted m n)).touched = false := touched_forest _ _ _ _
  have hbrings : Brings m m' i n .nil (layer.minted m n).ids false fun rest =>
      .node i n.opened (layer.minted m n) rest := by
    refine ⟨fun rest => List.perm_middle.symm,
      fun rest hs _ hrest => ⟨hv.node h hi hr hcut hs, hv.inner h hi hr hcut, hrest⟩,
      fun rest _ _ hrest => ⟨fun hany => ?_, closed_forest _ _ _ _, hrest⟩, fun _ _ => rfl,
      fun last rest ha => ⟨ha.1, ha.2.front fun r' hr' hride => ?_⟩, fun _ => rfl, fun _ rest => ?_⟩
    · rw [show (layer.minted m n).any (fun n => n.row.dirty) = false from
        clean_forest _ _ _ _] at hany
      cases hany
    · cases hr'
      exact ⟨n.row, rfl, hride, rfl⟩
    · show (n.entry.spliced || n.entry.edited || (entries (layer.minted m n)).touched || _) = _
      rw [htouched]
      rfl
  refine ⟨t.graft i (fun b _ rest => .node i b.opened (layer.minted m n) rest) (Node.raise false),
    ?_, ?_⟩
  · refine h.graft hi.find hu (hv.steps h hi) hbrings ?_
    rw [htop]
    refine h.chain.graft h.nodup ?_ ?_ ?_
    · intro x hx hne parent next kid b hc
      exact (hv.other x hne (h.lt (Forest.path_subset hx))).trans hc
    · intro x hx hout
      exact hv.other x (fun e => hout (by rw [e]; exact Forest.mem_path_self hmem)) (h.lt hx)
    · intro parent b kids rest hchain hsame
      cases hchain with
      | node hc hk hr =>
        refine .node ?_ hv.chain (hr.frame fun x hx => hsame x (.inr hx))
        rw [hv.self, hc]
        rfl
  · exact Forest.graft_map _ (fun _ _ _ => rfl) fun b => Node.raise_entry false b

theorem Models.unopened (h : Models m t) {c : Cell Row} (hc : m.rows[i]? = some c)
    (hb : c.body.base = .intact) (hk : c.body.kind = .len) (ho : c.body.opened = false) :
    ∃ n met, c.body = n.row ∧ Unopened m t i n met := by
  obtain ⟨n, kids, hn, -, hrow, hs⟩ := h.at_row hc
  rw [hrow] at hb hk ho
  have hzone := h.zone (h.lt (Forest.mem_of_find hn))
  have hspelt := hs.sound.spelt
  rw [hzone] at hspelt
  rcases hspelt with ⟨-, hm, hst⟩ | ⟨hb', -⟩
  · refine ⟨n, _, hrow, ⟨hn, hb, hk, ?_, hm, hst, ?_⟩⟩
    · rw [hs.sound.opened, ho, hk]
      rfl
    · unfold Entry.bodyAt Row.payloadAt
      rw [hs.pos _ hm, hm, hk, hst.tagW, hst.delimW, Option.elim_some, Nat.add_assoc]
  · rw [hb] at hb'
    cases hb'

/-- A document with nothing read. -/
theorem edit_descend_other {d : Doc} {dialect : Dialect} {standard : Standard} {limit : DepthLimit}
    (fault : SlotFault) :
    d.edit dialect standard limit (.descend i) (.ok (.descent (project fault))) = d := by
  cases fault <;> rfl

theorem descended_opened {d : Doc} {dialect : Dialect} {standard : Standard} {limit : DepthLimit}
    {first : Option Nat} {e : Entry} (he : d.find i = some e) (ho : e.opened = true) :
    d.descended dialect standard limit i first = d := by
  unfold Doc.descended
  rw [he]
  exact if_pos ho

/-- The scanned rows stand in the document as they are. -/
theorem marked_minted {rows : List (Cell Row)} {parent first : Option Nat}
    (hids : (layer.minted m n).ids = List.range' m.rows.length layer.size)
    (hlen : rows.length = m.rows.length + layer.size)
    (hchain : Chain Node.row rows parent first (layer.minted m n)) :
    rows.take m.rows.length ++ (rows.drop m.rows.length).map
      (Cell.map fun r => { r with zone := .document }) = rows := by
  have hsame : (rows.drop m.rows.length).map (Cell.map fun r => { r with zone := .document }) =
      rows.drop m.rows.length := by
    refine (List.map_congr_left fun c hc => ?_).trans (List.map_id _)
    obtain ⟨k, hk⟩ := List.getElem?_of_mem hc
    rw [List.getElem?_drop] at hk
    have hx : m.rows.length + k ∈ (layer.minted m n).ids := by
      have := (List.getElem?_eq_some_iff.mp hk).1
      rw [hids, List.mem_range'_1]
      omega
    obtain ⟨b, hb, he⟩ := hchain.body_of hx hk
    obtain ⟨-, -, -, hz⟩ := (intact_forest layer m.standard m.rows.length _).find hb
    have hz : c.body.zone = .document := by rw [he]; exact hz
    show (⟨c.parent, c.next, c.kid, { c.body with zone := .document }⟩ : Cell Row) = c
    rw [← hz]
  rw [hsame, List.take_append_drop]

/-- A scan's rows, hung below the row it was for. -/
theorem reveals_minted {rows : List (Cell Row)} (hi : i < m.rows.length)
    (hids : (layer.minted m n).ids = List.range' m.rows.length layer.size)
    (hfit : m.rows.length + layer.size ≤ rowMax + 1)
    (hlen : rows.length = m.rows.length + layer.size)
    (hold : ∀ x < m.rows.length, rows[x]? = m.rows[x]?)
    (hchain : Chain Node.row rows (some i) (layer.minted m n).first (layer.minted m n)) :
    Reveals m
      { m with rows := rows.modify i fun c =>
          { c with kid := (layer.minted m n).first, body := c.body.setOpened } }
      i (layer.minted m n) (layer.minted m n).first layer.size := by
  refine ⟨⟨rfl, rfl, rfl, rfl, rfl, rfl, rfl, rfl⟩, hids, ?_, hfit, ?_, ?_, fun x hx hxl => ?_⟩
  · exact (List.length_modify ..).trans hlen
  · refine hchain.frame fun x hx => List.getElem?_modify_ne _ _ fun e => ?_
    rw [hids, List.mem_range'_1] at hx
    omega
  · show (rows.modify i _)[i]? = _
    rw [List.getElem?_modify_eq, hold i hi]
    rfl
  · exact (List.getElem?_modify_ne _ _ (Ne.symm hx)).trans (hold x hxl)

/-- What the edit reads below the row is what was minted there. -/
theorem Models.edit_opened (h : Models m t) (hi : Unopened m t i n met)
    (hlayer : layerOf m.dialect m.standard (m.limit.asInner - (m.depthOf i + 1)) met.content =
      layer) :
    (entries t).edit m.dialect m.standard m.limit (.descend i)
        (.ok (.descent (.opened (layer.minted m n).first))) =
      (entries t).reveal i (entries (layer.minted m n)) := by
  show (entries t).descended _ _ _ i _ = _
  have hfind : (entries t).find i = some n.entry := by
    unfold entries
    rw [Forest.find_map, hi.find]
    rfl
  have hpath : (Forest.path i (entries t)).length = m.depthOf i + 1 := by
    unfold entries
    rw [Forest.path_map, h.depthOf (Forest.mem_of_find hi.find)]
  unfold Doc.descended
  rw [hfind]
  dsimp only
  rw [if_neg (by rw [hi.closed]; exact nofun), hpath, hi.spelt, Option.elim_some, hlayer,
    hi.bodyAt]
  unfold Layer.minted
  rw [forest_getD]
  rfl

/-- Past its gates, a descent reads the interior or parks its verdict. -/
theorem Models.enter (h : Models m t) {c : Cell Row} (hc : m.rows[i]? = some c)
    (hb : c.body.base = .intact) (hk : c.body.kind = .len) (ho : c.body.opened = false)
    {d : Descent} (he : m.enter i c.body = (m', .ok d)) :
    m'.StandsFor
      ((entries t).edit m.dialect m.standard m.limit (.descend i) (.ok (.descent d))) := by
  obtain ⟨n, met, hrow, hi⟩ := h.unopened hc hb hk ho
  have hlt := h.lt (Forest.mem_of_find hi.find)
  have hpark : ∀ {fault : SlotFault}, m.park i fault = (m', .ok d) → m'.StandsFor
      ((entries t).edit m.dialect m.standard m.limit (.descend i) (.ok (.descent d))) := by
    intro fault hp
    obtain ⟨hm, rfl⟩ := h.park hi.find hi.base hp
    rwa [edit_descend_other]
  rw [hrow] at he
  unfold Machine.enter at he
  dsimp only at he
  split at he
  · exact hpark he
  next hlimit =>
  have hplain := h.plain i c hc
  rw [hrow] at hplain
  have hwin : m.window n.row = ⟨m.source, n.row.payloadAt m.standard,
      n.row.payloadAt m.standard + n.row.payloadLen, .document⟩ := by
    unfold Machine.window Row.isAlias
    rw [if_neg hplain.base, hplain.zone]
    rfl
  rw [hwin] at he
  dsimp only at he
  have hr := layerOf_reads m.dialect m.standard (m.limit.asInner - (m.depthOf i + 1)) met.content
  generalize hlayer : layerOf m.dialect m.standard (m.limit.asInner - (m.depthOf i + 1))
    met.content = layer at hr
  have hr' : layer.Reads m.dialect m.standard (m.limit.asInner - (m.depthOf i + 1))
      (Machine.slice m.source (n.row.payloadAt m.standard)
        (n.row.payloadAt m.standard + n.row.payloadLen)) := by
    rw [hi.stands.slice_content hi.kind]
    exact hr
  have hparent : ∀ p, some i = some p → p < m.rows.length := by
    rintro _ ⟨⟩
    exact hlt
  split at he
  · next rows first hscan =>
    cases he
    have hgood : layer.cut = false ∧ m.rows.length + layer.size ≤ rowMax + 1 := by
      by_contra hbad
      obtain ⟨halt, he⟩ := scanLayer_error hr' (by omega) hparent h.rowsLen (by
        by_cases hcut : layer.cut = true
        · exact .inl hcut
        · exact .inr (Nat.not_le.mp fun hle => hbad ⟨Bool.eq_false_of_not_eq_true hcut, hle⟩))
      rw [he] at hscan
      cases hscan
    obtain ⟨hcut, hfit⟩ := hgood
    obtain ⟨rows', hok, hlen, hold, hchain⟩ := scanLayer_ok hr' (by omega) hparent hcut hfit
    rw [hok] at hscan
    cases hscan
    have hids : (layer.minted m n).ids = List.range' m.rows.length layer.size :=
      Layer.ids_forest hr.lawful hcut _ _
    rw [marked_minted hids hlen hchain]
    have hm := h.reveal hi hr hcut (reveals_minted hlt hids hfit hlen hold hchain)
    rwa [← h.edit_opened hi hlayer] at hm
  · exact hpark he
  · exact hpark he
  · cases he

theorem Models.descend (h : Models m t) {d : Descent} (he : m.descend i = (m', .ok d)) :
    m'.StandsFor
      ((entries t).edit m.dialect m.standard m.limit (.descend i) (.ok (.descent d))) := by
  unfold Machine.descend at he
  split at he
  · cases he
  next c hgate =>
  have hc := gate_ok hgate
  obtain ⟨n, kids, hn, -, hrow, hs⟩ := h.at_row hc
  have hplain := h.plain i c hc
  have hfind : (entries t).find i = some n.entry := by
    unfold entries
    rw [Forest.find_map, hn]
    rfl
  have hopened : c.body.opened = true ∨ c.body.kind = .group → ∀ first,
      m.StandsFor ((entries t).edit m.dialect m.standard m.limit (.descend i)
        (.ok (.descent (.opened first)))) := by
    intro ho first
    refine ⟨t, h, ?_⟩
    refine (descended_opened hfind ?_).symm
    rw [hs.sound.opened, ← hrow]
    rcases ho with ho | ho <;> rw [ho] <;> simp
  dsimp only at he
  split at he
  · cases he
  split at he
  · cases he
  next hkind =>
  split at he
  · next hg =>
    cases he
    exact hopened (.inr hg.1) _
  next hg =>
  have hk : c.body.kind = .len := by
    by_contra hl
    exact hg ⟨by_contra fun hn => hkind ⟨hl, hn⟩, hplain.base⟩
  split at he
  · cases he
  next hbase =>
  have hb : c.body.base = .intact := by
    by_contra hn
    exact hbase ⟨hn, fun hsrc => hplain.base hsrc.1⟩
  split at he
  · next ho =>
    cases he
    exact hopened (.inl ho) _
  next ho =>
  split at he
  · cases he
    refine ⟨t, h, ?_⟩
    rw [edit_descend_other]
  · exact h.enter hc hb hk (Bool.eq_false_of_not_eq_true ho) he

end Reveal

end ProtobufEdit.Editor
