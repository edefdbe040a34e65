import ProtobufEdit.Editor.Models

/-!
# Grafts

Every command grafts at one node of the forest: it replaces what stands there, and marks what is
above or leaves it. What a graft must bring, and what it keeps.
-/

namespace ProtobufEdit.Editor

open Wire Wire.Grouped Varint Arena

/-- What a graft does above its node: an edit marks it, a descent leaves it. -/
def Node.raise (mark : Bool) (n : Node) : Node :=
  if mark then { n with row := n.row.setDirty } else n

@[simp] theorem Node.raise_entry (mark : Bool) (n : Node) : (n.raise mark).entry = n.entry := by
  unfold raise
  split <;> rfl

section Keep

variable {m m' : Machine} {x : Nat} {n : Node} {kids kids' : Forest Node}

/-- A sound node over the same children, in another machine. -/
theorem NodeSound.keep (h : NodeSound m x n kids) (hstd : m'.standard = m.standard)
    (hzone : m'.zoneOf (m'.row x) = m.zoneOf (m.row x))
    (hsaid : Said m n.row n.entry → Said m' n.row n.entry) : NodeSound m' x n kids := by
  obtain ⟨hs, hpos, hclosed, htiled, hdirt⟩ := h
  refine ⟨⟨hs.field, hs.kind, hs.deleted, hs.opened, ?_, hsaid hs.said, ?_⟩, hpos, hclosed, htiled,
    hdirt⟩
  · rw [hstd, hzone]
    exact hs.spelt
  · rw [hstd]
    exact hs.lawful

theorem Said.dirty {r : Row} {e : Entry} (h : Said m r e) : Said m r.setDirty e := by
  rcases h with ⟨hc, hb⟩ | ⟨hc, hb, hl, hg, hw⟩ | ⟨hc, hb, hl, ho, hp⟩
  · exact .kept hc hb
  · exact .word hc hb hl hg hw
  · exact .payload hc hb hl ho hp

theorem Spelt.dirty {standard : Standard} {zone : List UInt8} {r : Row} {e : Entry}
    (h : Spelt standard zone r e) : Spelt standard zone r.setDirty e := by
  rcases h with ⟨hb, hm, ⟨hbytes, htag, hdelim, hlen⟩⟩ | ⟨hb, hm⟩
  · refine .met hb hm ⟨hbytes, ?_, ?_, hlen⟩
    · exact htag
    · exact hdelim
  · exact .authored hb hm

/-- A sound node, raised over a graft in its children. -/
theorem NodeSound.raised {mark : Bool} (h : NodeSound m x n kids) (hne : n.entry.opened = true)
    (hsource : (entries kids').source = (entries kids).source)
    (htouched : mark = false → (entries kids').touched = (entries kids).touched) :
    NodeSound m x (n.raise mark) kids' := by
  obtain ⟨hs, hpos, -, htiled, hdirt⟩ := h
  cases mark with
  | false =>
    exact ⟨hs, hpos, fun ho => absurd (hne.symm.trans ho) nofun, fun met hm ho => hsource.trans
      (htiled met hm ho), fun hd => ⟨(hdirt hd).1, (htouched rfl).trans (hdirt hd).2⟩⟩
  | true =>
    exact ⟨⟨hs.field, hs.kind, hs.deleted, hs.opened, hs.spelt.dirty, hs.said.dirty, hs.lawful⟩, hpos,
      fun ho => absurd (hne.symm.trans ho) nofun,
      fun met hm ho => hsource.trans (htiled met hm ho), nofun⟩

end Keep

/-! ## What a graft leaves of a document -/

section Document

variable {t : Forest Node} {i : Nat} {here : Node → Forest Node → Forest Node → Forest Node}
  {mark : Bool} {p : Nat → Node → Forest Node → Prop}

theorem source_graft (h : t.All p) (hhere : ∀ n kids rest, p i n kids →
      (entries (here n kids rest)).source = (entries (.node i n kids rest)).source) :
    (entries (t.graft i here (Node.raise mark))).source = (entries t).source := by
  induction t with
  | nil => rfl
  | node x n kids rest _ ihr =>
    unfold Forest.graft
    split
    · next hx => exact hx ▸ hhere n kids rest (hx ▸ h.1)
    · split
      · rw [entries_node, entries_node, Node.raise_entry]
        rfl
      · show (if n.entry.spliced then _ else _) ++ Doc.source (entries (rest.graft _ _ _)) = _
        rw [ihr h.2.2]
        rfl

theorem touched_graft (h : t.All p) (hhere : ∀ n kids rest, p i n kids →
      (entries (here n kids rest)).touched = (entries (.node i n kids rest)).touched) :
    (entries (t.graft i here (Node.raise mark))).touched = (entries t).touched := by
  induction t with
  | nil => rfl
  | node x n kids rest ihk ihr =>
    unfold Forest.graft
    split
    · next hx => exact hx ▸ hhere n kids rest (hx ▸ h.1)
    · split
      · rw [entries_node, entries_node, Node.raise_entry]
        unfold Doc.touched
        rw [ihk h.2.1]
      · rw [entries_node, entries_node]
        unfold Doc.touched
        rw [ihr h.2.2]

theorem Node.raise_rides {mark : Bool} {n : Node} (h : (n.raise mark).row.ridesVerbatim = true) :
    n.row.ridesVerbatim = true := by
  cases mark with
  | false => exact h
  | true =>
    unfold Row.ridesVerbatim at h
    simp [Node.raise, Row.setDirty] at h

/-- Rows in front that ride where these ride, and end where these end, do as well. -/
theorem Abuts.front {standard : Standard} {last last' : Option Row} {t : Forest Node}
    (h : Abuts standard last t)
    (hlast : ∀ r', last' = some r' → r'.ridesVerbatim = true →
      ∃ r, last = some r ∧ r.ridesVerbatim = true ∧ r'.spanEnd standard = r.spanEnd standard) :
    Abuts standard last' t := by
  cases t with
  | nil => exact trivial
  | node x n kids rest =>
    refine ⟨fun r' hr' hride hn => ?_, h.2⟩
    obtain ⟨r, hr, hr₂, he⟩ := hlast r' hr' hride
    rw [he]
    exact h.1 r hr hr₂ hn

theorem abuts_graft {standard : Standard} {last : Option Row} (h : t.All p)
    (habuts : Abuts standard last t)
    (hhere : ∀ last n kids rest, p i n kids → Abuts standard last (.node i n kids rest) →
      Abuts standard last (here n kids rest)) :
    Abuts standard last (t.graft i here (Node.raise mark)) := by
  induction t generalizing last with
  | nil => exact trivial
  | node x n kids rest _ ihr =>
    unfold Forest.graft
    split
    · next hx => exact hhere last n kids rest (hx ▸ h.1) (hx ▸ habuts)
    · split
      · refine ⟨fun r hr hride hn => ?_, habuts.2.front fun r' hr' hride => ?_⟩
        · have := habuts.1 r hr hride (Node.raise_rides hn)
          cases mark <;> exact this
        · cases hr'
          refine ⟨n.row, rfl, Node.raise_rides hride, ?_⟩
          cases mark <;> rfl
      · exact ⟨habuts.1, ihr h.2.2 habuts.2⟩

end Document

/-! ## What a graft brings -/

/-- A machine behind a command at row `i`: `new` are the rows it minted, and the rows that stand
as they did still say what they said. -/
structure Steps (m m' : Machine) (i : Nat) (new : List Nat) (mark : Bool) : Prop where
  standard : m'.standard = m.standard
  source : m'.source = m.source
  dirty : m'.dirty = (m.dirty || mark)
  rows : m'.rows.length = m.rows.length + new.length
  minted : ∀ x, x ∈ new ↔ m.rows.length ≤ x ∧ x < m'.rows.length
  distinct : new.Nodup
  rowsLen : m'.rows.length ≤ rowMax + 1
  owns : Owns m'.rows
  plain : ∀ (x : Nat) (c : Cell Row), m'.rows[x]? = some c → c.body.Plain
  said : ∀ (x : Nat) (c : Cell Row) (e : Entry), x ≠ i → m.rows[x]? = some c → Said m c.body e →
    Said m' c.body e

/-- What a graft puts where a node stood: `new` are the ids it adds. -/
structure Brings (m m' : Machine) (i : Nat) (n : Node) (u : Forest Node) (new : List Nat)
    (mark : Bool) (here : Forest Node → Forest Node) : Prop where
  ids : ∀ rest, (here rest).ids.Perm (new ++ i :: (u.ids ++ rest.ids))
  nodes : ∀ rest, NodeSound m i n u → u.All (NodeSound m') → rest.All (NodeSound m') →
    (here rest).All (NodeSound m')
  closed : ∀ rest, (u.any (fun n => n.row.dirty) = true → n.row.dirty = true) →
    u.Closed (fun n => n.row.dirty) → rest.Closed (fun n => n.row.dirty) →
    (here rest).Closed fun n => n.row.dirty
  dirt : mark = false → ∀ rest,
    (here rest).any (fun n => n.row.dirty) = (Forest.node i n u rest).any fun n => n.row.dirty
  abuts : ∀ last rest, Abuts m.standard last (.node i n u rest) →
    Abuts m.standard last (here rest)
  source : ∀ rest, (entries (here rest)).source = (entries (.node i n u rest)).source
  touched : mark = false → ∀ rest,
    (entries (here rest)).touched = (entries (.node i n u rest)).touched

theorem Models.lt {m : Machine} {t : Forest Node} (h : Models m t) {x : Nat} (hx : x ∈ t.ids) :
    x < m.rows.length := h.chain.lt hx

theorem Models.zone {m : Machine} {t : Forest Node} (h : Models m t) {x : Nat}
    (hx : x < m.rows.length) : m.zoneOf (m.row x) = m.source := by
  have hc := List.getElem?_eq_getElem hx
  rw [Machine.row_of_cell hc]
  exact zoneOf_plain (h.plain x _ hc)

theorem Models.find {m : Machine} {t : Forest Node} (h : Models m t) {x : Nat} {c : Cell Row}
    (hc : m.rows[x]? = some c) : ∃ n, t.find x = some n ∧ c.body = n.row :=
  h.chain.body_of (h.full x (List.getElem?_eq_some_iff.mp hc).1) hc

section Graft

variable {m m' : Machine} {t : Forest Node} {i : Nat} {n : Node} {u : Forest Node}
  {new : List Nat} {mark : Bool} {here : Node → Forest Node → Forest Node → Forest Node}

/-- A node elsewhere keeps. -/
theorem Models.keeps (h : Models m t) (hs : Steps m m' i new mark) {x : Nat} {b : Node}
    {kids : Forest Node} (hx : x ∈ t.ids) (hne : x ≠ i) (hrow : (m.row x).body = b.row)
    (hb : NodeSound m x b kids) : NodeSound m' x b kids := by
  have hlt := h.lt hx
  have hc := List.getElem?_eq_getElem hlt
  have hlt' : x < m'.rows.length := by
    rw [hs.rows]
    omega
  refine hb.keep hs.standard ?_ fun hsaid => ?_
  · have hc' := List.getElem?_eq_getElem hlt'
    rw [h.zone hlt, Machine.row_of_cell hc', zoneOf_plain (hs.plain x _ hc'), hs.source]
  · rw [Machine.row_of_cell hc] at hrow
    rw [← hrow] at hsaid ⊢
    exact hs.said x _ _ hne hc hsaid

/-- A graft that brings what it must is what the machine behind the command models. -/
theorem Models.graft (h : Models m t) (hn : t.find i = some n) (hu : t.kidsOf i = some u)
    (hs : Steps m m' i new mark) (hb : Brings m m' i n u new mark (here n u))
    (hchain : Chain Node.row m'.rows none m'.top (t.graft i here (Node.raise mark))) :
    Models m' (t.graft i here (Node.raise mark)) := by
  have hi := Forest.mem_of_find hn
  obtain ⟨u', hu', hat⟩ := Forest.all_at h.nodup hn
  obtain rfl : u = u' := Option.some.inj (hu.symm.trans hu')
  have hrows := rows_of_chain h.chain
  have hperm : (t.graft i here (Node.raise mark)).ids.Perm (new ++ t.ids) := by
    refine Forest.ids_graft hat hi ?_
    intro a kids rest hp
    obtain ⟨rfl, rfl⟩ := hp rfl
    exact hb.ids rest
  have hsource : ∀ t : Forest Node, t.All (fun x a kids => x = i → a = n ∧ kids = u) →
      (entries (t.graft i here (Node.raise mark))).source = (entries t).source := by
    intro t hat
    refine source_graft hat ?_
    intro a kids rest hp
    obtain ⟨rfl, rfl⟩ := hp rfl
    exact hb.source rest
  have htouched : mark = false → ∀ t : Forest Node,
      t.All (fun x a kids => x = i → a = n ∧ kids = u) →
      (entries (t.graft i here (Node.raise mark))).touched = (entries t).touched := by
    intro hmark t hat
    refine touched_graft hat ?_
    intro a kids rest hp
    obtain ⟨rfl, rfl⟩ := hp rfl
    exact hb.touched hmark rest
  refine ⟨hchain, ?_, fun x hx => ?_, ?_, ?_, ?_, fun hd => ?_, ?_, ?_, hs.rowsLen, hs.owns,
    hs.plain⟩
  · rw [hperm.nodup_iff, List.nodup_append]
    refine ⟨hs.distinct, h.nodup, ?_⟩
    rintro x hx y hy rfl
    exact absurd (h.lt hy) (Nat.not_lt.mpr ((hs.minted x).mp hx).1)
  · rw [hperm.mem_iff, List.mem_append]
    by_cases hlt : x < m.rows.length
    · exact .inr (h.full x hlt)
    · exact .inl ((hs.minted x).mpr ⟨Nat.not_lt.mp hlt, hx⟩)
  · refine Forest.All.graft (((h.nodes.and hrows).and hat.below)) h.nodup ?_ ?_ ?_
    · rintro x a kids hx hne - ⟨⟨ha, hrow⟩, -⟩
      exact h.keeps hs hx hne hrow ha
    · rintro x a kids hx hne hin ⟨⟨ha, hrow⟩, -, hbelow⟩
      refine (h.keeps hs hx hne hrow ha).raised ?_ (hsource _ hbelow) fun hm =>
        htouched hm _ hbelow
      by_contra ho
      rw [ha.closed (Bool.eq_false_of_not_eq_true ho)] at hin
      cases hin
    · rintro a kids rest ⟨⟨ha, -⟩, hp, -⟩ hk hr
      obtain ⟨rfl, rfl⟩ := hp rfl
      exact hb.nodes rest ha hk hr
  · refine Forest.All.graft (h.closed.and hat.below) h.nodup ?_ ?_ ?_
    · rintro x a kids - - - ⟨ha, -⟩
      exact ha
    · rintro x a kids - - - ⟨ha, -, hbelow⟩ hany
      cases mark with
      | true => rfl
      | false =>
        refine ha ?_
        rw [← hany]
        refine (Forest.any_graft hbelow (fun _ => rfl) ?_).symm
        intro b v rest hp
        obtain ⟨rfl, rfl⟩ := hp rfl
        exact hb.dirt rfl rest
    · rintro a kids rest ⟨ha, hp, -⟩ hk hr
      obtain ⟨rfl, rfl⟩ := hp rfl
      exact hb.closed rest ha hk hr
  · rw [hs.standard]
    refine abuts_graft hat h.abuts ?_
    intro last a kids rest hp habuts
    obtain ⟨rfl, rfl⟩ := hp rfl
    exact hb.abuts last rest habuts
  · rw [hs.dirty, Bool.or_eq_false_iff] at hd
    rw [htouched hd.2 t hat]
    exact h.latch hd.1
  · rw [hsource t hat, hs.source]
    exact h.source
  · rw [hs.source]
    exact h.sourceLen

end Graft

end ProtobufEdit.Editor
