import ProtobufEdit.Editor.Replace

/-!
# Records put in gaps

A plan names the gap its anchor does, and a row spliced at the plan is the record put in the gap.
-/

namespace ProtobufEdit.Editor

open Wire Wire.Grouped Varint Arena

/-! ## Gaps -/

/-- A plan is a gap of the forest. -/
inductive Plans (m : Machine) (t : Forest Node) : Plan → Doc.Gap → Prop where
  | top : Plans m t ⟨none, none⟩ (.head none)
  | under {p : Nat} {n : Node} : t.find p = some n → n.entry.opened = true →
      Plans m t ⟨some p, none⟩ (.head (some p))
  | behind {s : Nat} {c : Cell Row} : m.rows[s]? = some c → Plans m t ⟨c.parent, some s⟩ (.behind s)

section Plans

variable {m : Machine} {t : Forest Node}

theorem Models.ids_le (h : Models m t) : t.ids.length ≤ m.rows.length :=
  length_le_of_lt h.nodup fun _ hx => h.lt hx

/-- The last row of a chain is the layer's last node. -/
theorem lastFrom_eq {rows : List (Cell Row)} {parent first : Option Nat} {u : Forest Node}
    (h : Chain Node.row rows parent first u) {fuel : Nat} (hfuel : u.ids.length ≤ fuel) :
    first.map (Machine.lastFrom rows fuel) = u.last := by
  induction h generalizing fuel with
  | nil => rfl
  | @node _ next _ id _ kids rest hcell _ hr _ ihr =>
    cases fuel with
    | zero => cases hfuel
    | succ fuel =>
      have hle : rest.ids.length ≤ fuel := by
        rw [Forest.ids, List.length_cons, List.length_append] at hfuel
        omega
      have hnext := ihr hle
      unfold Forest.last
      rw [← hnext, Option.map_some]
      unfold Machine.lastFrom
      rw [List.getD_eq_getElem?_getD, hcell]
      cases next <;> rfl

theorem containerGate_ok (h : Models m t) {container parent : Option Nat}
    (he : m.containerGate container = .ok parent) :
    parent = container ∧ ∀ p, container = some p → ∃ n u, t.find p = some n ∧
      t.kidsOf p = some u ∧ n.entry.opened = true := by
  cases container with
  | none =>
    cases he
    exact ⟨rfl, nofun⟩
  | some p =>
    unfold Machine.containerGate at he
    dsimp only at he
    split at he
    · cases he
    next c hgate =>
    obtain ⟨n, u, hn, hu, hrow, hs⟩ := h.at_row (gate_ok hgate)
    split at he
    · cases he
    have hopened := hs.sound.opened
    rw [← hrow] at hopened
    split at he
    · next hk =>
      split at he
      · cases he
      · cases he
        refine ⟨rfl, ?_⟩
        rintro _ ⟨⟩
        exact ⟨n, u, hn, hu, by rw [hopened, hk, Bool.or_eq_true]; exact .inr rfl⟩
    · split at he
      · cases he
      · split at he
        · next ho =>
          cases he
          refine ⟨rfl, ?_⟩
          rintro _ ⟨⟩
          exact ⟨n, u, hn, hu, by rw [hopened, ho]; rfl⟩
        · cases he
    · cases he

theorem kidsOf_entries {p : Nat} {u : Forest Node} (hu : t.kidsOf p = some u) :
    (entries t).kidsOf p = some (entries u) := by
  unfold entries
  rw [Forest.kidsOf_map, hu]
  rfl

/-- The chain a tail stands behind. -/
theorem tailOf_eq (h : Models m t) {container : Option Nat}
    (hc : ∀ p, container = some p → ∃ u, t.kidsOf p = some u) :
    ∃ u, Chain Node.row m.rows container (m.firstOf container) u ∧
      container.elim (some (entries t)) (fun c => (entries t).kidsOf c) = some (entries u) ∧
      m.tailOf container = u.last := by
  cases container with
  | none => exact ⟨t, h.chain, rfl, lastFrom_eq h.chain h.ids_le⟩
  | some p =>
    obtain ⟨u, hu⟩ := hc p rfl
    obtain ⟨c, hcell, hchain⟩ := h.chain.kids hu
    have hfirst : m.firstOf (some p) = c.kid := by
      show (m.row p).kid = c.kid
      rw [Machine.row_of_cell hcell]
    refine ⟨u, hfirst ▸ hchain, kidsOf_entries hu, ?_⟩
    unfold Machine.tailOf
    rw [hfirst]
    exact lastFrom_eq hchain (Nat.le_trans (Forest.kidsOf_sublist hu).length_le h.ids_le)

theorem plans_head (h : Models m t) {container parent : Option Nat}
    (he : m.containerGate container = .ok parent) : Plans m t ⟨parent, none⟩ (.head container) := by
  obtain ⟨rfl, hc⟩ := containerGate_ok h he
  cases parent with
  | none => exact .top
  | some p =>
    obtain ⟨n, u, hn, -, ho⟩ := hc p rfl
    exact .under hn ho

/-- An anchor's plan is the gap it names. -/
theorem resolveAnchor_ok (h : Models m t) {anchor : InsertAt} {plan : Plan}
    (he : m.resolveAnchor anchor = .ok plan) : Plans m t plan ((entries t).gap anchor) := by
  unfold Machine.resolveAnchor at he
  cases anchor with
  | headOf container =>
    dsimp only at he
    split at he
    · cases he
    · next parent hgate =>
      cases he
      exact plans_head h hgate
  | tailOf container =>
    dsimp only at he
    split at he
    · cases he
    · next parent hgate =>
      cases he
      have hhead := plans_head h hgate
      obtain ⟨rfl, hc⟩ := containerGate_ok h hgate
      obtain ⟨u, hchain, hkids, htail⟩ := tailOf_eq h fun p hp => by
        obtain ⟨n, u, -, hu, -⟩ := hc p hp
        exact ⟨u, hu⟩
      unfold Doc.gap
      dsimp only
      rw [hkids, htail, Option.bind_some]
      unfold entries
      rw [Forest.last_map]
      cases hl : u.last with
      | none => exact hhead
      | some s =>
        obtain ⟨c, hcell, rfl⟩ := hchain.last_parent hl
        exact .behind hcell
  | after s =>
    dsimp only at he
    split at he
    · cases he
    · next c hgate =>
      cases he
      exact .behind (gate_ok hgate)

/-- The rows above a gap are marked where one below them is. -/
structure Above (m : Machine) (o : Option Nat) (l : List Nat) : Prop where
  up : Up m.rows o l none
  nodup : l.Nodup
  lt : ∀ x ∈ l, x < m.rows.length
  closed : l.Pairwise fun x y => ∀ c, m.rows[x]? = some c → c.body.dirty = true →
    ∀ c', m.rows[y]? = some c' → c'.body.dirty = true

theorem Models.above (h : Models m t) {x : Nat} (hx : x ∈ t.ids) : Above m (some x) (t.path x) :=
  ⟨h.chain.up hx, Forest.path_nodup h.nodup, fun _ hy => h.lt (Forest.path_subset hy),
    h.chain.path_closed h.nodup h.closed⟩

end Plans

/-! ## Rows spliced -/

/-- A cell whose links make room at a plan. -/
def relink (plan : Plan) (id x : Nat) (c : Cell Row) : Cell Row :=
  { c with
    next := if plan.prev = some x then some id else c.next
    kid := if plan.prev = none ∧ plan.parent = some x then some id else c.kid }

section Splice

variable {m : Machine} {t : Forest Node} {plan : Plan} {r : Row}

/-- The rows behind a splice. -/
theorem splice_rows (hprev : ∀ s, plan.prev = some s → s < m.rows.length)
    (hparent : ∀ p, plan.parent = some p → p < m.rows.length) (x : Nat) :
    (m.splice plan m.rows.length r).rows[x]? =
      if x = m.rows.length then some ⟨plan.parent, m.planNext plan, none, r⟩
      else m.rows[x]?.map (relink plan m.rows.length x) := by
  obtain ⟨parent, prev⟩ := plan
  let cell : Cell Row := ⟨parent, m.planNext ⟨parent, prev⟩, none, r⟩
  have hpush : (m.rows ++ [cell])[x]? = if x = m.rows.length then some cell else m.rows[x]? := by
    split
    · next hx => rw [hx, List.getElem?_concat_length]
    · next hx => rw [List.getElem?_append, List.getElem?_singleton]; grind
  have hkeep : (∀ c, relink ⟨parent, prev⟩ m.rows.length x c = c) →
      m.rows[x]?.map (relink ⟨parent, prev⟩ m.rows.length x) = m.rows[x]? := by
    intro hc
    rw [funext hc, Option.map_id']
  have hmodify : ∀ (y : Nat) (f : Cell Row → Cell Row), y < m.rows.length →
      (∀ c, relink ⟨parent, prev⟩ m.rows.length x c = if x = y then f c else c) →
      ((m.rows ++ [cell]).modify y f)[x]? = if x = m.rows.length then some cell
        else m.rows[x]?.map (relink ⟨parent, prev⟩ m.rows.length x) := by
    intro y f hy hf
    by_cases hx : x = y
    · subst hx
      rw [List.getElem?_modify_eq, hpush, if_neg (Nat.ne_of_lt hy), if_neg (Nat.ne_of_lt hy)]
      rw [funext fun c => (hf c).trans (if_pos rfl)]
      rfl
    · rw [List.getElem?_modify_ne _ _ (Ne.symm hx), hpush,
        hkeep fun c => (hf c).trans (if_neg hx)]
  unfold Machine.splice Machine.linkRow
  cases prev with
  | some s =>
    refine hmodify s _ (hprev s rfl) fun c => ?_
    unfold relink
    by_cases hx : x = s
    · rw [if_pos hx, if_pos (by rw [hx]), if_neg (fun hn => nomatch hn.1)]
    · rw [if_neg hx, if_neg (fun hn => hx (Option.some.inj hn).symm), if_neg (fun hn => nomatch hn.1)]
  | none =>
    cases parent with
    | some p =>
      refine hmodify p _ (hparent p rfl) fun c => ?_
      unfold relink
      by_cases hx : x = p
      · rw [if_pos hx, if_neg nofun, if_pos ⟨rfl, by rw [hx]⟩]
      · rw [if_neg hx, if_neg nofun, if_neg (fun hn => hx (Option.some.inj hn.2).symm)]
    | none =>
      show (m.rows ++ [cell])[x]? = _
      rw [hpush, hkeep fun c => ?_]
      unfold relink
      rw [if_neg nofun, if_neg (fun hn => nomatch hn.2)]

theorem splice_length : (m.splice plan m.rows.length r).rows.length = m.rows.length + 1 := by
  unfold Machine.splice Machine.linkRow
  rcases plan with ⟨_ | p, _ | s⟩ <;> simp

/-- The rows behind an insertion. -/
theorem applyInsert_rows {l : List Nat} (ha : Above m plan.parent l)
    (hprev : ∀ s, plan.prev = some s → s < m.rows.length)
    (hparent : ∀ p, plan.parent = some p → p < m.rows.length) (hclean : r.dirty = false)
    (x : Nat) :
    ((m.splice plan m.rows.length r).markDirty (some m.rows.length)).rows[x]? =
      if x = m.rows.length then some ⟨plan.parent, m.planNext plan, none, r.setDirty⟩
      else if x ∈ l then
        m.rows[x]?.map fun c => (relink plan m.rows.length x c).map Row.setDirty
      else m.rows[x]?.map (relink plan m.rows.length x) := by
  have hrows := fun x => splice_rows (r := r) hprev hparent x
  have hnew : m.rows.length ∉ l := fun hn => Nat.lt_irrefl _ (ha.lt _ hn)
  have hold : ∀ y ∈ l, (m.splice plan m.rows.length r).rows[y]? =
      m.rows[y]?.map (relink plan m.rows.length y) := by
    intro y hy
    rw [hrows y, if_neg fun e : y = m.rows.length => hnew (by rwa [← e])]
  have hself : (m.splice plan m.rows.length r).rows[m.rows.length]? =
      some ⟨plan.parent, m.planNext plan, none, r⟩ := by
    rw [hrows, if_pos rfl]
  have hup : Up (m.splice plan m.rows.length r).rows (some m.rows.length) (m.rows.length :: l)
      none := by
    refine .cons hself (ha.up.bodies fun y c hc => ?_)
    have hlt : y ≠ m.rows.length := Nat.ne_of_lt (List.getElem?_eq_some_iff.mp hc).1
    exact ⟨relink plan m.rows.length y c, by rw [hrows y, if_neg hlt, hc]; rfl, rfl⟩
  have hdone : (m.rows.length :: l).Pairwise fun x y =>
      ∀ c, (m.splice plan m.rows.length r).rows[x]? = some c → c.body.dirty = true →
        ∀ c', (m.splice plan m.rows.length r).rows[y]? = some c' → c'.body.dirty = true := by
    refine List.pairwise_cons.mpr ⟨fun y _ c hc hd => ?_, ha.closed.imp_of_mem fun {x y} hx hy hxy c hc hd c' hc' => ?_⟩
    · rw [hself] at hc
      cases hc
      rw [hclean] at hd
      cases hd
    · rw [hold x hx] at hc
      rw [hold y hy] at hc'
      obtain ⟨b, hb, rfl⟩ := Option.map_eq_some_iff.mp hc
      obtain ⟨b', hb', rfl⟩ := Option.map_eq_some_iff.mp hc'
      exact hxy b hb hd b' hb'
  have hlt : ∀ y ∈ m.rows.length :: l, y < (m.splice plan m.rows.length r).rows.length := by
    intro y hy
    rw [splice_length]
    rcases List.mem_cons.mp hy with rfl | hy
    · exact Nat.lt_succ_self _
    · exact Nat.lt_succ_of_lt (ha.lt y hy)
  rw [markDirty_rows hup (List.nodup_cons.mpr ⟨hnew, ha.nodup⟩) hlt hdone x]
  by_cases hx : x = m.rows.length
  · rw [if_pos (by rw [hx]; exact List.mem_cons_self), if_pos hx, hrows x, if_pos hx]
    rfl
  · rw [if_neg hx]
    by_cases hl : x ∈ l
    · rw [if_pos (List.mem_cons_of_mem _ hl), if_pos hl, hold x hl, Option.map_map]
      rfl
    · rw [if_neg (by rw [List.mem_cons]; exact fun hn => hn.elim hx hl), if_neg hl, hrows x,
        if_neg hx]

end Splice

/-! ## Records put -/

/-- A minted node. -/
def Node.authored (field : FieldNumber) (kind : RecordKind) (value : Nat) (content : Content) :
    Node :=
  ⟨(Row.authored field kind value).setDirty, .authored field kind content⟩

/-- A machine behind an insertion: its rows, and what its stores still say. -/
structure Puts (m m' : Machine) (plan : Plan) (l : List Nat) (a : Node) : Prop where
  above : Above m plan.parent l
  rows : ∀ x, m'.rows[x]? =
    if x = m.rows.length then some ⟨plan.parent, m.planNext plan, none, a.row⟩
    else if x ∈ l then
      m.rows[x]?.map fun c => (relink plan m.rows.length x c).map Row.setDirty
    else m.rows[x]?.map (relink plan m.rows.length x)
  steps : ∀ i, Steps m m' i [m.rows.length] true
  node : NodeSound m' m.rows.length a .nil
  top : m'.top = if plan = ⟨none, none⟩ then some m.rows.length else m.top
  mark : a.row.dirty = true
  put : a.entry.spliced = true

section Put

variable {m m' : Machine} {t : Forest Node} {plan : Plan} {l : List Nat} {a : Node}

theorem rides_of_dirty {r : Row} (h : r.dirty = true) : r.ridesVerbatim = false := by
  unfold Row.ridesVerbatim
  rw [h]
  simp

/-- A marked row in front of a layer rides nowhere. -/
theorem Abuts.behind {standard : Standard} {last : Option Row} {r : Row} {t : Forest Node}
    (h : Abuts standard last t) (hr : r.dirty = true) : Abuts standard (some r) t := by
  refine h.front fun r' he hride => ?_
  cases he
  rw [rides_of_dirty hr] at hride
  cases hride

theorem source_put {id : Nat} {kids rest : Doc} {e : Entry} (h : e.spliced = true) :
    Doc.source (.node id e kids rest) = Doc.source rest := by
  unfold Doc.source
  rw [if_pos h, List.nil_append]
  cases rest <;> rfl

/-- A record put at the head of the document. -/
theorem Models.put_top (h : Models m t) (hp : Puts m m' ⟨none, none⟩ l a) :
    Models m' (.node m.rows.length a .nil t) := by
  have hs := hp.steps m.rows.length
  have hl : l = [] := by
    have hup := hp.above.up
    cases hup
    rfl
  subst hl
  have hold : ∀ x ∈ t.ids, m'.rows[x]? = m.rows[x]? := by
    intro x hx
    rw [hp.rows x, if_neg (Nat.ne_of_lt (h.lt hx)), if_neg nofun]
    have hid : relink ⟨none, none⟩ m.rows.length x = id := by
      funext c
      unfold relink
      rw [if_neg nofun, if_neg fun hn => nomatch hn.2]
      rfl
    rw [hid, Option.map_id]
    rfl
  have hrows := rows_of_chain h.chain
  have hnode : ∀ x ∈ t.ids, x ≠ m.rows.length := fun x hx => Nat.ne_of_lt (h.lt hx)
  refine ⟨?_, ?_, fun x hx => ?_, ⟨hp.node, trivial, ?_⟩, ⟨nofun, trivial, h.closed⟩, ?_, ?_, ?_, ?_,
    hs.rowsLen, hs.owns, hs.plain⟩
  · rw [hp.top, if_pos rfl]
    refine .node ?_ .nil (h.chain.frame hold)
    rw [hp.rows, if_pos rfl]
    rfl
  · refine Forest.nodup_node.mpr ⟨nofun, fun hx => Nat.lt_irrefl _ (h.lt hx), List.nodup_nil,
      h.nodup, nofun⟩
  · rw [Forest.mem_ids_node]
    by_cases hlt : x < m.rows.length
    · exact .inr (.inr (h.full x hlt))
    · exact .inl (by have := hs.rows; rw [List.length_singleton] at this; omega)
  · have hmem : t.All fun x _ _ => x ∈ t.ids := Forest.all_ids t
    refine ((h.nodes.and hrows).and hmem).imp ?_
    rintro x n kids ⟨⟨hn, hrow⟩, hx⟩
    exact h.keeps hs hx (hnode x hx) hrow hn
  · rw [hs.standard]
    exact ⟨(fun _ hl => nomatch hl), h.abuts.behind hp.mark⟩
  · rw [hs.dirty, Bool.or_true]
    exact nofun
  · rw [entries_node, source_put hp.put, hs.source]
    exact h.source
  · rw [hs.source]
    exact h.sourceLen

/-- A record put at the head of a container's chain. -/
theorem Models.put_under (h : Models m t) {p : Nat} {n : Node} (hn : t.find p = some n)
    (ho : n.entry.opened = true) (hp : Puts m m' ⟨some p, none⟩ (t.path p) a) :
    Models m' (t.graft p
      (fun b kids rest => .node p (b.raise true) (.node m.rows.length a .nil kids) rest)
      (Node.raise true)) := by
  have hi := Forest.mem_of_find hn
  obtain ⟨u, hu, -⟩ := Forest.all_at h.nodup hn
  obtain ⟨cell, hcell, hkids⟩ := h.chain.kids hu
  obtain ⟨parent, next, kid, hcell'⟩ := h.chain.find hn
  obtain rfl : cell = _ := Option.some.inj (hcell.symm.trans hcell')
  have hold : ∀ x c, x ≠ p → m.rows[x]? = some c → m'.rows[x]? =
      some (if x ∈ t.path p then c.map Row.setDirty else c) := by
    intro x c hx hc
    have hid : ∀ c, relink ⟨some p, none⟩ m.rows.length x c = c := by
      intro c
      unfold relink
      rw [if_neg nofun, if_neg fun hn => hx (Option.some.inj hn.2).symm]
    rw [hp.rows x, if_neg (Nat.ne_of_lt (List.getElem?_eq_some_iff.mp hc).1), hc]
    split <;> rw [Option.map_some, hid]
  have hself : m'.rows[p]? = some ⟨parent, next, some m.rows.length, n.row.setDirty⟩ := by
    rw [hp.rows p, if_neg (Nat.ne_of_lt (h.lt hi)), if_pos (Forest.mem_path_self hi), hcell']
    unfold relink
    rw [Option.map_some, if_neg nofun, if_pos ⟨rfl, rfl⟩]
    rfl
  have hrow : (m.row p).body = n.row := by rw [Machine.row_of_cell hcell']
  refine h.graft hn hu (hp.steps p) ?_ ?_
  · refine ⟨fun rest => ?_, fun rest hs hk hr => ?_, fun rest _ hk hr => ?_, nofun,
      fun last rest habuts => ?_, fun rest => rfl, nofun⟩
    · exact (@List.perm_append_comm _ [p] [m.rows.length]).append_right _
    · refine ⟨(h.keeps (hp.steps m.rows.length) hi (Nat.ne_of_lt (h.lt hi)) hrow hs).raised ho ?_ nofun, ⟨hp.node, trivial, hk⟩, hr⟩
      exact source_put hp.put
    · exact ⟨fun _ => rfl, ⟨nofun, trivial, hk⟩, hr⟩
    · refine ⟨fun r _ _ hride => ?_, habuts.2.behind rfl⟩
      rw [rides_of_dirty rfl] at hride
      cases hride
  · rw [hp.top, if_neg nofun]
    refine h.chain.graft h.nodup ?_ ?_ ?_
    · intro x hx hne parent next kid b hc
      rw [hold x _ hne hc, if_pos hx]
      rfl
    · intro x hx hout
      have hne : x ≠ p := by
        rintro rfl
        exact hout (Forest.mem_path_self hi)
      have hc := List.getElem?_eq_getElem (h.lt hx)
      rw [hold x _ hne hc, if_neg hout, hc]
    · intro parent b kids rest hchain hsame
      cases hchain with
      | node hc hk hr =>
        have he := Option.some.inj (hcell'.symm.trans hc)
        rw [Cell.mk.injEq] at he
        obtain ⟨rfl, rfl, rfl, hb⟩ := he
        refine .node ?_ (.node ?_ .nil (hk.frame fun x hx => hsame x (.inl hx)))
          (hr.frame fun x hx => hsame x (.inr hx))
        · rw [hself, hb]
          rfl
        rw [hp.rows, if_pos rfl]
        unfold Machine.planNext Machine.firstOf
        dsimp only
        rw [Machine.row_of_cell hcell']

/-- A record put behind a sibling. -/
theorem Models.put_behind (h : Models m t) {s : Nat} {c : Cell Row} (hc : m.rows[s]? = some c)
    (hpath : t.path s = s :: l) (hp : Puts m m' ⟨c.parent, some s⟩ l a) :
    Models m' (t.graft s
      (fun b kids rest => .node s b kids (.node m.rows.length a .nil rest)) (Node.raise true)) := by
  obtain ⟨n, u, hn, hu, hbody, -⟩ := h.at_row hc
  have hi := Forest.mem_of_find hn
  have hsl : s ∉ l := (List.nodup_cons.mp (hpath ▸ Forest.path_nodup h.nodup)).1
  have hold : ∀ x c, x ≠ s → m.rows[x]? = some c → m'.rows[x]? =
      some (if x ∈ l then c.map Row.setDirty else c) := by
    intro x c hx hc
    have hid : ∀ b, relink ⟨c.parent, some s⟩ m.rows.length x b = b := by
      intro b
      unfold relink
      rw [if_neg fun hn => hx (Option.some.inj hn).symm, if_neg fun hn => nomatch hn.1]
    rw [hp.rows x, if_neg (Nat.ne_of_lt (List.getElem?_eq_some_iff.mp hc).1), hc]
    split
    · exact congrArg (fun b => some (Cell.map Row.setDirty b)) (hid c)
    · exact congrArg some (hid c)
  have hself : m'.rows[s]? = some { c with next := some m.rows.length } := by
    rw [hp.rows s, if_neg (Nat.ne_of_lt (h.lt hi)), if_neg hsl, hc]
    unfold relink
    rw [Option.map_some, if_pos rfl, if_neg fun hn => nomatch hn.1]
  have hrow : (m.row s).body = n.row := by rw [Machine.row_of_cell hc, hbody]
  refine h.graft hn hu (hp.steps s) ?_ ?_
  · refine ⟨fun rest => ?_, fun rest hs hk hr => ?_, fun rest hb hk hr => ?_, nofun,
      fun last rest habuts => ?_, fun rest => ?_, nofun⟩
    · rw [List.singleton_append]
      refine List.Perm.trans ?_ (List.Perm.swap _ _ _)
      exact List.Perm.cons s List.perm_middle
    · exact ⟨h.keeps (hp.steps m.rows.length) hi (Nat.ne_of_lt (h.lt hi)) hrow hs, hk,
        ⟨hp.node, trivial, hr⟩⟩
    · exact ⟨hb, hk, ⟨nofun, trivial, hr⟩⟩
    · refine ⟨habuts.1, fun r _ _ hride => ?_, habuts.2.behind hp.mark⟩
      rw [rides_of_dirty hp.mark] at hride
      cases hride
    · have hput : Doc.source (.node m.rows.length a.entry .nil (entries rest)) = _ :=
        source_put hp.put
      show _ ++ Doc.source (.node m.rows.length a.entry .nil (entries rest)) = _
      rw [hput]
      rfl
  · have hplan : (⟨c.parent, some s⟩ : Plan) ≠ ⟨none, none⟩ := by
      rw [Ne, Plan.mk.injEq]
      exact fun he => nomatch he.2
    rw [hp.top, if_neg hplan]
    refine h.chain.graft h.nodup ?_ ?_ ?_
    · intro x hx hne parent next kid b hcx
      rw [hpath] at hx
      rw [hold x _ hne hcx, if_pos ((List.mem_cons.mp hx).resolve_left hne)]
      rfl
    · intro x hx hout
      rw [hpath, List.mem_cons, not_or] at hout
      have hcx := List.getElem?_eq_getElem (h.lt hx)
      rw [hold x _ hout.1 hcx, if_neg hout.2, hcx]
    · intro parent b kids rest hchain hsame
      cases hchain with
      | node hcs hk hr =>
        rw [hc] at hcs
        cases hcs
        refine .node hself (hk.frame fun x hx => hsame x (.inl hx)) (.node ?_ .nil
          (hr.frame fun x hx => hsame x (.inr hx)))
        rw [hp.rows, if_pos rfl]
        unfold Machine.planNext
        dsimp only
        rw [Machine.row_of_cell hc]

theorem splice_fields (m : Machine) (plan : Plan) (id : Nat) (r : Row) :
    (m.splice plan id r).standard = m.standard ∧ (m.splice plan id r).source = m.source ∧
      (m.splice plan id r).words = m.words ∧ (m.splice plan id r).payloads = m.payloads ∧
        (m.splice plan id r).top = if plan = ⟨none, none⟩ then some id else m.top := by
  rcases plan with ⟨_ | p, _ | s⟩
  · exact ⟨rfl, rfl, rfl, rfl, rfl⟩
  · exact ⟨rfl, rfl, rfl, rfl, (if_neg (by rw [Plan.mk.injEq]; exact fun he => nomatch he.2)).symm⟩
  · exact ⟨rfl, rfl, rfl, rfl, (if_neg (by rw [Plan.mk.injEq]; exact fun he => nomatch he.1)).symm⟩
  · exact ⟨rfl, rfl, rfl, rfl, (if_neg (by rw [Plan.mk.injEq]; exact fun he => nomatch he.1)).symm⟩

/-- What a commanded record's stores must say for it to be put. -/
structure Stocks (m : Machine) (words : List Nat) (payloads : PayloadStore) (field : FieldNumber)
    (kind : RecordKind) (value : Nat) (content : Content) : Prop where
  said : Said { m with words, payloads } (.authored field kind value) (.authored field kind content)
  lawful : (Entry.authored field kind content).Lawful m.standard
  free : Free Row.ownsWord m.rows m.rows.length (.authored field kind value) ∧
    Free Row.ownsPayload m.rows m.rows.length (.authored field kind value)
  keeps : ∀ (x : Nat) (c : Cell Row) (e : Entry), m.rows[x]? = some c → Said m c.body e →
    Said { m with words, payloads } c.body e

variable {words : List Nat} {payloads : PayloadStore} {field : FieldNumber} {kind : RecordKind}
  {value : Nat} {content : Content}

theorem puts_applyInsert (plan : Plan) (l : List Nat) (h : Models m t) (hfit : m.rows.length ≤ rowMax)
    (ha : Above m plan.parent l) (hprev : ∀ s, plan.prev = some s → s < m.rows.length)
    (hparent : ∀ p, plan.parent = some p → p < m.rows.length)
    (hs : Stocks m words payloads field kind value content) :
    Puts m (({ m with words, payloads } : Machine).applyInsert plan m.rows.length field kind value)
      plan l (.authored field kind value content) := by
  let m₁ : Machine := { m with words, payloads }
  let m' := m₁.applyInsert plan m.rows.length field kind value
  obtain ⟨hstd, hsource, hwords, hpayloads, htop⟩ :=
    splice_fields m₁ plan m.rows.length (.authored field kind value)
  have hrows : ∀ x, m'.rows[x]? = _ := applyInsert_rows
    ⟨ha.up, ha.nodup, ha.lt, ha.closed⟩ hprev hparent rfl
  have hback : ∀ (x : Nat) (c' : Cell Row), x ≠ m.rows.length → m'.rows[x]? = some c' →
      ∃ c, m.rows[x]? = some c ∧ (c'.body = c.body ∨ c'.body = c.body.setDirty) := by
    intro x c' hx hc'
    rw [hrows x, if_neg hx] at hc'
    split at hc' <;> obtain ⟨c, hc, rfl⟩ := Option.map_eq_some_iff.mp hc'
    · exact ⟨c, hc, .inr rfl⟩
    · exact ⟨c, hc, .inl rfl⟩
  have hself : m'.rows[m.rows.length]? =
      some ⟨plan.parent, m.planNext plan, none, (Row.authored field kind value).setDirty⟩ :=
    (hrows _).trans (if_pos rfl)
  have hlen : m'.rows.length = m.rows.length + 1 := by
    show (Machine.markDirty _ _).rows.length = _
    rw [markDirty_length]
    exact @splice_length m₁ _ _
  have hsaid : ∀ r e, Said m₁ r e → Said m' r e := fun r e hr => hr.stores hwords hpayloads
  refine ⟨ha, hrows, fun i => ⟨hstd, hsource, (Bool.or_true _).symm, hlen, fun x => ?_,
    List.nodup_singleton _, by rw [hlen]; omega, ?_, ?_,
    fun x c e _ hc hsd => hsaid _ _ (hs.keeps x c e hc hsd)⟩, ?_, htop, rfl, rfl⟩
  · rw [List.mem_singleton, hlen]
    omega
  · refine h.owns.change (i := m.rows.length) (fun x c' hx hc' => ?_) fun c' hc' => ?_
    · obtain ⟨c, hc, he | he⟩ := hback x c' hx hc'
      · exact .inr ⟨c, hc, by rw [he]; exact ⟨rfl, rfl, rfl⟩⟩
      · exact .inr ⟨c, hc, by rw [he]; exact ⟨rfl, rfl, rfl⟩⟩
    · rw [hself] at hc'
      cases hc'
      exact hs.free
  · intro x c' hc'
    by_cases hx : x = m.rows.length
    · rw [hx, hself] at hc'
      cases hc'
      exact ⟨nofun, rfl⟩
    · obtain ⟨c, hc, he | he⟩ := hback x c' hx hc'
      · rw [he]
        exact h.plain x c hc
      · rw [he]
        exact ⟨(h.plain x c hc).base, (h.plain x c hc).zone⟩
  · refine ⟨⟨rfl, rfl, rfl, rfl, .authored rfl rfl, (hsaid _ _ hs.said).dirty, ?_⟩, nofun,
      fun _ => rfl, nofun, nofun⟩
    have hlaw : (Entry.authored field kind content).Lawful m₁.standard := hs.lawful
    rw [← hstd] at hlaw
    exact hlaw

/-- A record inserted is a record put in the gap. -/
theorem Models.applyInsert {gap : Doc.Gap} (h : Models m t) (hp : Plans m t plan gap)
    (hfit : m.rows.length ≤ rowMax) (hs : Stocks m words payloads field kind value content) :
    (({ m with words, payloads } : Machine).applyInsert plan m.rows.length field kind
      value).StandsFor
        ((entries t).insert gap m.rows.length (.authored field kind content) .nil) := by
  cases hp with
  | top =>
    have hputs := puts_applyInsert ⟨none, none⟩ [] h hfit
      ⟨.nil, List.nodup_nil, nofun, List.Pairwise.nil⟩ nofun nofun hs
    refine ⟨_, h.put_top hputs, ?_⟩
    rw [entries_node]
    unfold Doc.insert
    rfl
  | @under p n hn ho =>
    have hi := Forest.mem_of_find hn
    have hputs := puts_applyInsert ⟨some p, none⟩ (t.path p) h hfit (h.above hi) nofun
      (by rintro _ ⟨⟩; exact h.lt hi) hs
    refine ⟨_, h.put_under hn ho hputs, ?_⟩
    unfold entries Doc.insert
    refine Forest.graft_map _ (fun b _ _ => ?_) fun b => ?_
    · exact congrArg (fun e => Forest.node p e _ _) (Node.raise_entry true b)
    · exact Node.raise_entry true b
  | @behind s c hc =>
    have hi := h.full s (List.getElem?_eq_some_iff.mp hc).1
    obtain ⟨c', l, hc', hpath, hup⟩ := h.chain.up_tail hi
    obtain rfl : c = c' := Option.some.inj (hc.symm.trans hc')
    have habove := h.above hi
    rw [hpath] at habove
    have hput : Above m c.parent l := ⟨hup, (List.nodup_cons.mp habove.nodup).2,
      fun x hx => habove.lt x (List.mem_cons_of_mem _ hx), (List.pairwise_cons.mp habove.closed).2⟩
    have hparent : ∀ p, c.parent = some p → p < m.rows.length := by
      intro p hp
      rw [hp] at hup
      cases hup with
      | cons hcell _ => exact (List.getElem?_eq_some_iff.mp hcell).1
    have hputs := puts_applyInsert ⟨c.parent, some s⟩ l h hfit hput
      (by rintro _ ⟨⟩; exact h.lt hi) hparent hs
    refine ⟨_, h.put_behind hc hpath hputs, ?_⟩
    unfold entries Doc.insert
    exact Forest.graft_map _ (fun b _ _ => rfl) fun b => Node.raise_entry true b

end Put

end ProtobufEdit.Editor
