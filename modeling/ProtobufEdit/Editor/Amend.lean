import ProtobufEdit.Editor.Grafts

/-!
# Rows amended

A command on one record changes its row's value side and marks the rows above it. The slots
that rows speak through are never shared, so no other row's word changes under it.
-/

namespace ProtobufEdit.Editor

open Wire Wire.Grouped Varint Arena

/-! ## Slots -/

/-- Two rows speak through the same slot, if through any. -/
structure Row.Speaks (r r' : Row) : Prop where
  base : r'.base = r.base
  kind : r'.kind = r.kind
  value : r'.value = r.value

theorem Row.Speaks.word {r r' : Row} (h : r.Speaks r') (hw : r'.ownsWord) : r.ownsWord := by
  unfold ownsWord at hw ⊢
  rwa [h.base, h.kind] at hw

theorem Row.Speaks.payload {r r' : Row} (h : r.Speaks r') (hw : r'.ownsPayload) :
    r.ownsPayload := by
  unfold ownsPayload at hw ⊢
  rwa [h.base, h.kind] at hw

theorem Row.not_owns_intact {r : Row} (h : r.base = .intact) : ¬ r.ownsWord ∧ ¬ r.ownsPayload := by
  unfold ownsWord ownsPayload
  rw [h]
  exact ⟨fun hw => hw.1.elim nofun nofun, fun hw => hw.1.elim nofun nofun⟩

/-- Row `i` takes a slot that no other row owns. -/
def Free (owns : Row → Prop) (cells : List (Cell Row)) (i : Nat) (r : Row) : Prop :=
  owns r → ∀ (x : Nat) (c : Cell Row), x ≠ i → cells[x]? = some c → owns c.body →
    c.body.value ≠ r.value

section Slots

variable {owns : Row → Prop} {cells cells' : List (Cell Row)} {i : Nat}

/-- A row that speaks as it did takes the slot it had. -/
theorem Distinct.free (h : Distinct owns cells) {c : Cell Row} (hc : cells[i]? = some c) {r : Row}
    (hown : owns r → owns c.body) (hvalue : r.value = c.body.value) : Free owns cells i r :=
  fun ho x b hne hb hob he => hne (h x i b c hb hc hob (hown ho) (he.trans hvalue))

theorem Distinct.change (h : Distinct owns cells)
    (hother : ∀ (x : Nat) (c' : Cell Row), x ≠ i → cells'[x]? = some c' → owns c'.body →
      ∃ c, cells[x]? = some c ∧ owns c.body ∧ c'.body.value = c.body.value)
    (hnew : ∀ c', cells'[i]? = some c' → Free owns cells i c'.body) : Distinct owns cells' := by
  intro x y c c' hx hy hc hc' he
  by_cases hxi : x = i
  · subst hxi
    by_cases hyi : y = x
    · exact hyi.symm
    · obtain ⟨b, hb, ho, hv⟩ := hother y c' hyi hy hc'
      exact absurd (hv.symm.trans he.symm) (hnew c hx hc y b hyi hb ho)
  · obtain ⟨a, ha, hoa, hva⟩ := hother x c hxi hx hc
    by_cases hyi : y = i
    · subst hyi
      exact absurd (hva.symm.trans he) (hnew c' hy hc' x a hxi ha hoa)
    · obtain ⟨b, hb, hob, hvb⟩ := hother y c' hyi hy hc'
      exact h x y a b ha hb hoa hob (hva.symm.trans (he.trans hvb))

/-- One row's slot changed; the others speak as they did, or for the document. -/
theorem Owns.change (h : Owns cells)
    (hother : ∀ (x : Nat) (c' : Cell Row), x ≠ i → cells'[x]? = some c' →
      c'.body.base = .intact ∨ ∃ c, cells[x]? = some c ∧ c.body.Speaks c'.body)
    (hnew : ∀ c', cells'[i]? = some c' →
      Free Row.ownsWord cells i c'.body ∧ Free Row.ownsPayload cells i c'.body) :
    Owns cells' := by
  refine ⟨h.word.change (fun x c' hne hx ho => ?_) fun c' hc' => (hnew c' hc').1,
    h.payload.change (fun x c' hne hx ho => ?_) fun c' hc' => (hnew c' hc').2⟩
  · rcases hother x c' hne hx with hb | ⟨c, hc, hs⟩
    · exact absurd ho (Row.not_owns_intact hb).1
    · exact ⟨c, hc, hs.word ho, hs.value⟩
  · rcases hother x c' hne hx with hb | ⟨c, hc, hs⟩
    · exact absurd ho (Row.not_owns_intact hb).2
    · exact ⟨c, hc, hs.payload ho, hs.value⟩

end Slots

/-- What a row says in other stores, where its slot holds what it did. -/
theorem Said.frame {m m' : Machine} {r : Row} {e : Entry} (h : Said m r e)
    (hword : r.ownsWord → m'.words[r.value]? = m.words[r.value]?)
    (hpayload : r.ownsPayload → ∀ bytes, m.payloads.Holds r.value bytes →
      m'.payloads.Holds r.value bytes) : Said m' r e := by
  rcases h with ⟨hc, hb⟩ | ⟨hc, hb, hl, hg, hw⟩ | ⟨hc, hb, hl, ho, hp⟩
  · exact .kept hc hb
  · exact .word hc hb hl hg ((hword ⟨hb, hl, hg⟩).trans hw)
  · exact .payload hc hb hl ho (hpayload ⟨hb, hl⟩ _ hp)

theorem Said.word_lt {m : Machine} {r : Row} {e : Entry} (h : Said m r e) (ho : r.ownsWord) :
    r.value < m.words.length := by
  obtain ⟨hb, hl, hg⟩ := ho
  rcases h with ⟨-, hb'⟩ | ⟨-, -, -, -, hw⟩ | ⟨-, -, hl', -, -⟩
  · rcases hb' with hb' | ⟨-, hk⟩
    · rw [hb'] at hb
      exact hb.elim nofun nofun
    · exact absurd hk hg
  · exact (List.getElem?_eq_some_iff.mp hw).1
  · exact absurd hl' hl

theorem PayloadStore.Holds.lt {s : PayloadStore} {slot : Nat} {bytes : List UInt8}
    (h : s.Holds slot bytes) : slot < s.slots.length := by
  by_contra hn
  unfold Holds at h
  rw [List.getElem?_eq_none (Nat.not_lt.mp hn)] at h
  exact h

theorem Said.payload_lt {m : Machine} {r : Row} {e : Entry} (h : Said m r e) (ho : r.ownsPayload) :
    r.value < m.payloads.slots.length := by
  obtain ⟨hb, hl⟩ := ho
  rcases h with ⟨-, hb'⟩ | ⟨-, -, hl', -, -⟩ | ⟨-, -, -, -, hp⟩
  · rcases hb' with hb' | ⟨-, hk⟩
    · rw [hb'] at hb
      exact hb.elim nofun nofun
    · rw [hl] at hk
      cases hk
  · exact absurd hl hl'
  · exact hp.lt

section Models

variable {m : Machine} {t : Forest Node}

theorem Models.said {x : Nat} {c : Cell Row} (h : Models m t) (hc : m.rows[x]? = some c) :
    ∃ e, Said m c.body e := by
  obtain ⟨n, hn, he⟩ := h.find hc
  obtain ⟨kids, _, hs⟩ := h.nodes.find hn
  exact ⟨n.entry, he ▸ hs.sound.said⟩

/-- A slot that was just minted is free. -/
theorem Models.free_word (h : Models m t) (i : Nat) {r : Row} (hr : m.words.length ≤ r.value) :
    Free Row.ownsWord m.rows i r := by
  intro _ x c _ hc ho he
  obtain ⟨e, hs⟩ := h.said hc
  have := hs.word_lt ho
  omega

theorem Models.free_payload (h : Models m t) (i : Nat) {r : Row}
    (hr : m.payloads.slots.length ≤ r.value) : Free Row.ownsPayload m.rows i r := by
  intro _ x c _ hc ho he
  obtain ⟨e, hs⟩ := h.said hc
  have := hs.payload_lt ho
  omega

end Models

/-! ## Marks -/

theorem length_le_of_lt {l : List Nat} {n : Nat} (h : l.Nodup) (hlt : ∀ x ∈ l, x < n) :
    l.length ≤ n := by
  have hsub := List.subperm_of_subset h fun x hx => List.mem_range.mpr (hlt x hx)
  have hle := hsub.length_le
  rwa [List.length_range] at hle

/-- A mark raised over cells that lead up along `l`. -/
theorem markDirty_rows {m : Machine} {o : Option Nat} {l : List Nat} (hup : Up m.rows o l none)
    (hnodup : l.Nodup) (hlt : ∀ x ∈ l, x < m.rows.length)
    (hdone : l.Pairwise fun x y => ∀ c, m.rows[x]? = some c → c.body.dirty = true →
      ∀ c', m.rows[y]? = some c' → c'.body.dirty = true) (x : Nat) :
    (m.markDirty o).rows[x]? =
      if x ∈ l then m.rows[x]?.map (Cell.map Row.setDirty) else m.rows[x]? := by
  refine climb_eq (fun r hr => ?_) hup hnodup ?_ hdone x
  · unfold Row.setDirty
    rw [← hr]
  · exact Nat.lt_succ_of_le (length_le_of_lt hnodup hlt)

@[simp] theorem markDirty_length (m : Machine) (o : Option Nat) :
    (m.markDirty o).rows.length = m.rows.length := by
  unfold Machine.markDirty
  show (climb _ _ (m.rows.length + 1) o m.rows).length = _
  generalize m.rows.length + 1 = fuel
  induction fuel generalizing o m with
  | zero => rfl
  | succ fuel ih =>
    cases o with
    | none => rfl
    | some id =>
      unfold climb
      split
      · rfl
      · split
        · rfl
        · have := ih { m with rows := m.rows.modify id (Cell.map Row.setDirty) } ‹Cell Row›.parent
          rw [this, List.length_modify]

/-! ## Amendments -/

/-- What an amendment leaves of a row: the geometry. -/
def Row.recast (value : Nat) (base : Base) (deleted faulted dirty : Bool) (r : Row) : Row :=
  { r with value, base, deleted, faulted, dirty }

def Entry.recast (content : Content) (deleted : Bool) (e : Entry) : Entry :=
  { e with content, deleted }

/-- A node's row and record changed, and the row marked. -/
def Node.amend (f : Row → Row) (g : Entry → Entry) (n : Node) : Node :=
  ⟨(f n.row).setDirty, g n.entry⟩

theorem getElem?_amend {cells : List (Cell Row)} {i x : Nat} {f : Row → Row} {c' : Cell Row}
    (hc' : (cells.modify i (Cell.map f))[x]? = some c') :
    ∃ c, cells[x]? = some c ∧ c' = if x = i then c.map f else c := by
  by_cases hx : x = i
  · subst hx
    rw [List.getElem?_modify_eq] at hc'
    obtain ⟨c, hc, rfl⟩ := Option.map_eq_some_iff.mp hc'
    exact ⟨c, hc, by rw [if_pos rfl]⟩
  · rw [List.getElem?_modify_ne _ _ (Ne.symm hx)] at hc'
    exact ⟨c', hc', by rw [if_neg hx]⟩

section Amend

variable {m : Machine} {t : Forest Node} {i : Nat} {n : Node} {f : Row → Row}
  {g : Entry → Entry} {words : List Nat} {payloads : PayloadStore}

/-- The rows behind an amendment. -/
theorem amend_rows (words : List Nat) (payloads : PayloadStore) (h : Models m t) (hi : i ∈ t.ids)
    (hf : ∀ r, (f r).dirty = r.dirty) (x : Nat) :
    ((({ m with words, payloads } : Machine).setRow i f).markDirty (some i)).rows[x]? =
      if x = i then m.rows[i]?.map (Cell.map fun r => (f r).setDirty)
      else if x ∈ t.path i then m.rows[x]?.map (Cell.map Row.setDirty) else m.rows[x]? := by
  let m₁ : Machine := ({ m with words, payloads } : Machine).setRow i f
  have hrows : m₁.rows = m.rows.modify i (Cell.map f) := rfl
  have hback : ∀ (x : Nat) (c' : Cell Row), m₁.rows[x]? = some c' →
      ∃ c, m.rows[x]? = some c ∧ c'.body.dirty = c.body.dirty := by
    intro x c' hc'
    obtain ⟨c, hc, rfl⟩ := getElem?_amend hc'
    refine ⟨c, hc, ?_⟩
    split
    · exact hf _
    · rfl
  have hup : Up m₁.rows (some i) (t.path i) none := by
    refine (h.chain.up hi).bodies fun x c hc => ?_
    by_cases hx : x = i
    · subst hx
      exact ⟨c.map f, by rw [hrows, List.getElem?_modify_eq, hc]; rfl, rfl⟩
    · exact ⟨c, by rw [hrows, List.getElem?_modify_ne _ _ (Ne.symm hx), hc], rfl⟩
  have hclosed : (t.path i).Pairwise fun x y => ∀ c, m.rows[x]? = some c → c.body.dirty = true →
      ∀ c', m.rows[y]? = some c' → c'.body.dirty = true := h.chain.path_closed h.nodup h.closed
  have hdone : (t.path i).Pairwise fun x y => ∀ c, m₁.rows[x]? = some c → c.body.dirty = true →
      ∀ c', m₁.rows[y]? = some c' → c'.body.dirty = true := by
    refine hclosed.imp fun {x y} hxy c hc hd c' hc' => ?_
    obtain ⟨b, hb, he⟩ := hback x c hc
    obtain ⟨b', hb', he'⟩ := hback y c' hc'
    rw [he']
    exact hxy b hb (he ▸ hd) b' hb'
  have hlt : ∀ x ∈ t.path i, x < m₁.rows.length := by
    intro x hx
    rw [hrows, List.length_modify]
    exact h.lt (Forest.path_subset hx)
  rw [markDirty_rows hup (Forest.path_nodup h.nodup) hlt hdone x, hrows]
  by_cases hx : x = i
  · subst hx
    rw [if_pos (Forest.mem_path_self hi), if_pos rfl, List.getElem?_modify_eq]
    cases m.rows[x]? <;> rfl
  · rw [if_neg hx, List.getElem?_modify_ne _ _ (Ne.symm hx)]

/-- A sound row amended. -/
theorem NodeSound.amended {m m' : Machine} {u : Forest Node} {value : Nat} {base : Base}
    {deleted faulted dirty : Bool} {content : Content} (h : NodeSound m i n u)
    (hstd : m'.standard = m.standard) (hzone : m'.zoneOf (m'.row i) = m.zoneOf (m.row i))
    (hbase : base = n.row.base ∨ n.row.base = .intact ∧ base = .replaced)
    (hsaid : Said m' (n.row.recast value base deleted faulted dirty)
      (n.entry.recast content deleted))
    (hlawful : (n.entry.recast content deleted).Lawful m.standard)
    (hdirt : dirty = false → (n.entry.recast content deleted).edited = false ∧
      (entries u).touched = false) :
    NodeSound m' i ⟨n.row.recast value base deleted faulted dirty,
      n.entry.recast content deleted⟩ u := by
  obtain ⟨hs, hpos, hclosed, htiled, -⟩ := h
  refine ⟨⟨hs.field, hs.kind, rfl, hs.opened, ?_, hsaid, hstd ▸ hlawful⟩, hpos, hclosed, htiled,
    hdirt⟩
  rw [hstd, hzone]
  rcases hs.spelt with ⟨hb, hm, ⟨hbytes, htag, hdelim, hlen⟩⟩ | ⟨hb, hm⟩
  · have hb' : base = .intact ∨ base = .replaced := by
      rcases hbase with rfl | ⟨-, rfl⟩
      · exact hb
      · exact .inr rfl
    have hgeo : (n.row.recast value base deleted faulted dirty).hasGeometry .canonicalMinimal =
        n.row.hasGeometry .canonicalMinimal := by
      unfold Row.hasGeometry Row.recast
      dsimp only
      rcases hb with hb | hb <;> rcases hb' with hb' | hb' <;> rw [hb, hb']
    refine .met hb' hm ⟨hbytes, ?_, ?_, hlen⟩
    · rw [← htag]
      unfold Row.tagW
      rw [hgeo]
      rfl
    · rw [← hdelim]
      unfold Row.delimW
      rw [hgeo]
      rfl
  · refine .authored ?_ hm
    rcases hbase with rfl | ⟨hi, -⟩
    · exact hb
    · rw [hb] at hi
      cases hi

theorem setDirty_rides (r : Row) : r.setDirty.ridesVerbatim = false := by
  unfold Row.ridesVerbatim Row.setDirty
  simp

theorem Said.stores {m m' : Machine} {r : Row} {e : Entry} (h : Said m r e)
    (hwords : m'.words = m.words) (hpayloads : m'.payloads = m.payloads) : Said m' r e :=
  h.frame (fun _ => by rw [hwords]) fun _ _ hp => by rwa [hpayloads]

/-- A machine behind an amendment models the amended document. -/
theorem Models.amend {value : Nat} {base : Base} {deleted faulted : Bool} {content : Content}
    (h : Models m t) (hn : t.find i = some n) (hf : ∀ r, (f r).dirty = r.dirty)
    (hrow : f n.row = n.row.recast value base deleted faulted n.row.dirty)
    (hentry : g n.entry = n.entry.recast content deleted)
    (hbase : base = n.row.base ∨ n.row.base = .intact ∧ base = .replaced)
    (hfree : Free Row.ownsWord m.rows i (f n.row) ∧ Free Row.ownsPayload m.rows i (f n.row))
    (hsaid : Said { m with words, payloads } (f n.row) (g n.entry))
    (hother : ∀ (x : Nat) (c : Cell Row) (e : Entry), x ≠ i → m.rows[x]? = some c →
      Said m c.body e → Said { m with words, payloads } c.body e)
    (hlawful : (g n.entry).Lawful m.standard) :
    ∃ t', Models ((({ m with words, payloads } : Machine).setRow i f).markDirty (some i)) t' ∧
      entries t' = (entries t).modify i g := by
  have hi := Forest.mem_of_find hn
  obtain ⟨u, hu, -⟩ := Forest.all_at h.nodup hn
  obtain ⟨parent, next, kid, hcell⟩ := h.chain.find hn
  have hrows := amend_rows words payloads h hi hf
  let m' := (({ m with words, payloads } : Machine).setRow i f).markDirty (some i)
  have hlen : m'.rows.length = m.rows.length := by
    show (Machine.markDirty _ _).rows.length = _
    rw [markDirty_length]
    exact List.length_modify ..
  -- Another row's cell is what it was, but for its mark.
  have hback : ∀ (x : Nat) (c' : Cell Row), x ≠ i → m'.rows[x]? = some c' →
      ∃ c, m.rows[x]? = some c ∧ (c' = c.map Row.setDirty ∨ c' = c) := by
    intro x c' hx hc'
    rw [hrows x, if_neg hx] at hc'
    split at hc'
    · obtain ⟨c, hc, rfl⟩ := Option.map_eq_some_iff.mp hc'
      exact ⟨c, hc, .inl rfl⟩
    · exact ⟨c', hc', .inr rfl⟩
  have hhere : m'.rows[i]? = some ⟨parent, next, kid, (f n.row).setDirty⟩ := by
    rw [hrows i, if_pos rfl, hcell]
    rfl
  have hplain : (f n.row).Plain := by
    obtain ⟨hb, hz⟩ := h.plain i _ hcell
    rw [hrow]
    refine ⟨?_, hz⟩
    rcases hbase with rfl | ⟨-, rfl⟩
    · exact hb
    · exact nofun
  have hsteps : Steps m m' i [] true := by
    refine ⟨rfl, rfl, (Bool.or_true _).symm, hlen, ?_, List.nodup_nil, hlen ▸ h.rowsLen, ?_, ?_,
      fun x c e hx hc hs => (hother x c e hx hc hs).stores rfl rfl⟩
    · intro x
      rw [hlen]
      exact ⟨nofun, fun hx => absurd hx.1 (Nat.not_le.mpr hx.2)⟩
    · refine h.owns.change (i := i) (fun x c' hx hc' => ?_) fun c' hc' => ?_
      · obtain ⟨c, hc, rfl | rfl⟩ := hback x c' hx hc'
        · exact .inr ⟨c, hc, rfl, rfl, rfl⟩
        · exact .inr ⟨c', hc, rfl, rfl, rfl⟩
      · rw [hhere] at hc'
        cases hc'
        exact hfree
    · intro x c' hc'
      by_cases hx : x = i
      · subst hx
        rw [hhere] at hc'
        cases hc'
        exact ⟨hplain.base, hplain.zone⟩
      · obtain ⟨c, hc, rfl | rfl⟩ := hback x c' hx hc'
        · exact ⟨(h.plain x c hc).base, (h.plain x c hc).zone⟩
        · exact h.plain x c' hc
  have hzone : m'.zoneOf (m'.row i) = m.zoneOf (m.row i) := by
    rw [h.zone (h.lt hi), Machine.row_of_cell hhere]
    exact zoneOf_plain ⟨hplain.base, hplain.zone⟩
  have hnode : NodeSound m i n u → NodeSound m' i (n.amend f g) u := by
    intro hs
    have hrow' : n.amend f g =
        ⟨n.row.recast value base deleted faulted true, n.entry.recast content deleted⟩ := by
      unfold Node.amend
      rw [hrow, hentry]
      rfl
    rw [hentry] at hsaid hlawful
    rw [hrow] at hsaid
    rw [hrow']
    exact hs.amended rfl hzone hbase (hsaid.dirty.stores rfl rfl) hlawful nofun
  have hbrings : Brings m m' i n u [] true fun rest => .node i (n.amend f g) u rest := by
    refine ⟨fun rest => List.Perm.refl _, fun rest hs hk hr => ⟨hnode hs, hk, hr⟩,
      fun rest _ hk hr => ⟨fun _ => rfl, hk, hr⟩, nofun, fun last rest habuts => ?_, fun rest => ?_,
      nofun⟩
    · refine ⟨fun r _ _ hride => ?_, habuts.2.front fun r hr hride => ?_⟩
      · rw [show (n.amend f g).row.ridesVerbatim = false from setDirty_rides _] at hride
        cases hride
      · cases hr
        rw [show (n.amend f g).row.ridesVerbatim = false from setDirty_rides _] at hride
        cases hride
    · show (if (g n.entry).spliced then _ else Entry.verbatim (g n.entry)) ++ _ = _
      rw [hentry]
      rfl
  refine ⟨t.graft i (fun b kids rest => .node i (b.amend f g) kids rest) (Node.raise true), ?_, ?_⟩
  · refine h.graft hn hu hsteps hbrings (h.chain.graft h.nodup ?_ ?_ ?_)
    · intro x hx hne parent next kid b hc
      rw [hrows x, if_neg hne, if_pos hx, hc]
      rfl
    · intro x _ hx
      rw [hrows x, if_neg fun e : x = i => hx (by rw [e]; exact Forest.mem_path_self hi),
        if_neg hx]
    · intro parent b kids rest hchain hsame
      cases hchain with
      | node hc hk hr =>
        refine .node ?_ (hk.frame fun x hx => hsame x (.inl hx))
          (hr.frame fun x hx => hsame x (.inr hx))
        rw [hrows i, if_pos rfl, hc]
        rfl
  · unfold entries Doc.modify
    exact Forest.graft_map _ (fun _ _ _ => rfl) fun b => Node.raise_entry true b

end Amend

end ProtobufEdit.Editor
