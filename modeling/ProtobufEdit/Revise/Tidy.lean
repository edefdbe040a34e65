import ProtobufEdit.Revise.Tiled

/-!
# Plain runs

Every state of a plain run is tidy: what a command writes, parses or takes back leaves the scanned
rows of a layer where they were. An interior that a command orphans holds no mark: an authored
payload's rows are never edited, and the gate of a payload asks for an interior without history.
-/

namespace ProtobufEdit.Revise

open Wire Wire.Groupless Varint Base128 Arena Cursor
open Editor (InsertAt)
open Editor.Machine (slice)

namespace Machine

variable {standard : Standard} {m m' : Machine standard} {t t' : Forest Unit} {id x : Nat}
variable {edit : Edit}

/-! ## What speaks for a container -/

/-- A value that speaks is authored. -/
theorem held_stored {v : Nat} {w : Interior} (hp : (m.row x).body.edit.isPlain = true)
    (hs : (m.row x).body.edit.speaker = .store v) (hw : m.held (some x) = some w) :
    w.authored = true := by
  have hw : (m.interior (m.row x).body).toOption = some w := hw
  rw [interior_plain hp, hs] at hw
  cases hw
  rfl

/-- A row's own span is authored where the row is. -/
theorem held_scanned {w : Interior} (hp : (m.row x).body.edit.isPlain = true)
    (hs : ∀ v, (m.row x).body.edit.speaker ≠ .store v) (hw : m.held (some x) = some w) :
    w.authored = (m.row x).body.authoredZone := by
  have hw : (m.interior (m.row x).body).toOption = some w := hw
  rw [interior_plain hp] at hw
  have hscan : ((scannedAt (m.row x).body).map fun start =>
      (⟨(m.row x).body.authoredZone, false, (m.lenGeometry (m.row x).body start).1,
        (m.lenGeometry (m.row x).body start).2⟩ : Interior)).toOption = some w →
      w.authored = (m.row x).body.authoredZone := fun h => by
    cases hstart : scannedAt (m.row x).body with
    | error fault => rw [hstart] at h; cases h
    | ok start =>
      rw [hstart] at h
      cases h
      rfl
  cases hsp : (m.row x).body.edit.speaker with
  | store v => exact absurd hsp (hs v)
  | scanned =>
    rw [hsp] at hw
    exact hscan hw
  | sourceRow row =>
    rw [hsp] at hw
    exact hscan hw

section Tidy

/-- The rows that an authored payload holds are authored. -/
theorem Tidy.authored (h : m.Tidy t) {o : Option Nat} {w : Interior} (hx : x ∈ t.layer o)
    (hw : m.held o = some w) (ha : w.authored = true) :
    (m.row x).body.authoredZone = true := by
  obtain ⟨w', records, hw', htiles⟩ := h.tiled o fun p hp => by
    rw [hp] at hx
    obtain ⟨hpt, layer, hslot⟩ := h.rooted.opened hx
    exact ⟨hpt, isOpened_of hslot⟩
  obtain rfl := Option.some.inj (hw.symm.trans hw')
  rw [(htiles.spelled hx (htiles.whole ha x hx)).1, ha]

/-- An authored row speaks for itself. -/
theorem Tidy.authored_held (h : m.Tidy t) (hx : x ∈ t.ids) {w : Interior}
    (ha : (m.row x).body.authoredZone = true) (hw : m.held (some x) = some w) :
    w.authored = true := by
  obtain ⟨-, hspoken, hzone⟩ := h.row hx
  rw [held_scanned hspoken.plain (fun v => by rw [(hzone ha).1]; nofun) hw, ha]

/-- And so are all rows beneath an authored payload. -/
theorem Tidy.authored_below (h : m.Tidy t) {u : Forest Unit} (hu : t.kidsOf id = some u)
    {w : Interior} (hw : m.held (some id) = some w) (ha : w.authored = true) (hx : x ∈ u.ids) :
    (m.row x).body.authoredZone = true := by
  have hr := h.rooted
  have hxt := (Forest.kidsOf_sublist hu).subset hx
  have hb : Beneath (links m.rows) x id := (hr.laid.beneath_iff hr.nodup hxt).mpr ⟨u, hu, hx⟩
  -- from the container down, one layer after the other
  clear hx hu
  induction hb using Relation.TransGen.head_induction_on with
  | single hp =>
    have hparent := (hr.hangs_iff hxt).mp hp
    exact h.authored (hr.mem_layer.mpr ⟨hxt, hparent⟩) hw ha
  | head hp hb ih =>
    have hparent := (hr.hangs_iff hxt).mp hp
    have hlayer := hr.mem_layer.mpr ⟨hxt, hparent⟩
    obtain ⟨hpt, layer, hslot⟩ := hr.opened hlayer
    have hzone := ih hpt
    obtain ⟨w', -, hw', -⟩ := h.tiled (some _) (by rintro _ ⟨⟩; exact ⟨hpt, isOpened_of hslot⟩)
    exact h.authored hlayer hw' (h.authored_held hpt hzone hw')

/-! ## Interiors that are orphaned -/

/-- A row that the log does not name holds no mark by itself. -/
theorem Tidy.unmarked (h : m.Tidy t) (hx : x ∈ t.ids) (hn : ¬ Named m.log x) (mark : Mark) :
    (m.row x).body.own mark = false := by
  cases mark with
  | hist => exact Bool.eq_false_iff.mpr fun ho => hn ((h.sound.owns x hx).mp ho)
  | dirt =>
    refine Bool.eq_false_iff.mpr fun hd => hn ?_
    obtain ⟨step, hstep, hs | hm⟩ := h.sound.logged.unwinds.touched hd
    · exact ⟨step, hstep, hs⟩
    · obtain ⟨p, r, -, hspoken⟩ := h.plain.log step hstep
      exact absurd hm (hspoken.unmoved x)

/-- An interior whose rows the log does not name is clean. -/
theorem Tidy.clean_of (h : m.Tidy t) {u : Forest Unit} (hu : t.kidsOf id = some u)
    (hn : ∀ x ∈ u.ids, ¬ Named m.log x) : m.Clean id := fun mark =>
  h.sound.exact.clean_of hu fun x hx =>
    h.unmarked ((Forest.kidsOf_sublist hu).subset hx) (hn x hx) mark

/-- An interior that is not there is clean. -/
theorem clean_unopened (h : (m.row id).body.isOpened = false) : m.Clean id := fun mark => by
  unfold Row.isOpened at h
  unfold Row.kids
  cases hs : (m.row id).body.slot with
  | opened layer => rw [hs] at h; cases h
  | _ => rfl

/-- An interior without history is clean. -/
theorem Tidy.clean_gated (h : m.Tidy t) (hid : id ∈ t.ids) (hg : m.interiorGate id = .ok ()) :
    m.Clean id := by
  obtain ⟨u, hu⟩ := Forest.exists_kidsOf hid
  have hkids : (m.row id).body.kids .hist = 0 := by
    unfold interiorGate at hg
    unfold Row.kids
    cases hs : (m.row id).body.slot with
    | opened layer =>
      rw [hs] at hg
      simp only at hg
      split at hg
      · cases hg
      · next hle => exact Nat.eq_zero_of_not_pos hle
    | _ => rfl
  refine h.clean_of hu fun x hx hn => ?_
  have hown := (h.sound.exact.clean_below hu hkids hx).2.1
  have hnamed := (h.sound.owns x ((Forest.kidsOf_sublist hu).subset hx)).mpr hn
  exact absurd (hnamed.symm.trans hown) nofun

/-- An authored interior is clean. -/
theorem Tidy.clean_authored (h : m.Tidy t) (hid : id ∈ t.ids) {v : Nat}
    (hs : (m.row id).body.edit.speaker = .store v) : m.Clean id := by
  cases ho : (m.row id).body.isOpened with
  | false => exact clean_unopened ho
  | true =>
    obtain ⟨u, hu⟩ := Forest.exists_kidsOf hid
    obtain ⟨w, -, hw, -⟩ := h.tiled (some id) (by rintro _ ⟨⟩; exact ⟨hid, ho⟩)
    have ha := held_stored (h.row hid).2.1.plain hs hw
    refine h.clean_of hu fun x hx => ?_
    exact ((h.row ((Forest.kidsOf_sublist hu).subset hx)).2.2
      (h.authored_below hu hw ha hx)).2

/-- What a plain command orphans is clean. -/
theorem Tidy.turns_clean (h : m.Tidy t) {command : Command standard} {store : Store}
    (he : m.Editing command id store edit) (hp : command.plain = true)
    (hturns : m.Turns id edit) : m.Clean id := by
  cases he with
  | @value _ kind value witness hgate hinterior _ =>
    obtain ⟨c, hl, -, hk, -⟩ := valueGate_ok hgate
    have hid := h.rooted.mem hl
    have hrow := m.row_eq (live_ok hl).1
    by_cases hlen : kind = .len
    · exact h.clean_gated hid (hinterior hlen)
    · refine clean_unopened (Bool.eq_false_iff.mpr fun ho => hlen ?_)
      rw [← hk, ← hrow]
      exact h.lens id hid ho
  | shroud hl _ he =>
    refine absurd ?_ hturns.1
    rw [m.row_eq (live_ok hl).1]
    exact (shrouded_speaker he).1.symm
  | lift hl _ he =>
    refine absurd ?_ hturns.1
    rw [m.row_eq (live_ok hl).1]
    exact (lifted_speaker he).1.symm
  | @clear c _ hl _ he =>
    have hid := h.rooted.mem hl
    have hrow := m.row_eq (live_ok hl).1
    obtain ⟨-, hspoken, -⟩ := h.row hid
    rw [hrow] at hspoken
    unfold cleared at he
    split at he
    · next v hv => exact h.clean_authored hid (v := v) (by rw [hrow, hv]; rfl)
    · next src hv =>
      rw [hv] at hspoken
      cases hspoken.plain
    · cases he
  | designate hcmd =>
    subst hcmd
    cases hp

end Tidy

/-! ## States written -/

/-- The interiors that a written state leaves open. -/
theorem writeState_opened (h : m.Rooted t) (hid : id ∈ t.ids)
    (hx : x ∈ (m.turnedTree t id edit).ids)
    (ho : ((m.writeState id edit).row x).body.isOpened = true) :
    (m.row x).body.isOpened = true ∧ ¬ (x = id ∧ m.Turns id edit) := by
  have hset : (m.setEdit id edit).Rooted t :=
    h.setRow (f := fun r => { r with edit }) (fun _ => rfl) (fun _ => rfl) id
  obtain ⟨u, hu⟩ := Forest.exists_kidsOf hid
  obtain ⟨hxt, hxu⟩ := (mem_turned h hu edit).mp hx
  have hwritten : ((m.setEdit id edit).row x).body.isOpened = (m.row x).body.isOpened := by
    rw [setEdit_row h hxt]
    split <;> rfl
  have hbare : (m.writeState id edit).bare.rows = (m.turned id edit).bare.rows := by
    rw [writeState_bare]
  rw [isOpened_bare hbare, turned_eq] at ho
  by_cases hturns : m.Turns id edit
  · rw [if_pos hturns, hset.orphanInterior_row hu hxt fun e => hxu ⟨hturns, e⟩] at ho
    by_cases he : x = id
    · rw [if_pos he] at ho
      cases ho
    · rw [if_neg he] at ho
      exact ⟨hwritten ▸ ho, fun e => he e.1⟩
  · rw [if_neg hturns] at ho
    exact ⟨hwritten ▸ ho, fun e => hturns e.2⟩

/-- The rows that a core keeps. -/
theorem row_core (hx : x < m.rows.length) (h : m'.cores[x]? = m.cores[x]?) :
    (m'.row x).body.core = (m.row x).body.core := by
  rw [cores_getElem?, cores_getElem?, List.getElem?_eq_getElem hx] at h
  obtain ⟨c, hc, he⟩ := Option.map_eq_some_iff.mp h
  rw [m'.row_eq hc, m.row_eq (List.getElem?_eq_getElem hx)]
  exact congrArg Prod.snd he

section Tidy

/-- A state written over what it orphans. -/
theorem Tidy.wrote (h : m.Tidy t) (hid : id ∈ t.ids)
    (hsound : m'.Sound (m.turnedTree t id edit)) (hplain : m'.Plain) (hsorted : m'.Sorted)
    (hs : m'.source = m.source) (hg : m.store.Grows m'.store)
    (hcores : m'.cores = m.cores.modify id (coreEdit edit))
    (hopened : ∀ x ∈ (m.turnedTree t id edit).ids, (m'.row x).body.isOpened = true →
      (m.row x).body.isOpened = true ∧ ¬ (x = id ∧ m.Turns id edit)) :
    m'.Tidy (m.turnedTree t id edit) := by
  have hr := h.rooted
  obtain ⟨u, hu⟩ := Forest.exists_kidsOf hid
  have hstates := states_modify (hr.lt hid) hcores
  have hlayer : ∀ o, (∀ x, o = some x → x ∈ (m.turnedTree t id edit).ids ∧
      (m'.row x).body.isOpened = true) → (m.turnedTree t id edit).layer o = t.layer o := by
    intro o ho
    unfold turnedTree at ho ⊢
    split
    · next hturns =>
      rw [if_pos hturns] at ho
      rw [rekid_nil_layer hr hu fun x hx => (ho x hx).1, if_neg]
      rintro rfl
      obtain ⟨hin, hop⟩ := ho id rfl
      exact (hopened id (mem_turnedTree hr hid edit) hop).2 ⟨rfl, hturns⟩
    · rfl
  refine h.frame hsound hplain hsorted hs hg
    (fun x hx => (row_shape (hr.lt hx) (by rw [shapes_modify hcores])).2)
    (fun x hx hop => .inl ?_) fun o ho => ?_
  · obtain ⟨hxt, -⟩ := (mem_turned hr hu edit).mp hx
    obtain ⟨hop', hnot⟩ := hopened x hx hop
    refine ⟨hxt, hop', ?_⟩
    have hstate := congrFun hstates x
    by_cases he : x = id
    · subst he
      rw [Function.update_self] at hstate
      have hedit : (m'.row x).body.edit = edit := hstate
      rw [hedit]
      by_contra hne
      refine hnot ⟨rfl, fun e => hne e.symm, fun e => ?_⟩
      unfold Row.isOpened at hop'
      rw [e] at hop'
      cases hop'
    · rw [Function.update_of_ne he] at hstate
      have hedit : (m'.row x).body.edit = (m.row x).body.edit := hstate
      rw [hedit]
  · rw [hlayer o fun x hx => ⟨(ho x hx).2.1, (ho x hx).2.2.2⟩]
    exact ⟨rfl, fun _ _ _ _ hx => hx⟩

/-- A plain command designates no payload. -/
theorem spares_plain {command : Command standard} (hp : command.plain = true) :
    m.Spares command := by
  cases command with
  | copyPayload src target => cases hp
  | _ => trivial

theorem Tidy.edited (h : m.Tidy t) {command : Command standard} {store : Store}
    (he : m.Editing command id store edit) (hp : command.plain = true) :
    ((m.withStore store).applyEdit id edit).Tidy (m.turnedTree t id edit) := by
  obtain ⟨hg, hs, c, hl, hb, hspoken⟩ := h.plain.editing he hp
  have hid := h.rooted.mem hl
  have hr : (m.withStore store).Rooted t := h.rooted.of_rows rfl rfl rfl
  have hbare : ((m.withStore store).logPush id ((m.withStore store).row id).body.edit).bare.rows =
      (m.withStore store).bare.rows := by
    rw [logPush_bare]
  have hr' : ((m.withStore store).logPush id ((m.withStore store).row id).body.edit).Rooted t := by
    have hexact := (h.sound.exact.withStore store).logPush hid
      ((m.withStore store).row id).body.edit
    exact hexact.rooted
  have hturns := turns_bare hbare id edit
  refine h.wrote hid ?_ (h.plain.edited ⟨hg, hs, c, hl, hb, hspoken⟩) ?_ ?_ ?_ ?_ fun x hx ho => ?_
  · exact (h.sound.withStore store).applyEdit hid
      (fun d => (h.row hid).2.1.unmoved d) (h.turns_clean he hp)
  · obtain ⟨c', hl', hfits⟩ := he.fits h.sorted (spares_plain hp)
    exact (h.sorted.withStore store).edited hl' hfits
  · unfold Machine.applyEdit
    rw [writeState_source, logPush_source]
    rfl
  · rw [applyEdit_store]
    exact hg
  · exact (m.withStore store).applyEdit_cores id edit
  · have hx' := (turnedTree_congr (t := t) hturns).symm ▸ hx
    obtain ⟨ho, hnot⟩ := writeState_opened hr' hid hx' ho
    rw [isOpened_bare hbare] at ho
    exact ⟨ho, fun e => hnot ⟨e.1, hturns.mpr e.2⟩⟩

theorem Tidy.reverted (h : m.Tidy t) : ∃ t', m.revert.1.Tidy t' := by
  have hplain := h.plain.reverted
  have hsorted := h.sorted.reverted
  revert hplain hsorted
  unfold Machine.revert
  cases hlog : m.log with
  | nil => exact fun _ _ => ⟨t, h⟩
  | cons step log =>
    obtain ⟨p, r, -, hspoken⟩ := h.plain.log step (hlog ▸ List.mem_cons_self)
    have hid := h.sound.newest hlog
    have hsound := h.sound.undone hlog hspoken.unmoved
    have hr : (m.logPop step log).Rooted t := (h.sound.exact.logPop hid log).rooted
    have hbare : (m.logPop step log).bare.rows = m.bare.rows := by
      rw [logPop_bare]
    have hturns := turns_bare hbare step.row step.past
    rw [turnedTree_congr hturns] at hsound
    simp only
    split
    · next d hd => exact absurd hd (hspoken.unmoved d)
    · intro hplain hsorted
      refine ⟨_, h.wrote hid hsound hplain hsorted ?_ ?_ ?_ fun x hx ho => ?_⟩
      · rw [writeState_source]
        have hs := congrArg Machine.source (m.logPop_bare step log)
        exact hs
      · rw [writeState_store, logPop_store]
        exact .refl _
      · rw [writeState_cores, logPop_cores]
      · have hx' := (turnedTree_congr (t := t) hturns).symm ▸ hx
        obtain ⟨ho, hnot⟩ := writeState_opened hr hid hx' ho
        rw [isOpened_bare hbare] at ho
        exact ⟨ho, fun e => hnot ⟨e.1, hturns.mpr e.2⟩⟩

end Tidy

/-! ## Births -/

section Splice

variable {plan : Plan} {r : Row}

theorem onLayer_opened {o : Option Nat} {f : Layer → Layer} (hx : x < m.rows.length) :
    ((m.onLayer o f).row x).body.isOpened = (m.row x).body.isOpened := by
  cases o with
  | none => rfl
  | some q =>
    unfold onLayer
    rw [setRow_row q x hx]
    split
    · unfold Row.isOpened Cell.map
      dsimp only
      cases hs : (m.row x).body.slot <;> simp only [hs]
    · rfl

/-- A splice opens nothing. -/
theorem Rooted.splice_opened (h : m.Rooted t) (ha : m.Anchored t plan) (hx : x ∈ t.ids) :
    ((m.splice plan m.rows.length r).row x).body.isOpened = (m.row x).body.isOpened := by
  have hlinked : ((m.linked plan m.rows.length r).row x).body.isOpened =
      (m.row x).body.isOpened := by
    rw [(h.linked_row (r := r) ha).1 (h.lt hx)]
  rw [splice_eq]
  split
  · rw [onLayer_opened, hlinked]
    rw [linked_length]
    have := h.lt hx
    omega
  · exact hlinked

/-- The new row among those that were not scanned. -/
theorem filter_put {p : Nat → Bool} (hp : p id = false) (prev : Option Nat) (l : List Nat) :
    (put prev id l).filter p = l.filter p := by
  cases prev with
  | none =>
    show (id :: l).filter p = _
    rw [List.filter_cons_of_neg (by rw [hp]; nofun)]
  | some q =>
    show (Forest.insertBehind q id l).filter p = _
    induction l with
    | nil => rfl
    | cons y l ih =>
      have hcons : Forest.insertBehind q id (y :: l) =
          (if y = q then [y, id] else [y]) ++ Forest.insertBehind q id l := List.flatMap_cons
      have hone : (if y = q then [y, id] else [y]).filter p = [y].filter p := by
        split
        · show (y :: ([id] : List Nat)).filter p = _
          cases hy : p y <;> simp [hy, hp]
        · rfl
      rw [hcons, List.filter_append, hone, ih, ← List.filter_append]
      rfl

/-- What a row that was there is, an insertion leaves it. -/
theorem applyInsert_core (hx : x < m.rows.length) :
    ((m.applyInsert plan m.rows.length r edit).row x).body.core = (m.row x).body.core := by
  refine row_core hx ?_
  have hne : m.rows.length ≠ x := Nat.ne_of_gt hx
  unfold applyInsert
  rw [writeState_cores, logPush_cores, splice_cores, List.getElem?_modify,
    List.getElem?_append_left (by rw [cores_length]; exact hx)]
  cases m.cores[x]? <;> simp [hne]

theorem Rooted.applyInsert_start (h : m.Rooted t) (ha : m.Anchored t plan) :
    ((m.applyInsert plan m.rows.length r edit).row m.rows.length).body.start = r.start := by
  have hrow : ((m.splice plan m.rows.length r).row m.rows.length).body = r :=
    congrArg Cell.body (row_eq _ (h.splice_getElem? (x := 0) ha).2.2)
  have hlt : m.rows.length < (m.splice plan m.rows.length r).rows.length := by
    rw [← (m.splice plan m.rows.length r).cores_length, splice_cores, List.length_append,
      cores_length]
    exact Nat.lt_succ_self _
  have hshapes : (m.applyInsert plan m.rows.length r edit).shapes[m.rows.length]? =
      (m.splice plan m.rows.length r).shapes[m.rows.length]? := by
    unfold applyInsert
    rw [shapes_modify (writeState_cores _ _ _), shapes_same (logPush_cores _ _ _)]
  rw [Row.shape_start (row_shape hlt hshapes).2, hrow]

/-- The rows open behind an insertion were open before it. -/
theorem Sound.applyInsert_opened (h : m.Sound t) (ha : m.Anchored t plan) (hr : r.Blank)
    (hx : x ∈ (spliced t plan m.rows.length).ids)
    (ho : ((m.applyInsert plan m.rows.length r edit).row x).body.isOpened = true) :
    x ∈ t.ids ∧ (m.row x).body.isOpened = true := by
  have hspliced : (m.splice plan m.rows.length r).Sound (spliced t plan m.rows.length) :=
    h.splice ha hr
  have hmem : x = m.rows.length ∨ x ∈ t.ids :=
    List.mem_cons.mp ((spliced_ids ha _).mem_iff.mp hx)
  have hid : m.rows.length ∈ (spliced t plan m.rows.length).ids :=
    (spliced_ids ha _).mem_iff.mpr List.mem_cons_self
  have hrow : ((m.splice plan m.rows.length r).row m.rows.length).body = r :=
    congrArg Cell.body (row_eq _ (h.exact.rooted.splice_getElem? (x := 0) ha).2.2)
  have hnot : ¬ ((m.splice plan m.rows.length r).logPush m.rows.length r.edit).Turns
      m.rows.length edit := by
    rw [turns_push]
    rintro ⟨-, hslot⟩
    rw [hrow] at hslot
    exact hslot hr.slot
  have hx' : x ∈ (((m.splice plan m.rows.length r).logPush m.rows.length r.edit).turnedTree
      (spliced t plan m.rows.length) m.rows.length edit).ids := by
    rw [turnedTree_eq _ hnot]
    exact hx
  obtain ⟨hop, -⟩ := writeState_opened (hspliced.exact.logPush hid r.edit).rooted hid hx' ho
  have hbare : ((m.splice plan m.rows.length r).logPush m.rows.length r.edit).bare.rows =
      (m.splice plan m.rows.length r).bare.rows := by
    rw [logPush_bare]
  rw [isOpened_bare hbare] at hop
  rcases hmem with rfl | hxt
  · rw [hrow] at hop
    unfold Row.isOpened at hop
    rw [hr.slot] at hop
    cases hop
  · exact ⟨hxt, (h.exact.rooted.splice_opened ha hxt).symm.trans hop⟩

end Splice

section Tidy

variable {plan : Plan}

/-- The containers that take a record hold no authored payload. -/
theorem Tidy.container (h : m.Tidy t) {o : Option Nat} {layer : Layer}
    (hg : m.containerGate o = .ok layer) {w : Interior} (hw : m.held o = some w) :
    w.authored = false := by
  cases o with
  | none =>
    cases hw
    rfl
  | some q =>
    simp only [containerGate] at hg
    cases hl : m.live q with
    | error fault => rw [hl] at hg; cases hg
    | ok c =>
      rw [hl] at hg
      simp only at hg
      split at hg
      · cases hg
      · next hb =>
        split at hg
        · cases hg
        · have hc := (live_ok hl).1
          have hrow := m.row_eq hc
          have hzone := h.plain.gated hc (Bool.eq_false_iff.mpr hb)
          have hvalue : ∀ v, (m.row q).body.edit.speaker ≠ .store v := fun v hv => by
            rw [hrow] at hv
            have hadm : admitsKids c.body.edit = .error .insideAuthoredBody := by
              cases he : c.body.edit with
              | deleted value =>
                rw [he] at hv
                cases value with
                | none => cases hv
                | some v => rfl
              | replaced v | inserted v | insertedDeleted v => rfl
              | imported v | importedDeleted v =>
                have hplain := (h.plain.cell hc).2.1.plain
                rw [he] at hplain
                cases hplain
              | _ =>
                rw [he] at hv
                cases hv
            rw [hadm] at hg
            cases hg
          rw [held_scanned (h.row (h.rooted.mem hl)).2.1.plain hvalue hw, hrow, hzone]

theorem Tidy.gate (h : m.Tidy t) {anchor : InsertAt} (ha : m.resolveAnchor anchor = .ok plan)
    {w : Interior} (hw : m.held plan.parent = some w) : w.authored = false := by
  cases anchor with
  | headOf o =>
    obtain ⟨layer, hg, rfl⟩ := map_ok ha
    exact h.container hg hw
  | tailOf o =>
    obtain ⟨layer, hg, rfl⟩ := map_ok ha
    exact h.container hg hw
  | after anchor =>
    have hin := h.rooted.anchored ha
    simp only [resolveAnchor] at ha
    cases hl : m.live anchor with
    | error fault => rw [hl] at ha; cases ha
    | ok c =>
      rw [hl] at ha
      simp only at ha
      split at ha
      · cases ha
      · next hb =>
        cases ha
        have hc := (live_ok hl).1
        have hzone := h.plain.gated hc (Bool.eq_false_iff.mpr hb)
        refine Bool.eq_false_iff.mpr fun hauth => ?_
        have hx := h.authored (hin.prev anchor rfl) hw hauth
        rw [m.row_eq hc, hzone] at hx
        cases hx

/-- A record put at an anchor. -/
theorem Tidy.born (h : m.Tidy t) {store : Store} {anchor : InsertAt} {field : FieldNumber}
    {kind : RecordKind} {value : Nat} (ha : m.resolveAnchor anchor = .ok plan)
    (hid : mintRow m.rows = some id) (hstored : Stored m.store kind store value)
    (hsorted : ((m.withStore store).applyInsert plan id
      (.authored field kind (.insertedDeleted value)) (.inserted value)).Sorted) :
    ((m.withStore store).applyInsert plan id (.authored field kind (.insertedDeleted value))
      (.inserted value)).Tidy (spliced t plan m.rows.length) := by
  have hplain : ((m.withStore store).applyInsert plan id
      (.authored field kind (.insertedDeleted value)) (.inserted value)).Plain :=
    h.plain.born hid hstored
  obtain rfl := mintRow_eq hid
  have hblank : (Row.authored field kind (.insertedDeleted value)).Blank :=
    blank_authored field kind rfl
  have hp := h.rooted.anchored ha
  have hp' : (m.withStore store).Anchored t plan := ⟨hp.parent, hp.prev⟩
  have hs' : (m.withStore store).Sound t := h.sound.withStore store
  have hcore : ∀ x ∈ t.ids, (((m.withStore store).applyInsert plan m.rows.length
      (.authored field kind (.insertedDeleted value)) (.inserted value)).row x).body.core =
        (m.row x).body.core := fun x hx =>
    @applyInsert_core _ (m.withStore store) x _ plan _ (h.rooted.lt hx)
  have hstart : (((m.withStore store).applyInsert plan m.rows.length
      (.authored field kind (.insertedDeleted value)) (.inserted value)).row
        m.rows.length).body.start = none := hs'.exact.rooted.applyInsert_start hp'
  refine h.frame (hs'.born hp' hblank nofun) hplain hsorted ?_ ?_ (fun x hx => ?_)
    (fun x hx hop => .inl ?_) fun o ho => ?_
  · exact (writeState_source _).trans ((logPush_source _).trans (splice_source _))
  · have hstore : ((m.withStore store).applyInsert plan m.rows.length
        (.authored field kind (.insertedDeleted value)) (.inserted value)).store = store :=
      (writeState_store _ _).trans ((logPush_store _ _).trans (splice_store _ _ _))
    rw [hstore]
    exact hstored.grows
  · exact congrArg (fun r : Row => { r with edit := .intact }) (hcore x hx)
  · obtain ⟨hxt, hopened⟩ := hs'.applyInsert_opened hp' hblank hx hop
    have hedit := congrArg Row.edit (hcore x hxt)
    exact ⟨hxt, hopened, congrArg Edit.speaker hedit⟩
  · have hne : o ≠ some m.rows.length := fun e =>
      absurd (h.rooted.lt (ho _ e).1) (Nat.lt_irrefl _)
    have hscan : ((m.withStore store).applyInsert plan m.rows.length
        (.authored field kind (.insertedDeleted value)) (.inserted value)).scanned
          m.rows.length = false := by
      unfold scanned Row.isScanned
      rw [hstart]
      rfl
    rw [spliced_layer h.rooted hp hne]
    split
    · next heq =>
      refine ⟨filter_put hscan _ _, fun w hw hauth => ?_⟩
      rw [h.gate ha (heq ▸ hw)] at hauth
      cases hauth
    · exact ⟨rfl, fun _ _ _ _ hx => hx⟩

end Tidy

/-! ## Descents -/

/-- The rows of some records, laid one behind the other. -/
theorem tiles_laid {base : Nat} {w : Interior} {records : List Record}
    (hlaw : ∀ a ∈ records, a.Lawful standard)
    (hinside : w.start + w.len ≤ (m.zoneOf w).length)
    (hread : slice (m.zoneOf w) w.start (w.start + w.len) = Revise.text records)
    (hrow : ∀ i r, (metRows standard w.authored w.start records)[i]? = some r →
      (m.row (base + i)).body = r) :
    m.Tiles (List.range' base records.length) w records := by
  have hmet : ∀ {i : Nat}, i < records.length →
      ∃ r, (metRows standard w.authored w.start records)[i]? = some r := fun {i} hi =>
    ⟨_, List.getElem?_eq_getElem (by rwa [metRows_length])⟩
  have hscanned : ∀ x ∈ List.range' base records.length, m.scanned x = true := fun x hx => by
    obtain ⟨hle, hlt⟩ := List.mem_range'_1.mp hx
    obtain ⟨r, hr⟩ := hmet (i := x - base) (by omega)
    have hbody := hrow _ r hr
    rw [Nat.add_sub_cancel' hle] at hbody
    obtain ⟨pos, a, rfl⟩ := metRows_met (List.mem_of_getElem? hr)
    unfold scanned
    rw [hbody]
    rfl
  refine ⟨hlaw, hinside, hread, ?_, fun _ => hscanned⟩
  rw [List.filter_eq_self.mpr hscanned]
  apply List.ext_getElem?
  intro i
  rw [List.getElem?_map]
  by_cases hi : i < records.length
  · obtain ⟨r, hr⟩ := hmet hi
    rw [List.getElem?_range' hi, Option.map_some, hr, Nat.one_mul, hrow i r hr,
      shape_met (List.mem_of_getElem? hr)]
  · rw [List.getElem?_eq_none_iff.mpr (by rw [List.length_range']; omega),
      List.getElem?_eq_none_iff.mpr (by rw [metRows_length]; omega)]
    rfl

section Tidy

/-- What speaks for a LEN stands in its zone. -/
theorem Tidy.held_inside (h : m.Tidy t) (hx : x ∈ t.ids) (hk : (m.row x).body.kind = .len)
    {w : Interior} (hw : m.interior (m.row x).body = .ok w) :
    w.start + w.len ≤ (m.zoneOf w).length := by
  obtain ⟨-, hspoken, -⟩ := h.row hx
  rw [interior_plain hspoken.plain] at hw
  have hscan : (scannedAt (m.row x).body).map (fun start =>
      (⟨(m.row x).body.authoredZone, false, (m.lenGeometry (m.row x).body start).1,
        (m.lenGeometry (m.row x).body start).2⟩ : Interior)) = .ok w →
      w.start + w.len ≤ (m.zoneOf w).length := fun he => by
    unfold scannedAt at he
    cases hstart : (m.row x).body.start with
    | none => rw [hstart] at he; cases he
    | some start =>
      rw [hstart] at he
      cases he
      obtain ⟨pos, a, hspelled⟩ := h.spelled hx (by
        unfold scanned Row.isScanned
        rw [hstart]
        rfl)
      obtain rfl : start = pos := Option.some.inj (hstart.symm.trans hspelled.start)
      obtain ⟨word, payload, hp⟩ := hspelled.len hk
      have hle := hspelled.stop_le
      rw [hspelled.stop, Record.bytes, hp, Payload.bytes] at hle
      simp only [List.length_append] at hle
      dsimp only
      rw [lenGeometry_spelled hspelled hp]
      show start + a.tag.length + word.length + payload.length ≤ (m.backing (m.row x).body).length
      omega
  cases hsp : (m.row x).body.edit.speaker with
  | store v =>
    rw [hsp] at hw
    cases hw
    exact (h.plain.store.span v).1
  | scanned =>
    rw [hsp] at hw
    exact hscan hw
  | sourceRow row =>
    rw [hsp] at hw
    exact hscan hw

/-- An interior parsed. -/
theorem Tidy.parsed (h : m.Tidy t) (hid : id ∈ t.ids) (hk : (m.row id).body.kind = .len)
    (hslot : (m.row id).body.slot = .unopened) {w : Interior} {records : List Record}
    (hp : m.Parsed id (m.row id).body m' w records) (hplain : m'.Plain) (hsorted : m'.Sorted) :
    m'.Tidy (t.rekid id (line (List.range' m.rows.length records.length))) := by
  have hr := h.rooted
  have hw := hp.interior
  obtain ⟨layers, runs, run, hm⟩ := hp.machine
  have hcell := (hr.cell hid).1
  have halias : (w.isAlias || (m.row id).body.isAlias) = false := by
    rw [h.plain.interior hcell hw, (h.row hid).1]
    rfl
  have hrows : interiorRows standard w (m.row id).body.isAlias records =
      metRows standard w.authored w.start records := by
    unfold interiorRows
    rw [halias]
    refine (List.map_congr_left fun r _ => ?_).trans (List.map_id _)
    show ({ r with isAlias := r.isAlias || false } : Row) = r
    rw [Bool.or_false]
  have hlen : (metRows standard w.authored w.start records).length = records.length :=
    metRows_length _ _
  have hblank : ∀ r ∈ metRows standard w.authored w.start records, r.Blank := fun r hr =>
    blank_interior (hrows ▸ hr)
  rw [hrows, ← hlen] at hm
  have hsprouts : m.Sprouts m' id (metRows standard w.authored w.start records) run :=
    hm ▸ sprouts (hr.lt hid) _ _ _ _
  have hsound := h.sound.parsed hid hslot hsprouts hblank
  have hs := hsprouts.source
  have hstore := hsprouts.store
  have hlast : (m.row id).body.slot.layer.last = none := by rw [hslot]; rfl
  have hself := congrArg Cell.body (hsprouts.row_self (hr.lt hid))
  rw [hlen] at hsound hself
  have hmem : ∀ {x : Nat}, x ∈ (t.rekid id (line (List.range' m.rows.length records.length))).ids ↔
      x ∈ t.ids ∨ m.rows.length ≤ x ∧ x < m.rows.length + records.length := hr.mem_sprouts hid hlast
  have hold : ∀ x ∈ t.ids, x ≠ id → m'.row x = m.row x := fun x hx hne =>
    hsprouts.row_other (hr.lt hx) hne
  have hnew : ∀ i r, (metRows standard w.authored w.start records)[i]? = some r →
      (m'.row (m.rows.length + i)).body = r := fun i r hi => (hsprouts.row_new hi).2
  have hshape : ∀ x ∈ t.ids, (m'.row x).body.shape = (m.row x).body.shape := fun x hx => by
    by_cases he : x = id
    · rw [he, hself]
      rfl
    · rw [hold x hx he]
  have hbare : (m.row id).body.isOpened = false := by
    unfold Row.isOpened
    rw [hslot]
  have hg : m.store.Grows m'.store := hstore ▸ .refl _
  refine h.frame hsound hplain hsorted hs hg hshape (fun x hx hop => ?_) fun o ho => ?_
  · rcases hmem.mp hx with hxt | ⟨hle, hlt⟩
    · by_cases he : x = id
      · subst he
        refine .inr ⟨by rw [hself]; exact hk, w, records, ?_, ?_⟩
        · have hwas : m'.interior (m'.row x).body = .ok w :=
            (h.interior_congr hid hk hs hg (hshape x hid) (by rw [hself])
              (by rw [hself]; exact (h.row hid).2.1.plain)).trans hw
          show (m'.interior (m'.row x).body).toOption = _
          rw [hwas]
          rfl
        · have hzone : m'.zoneOf w = m.zoneOf w := by
            unfold zoneOf
            rw [hs, hstore]
          rw [Forest.layer_rekid_self hid, line_tops]
          refine tiles_laid hp.lawful ?_ ?_ hnew
          · rw [hzone]
            exact h.held_inside hid hk hw
          · rw [hzone]
            exact hp.read
      · rw [hold x hxt he] at hop
        exact .inl ⟨hxt, hop, by rw [hold x hxt he]⟩
    · obtain ⟨r, hi⟩ : ∃ r, (metRows standard w.authored w.start records)[x - m.rows.length]? =
          some r := ⟨_, List.getElem?_eq_getElem (by omega)⟩
      have hbody := hnew _ r hi
      rw [Nat.add_sub_cancel' hle] at hbody
      unfold Row.isOpened at hop
      rw [hbody, (hblank r (List.mem_of_getElem? hi)).slot] at hop
      cases hop
  · have hlayer : (t.rekid id (line (List.range' m.rows.length records.length))).layer o =
        t.layer o := by
      refine hr.layer_sprouts hid hlast (fun x hx => (ho x hx).1) fun e => ?_
      obtain ⟨-, -, hop, -⟩ := ho id e
      rw [hbare] at hop
      cases hop
    rw [hlayer]
    exact ⟨rfl, fun _ _ _ _ hx => hx⟩

theorem Tidy.entered (h : m.Tidy t) {c : Cell Row} (hl : m.live id = .ok c)
    (hk : c.body.kind = .len) (hslot : c.body.slot = .unopened) :
    ∃ t', (m.enter id c.body).1.Tidy t' := by
  have hid := h.rooted.mem hl
  have hrow := m.row_eq (live_ok hl).1
  have hplain := h.plain.entered (live_ok hl).1
  rw [← hrow] at hk hslot hplain ⊢
  have hsorted := @Sorted.entered standard m id (m.row id).body h.sorted
  rcases enter_cases id (m.row id).body with he | ⟨faults, index, he⟩ | ⟨w, records, hp⟩
  · exact ⟨t, he ▸ h⟩
  · have hf : ({ m with faults } : Machine standard).Sound t :=
      ⟨⟨h.rooted.of_rows rfl rfl rfl, fun mark =>
        ⟨(h.sound.exact.tallied mark).counted, (h.sound.exact.tallied mark).flags⟩⟩,
        h.sound.logged, h.sound.owns, fun x c hc hx =>
          let ⟨hclean, hflags, hkids, hchain⟩ := h.sound.buried x c hc hx
          ⟨hclean, hflags, hkids, hchain⟩⟩
    have hsound := hf.parked hid hslot index
    rw [he] at hplain hsorted ⊢
    have hparked : ∀ x ∈ t.ids, (({ m with faults } : Machine standard).setSlot id (.fault index)
        none).row x = if x = id then
          { m.row x with kid := none, body := { (m.row x).body with slot := .fault index } }
        else m.row x := fun x hx => setSlot_row (m := { m with faults }) id _ _ (h.rooted.lt hx)
    refine ⟨t, h.frame hsound hplain hsorted rfl (.refl _) (fun x hx => ?_) (fun x hx hop => ?_)
      fun _ _ => ⟨rfl, fun _ _ _ _ hx => hx⟩⟩
    · rw [hparked x hx]
      split <;> rfl
    · rw [hparked x hx] at hop ⊢
      split at hop
      · cases hop
      · next hne =>
        rw [if_neg hne]
        exact .inl ⟨hx, hop, rfl⟩
  · exact ⟨_, h.parsed hid hk hslot hp hplain hsorted⟩

end Tidy

/-! ## Runs -/

/-- An opened machine is tidy. -/
theorem tidy_open {cap : Nat} {source : List UInt8}
    (h : openSource standard cap source = .ok m) :
    m.Tidy (line (List.range' 0 m.rows.length)) := by
  have hsound := sound_open h
  have hplain := plain_open h
  have hsorted := sorted_open h
  obtain ⟨records, hlaw, hread, rfl⟩ := openSource_eq h
  have hlen : (laid none 0 (metRows standard false 0 records)).length = records.length :=
    (laid_length _ _).trans (metRows_length _ _)
  have hclosed : ∀ x ∈ (line (List.range' 0 (laid none 0
      (metRows standard false 0 records)).length)).ids, ∀ m : Machine standard,
      m.rows = laid none 0 (metRows standard false 0 records) →
      (m.row x).body.isOpened = false := fun x hx m hm => by
    rw [line_ids, List.mem_range'_1] at hx
    have hc := List.getElem?_eq_getElem (show x <
      (laid none 0 (metRows standard false 0 records)).length by omega)
    obtain ⟨-, -, hmem, -⟩ := laid_cell hc
    rw [m.row_eq (by rw [hm]; exact hc)]
    unfold Row.isOpened
    rw [(blank_met hmem).slot]
  refine ⟨hsound, hplain, hsorted, fun o ho => ?_, fun x hx hop => ?_⟩
  · cases o with
    | none =>
      refine ⟨_, records, rfl, ?_⟩
      rw [Forest.layer_none, line_tops]
      dsimp only
      rw [hlen]
      refine tiles_laid hlaw ?_ ?_ fun i r hi => ?_
      · show 0 + source.length ≤ source.length
        omega
      · show (source.take (0 + source.length)).drop 0 = _
        rw [Nat.zero_add, List.take_length, hread]
        rfl
      · have hc : (laid none 0 (metRows standard false 0 records))[0 + i]? = some
            ⟨none, if i + 1 < (metRows standard false 0 records).length then some (0 + i + 1)
              else none, none, r⟩ := by
          have hi' : (metRows standard false 0 records)[i]? = some r := hi
          rw [Nat.zero_add, laid_getElem?, hi']
          simp only [Option.map_some, Nat.zero_add]
        rw [row_eq _ hc]
    | some x =>
      obtain ⟨hx, hop⟩ := ho x rfl
      rw [hclosed x hx _ rfl] at hop
      cases hop
  · rw [hclosed x hx _ rfl] at hop
    cases hop

/-- One plain command keeps a machine tidy. -/
theorem Tidy.effect (h : m.Tidy t) {command : Command standard} (he : m.Effect command m')
    (hp : command.plain = true) : ∃ t', m'.Tidy t' := by
  have hsorted := h.sorted.effect he (spares_plain hp)
  cases he with
  | refl => exact ⟨t, h⟩
  | edited he => exact ⟨_, h.edited he hp⟩
  | born ha hid hb =>
    cases hb with
    | stored hstored => exact ⟨_, h.born ha hid hstored hsorted⟩
    | copied hn => rw [hp] at hn; cases hn
    | designated hn => rw [hp] at hn; cases hn
    | imported hn => rw [hp] at hn; cases hn
  | moved hn => rw [hp] at hn; cases hn
  | entered hl hk hslot => exact h.entered hl hk hslot
  | reverted => exact h.reverted

/-- Every state of a plain run is tidy. -/
theorem tidy_run (h : m.Tidy t) {commands : List (Command standard)}
    (hp : ∀ command ∈ commands, command.plain = true) :
    ∃ t', (m.performAll commands).Tidy t' := by
  induction commands generalizing m t with
  | nil => exact ⟨t, h⟩
  | cons command commands ih =>
    obtain ⟨t', h'⟩ := h.effect (perform_effect m command) (hp command List.mem_cons_self)
    exact ih h' fun command hc => hp command (List.mem_cons_of_mem _ hc)

/-- Both lattices are exact in every state of a plain run. -/
theorem lattices_plain {cap : Nat} {source : List UInt8}
    (h : openSource standard cap source = .ok m) (commands : List (Command standard))
    (hp : ∀ command ∈ commands, command.plain = true) : (m.performAll commands).Lattices := by
  obtain ⟨t, ht⟩ := tidy_run (tidy_open h) hp
  exact ht.sound.lattices

/-- A record edited, its container emptied over it, and both steps taken back. -/
def emptied : List (Command .tolerant) :=
  [.descend 0, .setPayload 0 [0x08, 0x01], .descend 0, .clearEdit 0, .revert, .revert]

theorem lattices_plain_emptied :
    ∃ m : Machine .tolerant,
      openSource .tolerant PayloadLen.max [0x0A, 0x02, 0x08, 0x05] = .ok m ∧
      (m.performAll emptied).Lattices := by
  obtain ⟨m, hm⟩ : ∃ m : Machine .tolerant,
      openSource .tolerant PayloadLen.max [0x0A, 0x02, 0x08, 0x05] = .ok m := ⟨_, rfl⟩
  exact ⟨m, hm, lattices_plain hm emptied (by decide)⟩

end Machine

end ProtobufEdit.Revise
