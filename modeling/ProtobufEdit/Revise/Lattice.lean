import ProtobufEdit.Revise.Family
import ProtobufEdit.Revise.Log
import ProtobufEdit.Revise.Marks

/-!
# The lattices over a run

Both lattices stay exact and the log names live rows alone, as long as no command orphans an
interior that holds a mark.
-/

namespace ProtobufEdit.Revise

open Wire Wire.Groupless Varint Arena

namespace Machine

variable {standard : Standard} {m m' : Machine standard} {t t' : Forest Unit} {id x : Nat}

/-! ## States and parents -/

def states (m : Machine standard) (x : Nat) : Edit := (m.row x).body.edit

theorem states_eq (x : Nat) :
    m.states x = (m.cores[x]?.map fun p => p.2.edit).getD (.insertedDeleted 0) := by
  unfold states Machine.row
  rw [cores_getElem?, List.getD_eq_getElem?_getD]
  cases m.rows[x]? <;> rfl

theorem states_same (h : m'.cores = m.cores) : m'.states = m.states := by
  funext x
  rw [states_eq, states_eq, h]

theorem states_modify {edit : Edit} (hid : id < m.rows.length)
    (h : m'.cores = m.cores.modify id (coreEdit edit)) :
    m'.states = Function.update m.states id edit := by
  funext x
  rw [states_eq, h, List.getElem?_modify]
  by_cases hx : x = id
  · subst hx
    have hlt : x < m.cores.length := by rwa [cores_length]
    rw [Function.update_self, List.getElem?_eq_getElem hlt]
    simp [coreEdit]
  · rw [Function.update_of_ne hx, states_eq]
    cases m.cores[x]? <;> simp [Ne.symm hx]

/-- The parents of the rows there are never change. -/
theorem beneath_back (hg : Grown (links m'.rows))
    (h : ∀ x < m.rows.length, (m'.cores[x]?).map Prod.fst = (m.cores[x]?).map Prod.fst) {y : Nat}
    (hx : x < m.rows.length) (hb : Beneath (links m'.rows) x y) : Beneath (links m.rows) x y := by
  have hhangs : ∀ {x p : Nat}, x < m.rows.length → Hangs (links m'.rows) x p →
      Hangs (links m.rows) x p := by
    rintro x p hx ⟨c, hc, hp⟩
    obtain ⟨d, hd, hdp, -, -⟩ := cell_of_links hc
    have hpar := h x hx
    rw [cores_getElem?, cores_getElem?, hd, List.getElem?_eq_getElem hx] at hpar
    refine ⟨_, links_of_cell (List.getElem?_eq_getElem hx), ?_⟩
    exact (Option.some.inj hpar).symm.trans (hdp.trans hp)
  induction hb using Relation.TransGen.head_induction_on with
  | single hp => exact .single (hhangs hx hp)
  | head hp _ ih => exact .head (hhangs hx hp) (ih (Nat.lt_trans (hg _ _ hp) hx))

theorem parents_modify {edit : Edit} (h : m'.cores = m.cores.modify id (coreEdit edit)) (x : Nat) :
    (m'.cores[x]?).map Prod.fst = (m.cores[x]?).map Prod.fst := by
  rw [h, List.getElem?_modify]
  cases m.cores[x]? with
  | none => rfl
  | some p => by_cases hx : id = x <;> simp [hx, coreEdit]

/-! ## Dead rows -/

/-- A dead row is clean, and the interior it died with hangs off it yet. -/
structure Buried (m : Machine standard) (t : Forest Unit) (x : Nat) (c : Cell Row) : Prop where
  clean : ∀ mark, c.body.own mark = false
  flags : ∀ mark, c.body.flag mark = false
  kids : ∀ mark, c.body.kids mark = 0
  chain : ∃ u, Laid (links m.rows) (some x) c.kid u ∧ (∀ y ∈ u.ids, y ∉ t.ids) ∧
    c.body.slot.layer.last = u.tops.getLast?

def AllBuried (m : Machine standard) (t : Forest Unit) : Prop :=
  ∀ (x : Nat) (c : Cell Row), m.rows[x]? = some c → x ∉ t.ids → m.Buried t x c

/-- Dead rows rest. -/
theorem AllBuried.frame (h : m.AllBuried t)
    (hrows : ∀ x < m.rows.length, x ∉ t.ids → m'.rows[x]? = m.rows[x]?)
    (hids : ∀ x, x ∉ t'.ids → x < m'.rows.length → x < m.rows.length ∧ x ∉ t.ids)
    (hdead : ∀ x < m.rows.length, x ∉ t.ids → x ∉ t'.ids) : m'.AllBuried t' := by
  intro x c hc hx
  obtain ⟨hlt, hxt⟩ := hids x hx (List.getElem?_eq_some_iff.mp hc).1
  rw [hrows x hlt hxt] at hc
  obtain ⟨hclean, hflags, hkids, u, hu, hout, hlast⟩ := h x c hc hxt
  have hlen : ∀ y ∈ u.ids, y < m.rows.length := fun y hy => by
    have := hu.lt hy
    rwa [links_length] at this
  refine ⟨hclean, hflags, hkids, u, hu.frame fun y hy => ?_, fun y hy => ?_, hlast⟩
  · rw [links_getElem?, links_getElem?, hrows y (hlen y hy) (hout y hy)]
  · exact hdead y (hlen y hy) (hout y hy)

/-- The dead rows are left as they are. -/
def Rests (t : Forest Unit) (m m' : Machine standard) : Prop :=
  ∀ x, x ∉ t.ids → m'.rows[x]? = m.rows[x]?

theorem Rests.trans {m'' : Machine standard} (h : Rests t m m') (h' : Rests t m' m'') :
    Rests t m m'' := fun x hx => (h' x hx).trans (h x hx)

theorem rests_setRow (hid : id ∈ t.ids) (f : Row → Row) : Rests t m (m.setRow id f) :=
  fun _ hx => modify_other fun e => hx (e ▸ hid)

theorem AllBuried.rests (h : m.AllBuried t) (hr : Rests t m m')
    (hlen : m'.rows.length = m.rows.length) : m'.AllBuried t :=
  h.frame (fun x _ hx => hr x hx) (fun _ hx hlt => ⟨hlen ▸ hlt, hx⟩) fun _ _ hx => hx

/-! ## The log's row -/

theorem rooted_setOwn (h : m.Rooted t) (id : Nat) (b : Bool) : (m.setOwn id b).Rooted t :=
  h.setRow (f := fun r => { r with ownHist := b }) (fun _ => rfl) (fun _ => rfl) id

theorem logPush_rests (h : m.Rooted t) (hid : id ∈ t.ids) (past : Edit) :
    Rests t m (m.logPush id past) := by
  unfold Machine.logPush
  extract_lets fresh pushed
  have hr : pushed.Rooted t := h.of_rows rfl rfl rfl
  split
  · have hset : Rests t m (pushed.setOwn id true) := rests_setRow hid _
    refine hset.trans fun x hx => ?_
    exact (raiseMark_climbed .hist (rooted_setOwn hr id true) hid
      _).buried x hx
  · exact fun _ _ => rfl

/-- A logged row has history, and the other rows what they had. -/
theorem logPush_own (h : m.Rooted t) (hid : id ∈ t.ids) (past : Edit) (hx : x ∈ t.ids)
    (mark : Mark) :
    ((m.logPush id past).row x).body.own mark =
      if mark = .hist ∧ x = id then true else (m.row x).body.own mark := by
  unfold Machine.logPush
  extract_lets fresh pushed
  have hr : pushed.Rooted t := h.of_rows rfl rfl rfl
  have hset : ((pushed.setOwn id true).row x).body.own mark =
      if mark = .hist ∧ x = id then true else (m.row x).body.own mark := by
    rw [show (pushed.setOwn id true).row x = _ from setRow_row id x (hr.lt hx)]
    by_cases he : x = id
    · subst he
      cases mark <;> simp [Cell.map, Row.own, pushed, Machine.row]
    · simp [he, pushed, Machine.row]
  by_cases hf : fresh = true
  · rw [if_pos hf, ← hset]
    exact (raiseMark_climbed .hist (rooted_setOwn hr id true) hid
      _).own x hx mark
  · rw [if_neg hf]
    show (m.row x).body.own mark = _
    split
    · next he =>
      obtain ⟨rfl, rfl⟩ := he
      have hown : (m.row x).body.ownHist = true := by simpa [fresh] using hf
      exact hown
    · rfl

theorem logPop_rests (h : m.Rooted t) {step : Transition} (hid : step.row ∈ t.ids)
    (log : List Transition) : Rests t m (m.logPop step log) := by
  unfold Machine.logPop
  extract_lets popped
  have hr : popped.Rooted t := h.of_rows rfl rfl rfl
  split
  · have hset : Rests t m (popped.setOwn step.row false) := rests_setRow hid _
    refine hset.trans fun x hx => ?_
    exact (lowerMark_climbed .hist (rooted_setOwn hr step.row false) hid
      _).buried x hx
  · exact fun _ _ => rfl

theorem logPop_own (h : m.Rooted t) {step : Transition} (hid : step.row ∈ t.ids)
    (log : List Transition) (hx : x ∈ t.ids) (mark : Mark) :
    ((m.logPop step log).row x).body.own mark =
      if mark = .hist ∧ x = step.row ∧ step.fresh = true then false
      else (m.row x).body.own mark := by
  unfold Machine.logPop
  extract_lets popped
  have hr : popped.Rooted t := h.of_rows rfl rfl rfl
  by_cases hf : step.fresh = true
  · have hset : ((popped.setOwn step.row false).row x).body.own mark =
        if mark = .hist ∧ x = step.row then false else (m.row x).body.own mark := by
      rw [show (popped.setOwn step.row false).row x = _ from setRow_row step.row x (hr.lt hx)]
      by_cases he : x = step.row
      · subst he
        cases mark <;> simp [Cell.map, Row.own, popped, Machine.row]
      · simp [he, popped, Machine.row]
    rw [if_pos hf]
    simp only [hf, and_true]
    rw [← hset]
    exact (lowerMark_climbed .hist (rooted_setOwn hr step.row false) hid
      _).own x hx mark
  · rw [if_neg hf, if_neg fun e => hf e.2.2]
    rfl

/-! ## The state written -/

/-- The rows behind a transition, but for its own. -/
theorem turned_getElem? (h : m.Rooted t) {u : Forest Unit} (hu : t.kidsOf id = some u)
    (edit : Edit) (hx : x ≠ id) :
    (m.turned id edit).rows[x]? = m.rows[x]?.map fun c =>
      if m.Turns id edit ∧ x ∈ u.ids then c.map Row.setDead else c := by
  have hset : (m.setEdit id edit).rows[x]? = m.rows[x]? := modify_other hx
  rw [turned_eq]
  by_cases hturns : m.Turns id edit
  · have hr : (m.setEdit id edit).Rooted t :=
      h.setRow (f := fun r => { r with edit }) (fun _ => rfl) (fun _ => rfl) id
    rw [if_pos hturns, hr.orphanInterior_getElem? hu, hset]
    simp only [hx, if_false, hturns, true_and]
  · rw [if_neg hturns, hset]
    simp [hturns]

theorem turnedTree_eq (edit : Edit) (h : ¬ m.Turns id edit) : m.turnedTree t id edit = t :=
  if_neg h

theorem mem_turned (h : m.Rooted t) {u : Forest Unit} (hu : t.kidsOf id = some u) (edit : Edit) :
    x ∈ (m.turnedTree t id edit).ids ↔ x ∈ t.ids ∧ ¬ (m.Turns id edit ∧ x ∈ u.ids) := by
  unfold turnedTree
  by_cases hturns : m.Turns id edit
  · rw [if_pos hturns, mem_rekid_nil h.nodup hu]
    simp [hturns]
  · rw [if_neg hturns]
    simp [hturns]

/-- A transition's climb. -/
theorem writeState_climbed (h : m.Exact t) (hid : id ∈ t.ids) {edit : Edit}
    (hclean : m.Turns id edit → m.Clean id) :
    Climbed (m.turnedTree t id edit) .dirt (m.turned id edit) (m.writeState id edit) := by
  have hr := (h.turned hid hclean).rooted
  have hin := mem_turnedTree h.rooted hid edit
  unfold Machine.writeState
  extract_lets settled
  split
  · exact raiseMark_climbed .dirt hr hin _
  · exact lowerMark_climbed .dirt hr hin _

theorem writeState_hist (h : m.Exact t) (hid : id ∈ t.ids) {edit : Edit}
    (hclean : m.Turns id edit → m.Clean id) (hx : x ∈ (m.turnedTree t id edit).ids) :
    ((m.writeState id edit).row x).body.ownHist = (m.row x).body.ownHist := by
  refine ((writeState_climbed h hid hclean).own x hx .hist).trans ?_
  obtain ⟨u, hu⟩ := Forest.exists_kidsOf hid
  by_cases he : x = id
  · subst he
    exact (turned_row h.rooted hid edit .hist).2.2.1
  · obtain ⟨hxt, hn⟩ := (mem_turned h.rooted hu edit).mp hx
    have hc := turned_getElem? h.rooted hu edit he
    rw [(h.rooted.cell hxt).1] at hc
    simp only [Option.map_some, if_neg hn] at hc
    rw [row_eq _ hc]
    rfl

/-- An orphaned interior is buried clean. -/
theorem writeState_buried (h : m.Exact t) (hid : id ∈ t.ids) {edit : Edit}
    (hclean : m.Turns id edit → m.Clean id) (hb : m.AllBuried t) :
    (m.writeState id edit).AllBuried (m.turnedTree t id edit) := by
  have hr := h.rooted
  have hc := writeState_climbed h hid hclean
  obtain ⟨u, hu⟩ := Forest.exists_kidsOf hid
  have hmem : ∀ {x : Nat}, x ∈ (m.turnedTree t id edit).ids ↔
      x ∈ t.ids ∧ ¬ (m.Turns id edit ∧ x ∈ u.ids) := mem_turned hr hu edit
  have hnot := Forest.not_mem_kidsOf hr.nodup hu
  have hrow : ∀ {x : Nat}, x ∉ (m.turnedTree t id edit).ids →
      (m.writeState id edit).rows[x]? = m.rows[x]?.map fun c =>
        if m.Turns id edit ∧ x ∈ u.ids then c.map Row.setDead else c := fun {x} hx => by
    have hne : x ≠ id := fun e => hx (hmem.mpr ⟨e ▸ hid, fun ht => hnot (e ▸ ht.2)⟩)
    rw [hc.buried x hx, turned_getElem? hr hu edit hne]
  have hlinks : ∀ {x : Nat}, x ∉ (m.turnedTree t id edit).ids →
      (links (m.writeState id edit).rows)[x]? = (links m.rows)[x]? := fun {x} hx => by
    rw [links_getElem?, links_getElem?, hrow hx]
    cases m.rows[x]? with
    | none => rfl
    | some c => simp only [Option.map_some]; split <;> rfl
  have hout : ∀ {v : Forest Unit}, (∀ y ∈ v.ids, y ∉ t.ids ∨ m.Turns id edit ∧ y ∈ u.ids) →
      ∀ y ∈ v.ids, y ∉ (m.turnedTree t id edit).ids := fun hv y hy hin =>
    (hv y hy).elim (fun hn => hn (hmem.mp hin).1) (hmem.mp hin).2
  intro x c hx hdead
  rw [hrow hdead] at hx
  obtain ⟨b, hbx, rfl⟩ := Option.map_eq_some_iff.mp hx
  by_cases hxt : x ∈ t.ids
  · -- a row of the interior
    have hin : m.Turns id edit ∧ x ∈ u.ids := not_not.mp fun hn => hdead (hmem.mpr ⟨hxt, hn⟩)
    obtain ⟨hturns, hxu⟩ := hin
    have hbelow : ∀ mark, m.flagged mark x = false ∧ (m.row x).body.own mark = false ∧
        (m.row x).body.kids mark = 0 := fun mark => h.clean_below hu (hclean hturns mark) hxu
    obtain ⟨v, hv⟩ := Forest.exists_kidsOf hxu
    have hvt : t.kidsOf x = some v := (Forest.kidsOf_kidsOf hr.nodup hu hxu).trans hv
    obtain ⟨d, hd, hchain⟩ := hr.laid.kids hvt
    obtain rfl := Option.some.inj ((links_of_cell hbx).symm.trans hd)
    have hvu := hout (v := v) fun y hy => .inr ⟨hturns, (Forest.kidsOf_sublist hv).subset hy⟩
    have htail := hr.tail (some x) (by rintro _ ⟨⟩; exact hxt)
    rw [holdingLayer_some, m.row_eq hbx, Forest.layer_some, hvt] at htail
    rw [if_pos ⟨hturns, hxu⟩]
    have hrow' : m.row x = b := m.row_eq hbx
    unfold flagged at hbelow
    rw [hrow'] at hbelow
    refine ⟨fun mark => ?_, fun mark => ?_, fun mark => ?_, v, hchain.frame fun y hy => ?_, hvu,
      htail⟩
    · cases mark with
      | dirt => exact (hbelow .dirt).2.1
      | hist => exact (hbelow .hist).2.1
    · cases mark with
      | dirt => exact (hbelow .dirt).1
      | hist => exact (hbelow .hist).1
    · cases mark with
      | dirt => exact (hbelow .dirt).2.2
      | hist => exact (hbelow .hist).2.2
    · exact hlinks (hvu y hy)
  · rw [if_neg fun hin => hxt ((Forest.kidsOf_sublist hu).subset hin.2)]
    obtain ⟨hclean', hflags, hkids, v, hv, hvt, hlast⟩ := hb x b hbx hxt
    have hvo := hout (v := v) fun y hy => .inl (hvt y hy)
    exact ⟨hclean', hflags, hkids, v, hv.frame fun y hy => hlinks (hvo y hy), hvo, hlast⟩

/-! ## Sound machines -/

/-- The lattices are exact, the log names live rows and fits their states, and dead rows are
clean. -/
structure Sound (m : Machine standard) (t : Forest Unit) : Prop where
  exact : m.Exact t
  logged : Logged m.log m.states (links m.rows) t.ids
  owns : ∀ x ∈ t.ids, ((m.row x).body.ownHist = true ↔ Named m.log x)
  buried : m.AllBuried t

/-- No step touches a row beneath a clean interior. -/
theorem Sound.untouched (h : m.Sound t) (hclean : m.Clean id)
    (hx : Touched m.log x) : ¬ Beneath (links m.rows) x id := by
  intro hb
  have hxt := h.logged.live x hx
  obtain ⟨u, hu, hxu⟩ := (h.exact.rooted.laid.beneath_iff h.exact.rooted.nodup hxt).mp hb
  rcases h.logged.unwinds.held hx with hd | hn
  · have hown := (h.exact.clean_below hu (hclean .dirt) hxu).2.1
    have hdirt : (m.row x).body.own .dirt = true := hd
    rw [hown] at hdirt
    cases hdirt
  · have hown := (h.exact.clean_below hu (hclean .hist) hxu).2.1
    have hhist : (m.row x).body.own .hist = true := (h.owns x hxt).mpr hn
    rw [hown] at hhist
    cases hhist

/-- Nothing is beneath a row that was never parsed. -/
theorem Rooted.beneath_unopened (h : m.Rooted t) (hid : id ∈ t.ids)
    (hslot : (m.row id).body.slot = .unopened) (hx : x ∈ t.ids) :
    ¬ Beneath (links m.rows) x id := by
  intro hb
  obtain ⟨u, hu, hxu⟩ := (h.laid.beneath_iff h.nodup hx).mp hb
  rw [h.unopened hid (by rw [hslot]; rfl)] at hu
  cases hu
  cases hxu

/-- Where what speaks for a row changes, no step touches a row beneath it. -/
theorem Sound.unturned (h : m.Sound t) (hid : id ∈ t.ids) {edit : Edit}
    (hclean : m.Turns id edit → m.Clean id) (hflip : (m.states id).speaker ≠ edit.speaker)
    (hx : Touched m.log x) : ¬ Beneath (links m.rows) x id := by
  by_cases hslot : (m.row id).body.slot = .unopened
  · exact h.exact.rooted.beneath_unopened hid hslot (h.logged.live x hx)
  · exact h.untouched (hclean ⟨hflip, hslot⟩) hx

/-- The rows that a transition leaves: no touched row is orphaned. -/
theorem mem_turned_of (h : m.Rooted t) (hid : id ∈ t.ids) {edit : Edit} (hx : x ∈ t.ids)
    (hb : m.Turns id edit → ¬ Beneath (links m.rows) x id) :
    x ∈ (m.turnedTree t id edit).ids := by
  obtain ⟨u, hu⟩ := Forest.exists_kidsOf hid
  refine (mem_turned h hu edit).mpr ⟨hx, fun ht => hb ht.1 ?_⟩
  exact (h.laid.beneath_iff h.nodup hx).mpr ⟨u, hu, ht.2⟩

/-- Marks are no part of a transition's premises. -/
theorem turns_bare (h : m'.bare.rows = m.bare.rows) (id : Nat) (edit : Edit) :
    m'.Turns id edit ↔ m.Turns id edit := by
  have hrow : (m'.row id).body.bare = (m.row id).body.bare := by
    have hb : m'.bare.row id = m.bare.row id := by
      unfold Machine.row
      rw [h]
    rw [bare_row, bare_row] at hb
    exact congrArg Cell.body hb
  have hedit := congrArg Row.edit hrow
  have hslot := congrArg Row.slot hrow
  rw [Row.bare_edit, Row.bare_edit] at hedit
  rw [Row.bare_slot, Row.bare_slot] at hslot
  unfold Turns
  rw [hedit]
  refine and_congr_right fun _ => not_congr ?_
  rw [← Slot.bare_eq_unopened, hslot, Slot.bare_eq_unopened]

theorem turns_push (past : Edit) (edit : Edit) :
    (m.logPush id past).Turns id edit ↔ m.Turns id edit :=
  turns_bare (by rw [logPush_bare]) id edit

/-- A clean interior stays clean under its own row's step. -/
theorem Exact.clean_push (h : m.Exact t) (hid : id ∈ t.ids) (past : Edit) (hclean : m.Clean id) :
    (m.logPush id past).Clean id := by
  obtain ⟨u, hu⟩ := Forest.exists_kidsOf hid
  intro mark
  refine (h.logPush hid past).clean_of hu fun x hx => ?_
  have hne : x ≠ id := fun e => Forest.not_mem_kidsOf h.rooted.nodup hu (e ▸ hx)
  rw [logPush_own h.rooted hid past ((Forest.kidsOf_sublist hu).subset hx), if_neg fun e => hne e.2]
  exact (h.clean_below hu (hclean mark) hx).2.1

/-- Another spelling of a transition's forest. -/
theorem turnedTree_congr {edit : Edit} (h : m'.Turns id edit ↔ m.Turns id edit) :
    m'.turnedTree t id edit = m.turnedTree t id edit := by
  unfold turnedTree
  by_cases hturns : m.Turns id edit
  · rw [if_pos hturns, if_pos (h.mpr hturns)]
  · rw [if_neg hturns, if_neg fun e => hturns (h.mp e)]

section Steps

variable {edit : Edit}

theorem length_of_cores {n : Nat} (h : m'.cores.length = n) : m'.rows.length = n := by
  rwa [cores_length] at h

/-- A row's state written by a command, over a clean interior where what speaks for it changes. -/
theorem Sound.applyEdit (h : m.Sound t) (hid : id ∈ t.ids) (hmoved : ∀ d, m.states id ≠ .moved d)
    (hclean : m.Turns id edit → m.Clean id) :
    (m.applyEdit id edit).Sound (m.turnedTree t id edit) := by
  have hr := h.exact.rooted
  have hpush := h.exact.logPush hid (m.row id).body.edit
  have hclean' : (m.logPush id (m.row id).body.edit).Turns id edit →
      (m.logPush id (m.row id).body.edit).Clean id := fun ht =>
    h.exact.clean_push hid _ (hclean ((turns_push _ _).mp ht))
  have htree : (m.logPush id (m.row id).body.edit).turnedTree t id edit =
      m.turnedTree t id edit := turnedTree_congr (turns_push _ _)
  have hexact := hpush.writeState hid hclean'
  rw [htree] at hexact
  have hkept : ∀ x, Touched m.log x → x ∈ (m.turnedTree t id edit).ids := fun x hx => by
    refine mem_turned_of hr hid (h.logged.live x hx) fun ht => ?_
    exact h.untouched (hclean ht) hx
  have hself : id ∈ (m.turnedTree t id edit).ids := mem_turnedTree hr hid edit
  refine ⟨hexact, ?_, fun x hx => ?_, ?_⟩
  · have hlog := h.logged.push edit (!(m.row id).body.ownHist) hid hmoved (by
        rw [← h.owns id hid]
        simp) fun hflip x hx => h.unturned hid hclean hflip hx
    rw [applyEdit_log, states_modify (hr.lt hid) (m.applyEdit_cores id edit)]
    refine hlog.frame (fun x hx _ => ?_) (fun x y hx hb => ?_) fun y hy => absurd rfl hy
    · rcases touched_cons.mp hx with (rfl | hm) | hx
      · exact hself
      · exact absurd hm (hmoved x)
      · exact hkept x hx
    · exact beneath_back hexact.rooted.grown
        (fun x _ => parents_modify (m.applyEdit_cores id edit) x) (hr.lt hx) hb
  · have hxt : x ∈ t.ids := by
      obtain ⟨u, hu⟩ := Forest.exists_kidsOf hid
      exact ((mem_turned hr hu edit).mp hx).1
    have hhist := writeState_hist hpush hid hclean' (htree ▸ hx)
    have hown := logPush_own hr hid (m.row id).body.edit hxt .hist
    rw [applyEdit_log, named_cons]
    unfold Machine.applyEdit
    rw [hhist]
    show (Row.own .hist _ = true) ↔ _
    rw [hown]
    by_cases he : x = id
    · subst he
      simp
    · rw [if_neg fun e => he e.2]
      refine (h.owns x hxt).trans ?_
      simp [Ne.symm he]
  · have hlen : (m.logPush id (m.row id).body.edit).rows.length = m.rows.length := by
      refine length_of_cores ?_
      rw [logPush_cores, cores_length]
    have hb := writeState_buried hpush hid hclean'
      (h.buried.rests (logPush_rests hr hid _) hlen)
    rw [htree] at hb
    exact hb

/-! ### Moves -/

/-- A transition that leaves what speaks for its row leaves the forest. -/
theorem not_turns (h : (m.states id).speaker = edit.speaker) : ¬ m.Turns id edit :=
  fun ht => ht.1 h

theorem setEdit_hist (h : m.Rooted t) (hx : x ∈ t.ids) (edit : Edit) :
    ((m.setEdit id edit).row x).body.ownHist = (m.row x).body.ownHist := by
  rw [setEdit_row h hx]
  split <;> rfl

theorem rooted_setEdit (h : m.Rooted t) (id : Nat) (edit : Edit) : (m.setEdit id edit).Rooted t :=
  h.setRow (f := fun r => { r with edit }) (fun _ => rfl) (fun _ => rfl) id

/-- What one side of a move leaves: the row's state is new, and the climb has settled. -/
structure Sided (t : Forest Unit) (id : Nat) (edit : Edit) (m m' : Machine standard) : Prop where
  exact : m'.Exact t
  rests : Rests t m m'
  hist : ∀ x ∈ t.ids, (m'.row x).body.ownHist = (m.row x).body.ownHist
  cores : m'.cores = m.cores.modify id (coreEdit edit)
  log : m'.log = m.log

theorem Sided.states (h : Sided t id edit m m') (hid : id < m.rows.length) :
    m'.states = Function.update m.states id edit := states_modify hid h.cores

theorem Sided.length (h : Sided t id edit m m') : m'.rows.length = m.rows.length := by
  refine length_of_cores ?_
  rw [h.cores, List.length_modify, cores_length]

/-- The side that holds dirt by its own state. -/
theorem sided_raise (h : m.Exact t) (hid : id ∈ t.ids) (hd : edit.ownDirty = true) :
    Sided t id edit m ((m.setEdit id edit).raise .dirt id) := by
  have hr := rooted_setEdit h.rooted id edit
  have hc : Climbed t .dirt (m.setEdit id edit) ((m.setEdit id edit).raise .dirt id) :=
    raiseMark_climbed .dirt hr hid _
  refine ⟨(h.setEdit id edit).raise hid (.inl ?_), Rests.trans (rests_setRow hid _) hc.buried,
    fun x hx => (hc.own x hx .hist).trans (setEdit_hist h.rooted hx edit), ?_, ?_⟩
  · rw [setEdit_row h.rooted hid, if_pos rfl]
    exact hd
  · rw [cores_of_bare hc.bare, setEdit_cores]
  · rw [← bare_log, hc.bare]
    rfl

/-- The side that is clean by its own state. -/
theorem sided_lower (h : m.Exact t) (hid : id ∈ t.ids) (hd : edit.ownDirty = false) :
    Sided t id edit m ((m.setEdit id edit).lower .dirt id) := by
  have hr := rooted_setEdit h.rooted id edit
  have hc : Climbed t .dirt (m.setEdit id edit) ((m.setEdit id edit).lower .dirt id) :=
    lowerMark_climbed .dirt hr hid _
  have hrow : (m.setEdit id edit).row id = (m.row id).map fun r => { r with edit } := by
    rw [setEdit_row h.rooted hid, if_pos rfl]
  refine ⟨(h.setEdit id edit).lower hid fun hh => ?_, Rests.trans (rests_setRow hid _) hc.buried,
    fun x hx => (hc.own x hx .hist).trans (setEdit_hist h.rooted hx edit), ?_, ?_⟩
  · unfold Held at hh
    unfold flagged
    rw [hrow] at hh ⊢
    refine ((h.tallied .dirt).flags id hid nofun).mpr (.inr ?_)
    refine hh.resolve_left fun ho => ?_
    have hown : edit.ownDirty = true := ho
    rw [hd] at hown
    cases hown
  · rw [cores_of_bare hc.bare, setEdit_cores]
  · rw [← bare_log, hc.bare]
    rfl

/-- The side written as any state is, by one that speaks alike. -/
theorem sided_write (h : m.Exact t) (hid : id ∈ t.ids)
    (hspeak : (m.states id).speaker = edit.speaker) : Sided t id edit m (m.writeState id edit) := by
  have hnot := not_turns hspeak
  have htree : m.turnedTree t id edit = t := turnedTree_eq edit hnot
  have hclean : m.Turns id edit → m.Clean id := fun ht => absurd ht hnot
  have hexact := h.writeState hid hclean
  have hc := writeState_climbed h hid hclean
  have hturned : Rests t m (m.turned id edit) := by
    rw [turned_eq, if_neg hnot]
    exact rests_setRow hid _
  rw [htree] at hexact hc
  refine ⟨hexact, hturned.trans hc.buried, fun x hx => ?_, m.writeState_cores id edit,
    m.writeState_log id edit⟩
  · exact writeState_hist h hid (fun ht => absurd ht hnot) (htree.symm ▸ hx)

/-- A sound machine behind both sides of a move. -/
theorem Sound.moved_frame (hexact : m'.Exact t) (hlen : m'.rows.length = m.rows.length)
    (hparents : ∀ x : Nat, (m'.cores[x]?).map Prod.fst = (m.cores[x]?).map Prod.fst)
    (hr : m.Rooted t) {log : List Transition} {f : Nat → Edit}
    (hlog : Logged log f (links m.rows) t.ids) (hstates : m'.states = f) (he : m'.log = log)
    (howns : ∀ x ∈ t.ids, ((m'.row x).body.ownHist = true ↔ Named log x))
    (hb : m.AllBuried t) (hrests : Rests t m m') : m'.Sound t := by
  refine ⟨hexact, ?_, ?_, hb.rests hrests hlen⟩
  · rw [he, hstates]
    refine hlog.frame (fun _ _ hx => hx) (fun x y hx hb => ?_) fun y hy => absurd rfl hy
    exact beneath_back hexact.rooted.grown (fun x _ => hparents x) (hr.lt hx) hb
  · rw [he]
    exact howns

/-- A move off an intact row to one that was born its ghost. -/
theorem Sound.applyMove (h : m.Sound t) {source dest : Nat} (hs : source ∈ t.ids)
    (hd : dest ∈ t.ids) (hne : source ≠ dest) (hintact : m.states source = .intact)
    (hghost : ghosted (awakened (m.states dest)) = m.states dest)
    (hawake : (awakened (m.states dest)).ownDirty = true) :
    (m.applyMove source dest).Sound t := by
  have hr := h.exact.rooted
  have hpush := h.exact.logPush hs (.moved dest)
  unfold Machine.applyMove
  extract_lets moved
  have hside : Sided t source (.moved dest) (m.logPush source (.moved dest)) moved :=
    sided_raise hpush hs rfl
  have hlen : (m.logPush source (.moved dest)).rows.length = m.rows.length :=
    length_of_cores (by rw [logPush_cores, cores_length])
  have hmoved : moved.states = Function.update m.states source (.moved dest) := by
    refine (hside.states (hlen ▸ hr.lt hs)).trans ?_
    rw [states_same (m.logPush_cores source _)]
  have hdest : moved.states dest = m.states dest := by
    rw [hmoved, Function.update_of_ne (Ne.symm hne)]
  have hwrite : Sided t dest (awakened (moved.row dest).body.edit) moved
      (moved.writeState dest (awakened (moved.row dest).body.edit)) :=
    sided_write hside.exact hd (speaker_awakened _).symm
  have hlt : dest < moved.rows.length := by
    rw [hside.length, hlen]
    exact hr.lt hd
  refine Sound.moved_frame (m := m) hwrite.exact ?_ (fun x => ?_) hr
    (h.logged.pushMove (!(m.row source).body.ownHist) hs hd hne hintact hghost hawake ?_)
    ?_ ?_ (fun x hx => ?_) h.buried ?_
  · exact hwrite.length.trans (hside.length.trans hlen)
  · rw [parents_modify hwrite.cores, parents_modify hside.cores, logPush_cores]
  · rw [← h.owns source hs]
    simp
  · rw [hwrite.states hlt, hmoved]
    exact congrArg (Function.update _ dest) (congrArg awakened hdest)
  · rw [hwrite.log, hside.log, logPush_log]
  · rw [hwrite.hist x hx, hside.hist x hx]
    show Row.own .hist _ = true ↔ _
    rw [logPush_own hr hs _ hx, named_cons]
    by_cases he : x = source
    · subst he
      simp
    · rw [if_neg fun e => he e.2]
      refine (h.owns x hx).trans ?_
      simp [Ne.symm he]
  · exact (logPush_rests hr hs _).trans (hside.rests.trans hwrite.rests)

/-! ### Undo -/

section Undo

variable {step : Transition} {log : List Transition}

/-- The newest step popped, a row has history where the rest of the log names it. -/
theorem Sound.popped_hist (h : m.Sound t) (hlog : m.log = step :: log)
    (hrow : step.row ∈ t.ids) (hx : x ∈ t.ids) :
    ((m.logPop step log).row x).body.ownHist = true ↔ Named log x := by
  have hfresh : step.fresh = true ↔ ¬ Named log step.row := by
    have hf := h.logged.fresh
    rw [hlog] at hf
    exact hf.1
  have hown := h.owns x hx
  rw [hlog, named_cons] at hown
  show Row.own .hist _ = true ↔ _
  rw [logPop_own h.exact.rooted hrow log hx]
  by_cases he : x = step.row
  · subst he
    by_cases hf : step.fresh = true
    · rw [if_pos ⟨rfl, rfl, hf⟩]
      exact ⟨nofun, fun hn => absurd hn (hfresh.mp hf)⟩
    · rw [if_neg fun e => hf e.2.2]
      refine hown.trans ⟨fun _ => ?_, .inr⟩
      exact not_not.mp fun hn => hf (hfresh.mpr hn)
  · rw [if_neg fun e => he e.2.1]
    exact hown.trans (or_iff_right (Ne.symm he))

theorem logPop_length : (m.logPop step log).rows.length = m.rows.length :=
  length_of_cores (by rw [logPop_cores, cores_length])

/-- The newest step's row is live. -/
theorem Sound.newest (h : m.Sound t) (hlog : m.log = step :: log) : step.row ∈ t.ids :=
  h.logged.live _ (hlog ▸ touched_cons.mpr (.inl (.inl rfl)))

/-- The step undone is no move: its row takes its past state. -/
theorem Sound.undone (h : m.Sound t) (hlog : m.log = step :: log)
    (hplain : ∀ d, step.past ≠ .moved d) :
    ((m.logPop step log).writeState step.row step.past).Sound
      ((m.logPop step log).turnedTree t step.row step.past) := by
  have hr := h.exact.rooted
  have hrow := h.newest hlog
  have hpop := h.exact.logPop hrow log
  have hstates : (m.logPop step log).states = m.states := states_same (m.logPop_cores step log)
  have hlogged := h.logged
  rw [hlog] at hlogged
  have hundo : step.undo m.states = Function.update m.states step.row step.past :=
    Transition.undo_plain hplain m.states
  -- where what speaks for the row changes, no older step touches a row beneath it
  have huntouched : (m.logPop step log).Turns step.row step.past → ∀ x, Touched log x →
      ¬ Beneath (links m.rows) x step.row := fun ht x hx => by
    refine hlogged.beneath (fun e => ht.1 ?_) hx
    have hs : ((m.logPop step log).row step.row).body.edit = m.states step.row :=
      congrFun hstates step.row
    rw [hs]
    exact e.symm
  have hclean : (m.logPop step log).Turns step.row step.past →
      (m.logPop step log).Clean step.row := fun ht mark => by
    obtain ⟨u, hu⟩ := Forest.exists_kidsOf hrow
    refine hpop.clean_of hu fun x hx => ?_
    have hxt := (Forest.kidsOf_sublist hu).subset hx
    have hb : Beneath (links m.rows) x step.row :=
      (hr.laid.beneath_iff hr.nodup hxt).mpr ⟨u, hu, hx⟩
    have hn : ¬ Touched log x := fun hx => huntouched ht x hx hb
    cases mark with
    | dirt =>
      have hne : x ≠ step.row := fun e => Forest.not_mem_kidsOf hr.nodup hu (e ▸ hx)
      have hd : (step.undo m.states x).ownDirty = false :=
        Bool.eq_false_iff.mpr fun hd => hn (hlogged.pop.unwinds.touched hd)
      rw [hundo, Function.update_of_ne hne, ← hstates] at hd
      exact hd
    | hist =>
      refine Bool.eq_false_iff.mpr fun ho => hn ?_
      exact ((h.popped_hist hlog hrow hxt).mp ho).touched
  have hexact := hpop.writeState hrow hclean
  have hcores : ((m.logPop step log).writeState step.row step.past).cores =
      m.cores.modify step.row (coreEdit step.past) := by
    rw [writeState_cores, logPop_cores]
  refine ⟨hexact, ?_, fun x hx => ?_, ?_⟩
  · rw [writeState_log, logPop_log, states_modify (hr.lt hrow) hcores, ← hundo]
    refine hlogged.pop.frame (fun x hx hxt => ?_) (fun x y hx hb => ?_) fun y hy => absurd rfl hy
    · refine mem_turned_of hpop.rooted hrow hxt fun ht hb => huntouched ht x hx ?_
      refine beneath_back hpop.rooted.grown (fun x _ => ?_) (hr.lt hxt) hb
      rw [logPop_cores]
    · exact beneath_back hexact.rooted.grown (fun x _ => parents_modify hcores x) (hr.lt hx) hb
  · rw [writeState_log, logPop_log, writeState_hist hpop hrow hclean hx]
    obtain ⟨u, hu⟩ := Forest.exists_kidsOf hrow
    exact h.popped_hist hlog hrow ((mem_turned hpop.rooted hu step.past).mp hx).1
  · exact writeState_buried hpop hrow hclean
      (h.buried.rests (logPop_rests hr hrow log) logPop_length)

/-- A move undone: its row is intact, and where it was moved a ghost. -/
theorem Sound.unmoved (h : m.Sound t) (hlog : m.log = step :: log) {dest : Nat}
    (hpast : step.past = .moved dest) :
    ((m.logPop step log).revertMove step.row dest).Sound t := by
  have hr := h.exact.rooted
  have hrow := h.newest hlog
  have hpop := h.exact.logPop hrow log
  have hlogged := h.logged
  rw [hlog] at hlogged
  have hdest : dest ∈ t.ids := hlogged.live dest (touched_cons.mpr (.inl (.inr hpast)))
  have hne : step.row ≠ dest := by
    cases hlogged.unwinds with
    | cons hmoved _ => exact (hmoved dest hpast).1
  unfold Machine.revertMove
  extract_lets restored
  have hside : Sided t step.row .intact (m.logPop step log) restored := sided_lower hpop hrow rfl
  have hrestored : restored.states = Function.update m.states step.row .intact := by
    refine (hside.states (by rw [logPop_length]; exact hr.lt hrow)).trans ?_
    rw [states_same (m.logPop_cores step log)]
  have hwrite : Sided t dest (ghosted (restored.row dest).body.edit) restored
      (restored.writeState dest (ghosted (restored.row dest).body.edit)) :=
    sided_write hside.exact hdest (speaker_ghosted _).symm
  have hlt : dest < restored.rows.length := by
    rw [hside.length, logPop_length]
    exact hr.lt hdest
  refine Sound.moved_frame (m := m) hwrite.exact ?_ (fun x => ?_) hr hlogged.pop ?_ ?_
    (fun x hx => ?_) h.buried ?_
  · exact hwrite.length.trans (hside.length.trans logPop_length)
  · rw [parents_modify hwrite.cores, parents_modify hside.cores, logPop_cores]
  · rw [hwrite.states hlt, hrestored, Transition.undo_moved hpast]
    refine congrArg (Function.update _ dest) (congrArg ghosted ?_)
    refine (congrFun hrestored dest).trans ?_
    rw [Function.update_of_ne (Ne.symm hne)]
  · rw [hwrite.log, hside.log, logPop_log]
  · rw [hwrite.hist x hx, hside.hist x hx]
    exact h.popped_hist hlog hrow hx
  · exact (logPop_rests hr hrow log).trans (hside.rests.trans hwrite.rests)

theorem Sound.reverted (h : m.Sound t) : ∃ t', m.revert.1.Sound t' := by
  unfold Machine.revert
  cases hlog : m.log with
  | nil => exact ⟨t, h⟩
  | cons step log =>
    simp only
    split
    · next dest hpast => exact ⟨_, h.unmoved hlog hpast⟩
    · next hplain => exact ⟨_, h.undone hlog fun d hd => hplain d hd⟩

end Undo

end Steps

/-! ## Births -/

theorem Sound.withStore (h : m.Sound t) (store : Store) : (m.withStore store).Sound t :=
  ⟨h.exact.withStore store, h.logged, h.owns, fun x c hc hx =>
    let ⟨hclean, hflags, hkids, hchain⟩ := h.buried x c hc hx
    ⟨hclean, hflags, hkids, hchain⟩⟩

section Splice

variable {plan : Plan} {r : Row}

theorem splice_length (plan : Plan) (r : Row) (id : Nat) :
    (m.splice plan id r).rows.length = m.rows.length + 1 :=
  length_of_cores (by rw [splice_cores, List.length_append, cores_length]; rfl)

theorem states_splice (plan : Plan) (r : Row) (id : Nat) :
    (m.splice plan id r).states = Function.update m.states m.rows.length r.edit := by
  funext x
  rw [states_eq, splice_cores, List.getElem?_append, cores_length]
  rcases Nat.lt_trichotomy x m.rows.length with hx | hx | hx
  · rw [if_pos hx, Function.update_of_ne (Nat.ne_of_lt hx), states_eq]
  · subst hx
    rw [if_neg (Nat.lt_irrefl _), Nat.sub_self, Function.update_self]
    rfl
  · have hnone : m.cores[x]? = none :=
      List.getElem?_eq_none_iff.mpr (by rw [cores_length]; omega)
    have hone : ([(plan.parent, r.core)] : List (Option Nat × Row))[x - m.rows.length]? = none :=
      List.getElem?_eq_none_iff.mpr (by simp only [List.length_singleton]; omega)
    rw [if_neg (by omega), Function.update_of_ne (by omega), states_eq, hnone, hone]

/-- A ghost put at an anchor. -/
theorem Sound.splice (h : m.Sound t) (ha : m.Anchored t plan) (hblank : r.Blank) :
    (m.splice plan m.rows.length r).Sound (spliced t plan m.rows.length) := by
  have hr := h.exact.rooted
  have hexact := h.exact.splice ha hblank.dead hblank.slot hblank.flag hblank.own
  have hmem : ∀ {x : Nat}, x ∈ (spliced t plan m.rows.length).ids ↔ x = m.rows.length ∨ x ∈ t.ids :=
    fun {x} => (spliced_ids ha _).mem_iff.trans List.mem_cons
  have hnew : ∀ {x : Nat}, x ∈ t.ids → x ≠ m.rows.length := fun hx => Nat.ne_of_lt (hr.lt hx)
  have hrow : (m.splice plan m.rows.length r).row m.rows.length =
      ⟨plan.parent, m.planNext plan, none, r⟩ :=
    row_eq _ (hr.splice_getElem? (x := 0) ha).2.2
  refine ⟨hexact, ?_, fun x hx => ?_, ?_⟩
  · rw [splice_log, states_splice]
    refine h.logged.frame (fun x _ hx => hmem.mpr (.inr hx)) (fun x y hx hb => ?_) fun y hy => ?_
    · refine beneath_back hexact.rooted.grown (fun x hx => ?_) (hr.lt hx) hb
      rw [splice_cores, List.getElem?_append_left (by rwa [cores_length])]
    · have hy' : y = m.rows.length := not_not.mp fun hne => hy (Function.update_of_ne hne _ _)
      subst hy'
      refine ⟨fun ht => hnew (h.logged.live _ ht) rfl, ?_⟩
      rw [Function.update_self]
      exact hblank.own .dirt
  · rw [splice_log]
    rcases hmem.mp hx with rfl | hxt
    · have hown : r.ownHist = false := hblank.own .hist
      rw [hrow, hown]
      exact ⟨nofun, fun hn => absurd rfl (hnew (h.logged.live _ hn.touched))⟩
    · obtain ⟨-, slot, hb, -⟩ := hr.splice_row (r := r) ha hxt
      rw [hb]
      exact h.owns x hxt
  · refine h.buried.frame (fun x hlt hx => (hr.splice_getElem? ha).2.1 hlt hx)
      (fun x hx hlt => ?_) fun x hlt hx hin => ?_
    · obtain ⟨hne, hxt⟩ := not_or.mp (mt hmem.mpr hx)
      rw [splice_length] at hlt
      exact ⟨by omega, hxt⟩
    · rcases hmem.mp hin with rfl | hin
      · omega
      · exact hx hin

theorem splice_state (plan : Plan) (r : Row) (id : Nat) :
    (m.splice plan id r).states m.rows.length = r.edit := by
  rw [states_splice, Function.update_self]

theorem splice_slot (h : m.Rooted t) (ha : m.Anchored t plan) :
    ((m.splice plan m.rows.length r).row m.rows.length).body.slot = r.slot := by
  rw [row_eq _ (h.splice_getElem? (x := 0) ha).2.2]

/-- A ghost put at an anchor, logged and awakened. -/
theorem Sound.born (h : m.Sound t) (ha : m.Anchored t plan) (hblank : r.Blank) {edit : Edit}
    (hmoved : ∀ d, r.edit ≠ .moved d) :
    (m.applyInsert plan m.rows.length r edit).Sound (spliced t plan m.rows.length) := by
  have hs := h.splice ha hblank
  have hid : m.rows.length ∈ (spliced t plan m.rows.length).ids :=
    (spliced_ids ha _).mem_iff.mpr List.mem_cons_self
  have hnot : ¬ (m.splice plan m.rows.length r).Turns m.rows.length edit := fun ht =>
    ht.2 ((splice_slot h.exact.rooted ha).trans hblank.slot)
  have hstate : ((m.splice plan m.rows.length r).row m.rows.length).body.edit = r.edit :=
    splice_state plan r _
  have happly : ((m.splice plan m.rows.length r).applyEdit m.rows.length edit).Sound _ :=
    hs.applyEdit hid (by rw [splice_state]; exact hmoved) fun ht => absurd ht hnot
  rw [turnedTree_eq edit hnot] at happly
  unfold Machine.applyEdit at happly
  rw [hstate] at happly
  exact happly

/-- A ghost put at an anchor, and an intact row moved there. -/
theorem Sound.departed (h : m.Sound t) (ha : m.Anchored t plan) (hblank : r.Blank) {source : Nat}
    (hs : source ∈ t.ids) (hintact : m.states source = .intact)
    (hghost : ghosted (awakened r.edit) = r.edit) (hawake : (awakened r.edit).ownDirty = true) :
    ((m.splice plan m.rows.length r).applyMove source m.rows.length).Sound
      (spliced t plan m.rows.length) := by
  have hne : source ≠ m.rows.length := Nat.ne_of_lt (h.exact.rooted.lt hs)
  refine (h.splice ha hblank).applyMove ?_ ?_ hne ?_ ?_ ?_
  · exact (spliced_ids ha _).mem_iff.mpr (List.mem_cons_of_mem _ hs)
  · exact (spliced_ids ha _).mem_iff.mpr List.mem_cons_self
  · rw [states_splice, Function.update_of_ne hne, hintact]
  · rw [splice_state]
    exact hghost
  · rw [splice_state]
    exact hawake

end Splice

/-! ## Descents -/

section Descents

theorem Sound.parked (h : m.Sound t) (hid : id ∈ t.ids)
    (hslot : (m.row id).body.slot = .unopened) (index : Nat) :
    (m.setSlot id (.fault index) none).Sound t := by
  have hr := h.exact.rooted
  have hexact := h.exact.park hid hslot index
  have hrow : ∀ x ∈ t.ids, ((m.setSlot id (.fault index) none).row x).body.ownHist =
      (m.row x).body.ownHist := fun x hx => by
    rw [setSlot_row _ _ _ (hr.lt hx)]
    split <;> rfl
  refine ⟨hexact, ?_, fun x hx => ?_, h.buried.rests (fun x hx => ?_) ?_⟩
  · rw [states_same (m.setSlot_cores id _ _)]
    refine h.logged.frame (fun _ _ hx => hx) (fun x y hx hb => ?_) fun y hy => absurd rfl hy
    refine beneath_back hexact.rooted.grown (fun x _ => ?_) (hr.lt hx) hb
    rw [setSlot_cores]
  · rw [hrow x hx]
    exact h.owns x hx
  · exact modify_other fun e => hx (e ▸ hid)
  · exact List.length_modify _ _ _

theorem Sound.parsed (h : m.Sound t) (hid : id ∈ t.ids)
    (hslot : (m.row id).body.slot = .unopened) {rows : List Row} {run : Option (Nat × Nat)}
    (hs : m.Sprouts m' id rows run) (hrows : ∀ r ∈ rows, r.Blank) :
    m'.Sound (t.rekid id (line (List.range' m.rows.length rows.length))) := by
  have hr := h.exact.rooted
  have hexact := h.exact.parse hid hslot hs hrows
  have hmem : ∀ {x : Nat}, x ∈ (t.rekid id (line (List.range' m.rows.length rows.length))).ids ↔
      x ∈ t.ids ∨ m.rows.length ≤ x ∧ x < m.rows.length + rows.length :=
    hr.mem_sprouts hid (by rw [hslot]; rfl)
  have hold : ∀ {x : Nat}, x < m.rows.length → m'.cores[x]? = m.cores[x]? := fun {x} hx => by
    rw [cores_getElem?, cores_getElem?, hs.old x hx]
    cases m.rows[x]? with
    | none => rfl
    | some c => simp only [Option.map_some]; split <;> rfl
  have hnew : ∀ {x : Nat} {c : Cell Row}, ¬ x < m.rows.length → m'.rows[x]? = some c →
      c.body.Blank ∧ x < m.rows.length + rows.length := fun {x c} hx hc => by
    have hlt := (List.getElem?_eq_some_iff.mp hc).1
    rcases hs.old_or_new hlt with hlt' | ⟨i, r, rfl, hi⟩
    · exact absurd hlt' hx
    · exact ⟨hrows _ (List.mem_of_getElem? (hs.cell_new hc).2), hs.length ▸ hlt⟩
  refine ⟨hexact, ?_, fun x hx => ?_, h.buried.frame (fun x hlt hx => ?_) (fun x hx hlt => ?_)
    fun x hlt hx hin => ?_⟩
  · rw [hs.log]
    refine h.logged.frame (fun x _ hx => hmem.mpr (.inl hx)) (fun x y hx hb => ?_) fun y hy => ?_
    · refine beneath_back hexact.rooted.grown (fun x hx => ?_) (hr.lt hx) hb
      rw [hold hx]
    · have hge : ¬ y < m.rows.length := fun hlt => hy (by rw [states_eq, states_eq, hold hlt])
      refine ⟨fun ht => hge (hr.lt (h.logged.live y ht)), ?_⟩
      cases hc : m'.rows[y]? with
      | none =>
        rw [states_eq, cores_getElem?, hc]
        rfl
      | some c =>
        show (m'.row y).body.edit.ownDirty = false
        rw [m'.row_eq hc]
        exact (hnew hge hc).1.own .dirt
  · rw [hs.log]
    rcases hmem.mp hx with hxt | ⟨hle, hlt⟩
    · have hown : (m'.row x).body.ownHist = (m.row x).body.ownHist := by
        by_cases he : x = id
        · subst he
          rw [hs.row_self (hr.lt hid)]
        · rw [hs.row_other (hr.lt hxt) he]
      rw [hown]
      exact h.owns x hxt
    · have hin := hexact.rooted.cell hx
      have hown : (m'.row x).body.ownHist = false := (hnew (by omega) hin.1).1.own .hist
      rw [hown]
      exact ⟨nofun, fun hn => absurd (hr.lt (h.logged.live x hn.touched)) (by omega)⟩
  · rw [hs.old x hlt]
    have hne : x ≠ id := fun e => hx (e ▸ hid)
    cases m.rows[x]? <;> simp [hne]
  · have hlt' : x < m.rows.length := by
      by_contra hge
      obtain ⟨-, hlt'⟩ := hnew hge (List.getElem?_eq_getElem hlt)
      exact hx (hmem.mpr (.inr ⟨by omega, hlt'⟩))
    exact ⟨hlt', fun hxt => hx (hmem.mpr (.inl hxt))⟩
  · rcases hmem.mp hin with hxt | ⟨hle, -⟩
    · exact hx hxt
    · omega

theorem Sound.entered (h : m.Sound t) {c : Cell Row} (hl : m.live id = .ok c)
    (hslot : c.body.slot = .unopened) : ∃ t', (m.enter id c.body).1.Sound t' := by
  have hid := h.exact.rooted.mem hl
  have hrow := m.row_eq (live_ok hl).1
  rw [← hrow] at hslot
  rcases enter_cases id c.body with he | ⟨faults, index, he⟩ | ⟨w, records, hp⟩
  · exact ⟨t, he ▸ h⟩
  · rw [he]
    have hf : ({ m with faults } : Machine standard).Sound t :=
      ⟨⟨h.exact.rooted.of_rows rfl rfl rfl, fun mark =>
        ⟨(h.exact.tallied mark).counted, (h.exact.tallied mark).flags⟩⟩, h.logged, h.owns,
        fun x c hc hx =>
          let ⟨hclean, hflags, hkids, hchain⟩ := h.buried x c hc hx
          ⟨hclean, hflags, hkids, hchain⟩⟩
    exact ⟨t, hf.parked hid hslot index⟩
  · obtain ⟨layers, runs, run, he⟩ := hp.machine
    have hlen : (interiorRows standard w c.body.isAlias records).length = records.length := by
      unfold interiorRows
      rw [List.length_map, metRows_length]
    rw [he, ← hlen]
    exact ⟨_, h.parsed hid hslot (sprouts (h.exact.rooted.lt hid) _ _ _ _) fun r => blank_interior⟩

end Descents

/-! ## An opened machine -/

theorem sound_open {cap : Nat} {source : List UInt8} (h : openSource standard cap source = .ok m) :
    m.Sound (line (List.range' 0 m.rows.length)) := by
  have hexact := exact_open h
  have hlog : m.log = [] := by
    obtain ⟨records, -, -, rfl⟩ := openSource_eq h
    rfl
  have hblank : ∀ {x : Nat}, x < m.rows.length → (m.row x).body.Blank := fun {x} hx => by
    obtain ⟨records, -, -, rfl⟩ := openSource_eq h
    have hc := List.getElem?_eq_getElem hx
    rw [row_eq _ hc]
    exact blank_met (laid_cell hc).2.2.1
  refine ⟨hexact, ?_, fun x hx => ?_, fun x c hc hx => absurd ?_ hx⟩
  · rw [hlog]
    refine ⟨nofun, .nil fun x => ?_, trivial, .nil⟩
    rcases Nat.lt_or_ge x m.rows.length with hx | hx
    · exact (hblank hx).own .dirt
    · rw [states_eq, List.getElem?_eq_none_iff.mpr (by rwa [cores_length])]
      rfl
  · have hown : (m.row x).body.ownHist = false := (hblank (hexact.rooted.lt hx)).own .hist
    rw [hlog, hown]
    exact ⟨nofun, nofun⟩
  · rw [line_ids, List.mem_range'_1]
    have := (List.getElem?_eq_some_iff.mp hc).1
    omega

end Machine

end ProtobufEdit.Revise
