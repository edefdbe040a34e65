import ProtobufEdit.Revise.Lattice

/-!
# Exact lattices over a run

A command that changes what speaks for a row orphans its interior. Its gates look for history in
there, and a row that was moved in holds dirt without history: where no command of a run orphans
such an interior, both lattices are exact in every state.
-/

namespace ProtobufEdit.Revise

open Wire Wire.Groupless Varint Arena
open Editor (InsertAt)

/-- The rows that links reach, under one parent. -/
inductive Siblings (rows : List (Cell Row)) (parent : Option Nat) :
    Option Nat → List Nat → Prop where
  | nil : Siblings rows parent none []
  | cons {x : Nat} {c : Cell Row} {l : List Nat} : rows[x]? = some c → c.parent = parent →
      Siblings rows parent c.next l → Siblings rows parent (some x) (x :: l)

theorem Siblings.of_laid {rows : List (Cell Row)} {parent first : Option Nat} {u : Forest Unit}
    (h : Laid (links rows) parent first u) : Siblings rows parent first u.tops := by
  induction h with
  | nil => exact .nil
  | node hcell _ _ _ ihr =>
    obtain ⟨c, hc, hp, hn, -⟩ := cell_of_links hcell
    refine .cons hc hp ?_
    rw [hn]
    exact ihr

namespace Machine

variable {standard : Standard} {m : Machine standard} {t : Forest Unit} {id x : Nat}

/-! ## The oracle -/

/-- The root layer, or the layer a row's slot holds. -/
def Holds (m : Machine standard) : Option Nat → Prop
  | none => True
  | some x => ∃ c layer, m.rows[x]? = some c ∧ c.body.slot = .opened layer

/-- Every flag is exact, every layer counts its flagged rows and knows its last row, a row that
the log names has one fresh step, and an orphan is clean and not named. -/
structure Lattices (m : Machine standard) : Prop where
  dirt : ∀ (x : Nat) (c : Cell Row), m.rows[x]? = some c →
    (c.body.dirty = true ↔ c.body.edit.ownDirty = true ∨ 0 < c.body.kids .dirt)
  hist : ∀ (x : Nat) (c : Cell Row), m.rows[x]? = some c →
    (c.body.hist = true ↔ Named m.log x ∨ 0 < c.body.kids .hist)
  layers : ∀ o, m.Holds o → ∃ l, Siblings m.rows o (m.firstOf o) l ∧
    (m.holdingLayer o).last = l.getLast? ∧
    ∀ mark, (m.holdingLayer o).count mark = l.countP (m.flagged mark)
  fresh : ∀ x, m.log.countP (fun step => step.row = x ∧ step.fresh = true) =
    if ∃ step ∈ m.log, step.row = x then 1 else 0
  orphans : ∀ (x : Nat) (c : Cell Row), m.rows[x]? = some c → c.body.dead = true →
    c.body.edit.ownDirty = false ∧ c.body.dirty = false ∧ c.body.hist = false ∧ ¬ Named m.log x

theorem Sound.dead (h : m.Sound t) {c : Cell Row} (hc : m.rows[x]? = some c)
    (hd : c.body.dead = true) : x ∉ t.ids := fun hx => by
  rw [(h.exact.rooted.alive hc).mp hx] at hd
  cases hd

theorem Sound.flag (h : m.Sound t) {c : Cell Row} (hc : m.rows[x]? = some c) (mark : Mark) :
    c.body.flag mark = true ↔ c.body.own mark = true ∨ 0 < c.body.kids mark := by
  by_cases hx : x ∈ t.ids
  · have hf := (h.exact.tallied mark).flags x hx nofun
    unfold flagged Held at hf
    rwa [m.row_eq hc] at hf
  · obtain ⟨hclean, hflags, hkids, -⟩ := h.buried x c hc hx
    rw [hclean, hflags, hkids]
    exact ⟨nofun, fun h => h.elim nofun fun h => absurd h (Nat.lt_irrefl 0)⟩

theorem Sound.named (h : m.Sound t) {c : Cell Row} (hc : m.rows[x]? = some c) :
    c.body.ownHist = true ↔ Named m.log x := by
  by_cases hx : x ∈ t.ids
  · have ho := h.owns x hx
    rwa [m.row_eq hc] at ho
  · have hclean : c.body.ownHist = false := (h.buried x c hc hx).clean .hist
    rw [hclean]
    exact ⟨nofun, fun hn => absurd (h.logged.live x hn.touched) hx⟩

theorem Sound.layer (h : m.Sound t) {o : Option Nat} (ho : m.Holds o) :
    ∃ l, Siblings m.rows o (m.firstOf o) l ∧ (m.holdingLayer o).last = l.getLast? ∧
      ∀ mark, (m.holdingLayer o).count mark = l.countP (m.flagged mark) := by
  have hr := h.exact.rooted
  cases o with
  | none =>
    refine ⟨t.tops, .of_laid hr.laid, hr.tail none nofun, fun mark => ?_⟩
    exact (h.exact.tallied mark).counted none nofun
  | some x =>
    obtain ⟨c, layer, hc, hslot⟩ := ho
    have hrow := m.row_eq hc
    have hfirst : m.firstOf (some x) = c.kid := congrArg Cell.kid hrow
    rw [hfirst]
    by_cases hx : x ∈ t.ids
    · have hself : ∀ y, some x = some y → y ∈ t.ids := by
        rintro _ ⟨⟩
        exact hx
      obtain ⟨u, hu⟩ := Forest.exists_kidsOf hx
      obtain ⟨d, hd, hchain⟩ := hr.laid.kids hu
      obtain rfl := Option.some.inj ((links_of_cell hc).symm.trans hd)
      have hlayer : t.layer (some x) = u.tops := by rw [Forest.layer_some, hu]; rfl
      refine ⟨t.layer (some x), hlayer ▸ .of_laid hchain, hr.tail (some x) hself, fun mark => ?_⟩
      exact (h.exact.tallied mark).counted (some x) hself
    · obtain ⟨-, -, hkids, u, hu, hout, hlast⟩ := h.buried x c hc hx
      have hheld : m.holdingLayer (some x) = c.body.slot.layer := by
        rw [holdingLayer_some, hrow]
      refine ⟨u.tops, .of_laid hu, hheld ▸ hlast, fun mark => ?_⟩
      have hzero := hkids mark
      rw [Row.kids_eq] at hzero
      rw [hheld, hzero]
      refine (List.countP_eq_zero.mpr fun y hy => ?_).symm
      have hyu := Forest.tops_sublist.subset hy
      have hlt : y < m.rows.length := by
        have := hu.lt hyu
        rwa [links_length] at this
      have hcell := List.getElem?_eq_getElem hlt
      unfold flagged
      rw [m.row_eq hcell, (h.buried y _ hcell (hout y hyu)).flags]
      nofun

theorem Sound.lattices (h : m.Sound t) : m.Lattices where
  dirt x c hc := h.flag hc .dirt
  hist x c hc := by
    rw [← h.named hc]
    exact h.flag hc .hist
  layers o ho := h.layer ho
  fresh x := by
    split
    · next hn => exact h.logged.fresh.one hn
    · next hn =>
      refine List.countP_eq_zero.mpr fun step hs he => hn ⟨step, hs, ?_⟩
      exact (of_decide_eq_true he).1
  orphans x c hc hd := by
    have hx := h.dead hc hd
    obtain ⟨hclean, hflags, -⟩ := h.buried x c hc hx
    exact ⟨hclean .dirt, hflags .dirt, hflags .hist, fun hn => hx (h.logged.live x hn.touched)⟩

/-! ## What orphans an interior -/

/-- A frame's finish publishes its payload. -/
def Publishes (m : Machine standard) (declared : Option Nat) (chunks : List (List UInt8)) : Prop :=
  let store := (writes m.store.stageMark declared m.store chunks).1
  declared.any (· != store.stageMark - m.store.stageMark) = false ∧
    (store.stageFinish m.store.stageMark).isSome

/-- The gates let the command change what speaks for the row. -/
inductive Flips (m : Machine standard) (id : Nat) : Command standard → Prop
  | varint {value : UInt64} {witness : LiveEdit} : m.valueGate id .varint = .ok witness →
      (m.store.pushVarint value.toNat).isSome → Flips m id (.setVarint id value)
  | i32 {bits : UInt32} {witness : LiveEdit} : m.valueGate id .i32 = .ok witness →
      (m.store.pushBits32 bits.toNat).isSome → Flips m id (.setI32 id bits)
  | i64 {bits : UInt64} {witness : LiveEdit} : m.valueGate id .i64 = .ok witness →
      (m.store.pushBits64 bits.toNat).isSome → Flips m id (.setI64 id bits)
  | payload {payload : List UInt8} {witness : LiveEdit} : m.payloadGate id = .ok witness →
      payload.length ≤ PayloadLen.max → (m.store.pushBytes payload).isSome →
      Flips m id (.setPayload id payload)
  | frame {declared : Option Nat} {chunks : List (List UInt8)} {witness : LiveEdit} :
      m.beginFrame (.set id) declared = .ok (.set id witness) → m.Publishes declared chunks →
      Flips m id (.frame (.set id) declared chunks true)
  | designate {src : Nat} {s : Cell Row} {witness : LiveEdit} : m.transferSource src = .ok s →
      s.body.kind = .len → m.payloadGate id = .ok witness →
      (m.states id).speaker ≠ .sourceRow src → Flips m id (.copyPayload src (.replace id))
  | clear {c : Cell Row} {edit : Edit} : m.live id = .ok c → m.browseOnly c = false →
      cleared c.body = some edit → Flips m id (.clearEdit id)

/-- The command orphans no interior that holds a mark. -/
def OrphansClean (m : Machine standard) (command : Command standard) : Prop :=
  ∀ id, m.Flips id command → m.Clean id

/-! ## Commands -/

section Commands

variable {edit : Edit}

/-- A state written behind a gate. -/
theorem Sound.write (h : m.Sound t) (store : Store) (edit : Edit) {c : Cell Row}
    (hl : m.live id = .ok c) (hmoved : ∀ d, c.body.edit ≠ .moved d)
    (hclean : m.Turns id edit → m.Clean id) :
    ∃ t', ((m.withStore store).applyEdit id edit).Sound t' := by
  have hs : (m.states id) = c.body.edit := by
    unfold states
    rw [m.row_eq (live_ok hl).1]
  refine ⟨_, (h.withStore store).applyEdit (h.exact.rooted.mem hl) ?_ hclean⟩
  intro d hd
  exact hmoved d (hs.symm.trans hd)

theorem Witnessed.unmoved {witness : LiveEdit} (h : Witnessed edit witness) (d : Nat) :
    edit ≠ .moved d := by
  cases h <;> nofun

theorem Sound.setScalar (h : m.Sound t) {kind : RecordKind} {pushed : Option (Store × Nat)}
    (hclean : ∀ witness, m.valueGate id kind = .ok witness → pushed.isSome → m.Clean id) :
    ∃ t', (m.setScalar id kind pushed).1.Sound t' := by
  unfold Machine.setScalar
  cases hg : m.valueGate id kind with
  | error fault => exact ⟨t, h⟩
  | ok witness =>
    cases hp : pushed with
    | none => exact ⟨t, h⟩
    | some p =>
      obtain ⟨c, hl, -, -, hw⟩ := valueGate_ok hg
      exact h.write p.1 _ hl hw.unmoved fun _ => hclean witness hg (by rw [hp]; rfl)

theorem Sound.setPayload (h : m.Sound t) {payload : List UInt8}
    (hclean : m.OrphansClean (.setPayload id payload)) :
    ∃ t', (m.setPayload id payload).1.Sound t' := by
  unfold Machine.setPayload
  cases hg : m.payloadGate id with
  | error fault => exact ⟨t, h⟩
  | ok witness =>
    simp only
    split
    · exact ⟨t, h⟩
    · next hlen =>
      cases hp : m.store.pushBytes payload with
      | none => exact ⟨t, h⟩
      | some p =>
        obtain ⟨c, hl, -, -, hw⟩ := valueGate_ok (payloadGate_ok hg).1
        exact h.write p.1 _ hl hw.unmoved fun _ =>
          hclean id (.payload hg (Nat.not_lt.mp hlen) (by rw [hp]; rfl))

theorem Sound.transit (h : m.Sound t) {to? : Row → Option Edit} {fault : EditFault}
    (hclean : ∀ c edit, m.live id = .ok c → m.browseOnly c = false → to? c.body = some edit →
      (∀ d, c.body.edit ≠ .moved d) ∧ (m.Turns id edit → m.Clean id)) :
    ∃ t', (m.transit id to? fault).1.Sound t' := by
  unfold Machine.transit
  cases hl : m.live id with
  | error fault => exact ⟨t, h⟩
  | ok c =>
    simp only
    split
    · exact ⟨t, h⟩
    · next hb =>
      cases ht : to? c.body with
      | none => exact ⟨t, h⟩
      | some edit =>
        obtain ⟨hmoved, hturns⟩ := hclean c edit hl (Bool.eq_false_iff.mpr hb) ht
        exact h.write m.store edit hl hmoved hturns

/-- A shroud speaks as its row did. -/
theorem shrouded_speaker {edit' : Edit} (h : shrouded edit = some edit') :
    edit'.speaker = edit.speaker ∧ ∀ d, edit ≠ .moved d := by
  cases edit <;> cases h <;> exact ⟨rfl, nofun⟩

theorem lifted_speaker {edit' : Edit} (h : lifted edit = some edit') :
    edit'.speaker = edit.speaker ∧ ∀ d, edit ≠ .moved d := by
  unfold lifted at h
  split at h <;> cases h <;> exact ⟨rfl, nofun⟩

theorem cleared_unmoved {r : Row} (h : cleared r = some edit) (d : Nat) : r.edit ≠ .moved d := by
  intro he
  unfold cleared at h
  rw [he] at h
  cases h

theorem Sound.delete (h : m.Sound t) : ∃ t', (m.delete id).1.Sound t' := by
  refine h.transit fun c edit hl _ ht => ?_
  obtain ⟨hs, hmoved⟩ := shrouded_speaker ht
  refine ⟨hmoved, fun hturns => absurd ?_ hturns.1⟩
  rw [m.row_eq (live_ok hl).1, hs]

theorem Sound.undelete (h : m.Sound t) : ∃ t', (m.undelete id).1.Sound t' := by
  refine h.transit fun c edit hl _ ht => ?_
  obtain ⟨hs, hmoved⟩ := lifted_speaker ht
  refine ⟨hmoved, fun hturns => absurd ?_ hturns.1⟩
  rw [m.row_eq (live_ok hl).1, hs]

theorem Sound.clearEdit (h : m.Sound t) (hclean : m.OrphansClean (.clearEdit id)) :
    ∃ t', (m.clearEdit id).1.Sound t' :=
  h.transit fun _ _ hl hb ht =>
    ⟨cleared_unmoved ht, fun _ => hclean id (.clear hl hb ht)⟩

/-! ### Births -/

/-- An insertion at a resolved anchor. -/
theorem Sound.insert (h : m.Sound t) (store : Store) (edit : Edit) {anchor : InsertAt} {plan : Plan} {r : Row}
    (ha : m.resolveAnchor anchor = .ok plan) (hid : mintRow m.rows = some id) (hr : r.Blank)
    (hmoved : ∀ d, r.edit ≠ .moved d) :
    ∃ t', ((m.withStore store).applyInsert plan id r edit).Sound t' := by
  have hp := h.exact.rooted.anchored ha
  rw [mintRow_eq hid]
  exact ⟨_, (h.withStore store).born ⟨hp.parent, hp.prev⟩ hr hmoved⟩

theorem Sound.insertStored (h : m.Sound t) (store : Store) {anchor : InsertAt} {plan : Plan}
    (ha : m.resolveAnchor anchor = .ok plan) (hid : mintRow m.rows = some id) (field : FieldNumber)
    (kind : RecordKind) (value : Nat) :
    ∃ t', ((m.withStore store).insertStored plan id field kind value).Sound t' :=
  h.insert store _ ha hid (blank_authored field kind rfl) nofun

theorem Sound.insertScalar (h : m.Sound t) {anchor : InsertAt} {field : FieldNumber}
    {kind : RecordKind} {pushed : Option (Store × Nat)} :
    ∃ t', (m.insertScalar anchor field kind pushed).1.Sound t' := by
  unfold Machine.insertScalar
  cases ha : m.resolveAnchor anchor with
  | error fault => exact ⟨t, h⟩
  | ok plan =>
    cases hid : mintRow m.rows with
    | none => exact ⟨t, h⟩
    | some id =>
      cases pushed with
      | none => exact ⟨t, h⟩
      | some p => exact h.insertStored p.1 ha hid field kind p.2

theorem Sound.insertPayload (h : m.Sound t) {anchor : InsertAt} {field : FieldNumber}
    {payload : List UInt8} : ∃ t', (m.insertPayload anchor field payload).1.Sound t' := by
  unfold Machine.insertPayload
  cases ha : m.resolveAnchor anchor with
  | error fault => exact ⟨t, h⟩
  | ok plan =>
    cases hid : mintRow m.rows with
    | none => exact ⟨t, h⟩
    | some id =>
      simp only
      split
      · exact ⟨t, h⟩
      · cases m.store.pushBytes payload with
        | none => exact ⟨t, h⟩
        | some p => exact h.insertStored p.1 ha hid field .len p.2

/-! ### Frames -/

/-- A frame's close, over whatever its writes left in the store. -/
theorem Sound.finish (h : m.Sound t) (store : Store) {op : FrameOp} {declared : Option Nat} (hop : m.Opens op)
    (hclean : ∀ id witness, op = .set id witness →
      declared.any (· != store.stageMark - m.store.stageMark) = false →
      (store.stageFinish m.store.stageMark).isSome → m.Clean id) :
    ∃ t', ((m.withStore store).finish op m.store.stageMark declared).1.Sound t' := by
  have hdrop : ((m.withStore store).abandon m.store.stageMark).Sound t :=
    (h.withStore store).withStore _
  unfold Machine.finish
  extract_lets staged
  by_cases hu : declared.any (· != staged) = true
  · rw [if_pos hu]
    exact ⟨t, hdrop⟩
  · rw [if_neg hu]
    have hu' : declared.any (· != staged) = false := Bool.eq_false_iff.mpr hu
    have hmint : mintRow (m.withStore store).rows = mintRow m.rows := rfl
    unfold publish
    cases op with
    | set id witness =>
      simp only
      cases hf : (m.withStore store).store.stageFinish m.store.stageMark with
      | none => exact ⟨t, hdrop⟩
      | some p =>
        obtain ⟨c, hl, -, -, hw⟩ := valueGate_ok (payloadGate_ok hop).1
        refine h.write p.1 _ hl hw.unmoved fun _ => hclean id witness rfl hu' ?_
        show ((m.withStore store).store.stageFinish m.store.stageMark).isSome = true
        rw [hf]
        rfl
    | insert plan field =>
      obtain ⟨anchor, ha⟩ := hop
      simp only [hmint]
      cases hid : mintRow m.rows with
      | none => exact ⟨t, hdrop⟩
      | some id =>
        simp only
        cases (m.withStore store).store.stageFinish m.store.stageMark with
        | none => exact ⟨t, hdrop⟩
        | some p => exact h.insertStored p.1 ha hid field .len p.2

theorem Sound.frame (h : m.Sound t) {door : Door} {declared : Option Nat}
    {chunks : List (List UInt8)} {finished : Bool}
    (hclean : m.OrphansClean (.frame door declared chunks finished)) :
    ∃ t', (m.frame door declared chunks finished).1.Sound t' := by
  unfold Machine.frame
  cases hb : m.beginFrame door declared with
  | error fault => exact ⟨t, h⟩
  | ok op =>
    simp only
    cases finished with
    | false => exact ⟨t, (h.withStore _).withStore _⟩
    | true =>
      rw [if_pos rfl]
      obtain ⟨hopen, hkind⟩ := admitDoor_ok (beginFrame_ok hb).1
      have hdoor : ∀ id witness, op = .set id witness → door = .set id := by
        rintro id witness rfl
        rcases hkind with ⟨id', w, rfl, he⟩ | ⟨anchor, plan, field, -, he⟩
        · cases he
          rfl
        · cases he
      have hfinish := h.finish (Machine.writes m.store.stageMark declared m.store chunks).1
        hopen fun id witness he hu hf => by
          obtain rfl := hdoor id witness he
          exact hclean id (.frame (he ▸ hb) ⟨hu, hf⟩)
      revert hfinish
      generalize (m.withStore (Machine.writes m.store.stageMark declared m.store chunks).1).finish
        op m.store.stageMark declared = r
      intro hfinish
      obtain ⟨m', x⟩ := r
      cases x <;> exact hfinish

/-! ### Transfers -/

theorem Sound.copyRecord (h : m.Sound t) {src : Nat} {anchor : InsertAt} :
    ∃ t', (m.copyRecord src anchor).1.Sound t' := by
  unfold Machine.copyRecord
  cases m.transferSource src with
  | error fault => exact ⟨t, h⟩
  | ok s =>
    cases hl : m.landing anchor with
    | error fault => exact ⟨t, h⟩
    | ok p =>
      obtain ⟨ha, hid⟩ := landing_ok hl
      exact h.insert m.store .sourceRecord ha hid (blank_cloned s.body) nofun

theorem Sound.copyRecordFrom (h : m.Sound t) {source : RecordRef standard} {anchor : InsertAt} :
    ∃ t', (m.copyRecordFrom source anchor).1.Sound t' := by
  unfold Machine.copyRecordFrom
  cases hl : m.landing anchor with
  | error fault => exact ⟨t, h⟩
  | ok p =>
    obtain ⟨ha, hid⟩ := landing_ok hl
    simp only
    cases m.store.pushBytes source.record.bytes with
    | none => exact ⟨t, h⟩
    | some p =>
      exact h.insert p.1 (.imported p.2) ha hid (blank_authored _ _ rfl) nofun

theorem Sound.copyPayload (h : m.Sound t) {src : Nat} {target : PayloadTarget}
    (hclean : m.OrphansClean (.copyPayload src target)) :
    ∃ t', (m.copyPayload src target).1.Sound t' := by
  unfold Machine.copyPayload
  cases hs : m.transferSource src with
  | error fault => exact ⟨t, h⟩
  | ok s =>
    simp only
    split
    · exact ⟨t, h⟩
    · next hkind =>
      cases target with
      | replace id =>
        simp only
        cases hg : m.payloadGate id with
        | error fault => exact ⟨t, h⟩
        | ok witness =>
          obtain ⟨c, hl, -, -, hw⟩ := valueGate_ok (payloadGate_ok hg).1
          exact h.write m.store (.sourcePayload src) hl hw.unmoved fun hturns =>
            hclean id (.designate hs (not_not.mp hkind) hg hturns.1)
      | insert anchor field =>
        simp only
        cases hl : m.landing anchor with
        | error fault => exact ⟨t, h⟩
        | ok p =>
          obtain ⟨ha, hid⟩ := landing_ok hl
          exact h.insert m.store (.sourceInserted src) ha hid (blank_authored field .len rfl) nofun

/-- A move that the gates let pass. -/
theorem Sound.depart (h : m.Sound t) {src : Nat} {anchor : InsertAt} {payload : Bool}
    {s : Cell Row} {plan : Plan} {r : Row}
    (hd : m.departure src anchor payload = .ok (s, plan, id)) (hr : r.Blank)
    (hghost : ghosted (awakened r.edit) = r.edit) (hawake : (awakened r.edit).ownDirty = true) :
    ∃ t', ((m.splice plan id r).applyMove src id).Sound t' := by
  obtain ⟨hs, -, ha, -, hid⟩ := departure_ok hd
  obtain ⟨htransfer, hintact, -⟩ := moveSource_ok hs
  have hl := (transferSource_ok htransfer).1
  rw [mintRow_eq hid]
  refine ⟨_, h.departed (h.exact.rooted.anchored ha) hr (h.exact.rooted.mem hl) ?_ hghost hawake⟩
  unfold states
  rw [m.row_eq (live_ok hl).1, hintact]

theorem Sound.moveRecord (h : m.Sound t) {src : Nat} {anchor : InsertAt} :
    ∃ t', (m.moveRecord src anchor).1.Sound t' := by
  unfold Machine.moveRecord
  cases hd : m.departure src anchor false with
  | error fault => exact ⟨t, h⟩
  | ok p => exact h.depart hd (blank_cloned p.1.body) rfl rfl

theorem Sound.movePayload (h : m.Sound t) {src : Nat} {anchor : InsertAt} {field : FieldNumber} :
    ∃ t', (m.movePayload src anchor field).1.Sound t' := by
  unfold Machine.movePayload
  cases hd : m.departure src anchor true with
  | error fault => exact ⟨t, h⟩
  | ok p => exact h.depart hd (blank_authored field .len rfl) rfl rfl

theorem Sound.descend (h : m.Sound t) : ∃ t', (m.descend id).1.Sound t' := by
  unfold Machine.descend
  cases hl : m.live id with
  | error fault => exact ⟨t, h⟩
  | ok c =>
    simp only
    split
    · exact ⟨t, h⟩
    · cases hslot : c.body.slot with
      | opened layer => exact ⟨t, h⟩
      | fault index => exact ⟨t, h⟩
      | unopened => exact h.entered hl hslot

/-- Every command keeps a machine sound that orphans no interior with a mark. -/
theorem Sound.perform (h : m.Sound t) (command : Command standard)
    (hclean : m.OrphansClean command) : ∃ t', (m.perform command).1.Sound t' := by
  cases command with
  | descend id => exact h.descend
  | setVarint id value => exact h.setScalar fun _ hg hp => hclean id (.varint hg hp)
  | setI32 id bits => exact h.setScalar fun _ hg hp => hclean id (.i32 hg hp)
  | setI64 id bits => exact h.setScalar fun _ hg hp => hclean id (.i64 hg hp)
  | setPayload id payload => exact h.setPayload hclean
  | delete id => exact h.delete
  | undelete id => exact h.undelete
  | clearEdit id => exact h.clearEdit hclean
  | insertVarint anchor field value => exact h.insertScalar
  | insertI32 anchor field bits => exact h.insertScalar
  | insertI64 anchor field bits => exact h.insertScalar
  | insertPayload anchor field payload => exact h.insertPayload
  | frame door declared chunks finished => exact h.frame hclean
  | copyRecord src anchor => exact h.copyRecord
  | moveRecord src anchor => exact h.moveRecord
  | copyPayload src target => exact h.copyPayload hclean
  | movePayload src anchor field => exact h.movePayload
  | copyRecordFrom source anchor => exact h.copyRecordFrom
  | revert => exact h.reverted

end Commands

/-! ## Runs -/

/-- No command of the run orphans an interior that holds a mark. -/
def Unorphaned (m : Machine standard) (commands : List (Command standard)) : Prop :=
  ∀ n command, commands[n]? = some command →
    (m.performAll (commands.take n)).OrphansClean command

theorem sound_run {commands : List (Command standard)} (h : m.Sound t)
    (hclean : m.Unorphaned commands) (n : Nat) :
    ∃ t', (m.performAll (commands.take n)).Sound t' := by
  induction n with
  | zero => exact ⟨t, h⟩
  | succ n ih =>
    cases hc : commands[n]? with
    | none =>
      have hlen := List.getElem?_eq_none_iff.mp hc
      rw [List.take_of_length_le (by omega)]
      rwa [List.take_of_length_le hlen] at ih
    | some command =>
      obtain ⟨t', h'⟩ := ih
      rw [performAll_succ hc]
      exact h'.perform command (hclean n command hc)

/-- Both lattices are exact in every state of a run that orphans no interior with a mark. -/
theorem lattices_exact {cap : Nat} {source : List UInt8}
    (h : openSource standard cap source = .ok m) (commands : List (Command standard))
    (hclean : m.Unorphaned commands) (n : Nat) :
    (m.performAll (commands.take n)).Lattices := by
  obtain ⟨t, ht⟩ := sound_run (sound_open h) hclean n
  exact ht.lattices

/-- The same container replaced behind the move's undoing. -/
def aired : List (Command .tolerant) :=
  [.descend 0, .moveRecord 1 (.headOf (some 0)), .revert, .setPayload 0 []]

theorem lattices_exact_aired :
    ∃ m : Machine .tolerant,
      openSource .tolerant PayloadLen.max [0x0A, 0x00, 0x10, 0x01] = .ok m ∧
      ∀ n, (m.performAll (aired.take n)).Lattices := by
  obtain ⟨m, hm⟩ : ∃ m : Machine .tolerant,
      openSource .tolerant PayloadLen.max [0x0A, 0x00, 0x10, 0x01] = .ok m := ⟨_, rfl⟩
  refine ⟨m, hm, lattices_exact hm aired fun n command hc id hf => ?_⟩
  match n with
  | 0 | 1 | 2 =>
    cases hc
    cases hf
  | 3 =>
    cases hc
    cases hf
    cases hm
    intro mark
    cases mark <;> rfl
  | n + 4 => cases hc

/-- A record moved into an opened container, and the container's payload replaced. -/
def smothering : List (Command .tolerant) :=
  [.descend 0, .moveRecord 1 (.headOf (some 0)), .setPayload 0 []]

theorem lattices_smothered :
    ∃ m : Machine .tolerant,
      openSource .tolerant PayloadLen.max [0x0A, 0x00, 0x10, 0x01] = .ok m ∧
      ¬ ∀ n, (m.performAll (smothering.take n)).Lattices :=
  ⟨_, rfl, fun h => Bool.false_ne_true ((h 3).orphans 2 _ rfl rfl).2.1.symm⟩

end Machine

end ProtobufEdit.Revise
