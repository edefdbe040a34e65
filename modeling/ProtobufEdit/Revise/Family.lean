import ProtobufEdit.Revise.Canonical
import ProtobufEdit.Revise.Enter

/-!
# The families of states

A row that was scanned has an offset, a row that a command authored has none, and no state of
one family may stand on a row of the other: every reader of a row takes the offset for granted.
-/

namespace ProtobufEdit.Revise

open Wire Wire.Groupless Varint Arena Loop Cursor
open Editor (InsertAt Descent)

namespace Machine

variable {standard : Standard}

/-- The row of that core has an offset. -/
def Offset (cores : List (Option Nat × Row)) (id : Nat) : Prop :=
  ∃ p r, cores[id]? = some (p, r) ∧ r.start ≠ none

/-- A state that fits a row: it is of the row's family, and what it designates has an offset. -/
structure Fits (cores : List (Option Nat × Row)) (r : Row) (edit : Edit) : Prop where
  family : r.start = none ↔ edit.isBorn = true
  source : ∀ src, edit.designates = some src → Offset cores src

/-- Every row's state fits it, and so does every state the log keeps. -/
structure Sorted (m : Machine standard) : Prop where
  rows : ∀ (id : Nat) (p : Option Nat) (r : Row), m.cores[id]? = some (p, r) →
    Fits m.cores r r.edit
  log : ∀ step ∈ m.log, ∃ p r, m.cores[step.row]? = some (p, r) ∧ Fits m.cores r step.past

/-! ## A state that fits goes on fitting -/

section Fits

variable {cores cores' : List (Option Nat × Row)} {r : Row} {edit : Edit} {id : Nat}

/-- The rows there are keep their offsets. -/
def Keeps (cores cores' : List (Option Nat × Row)) : Prop :=
  ∀ id, Offset cores id → Offset cores' id

theorem Fits.keeps (h : Fits cores r edit) (hk : Keeps cores cores') : Fits cores' r edit :=
  ⟨h.family, fun src hs => hk src (h.source src hs)⟩

theorem keeps_modify (id : Nat) (edit : Edit) : Keeps cores (cores.modify id (coreEdit edit)) := by
  rintro x ⟨p, r, hr, hs⟩
  unfold Offset
  rw [List.getElem?_modify, hr]
  by_cases hx : id = x
  · exact ⟨p, { r with edit }, by simp [hx, coreEdit], hs⟩
  · exact ⟨p, r, by simp [hx], hs⟩

theorem keeps_append (more : List (Option Nat × Row)) : Keeps cores (cores ++ more) := by
  rintro x ⟨p, r, hr, hs⟩
  exact ⟨p, r, (List.getElem?_append_left (List.getElem?_eq_some_iff.mp hr).1).trans hr, hs⟩

end Fits

variable {m m' : Machine standard}

theorem Sorted.of_eq (h : m.Sorted) (hcores : m'.cores = m.cores) (hlog : m'.log = m.log) :
    m'.Sorted := by
  refine ⟨?_, ?_⟩
  · rw [hcores]
    exact h.rows
  · rw [hcores, hlog]
    exact h.log

/-- The log keeps one more state. -/
theorem Sorted.pushed {id : Nat} {past : Edit} {fresh : Bool} (h : m.Sorted)
    (hfits : ∃ p r, m.cores[id]? = some (p, r) ∧ Fits m.cores r past)
    (hcores : m'.cores = m.cores) (hlog : m'.log = ⟨id, past, fresh⟩ :: m.log) : m'.Sorted := by
  refine ⟨by rw [hcores]; exact h.rows, fun step hs => ?_⟩
  rw [hcores]
  rw [hlog] at hs
  rcases List.mem_cons.mp hs with rfl | hs
  · exact hfits
  · exact h.log step hs

theorem Sorted.popped (h : m.Sorted) (hcores : m'.cores = m.cores)
    (hlog : ∀ step ∈ m'.log, step ∈ m.log) : m'.Sorted :=
  ⟨by rw [hcores]; exact h.rows, fun step hs => by rw [hcores]; exact h.log step (hlog step hs)⟩

/-- A core behind a written state is the one in front of it, with that state. -/
theorem modify_back {cores : List (Option Nat × Row)} {id x : Nat} {edit : Edit}
    {p : Option Nat} {r : Row} (h : (cores.modify id (coreEdit edit))[x]? = some (p, r)) :
    ∃ q, cores[x]? = some (p, q) ∧ r = if id = x then { q with edit } else q := by
  rw [List.getElem?_modify] at h
  cases hq : cores[x]? with
  | none => rw [hq] at h; cases h
  | some b =>
    rw [hq] at h
    by_cases hx : id = x
    · have hb : coreEdit edit b = (p, r) := by simpa [hx] using h
      cases hb
      exact ⟨b.2, rfl, (if_pos hx).symm⟩
    · have hb : b = (p, r) := by simpa [hx] using h
      exact ⟨r, congrArg some hb, (if_neg hx).symm⟩

theorem modify_here {cores : List (Option Nat × Row)} {id x : Nat} {edit : Edit}
    {p : Option Nat} {r : Row} (h : cores[x]? = some (p, r)) :
    (cores.modify id (coreEdit edit))[x]? = some (p, if id = x then { r with edit } else r) := by
  rw [List.getElem?_modify, h]
  by_cases hx : id = x
  · simp [hx, coreEdit]
  · simp [hx]

/-- A state that fits its row is written. -/
theorem Sorted.written {id : Nat} {edit : Edit} (h : m.Sorted)
    (hfits : ∀ p r, m.cores[id]? = some (p, r) → Fits m.cores r edit)
    (hcores : m'.cores = m.cores.modify id (coreEdit edit)) (hlog : m'.log = m.log) :
    m'.Sorted := by
  have hk : Keeps m.cores (m.cores.modify id (coreEdit edit)) := keeps_modify id edit
  have hset : ∀ {r : Row} {e : Edit} (x : Nat), Fits m.cores r e →
      Fits (m.cores.modify id (coreEdit edit)) (if id = x then { r with edit } else r) e := by
    intro r e x hf
    refine ⟨?_, (hf.keeps hk).source⟩
    split <;> exact hf.family
  refine ⟨fun x p r hr => ?_, fun step hs => ?_⟩
  · rw [hcores] at hr ⊢
    obtain ⟨q, hq, rfl⟩ := modify_back hr
    have hfit : Fits m.cores q (if id = x then { q with edit } else q).edit := by
      split
      · next hx => exact hfits p q (hx ▸ hq)
      · exact h.rows x p q hq
    exact hset x hfit
  · obtain ⟨p, r, hr, hf⟩ := h.log step (hlog ▸ hs)
    rw [hcores]
    exact ⟨p, _, modify_here hr, hset _ hf⟩

/-- Rows whose states fit them are put behind the arena. -/
theorem Sorted.grown {more : List (Option Nat × Row)} (h : m.Sorted)
    (hcores : m'.cores = m.cores ++ more)
    (hmore : ∀ b ∈ more, Fits (m.cores ++ more) b.2 b.2.edit) (hlog : m'.log = m.log) :
    m'.Sorted := by
  have hk : Keeps m.cores (m.cores ++ more) := keeps_append more
  refine ⟨fun x p r hr => ?_, fun step hs => ?_⟩
  · rw [hcores] at hr ⊢
    rw [List.getElem?_append] at hr
    split at hr
    · exact (h.rows x p r hr).keeps hk
    · exact hmore _ (List.mem_of_getElem? hr)
  · obtain ⟨p, r, hr, hf⟩ := h.log step (hlog ▸ hs)
    rw [hcores]
    have hlt := (List.getElem?_eq_some_iff.mp hr).1
    exact ⟨p, r, (List.getElem?_append_left hlt).trans hr, hf.keeps hk⟩

/-! ## What commands write -/

section Steps

variable {command : Command standard} {store : Store} {id : Nat} {edit : Edit}

/-- A step back within a family. -/
structure Alike (edit edit' : Edit) : Prop where
  isBorn : edit'.isBorn = edit.isBorn
  designates : edit'.designates = edit.designates

theorem alike_shrouded {edit'} (h : shrouded edit = some edit') : Alike edit edit' := by
  cases edit <;> cases h <;> exact ⟨rfl, rfl⟩

theorem alike_lifted {edit'} (h : lifted edit = some edit') : Alike edit edit' := by
  unfold lifted at h
  split at h <;> cases h <;> exact ⟨rfl, rfl⟩

theorem alike_awakened (edit : Edit) : Alike edit (awakened edit) := by
  cases edit <;> exact ⟨rfl, rfl⟩

theorem alike_ghosted (edit : Edit) : Alike edit (ghosted edit) := by
  cases edit <;> exact ⟨rfl, rfl⟩

theorem Fits.alike {cores : List (Option Nat × Row)} {r : Row} {edit' : Edit}
    (h : Fits cores r edit) (ha : Alike edit edit') : Fits cores r edit' :=
  ⟨ha.isBorn ▸ h.family, fun src hs => h.source src (ha.designates ▸ hs)⟩

/-- A state that designates nothing fits what a state of its family fits. -/
theorem Fits.plain {cores : List (Option Nat × Row)} {r : Row} {edit' : Edit}
    (h : Fits cores r edit) (hborn : edit'.isBorn = edit.isBorn) (hnone : edit'.designates = none) :
    Fits cores r edit' :=
  ⟨hborn ▸ h.family, fun _ hs => nomatch hnone.symm.trans hs⟩

theorem Witnessed.set_isBorn {witness : LiveEdit} (h : Witnessed edit witness) (value : Nat) :
    (witness.set value).isBorn = edit.isBorn := by
  cases h <;> rfl

theorem set_designates (witness : LiveEdit) (value : Nat) :
    (witness.set value).designates = none := by
  cases witness <;> rfl

/-- A live row's state, as its core has it. -/
theorem live_core {c : Cell Row} (h : m.live id = .ok c) :
    m.cores[id]? = some (c.parent, c.body.core) :=
  m.cores_of_row (live_ok h).1

theorem Sorted.at_live (h : m.Sorted) {c : Cell Row} (hl : m.live id = .ok c) :
    Fits m.cores c.body.core c.body.edit :=
  h.rows id _ _ (live_core hl)

theorem Sorted.offset (h : m.Sorted) {c : Cell Row} (hl : m.live id = .ok c)
    (hb : c.body.edit.isBorn = false) : Offset m.cores id := by
  refine ⟨_, _, live_core hl, fun hs => ?_⟩
  rw [(h.at_live hl).family.mp hs] at hb
  cases hb

theorem Sorted.source_offset (h : m.Sorted) {c : Cell Row} (hs : m.transferSource id = .ok c) :
    Offset m.cores id :=
  h.offset (transferSource_ok hs).1 (transferSource_ok hs).2.2.2

/-- A payload designation that the gates let pass falls on a row that has an offset. -/
def Spares (m : Machine standard) : Command standard → Prop
  | .copyPayload src (.replace id) => ∀ s witness, m.transferSource src = .ok s →
      s.body.kind = .len → m.valueGate id .len = .ok witness → m.interiorGate id = .ok () →
      (m.row id).body.start ≠ none
  | _ => True

/-- What an accepted command writes on a row fits it, if a payload designation falls on a row
that has an offset. -/
theorem Editing.fits (h : m.Sorted) (he : m.Editing command id store edit)
    (htarget : m.Spares command) :
    ∃ c, m.live id = .ok c ∧ Fits m.cores c.body.core edit := by
  cases he with
  | value hgate _ _ =>
    obtain ⟨c, hl, -, -, hw⟩ := valueGate_ok hgate
    exact ⟨c, hl, (h.at_live hl).plain (hw.set_isBorn _) (set_designates _ _)⟩
  | shroud hl _ he => exact ⟨_, hl, (h.at_live hl).alike (alike_shrouded he)⟩
  | lift hl _ he => exact ⟨_, hl, (h.at_live hl).alike (alike_lifted he)⟩
  | @clear c _ hl _ he =>
    refine ⟨_, hl, (h.at_live hl).plain ?_ ?_⟩ <;> unfold cleared at he <;>
      cases hedit : c.body.edit <;> rw [hedit] at he <;> first | cases he | skip
    all_goals
      simp only at he
      split at he <;> cases he
      rfl
  | designate hcmd hs hkind hgate hi =>
    obtain ⟨c, hl, -, -, -⟩ := valueGate_ok hgate
    subst hcmd
    have hstart := htarget _ _ hs hkind hgate hi
    rw [m.row_eq (live_ok hl).1] at hstart
    refine ⟨c, hl, ⟨fun hn => absurd hn hstart, nofun⟩, fun x hx => ?_⟩
    cases hx
    exact h.source_offset hs

theorem Birth.fits {r : Row} (h : m.Sorted) (hb : m.Birth command store r edit) :
    Fits m.cores r.core r.edit ∧ Alike r.edit edit := by
  cases hb with
  | stored _ => exact ⟨⟨⟨fun _ => rfl, fun _ => rfl⟩, nofun⟩, rfl, rfl⟩
  | copied _ hs =>
    obtain ⟨hl, -, -, hb⟩ := transferSource_ok hs
    refine ⟨⟨⟨fun hn => ?_, nofun⟩, nofun⟩, rfl, rfl⟩
    rw [(h.at_live hl).family.mp hn] at hb
    cases hb
  | designated _ hs _ =>
    refine ⟨⟨⟨fun _ => rfl, fun _ => rfl⟩, fun x hx => ?_⟩, rfl, rfl⟩
    cases hx
    exact h.source_offset hs
  | imported _ _ => exact ⟨⟨⟨fun _ => rfl, fun _ => rfl⟩, nofun⟩, rfl, rfl⟩

theorem Landing.fits {src : Nat} {s : Cell Row} {r : Row} (h : m.Sorted)
    (hs : m.transferSource src = .ok s) (hl : Landing src s r) : Fits m.cores r.core r.edit := by
  cases hl with
  | record =>
    obtain ⟨hl, -, -, hb⟩ := transferSource_ok hs
    refine ⟨⟨fun hn => ?_, nofun⟩, nofun⟩
    rw [(h.at_live hl).family.mp hn] at hb
    cases hb
  | payload _ =>
    refine ⟨⟨fun _ => rfl, fun _ => rfl⟩, fun x hx => ?_⟩
    cases hx
    exact h.source_offset hs

theorem Sorted.withStore (h : m.Sorted) (store : Store) : (m.withStore store).Sorted :=
  ⟨h.rows, h.log⟩

theorem Sorted.wrote (h : m.Sorted)
    (hfits : ∀ p r, m.cores[id]? = some (p, r) → Fits m.cores r edit) :
    (m.writeState id edit).Sorted :=
  h.written hfits (m.writeState_cores id edit) (m.writeState_log id edit)

theorem Sorted.logged {past : Edit} (h : m.Sorted)
    (hfits : ∃ p r, m.cores[id]? = some (p, r) ∧ Fits m.cores r past) :
    (m.logPush id past).Sorted :=
  h.pushed hfits (m.logPush_cores id past) (m.logPush_log id past)

theorem Sorted.edited (h : m.Sorted) {c : Cell Row} (hl : m.live id = .ok c)
    (hfits : Fits m.cores c.body.core edit) : (m.applyEdit id edit).Sorted := by
  have hedit : (m.row id).body.edit = c.body.edit := by rw [m.row_eq (live_ok hl).1]
  have hpushed : (m.logPush id (m.row id).body.edit).Sorted :=
    h.logged ⟨_, _, live_core hl, by
      rw [hedit]
      exact h.at_live hl⟩
  refine hpushed.wrote fun p r hr => ?_
  rw [logPush_cores] at hr ⊢
  cases hr.symm.trans (live_core hl)
  exact hfits

theorem mintRow_eq (h : mintRow m.rows = some id) : id = m.rows.length := by
  unfold mintRow at h
  split at h
  · exact (Option.some.inj h).symm
  · cases h

theorem Sorted.spliced {plan : Plan} {r : Row} (h : m.Sorted) (hfits : Fits m.cores r.core r.edit) :
    (m.splice plan id r).Sorted := by
  refine h.grown (m.splice_cores plan id r) (fun b hb => ?_) (m.splice_log plan id r)
  obtain rfl := List.mem_singleton.mp hb
  exact hfits.keeps (keeps_append _)

/-- The core a splice puts behind the arena. -/
theorem spliced_core (plan : Plan) (r : Row) (hid : mintRow m.rows = some id) :
    (m.splice plan id r).cores[id]? = some (plan.parent, r.core) := by
  rw [splice_cores, mintRow_eq hid, ← m.cores_length, List.getElem?_append_right (Nat.le_refl _),
    Nat.sub_self]
  rfl

theorem Sorted.born {plan : Plan} {r : Row} (h : m.Sorted) (hid : mintRow m.rows = some id)
    (hfits : Fits m.cores r.core r.edit) (ha : Alike r.edit edit) :
    (m.applyInsert plan id r edit).Sorted := by
  have hspliced : (m.splice plan id r).Sorted := h.spliced hfits
  have hcore := m.spliced_core plan r hid
  have hghost := hspliced.rows id _ _ hcore
  refine (hspliced.logged ⟨_, _, hcore, hghost⟩).wrote fun p q hq => ?_
  rw [logPush_cores] at hq ⊢
  cases hq.symm.trans hcore
  exact hghost.alike ha

/-- The state of a row that stands fits it, and so does one alike. -/
theorem Sorted.wrote_alike (h : m.Sorted) (ha : Alike (m.row id).body.edit edit) :
    (m.writeState id edit).Sorted := by
  refine h.wrote fun p r hr => ?_
  have hedit : (m.row id).body.core.edit = r.edit := congrArg Row.edit (m.cores_row hr).2
  exact (h.rows id p r hr).alike (hedit ▸ ha)

theorem Sorted.moved {src : Nat} {s : Cell Row} {plan : Plan} {r : Row} (h : m.Sorted)
    (hs : m.moveSource src = .ok s) (hl : Landing src s r) :
    ((m.splice plan id r).applyMove src id).Sorted := by
  obtain ⟨hsource, hintact, -⟩ := moveSource_ok hs
  obtain ⟨hlive, -, -, -⟩ := transferSource_ok hsource
  have hspliced : (m.splice plan id r).Sorted := h.spliced (hl.fits h hsource)
  have hcore : (m.splice plan id r).cores[src]? = some (s.parent, s.body.core) := by
    rw [splice_cores]
    exact (List.getElem?_append_left (List.getElem?_eq_some_iff.mp (live_core hlive)).1).trans
      (live_core hlive)
  have hfits : Fits (m.splice plan id r).cores s.body.core (.moved id) :=
    (hspliced.rows src _ _ hcore).plain (by show _ = s.body.edit.isBorn; rw [hintact]; rfl) rfl
  have hlogged := hspliced.logged ⟨_, _, hcore, hfits⟩
  have hmoved : (((m.splice plan id r).logPush src (.moved id)).setEdit src (.moved id)).Sorted := by
    refine hlogged.written (fun p q hq => ?_) (setEdit_cores _ src _) rfl
    rw [logPush_cores] at hq ⊢
    cases hq.symm.trans hcore
    exact hfits
  unfold applyMove
  extract_lets moved
  refine Sorted.wrote_alike (hmoved.of_eq ?_ ?_) (alike_awakened _)
  · exact cores_of_bare (raise_bare _ _ _)
  · rw [← bare_log, raise_bare, bare_log]

theorem Sorted.reverted (h : m.Sorted) : m.revert.1.Sorted := by
  unfold revert
  cases hlog : m.log with
  | nil => exact h
  | cons step log =>
    obtain ⟨p, r, hr, hfits⟩ := h.log step (hlog ▸ List.mem_cons_self)
    have hpop : (m.logPop step log).Sorted := by
      refine h.popped (logPop_cores m step log) fun x hx => ?_
      rw [logPop_log] at hx
      exact hlog ▸ List.mem_cons_of_mem _ hx
    have hback : (m.logPop step log).cores[step.row]? = some (p, r) := by
      rw [logPop_cores]
      exact hr
    have hfits' : Fits (m.logPop step log).cores r step.past := by
      rw [logPop_cores]
      exact hfits
    have hplain : ((m.logPop step log).writeState step.row step.past).Sorted := by
      refine hpop.wrote fun q a ha => ?_
      cases ha.symm.trans hback
      exact hfits'
    simp only
    cases hpast : step.past with
    | moved destination =>
      rw [hpast] at hfits'
      have hset : ((m.logPop step log).setEdit step.row .intact).Sorted := by
        refine hpop.written (fun q a ha => ?_) (setEdit_cores _ _ _) rfl
        cases ha.symm.trans hback
        exact hfits'.plain rfl rfl
      show ((m.logPop step log).revertMove step.row destination).Sorted
      unfold revertMove
      extract_lets restored
      refine Sorted.wrote_alike (hset.of_eq ?_ ?_) (alike_ghosted _)
      · exact cores_of_bare (lower_bare _ _ _)
      · rw [← bare_log, lower_bare, bare_log]
    | _ => rw [hpast] at hplain; exact hplain

theorem Sorted.entered {r : Row} (h : m.Sorted) : (m.enter id r).1.Sorted := by
  rcases enter_cases (m := m) id r with he | ⟨faults, index, he⟩ | ⟨w, records, -, -, -, he⟩
  · rw [he]
    exact h
  · rw [he]
    exact h.of_eq (setSlot_cores _ _ _ _) rfl
  · obtain ⟨layers, runs, run, he⟩ := he
    have hcores : (m.enter id r).1.cores = m.cores ++
        (laid (some id) m.rows.length (interiorRows standard w r.isAlias records)).map
          Revise.core := by
      rw [he, setSlot_cores]
      exact List.map_append
    refine h.grown hcores (fun b hb => ?_) (by rw [he]; rfl)
    obtain ⟨c, hc, rfl⟩ := List.mem_map.mp hb
    obtain ⟨i, hi⟩ := List.getElem?_of_mem hc
    rw [laid_getElem?] at hi
    obtain ⟨a, ha, rfl⟩ := Option.map_eq_some_iff.mp hi
    obtain ⟨b, hmet, rfl⟩ := List.mem_map.mp (List.mem_of_getElem? ha)
    obtain ⟨hstart, hedit⟩ := metRows_scanned hmet
    refine ⟨⟨fun hn => absurd hn ?_, fun hborn => ?_⟩, fun src hs => ?_⟩
    · exact fun e => hstart e
    · rw [show (Revise.core _).2.edit = b.edit from rfl, hedit] at hborn
      cases hborn
    · rw [show (Revise.core _).2.edit = b.edit from rfl, hedit] at hs
      cases hs

/-- One command keeps the families apart, if a payload designation falls on a row that has an
offset. -/
theorem Sorted.effect (h : m.Sorted) (he : m.Effect command m')
    (htarget : m.Spares command) : m'.Sorted := by
  cases he with
  | refl => exact h
  | @edited store id edit he =>
    obtain ⟨c, hl, hfits⟩ := he.fits h htarget
    have hl' : (m.withStore store).live id = .ok c := hl
    exact (h.withStore store).edited hl' hfits
  | @born store _ _ id _ _ _ hid hb =>
    obtain ⟨hfits, ha⟩ := hb.fits h
    have hid' : mintRow (m.withStore store).rows = some id := hid
    exact (h.withStore store).born hid' hfits ha
  | moved _ hs _ _ _ hl => exact h.moved hs hl
  | entered _ _ _ => exact h.entered
  | reverted => exact h.reverted

end Steps

theorem sorted_open {cap : Nat} {source : List UInt8} (h : openSource standard cap source = .ok m) :
    m.Sorted := by
  unfold openSource at h
  split at h
  · cases h
  · cases hscan : scanLayer standard [] source false 0 source.length none with
    | error halt => cases halt <;> rw [hscan] at h <;> cases h
    | ok x =>
      obtain ⟨rows, first, last⟩ := x
      rw [hscan] at h
      obtain ⟨records, -, -, rfl, -, -⟩ := scanLayer_ok hscan
      cases h
      refine ⟨fun id p r hr => ?_, nofun⟩
      rw [cores_getElem?] at hr
      obtain ⟨c, hc, he⟩ := Option.map_eq_some_iff.mp hr
      have hc' : (laid none 0 (metRows standard false 0 records))[id]? = some c := hc
      rw [laid_getElem?] at hc'
      obtain ⟨a, ha, rfl⟩ := Option.map_eq_some_iff.mp hc'
      obtain ⟨hstart, hedit⟩ := metRows_scanned (List.mem_of_getElem? ha)
      cases he
      refine ⟨⟨fun hn => absurd hn hstart, fun hb => ?_⟩, fun src hs => ?_⟩
      · rw [show (a.core).edit = a.edit from rfl, hedit] at hb
        cases hb
      · rw [show (a.core).edit = a.edit from rfl, hedit] at hs
        cases hs

/-! ## Reads -/

section Reads

variable {r : Row}

theorem Sorted.at (h : m.Sorted) (id : Nat) :
    Fits m.cores (m.row id).body.core (m.row id).body.edit := by
  cases hr : m.rows[id]? with
  | some c =>
    rw [m.row_eq hr]
    exact h.rows id _ _ (m.cores_of_row hr)
  | none =>
    have hrow : m.row id = default := by
      show m.rows.getD id default = default
      rw [List.getD_eq_getElem?_getD, hr]
      rfl
    rw [hrow]
    exact ⟨⟨fun _ => rfl, fun _ => rfl⟩, nofun⟩

theorem Fits.start {cores : List (Option Nat × Row)} (h : Fits cores r.core r.edit)
    (hb : r.edit.isBorn = false) : ∃ start, r.start = some start := by
  cases hs : r.start with
  | some start => exact ⟨start, rfl⟩
  | none =>
    rw [h.family.mp hs] at hb
    cases hb

theorem Fits.designated (h : Fits m.cores r.core r.edit) {src : Nat}
    (hd : r.edit.designates = some src) : ∃ span, m.designatedPayload src = .ok span := by
  obtain ⟨p, q, hq, hs⟩ := h.source src hd
  have hstart : (m.row src).body.core.start ≠ none := (m.cores_row hq).2 ▸ hs
  unfold designatedPayload scannedAt
  cases he : (m.row src).body.start with
  | none => exact absurd he hstart
  | some start => exact ⟨_, by simp only [he]; rfl⟩

theorem Fits.designated? (h : Fits m.cores r.core r.edit) {src : Nat}
    (hd : r.edit.designates = some src) : ∃ span, m.designated src = some span := by
  obtain ⟨span, hspan⟩ := h.designated hd
  exact ⟨span, by rw [Machine.designated, hspan]; rfl⟩

theorem settleTolerant_some (h : Fits m.cores r.core r.edit) : m.settleTolerant r ≠ none := by
  have hstart := h.start
  have hspan := @h.designated?
  unfold settleTolerant
  cases he : r.edit <;> rw [he] at hstart hspan <;> simp only
  case intact => obtain ⟨s, hs⟩ := hstart rfl; rw [hs]; nofun
  case replaced => obtain ⟨s, hs⟩ := hstart rfl; rw [hs]; nofun
  case sourceRecord => obtain ⟨s, hs⟩ := hstart rfl; rw [hs]; nofun
  case inserted => cases r.kind <;> nofun
  case imported => split <;> nofun
  case sourcePayload src =>
    obtain ⟨s, hs⟩ := hstart rfl
    obtain ⟨span, hp⟩ := hspan rfl
    rw [hs, hp, Option.bind_some]
    split <;> nofun
  case sourceInserted src =>
    obtain ⟨span, hp⟩ := hspan rfl
    rw [hp]
    split <;> nofun
  all_goals nofun

theorem settleCanonical_some (h : Fits m.cores r.core r.edit) : m.settleCanonical r ≠ none := by
  have hstart := h.start
  have hspan := @h.designated?
  unfold settleCanonical
  cases he : r.edit <;> rw [he] at hstart hspan <;> simp only
  case intact => obtain ⟨s, hs⟩ := hstart rfl; rw [hs]; nofun
  case sourceRecord => obtain ⟨s, hs⟩ := hstart rfl; rw [hs]; nofun
  case replaced => cases r.kind <;> nofun
  case inserted => cases r.kind <;> nofun
  case imported => split <;> nofun
  case sourcePayload src => obtain ⟨span, hp⟩ := hspan rfl; rw [hp]; nofun
  case sourceInserted src => obtain ⟨span, hp⟩ := hspan rfl; rw [hp]; nofun
  all_goals nofun

theorem Sorted.settles (h : m.Sorted) (id : Nat) : m.settle (m.row id).body ≠ none := by
  unfold settle
  cases standard with
  | tolerant => exact settleTolerant_some (h.at id)
  | canonicalMinimal => exact settleCanonical_some (h.at id)

/-- A row that rides has an offset. -/
theorem Sorted.rides (h : m.Sorted) {id : Nat} (hr : (m.row id).body.rides = true) :
    (m.row id).body.start ≠ none := by
  have hedit : (m.row id).body.edit = .intact := by
    unfold Row.rides at hr
    exact of_decide_eq_true (Bool.and_eq_true_iff.mp hr).1
  obtain ⟨s, hs⟩ := (h.at id).start (by rw [hedit]; rfl)
  rw [hs]
  nofun

/-! ### The saves -/

theorem getD_ne_absent {σ α : Type} {turn : σ → Turn σ (Saved α)} {fuel : Nat} {s : σ}
    (h : ∀ s, turn s ≠ .halt .absent) : (run turn fuel s).getD .panicked ≠ .absent := by
  cases hr : run turn fuel s with
  | none => nofun
  | some r =>
    rintro rfl
    obtain ⟨s', e⟩ := halt_of_run hr
    exact h s' e

theorem Sorted.sizePass (h : m.Sorted) : m.sizePass ≠ .absent := by
  refine getD_ne_absent fun s => ?_
  unfold sizeTurn
  cases s.cur with
  | none =>
    simp only
    cases s.spine with
    | nil => simp only; split <;> nofun
    | cons frame spine => simp only; split <;> nofun
  | some id =>
    simp only
    split
    · next hr =>
      split
      · next hs => exact absurd hs (h.rides hr)
      · nofun
    · split
      · next hs => exact absurd hs (h.settles id)
      · split <;> nofun

theorem Sorted.emitPass (h : m.Sorted) (bodies : List Nat) : m.emitPass bodies ≠ .absent := by
  refine getD_ne_absent fun s => ?_
  unfold emitTurn
  cases s.cur with
  | none => simp only; split <;> nofun
  | some id =>
    simp only
    split
    · next hr =>
      split
      · next hs => exact absurd hs (h.rides hr)
      · nofun
    · split
      · next hs => exact absurd hs (h.settles id)
      · split <;> nofun

theorem Sorted.written_ne (h : m.Sorted) : m.written ≠ .absent := by
  unfold Machine.written
  split
  · nofun
  · next hs => exact absurd hs h.sizePass
  · nofun
  · split
    · nofun
    · next hs => exact absurd hs (h.emitPass _)
    · nofun
    · split <;> nofun

theorem Sorted.saveInto (h : m.Sorted) (out : List UInt8) : (m.saveInto out).2 ≠ .absent := by
  unfold Machine.saveInto
  split
  · nofun
  · split
    · nofun
    · nofun
    · next hs => exact absurd hs h.written_ne
    · nofun

theorem Sorted.save (h : m.Sorted) : m.save ≠ .absent := by
  unfold Machine.save
  split
  · nofun
  · nofun
  · next hs => exact absurd (congrArg Prod.snd hs) (h.saveInto [])
  · nofun

theorem Sorted.saveSink (h : m.Sorted) : m.saveSink.2 ≠ .absent := by
  unfold Machine.saveSink
  split
  · nofun
  · split
    · nofun
    · nofun
    · next hs => exact absurd hs h.written_ne
    · nofun

theorem Sorted.saveLen (h : m.Sorted) : m.saveLen ≠ .absent := by
  unfold Machine.saveLen
  split
  · nofun
  · split
    · nofun
    · nofun
    · next hs => exact absurd hs h.sizePass
    · nofun

theorem Sorted.verbatimFrom (h : m.Sorted) (root base out fuel : Nat) (o : Option Nat)
    (entries : List SpanEntry) : m.verbatimFrom root base out fuel o entries ≠ none := by
  induction fuel generalizing o entries with
  | zero => nofun
  | succ fuel ih =>
    cases o with
    | none => nofun
    | some id =>
      unfold Machine.verbatimFrom
      simp only
      split
      · next hedit =>
        obtain ⟨s, hs⟩ := (h.at id).start (by rw [hedit]; rfl)
        rw [hs]
        simp only
        split <;> exact ih _ _
      · exact ih _ _

theorem Sorted.spanArm (h : m.Sorted) (bodies : List Nat) (s : Spanning) (id : Nat)
    (c : Cell Row) (arm : Arm) : m.spanArm bodies s id c arm ≠ .halt .absent := by
  unfold Machine.spanArm
  split
  · nofun
  · split
    · next hs => exact absurd hs (h.verbatimFrom _ _ _ _ _ _)
    · nofun
  · split <;> nofun

theorem Sorted.spanWalk (h : m.Sorted) (bodies : List Nat) : m.spanWalk bodies ≠ .absent := by
  refine getD_ne_absent fun s => ?_
  unfold spanTurn
  cases s.cur with
  | none => simp only; split <;> nofun
  | some id =>
    simp only
    split
    · next hr =>
      split
      · next hs => exact absurd hs (h.rides hr)
      · exact h.spanArm _ _ _ _ _
    · split
      · next hs => exact absurd hs (h.settles id)
      · exact h.spanArm _ _ _ _ _

theorem Sorted.saveSpans (h : m.Sorted) : m.saveSpans ≠ .absent := by
  unfold Machine.saveSpans
  split
  · nofun
  · next hs =>
    split at hs
    · cases hs
    · exact absurd hs h.sizePass
  · nofun
  · split
    · nofun
    · next hs => exact absurd hs (h.spanWalk _)
    · nofun
    · split <;> nofun

theorem Sorted.canonicalSettle {m : Machine .tolerant} (h : m.Sorted) (id : Nat) :
    m.canonicalSettle (m.row id).body ≠ none := by
  have hstart := (h.at id).start
  have hspan := @(h.at id).designated?
  unfold Machine.canonicalSettle
  cases he : (m.row id).body.edit <;> rw [he] at hstart hspan <;> simp only
  case intact => obtain ⟨s, hs⟩ := hstart rfl; rw [hs]; nofun
  case sourceRecord => obtain ⟨s, hs⟩ := hstart rfl; rw [hs]; nofun
  case sourcePayload src => obtain ⟨span, hp⟩ := hspan rfl; rw [hp]; nofun
  case sourceInserted src => obtain ⟨span, hp⟩ := hspan rfl; rw [hp]; nofun
  all_goals nofun

theorem Sorted.saveCanonical {m : Machine .tolerant} (h : m.Sorted) :
    m.saveCanonical ≠ .absent := by
  have hsize : m.canonicalSizePass ≠ .absent := by
    refine getD_ne_absent fun s => ?_
    unfold canonicalSizeTurn
    cases s.cur with
    | none =>
      simp only
      cases s.spine with
      | nil => simp only; split <;> nofun
      | cons frame spine => simp only; split <;> nofun
    | some id =>
      simp only
      split
      · next hs => exact absurd hs (h.canonicalSettle id)
      · nofun
      · nofun
  have hemit : ∀ bodies, m.canonicalEmitPass bodies ≠ .absent := fun bodies => by
    refine getD_ne_absent fun s => ?_
    unfold canonicalEmitTurn
    cases s.cur with
    | none => simp only; split <;> nofun
    | some id =>
      simp only
      split
      · next hs => exact absurd hs (h.canonicalSettle id)
      · nofun
      · nofun
  unfold Machine.saveCanonical
  split
  · nofun
  · next hs => exact absurd hs hsize
  · nofun
  · split
    · nofun
    · next hs => exact absurd hs (hemit _)
    · nofun
    · simp only
      split <;> nofun

/-! ### The readers -/

theorem Sorted.live_fits (h : m.Sorted) {id : Nat} {c : Cell Row} (hl : m.live id = .ok c) :
    Fits m.cores c.body.core c.body.edit :=
  h.rows id _ _ (live_core hl)

theorem scannedAt_some {start : Nat} (h : r.start = some start) : scannedAt r = .ok start := by
  unfold scannedAt
  rw [h]

theorem live_ne (id : Nat) : m.live id ≠ .error .absent := by
  unfold live gate
  cases m.rows[id]? with
  | none => nofun
  | some c => simp only; split <;> nofun

theorem Sorted.scalarOf (h : m.Sorted) (kind : RecordKind) (id : Nat) :
    m.scalarOf kind id ≠ .error .absent := by
  unfold Machine.scalarOf
  cases hl : m.live id with
  | error fault =>
    intro e
    cases e
    exact live_ne id hl
  | ok c =>
    have hstart := (h.live_fits hl).start
    simp only
    split
    · nofun
    · split <;> try (intro e; cases e)
      all_goals
        next he =>
          obtain ⟨s, hs⟩ := hstart (by rw [he]; rfl)
          rw [scannedAt_some hs]
          nofun

theorem Sorted.payloadBytes (h : m.Sorted) (id : Nat) : m.payloadBytes id ≠ .error .absent := by
  unfold Machine.payloadBytes
  cases hl : m.live id with
  | error fault =>
    intro e
    cases e
    exact live_ne id hl
  | ok c =>
    have hstart := (h.live_fits hl).start
    have hspan := @(h.live_fits hl).designated
    simp only
    split
    · nofun
    · split <;> try (intro e; cases e)
      all_goals
        next he =>
          first
          | obtain ⟨s, hs⟩ := hstart (by rw [he]; rfl)
            rw [scannedAt_some hs]
            nofun
          | obtain ⟨span, hp⟩ := hspan (by rw [he]; rfl)
            rw [hp]
            nofun

theorem Sorted.interior (h : m.Sorted) {id : Nat} {c : Cell Row} (hl : m.live id = .ok c) :
    m.interior c.body ≠ .error .absent := by
  have hstart := (h.live_fits hl).start
  have hspan := @(h.live_fits hl).designated
  unfold Machine.interior
  split <;> try (intro e; cases e)
  all_goals
    next he =>
      first
      | obtain ⟨s, hs⟩ := hstart (by rw [he]; rfl)
        rw [scannedAt_some hs]
        nofun
      | obtain ⟨span, hp⟩ := hspan (by rw [he]; rfl)
        rw [hp]
        nofun

theorem park_ne (id : Nat) (fault : Editor.SlotFault) : (m.park id fault).2 ≠ .error .absent := by
  unfold park
  cases Editor.mint m.faults.length <;> nofun

theorem Sorted.descend (h : m.Sorted) (id : Nat) : (m.descend id).2 ≠ .error .absent := by
  unfold Machine.descend
  cases hl : m.live id with
  | error fault =>
    intro e
    cases e
    exact live_ne id hl
  | ok c =>
    simp only
    split
    · nofun
    · split
      · nofun
      · nofun
      · unfold enter
        cases hw : m.interior c.body with
        | error fault =>
          intro e
          cases e
          exact h.interior hl hw
        | ok w =>
          simp only
          split
          · split <;> nofun
          · exact park_ne _ _
          · exact park_ne _ _
          · nofun

theorem Sorted.recordRef (h : m.Sorted) (id : Nat) : m.recordRef id ≠ .error .absent := by
  unfold Machine.recordRef gate
  cases hr : m.rows[id]? with
  | none => nofun
  | some c =>
    have hstart := (h.rows id _ _ (m.cores_of_row hr)).start
    simp only
    split
    · nofun
    · split <;> try (intro e; cases e)
      all_goals
        next he =>
          obtain ⟨s, hs⟩ := hstart (by rw [he]; rfl)
          rw [scannedAt_some hs]
          nofun

/-! ### Copies -/

theorem valueGate_ne (id : Nat) (kind : RecordKind) : m.valueGate id kind ≠ .error .absent := by
  unfold valueGate
  cases hl : m.live id with
  | error fault =>
    intro e
    cases e
    exact live_ne id hl
  | ok c =>
    simp only
    split
    · nofun
    · split
      · nofun
      · split <;> nofun

theorem payloadGate_ne (id : Nat) : m.payloadGate id ≠ .error .absent := by
  unfold payloadGate
  cases hv : m.valueGate id .len with
  | error fault =>
    intro e
    cases e
    exact valueGate_ne id _ hv
  | ok witness =>
    simp only
    unfold interiorGate
    split
    · next hi =>
      split at hi
      · split at hi <;> cases hi
        nofun
      · cases hi
    · nofun

theorem containerGate_ne (container : Option Nat) : m.containerGate container ≠ .error .absent := by
  cases container with
  | none => nofun
  | some id =>
    unfold containerGate
    simp only
    cases hl : m.live id with
    | error fault =>
      intro e
      cases e
      exact live_ne id hl
    | ok c =>
      simp only
      split
      · nofun
      · split
        · nofun
        · unfold admitsKids
          split
          · next hk =>
            intro e
            cases e
            split at hk <;> cases hk
          · split <;> nofun

theorem map_ne {α β : Type} {f : α → β} {x : Except EditFault α} (h : x ≠ .error .absent) :
    x.map f ≠ .error .absent := by
  cases x with
  | error fault =>
    intro e
    cases e
    exact h rfl
  | ok a => nofun

theorem landing_ne (anchor : InsertAt) : m.landing anchor ≠ .error .absent := by
  have hanchor : m.resolveAnchor anchor ≠ .error .absent := by
    cases anchor with
    | headOf container => exact map_ne (containerGate_ne container)
    | tailOf container => exact map_ne (containerGate_ne container)
    | after anchor =>
      unfold resolveAnchor
      simp only
      cases hl : m.live anchor with
      | error fault =>
        intro e
        cases e
        exact live_ne anchor hl
      | ok c => simp only; split <;> nofun
  unfold landing
  cases ha : m.resolveAnchor anchor with
  | error fault =>
    intro e
    cases e
    exact hanchor ha
  | ok plan => cases mintRow m.rows <;> nofun

theorem transferSource_ne (src : Nat) : m.transferSource src ≠ .error .absent := by
  unfold transferSource
  cases hl : m.live src with
  | error fault =>
    intro e
    cases e
    exact live_ne src hl
  | ok c =>
    simp only
    split
    · nofun
    · split <;> nofun

theorem copyRecord_ne (src : Nat) (anchor : InsertAt) :
    (m.copyRecord src anchor).2 ≠ .error .absent := by
  unfold copyRecord
  cases hs : m.transferSource src with
  | error fault =>
    intro e
    cases e
    exact transferSource_ne src hs
  | ok s =>
    cases hl : m.landing anchor with
    | error fault =>
      intro e
      cases e
      exact landing_ne anchor hl
    | ok p => nofun

theorem copyPayload_ne (src : Nat) (target : PayloadTarget) :
    (m.copyPayload src target).2 ≠ .error .absent := by
  unfold copyPayload
  cases hs : m.transferSource src with
  | error fault =>
    intro e
    cases e
    exact transferSource_ne src hs
  | ok s =>
    simp only
    split
    · nofun
    · cases target with
      | replace id =>
        simp only
        cases hg : m.payloadGate id with
        | error fault =>
          intro e
          cases e
          exact payloadGate_ne id hg
        | ok witness => nofun
      | insert anchor field =>
        simp only
        cases hl : m.landing anchor with
        | error fault =>
          intro e
          cases e
          exact landing_ne anchor hl
        | ok p => nofun

end Reads

/-! ## The families over a run -/

/-- The families never mix, and no reader of a row meets an absent offset: no save, no canonical
save, no value read, no descent, no record reference and no copy. -/
structure Families (m : Machine standard) : Prop where
  geometry : ∀ (id : Nat) (c : Cell Row), m.rows[id]? = some c → (c.body.start = none ↔ c.body.edit.isBorn = true)
  save : m.save ≠ .absent
  saveInto : ∀ out, (m.saveInto out).2 ≠ .absent
  saveSink : m.saveSink.2 ≠ .absent
  saveLen : m.saveLen ≠ .absent
  saveSpans : m.saveSpans ≠ .absent
  saveCanonical : ∀ h : standard = .tolerant, (h ▸ m : Machine .tolerant).saveCanonical ≠ .absent
  scalarOf : ∀ kind id, m.scalarOf kind id ≠ .error .absent
  payloadBytes : ∀ id, m.payloadBytes id ≠ .error .absent
  descend : ∀ id, (m.descend id).2 ≠ .error .absent
  recordRef : ∀ id, m.recordRef id ≠ .error .absent
  copyRecord : ∀ src anchor, (m.copyRecord src anchor).2 ≠ .error .absent
  copyPayload : ∀ src target, (m.copyPayload src target).2 ≠ .error .absent
  status : ∀ (id : Nat) (c : Cell Row), m.rows[id]? = some c → c.body.start = none →
    m.status id ≠ .ok .intact ∧ m.status id ≠ .ok .replaced

theorem Sorted.families (h : m.Sorted) : m.Families where
  geometry id c hc := (h.rows id _ _ (m.cores_of_row hc)).family
  save := h.save
  saveInto := h.saveInto
  saveSink := h.saveSink
  saveLen := h.saveLen
  saveSpans := h.saveSpans
  saveCanonical e := by
    subst e
    exact h.saveCanonical
  scalarOf := h.scalarOf
  payloadBytes := h.payloadBytes
  descend := h.descend
  recordRef := h.recordRef
  copyRecord := copyRecord_ne
  copyPayload := copyPayload_ne
  status id c hc hs := by
    have hborn := (h.rows id _ _ (m.cores_of_row hc)).family.mp hs
    unfold Machine.status live gate
    rw [hc]
    simp only
    by_cases hd : c.body.dead = true
    · rw [if_pos hd]
      exact ⟨nofun, nofun⟩
    · rw [if_neg hd]
      simp only [Except.map]
      rw [Row.core_edit] at hborn
      cases he : c.body.edit <;> rw [he] at hborn <;>
        first | exact absurd hborn Bool.false_ne_true | exact ⟨by simp only [ne_eq]; nofun, nofun⟩

/-- Every payload designation of a run falls on a row that has an offset. -/
def Spared (m : Machine standard) (commands : List (Command standard)) : Prop :=
  ∀ n command, commands[n]? = some command → (m.performAll (commands.take n)).Spares command

theorem performAll_succ {commands : List (Command standard)} {n : Nat}
    {command : Command standard} (h : commands[n]? = some command) :
    m.performAll (commands.take (n + 1)) = ((m.performAll (commands.take n)).perform command).1 := by
  unfold performAll
  rw [List.take_add_one, h, List.foldl_append]
  rfl

theorem sorted_run {commands : List (Command standard)} (h : m.Sorted) (hs : m.Spared commands)
    (n : Nat) : (m.performAll (commands.take n)).Sorted := by
  induction n with
  | zero => exact h
  | succ n ih =>
    cases hc : commands[n]? with
    | none =>
      have hlen := List.getElem?_eq_none_iff.mp hc
      rw [List.take_of_length_le (by omega)]
      rwa [List.take_of_length_le hlen] at ih
    | some command =>
      rw [performAll_succ hc]
      exact ih.effect (perform_effect _ _) (hs n command hc)

/-- A payload designated on a row without an offset leaves a state of the wrong family there. -/
theorem not_families {src id : Nat} {s : Cell Row} {witness : LiveEdit}
    (hs : m.transferSource src = .ok s) (hk : s.body.kind = .len)
    (hg : m.valueGate id .len = .ok witness) (hi : m.interiorGate id = .ok ())
    (hstart : (m.row id).body.start = none) :
    ¬ (m.perform (.copyPayload src (.replace id))).1.Families := by
  intro h
  obtain ⟨c, hl, -, -, -⟩ := valueGate_ok hg
  have hgate : m.payloadGate id = .ok witness := by
    unfold payloadGate
    rw [hg]
    simp only [hi]
  have hperform : (m.perform (.copyPayload src (.replace id))).1 =
      m.applyEdit id (.sourcePayload src) := by
    show (m.copyPayload src (.replace id)).1 = _
    unfold Machine.copyPayload
    rw [hs]
    simp only [hgate]
    rw [if_neg (not_not.mpr hk)]
  have hcore : (m.cores.modify id (coreEdit (.sourcePayload src)))[id]? = _ :=
    modify_here (live_core hl)
  rw [← applyEdit_cores, ← hperform, if_pos rfl, cores_getElem?] at hcore
  obtain ⟨b, hb, he⟩ := Option.map_eq_some_iff.mp hcore
  have hrow : b.body.core = { c.body.core with edit := .sourcePayload src } :=
    congrArg Prod.snd he
  have hnone : b.body.core.start = none := by
    rw [hrow]
    rwa [m.row_eq (live_ok hl).1] at hstart
  have hborn := (h.geometry id b hb).mp hnone
  have hedit : b.body.core.edit = .sourcePayload src := by rw [hrow]
  rw [Row.core_edit] at hedit
  rw [hedit] at hborn
  cases hborn

/-- The families stay apart in every state of a run exactly where every payload designation falls
on a row that has an offset. -/
theorem families_iff {cap : Nat} {source : List UInt8}
    (h : openSource standard cap source = .ok m) (commands : List (Command standard)) :
    (∀ n, (m.performAll (commands.take n)).Families) ↔ m.Spared commands := by
  refine ⟨fun hall n command hc => ?_, fun hs n => (sorted_run (sorted_open h) hs n).families⟩
  have hnext := hall (n + 1)
  rw [performAll_succ hc] at hnext
  unfold Spares
  split
  · intro s witness hsource hk hg hi hstart
    exact not_families hsource hk hg hi hstart hnext
  · trivial

/-- A designation on an inserted record. -/
def mixing : List (Command .tolerant) :=
  [.insertPayload (.tailOf none) default [], .copyPayload 0 (.replace 1)]

theorem families_mixed :
    ∃ m : Machine .tolerant, openSource .tolerant PayloadLen.max [0x0A, 0x00] = .ok m ∧
      ¬ ∀ n, (m.performAll (mixing.take n)).Families :=
  ⟨_, rfl, fun h => Bool.false_ne_true (((h 2).geometry 1 _ rfl).mp rfl)⟩

theorem families_iff_opened :
    ∃ m : Machine .tolerant, openSource .tolerant PayloadLen.max [0x0A, 0x00] = .ok m ∧
      ((∀ n, (m.performAll (mixing.take n)).Families) ↔ m.Spared mixing) := by
  obtain ⟨m, hm⟩ : ∃ m : Machine .tolerant,
      openSource .tolerant PayloadLen.max [0x0A, 0x00] = .ok m := ⟨_, rfl⟩
  exact ⟨m, hm, families_iff hm mixing⟩

end Machine

end ProtobufEdit.Revise
