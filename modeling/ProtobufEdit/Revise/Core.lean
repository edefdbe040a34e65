import ProtobufEdit.Revise.Bare
import ProtobufEdit.Revise.Effect

/-!
# What rows are born with

A row's parent, its geometry and what it was born as never change, and its state changes by a
transition alone: neither a mark, nor a link, nor a parsed or an orphaned interior touches them.
-/

namespace ProtobufEdit.Revise

open Wire Wire.Groupless Varint Arena

/-- A row without its interior, its marks and its death. -/
def Row.core (r : Row) : Row :=
  { r with
    slot := .unopened, dirty := false, dead := false, ownHist := false, hist := false }

def core (c : Cell Row) : Option Nat × Row := (c.parent, c.body.core)

namespace Row

variable (r : Row)

@[simp] theorem core_edit : r.core.edit = r.edit := rfl

@[simp] theorem core_start : r.core.start = r.start := rfl

@[simp] theorem core_kind : r.core.kind = r.kind := rfl

@[simp] theorem core_authoredZone : r.core.authoredZone = r.authoredZone := rfl

@[simp] theorem core_isAlias : r.core.isAlias = r.isAlias := rfl

end Row

namespace Machine

variable {standard : Standard} (m : Machine standard)

def cores : List (Option Nat × Row) := m.rows.map Revise.core

theorem cores_getElem? (id : Nat) : m.cores[id]? = m.rows[id]?.map Revise.core :=
  List.getElem?_map

@[simp] theorem cores_length : m.cores.length = m.rows.length := List.length_map _

theorem cores_row {id : Nat} {p : Option Nat} {r : Row} (h : m.cores[id]? = some (p, r)) :
    (m.row id).parent = p ∧ (m.row id).body.core = r := by
  rw [cores_getElem?] at h
  obtain ⟨c, hc, he⟩ := Option.map_eq_some_iff.mp h
  rw [m.row_eq hc]
  exact ⟨congrArg Prod.fst he, congrArg Prod.snd he⟩

theorem cores_of_row {id : Nat} {c : Cell Row} (h : m.rows[id]? = some c) :
    m.cores[id]? = some (c.parent, c.body.core) := by
  rw [cores_getElem?, h]
  rfl

theorem map_core_modify (rows : List (Cell Row)) (id : Nat) (f : Cell Row → Cell Row)
    (h : ∀ c, Revise.core (f c) = Revise.core c) :
    (rows.modify id f).map Revise.core = rows.map Revise.core := by
  apply List.ext_getElem?
  intro x
  rw [List.getElem?_map, List.getElem?_modify, List.getElem?_map]
  cases rows[x]? with
  | none => rfl
  | some c =>
    by_cases hx : id = x
    · simp [hx, h]
    · simp [hx]

@[simp] theorem bare_cores : m.bare.cores = m.cores := by
  show (m.rows.map _).map _ = m.rows.map _
  rw [List.map_map]
  rfl

/-- The marks are no part of a core. -/
theorem cores_of_bare {m m' : Machine standard} (h : m'.bare = m.bare) : m'.cores = m.cores := by
  rw [← m'.bare_cores, h, bare_cores]

@[simp] theorem setSlot_cores (id : Nat) (slot : Slot) (first : Option Nat) :
    (m.setSlot id slot first).cores = m.cores :=
  map_core_modify m.rows id _ fun _ => rfl

theorem orphanFrom_cores (root fuel : Nat) (o : Option Nat) (rows : List (Cell Row)) :
    (orphanFrom root fuel o rows).map Revise.core = rows.map Revise.core := by
  induction fuel generalizing o rows with
  | zero => rfl
  | succ fuel ih =>
    cases o with
    | none => rfl
    | some id =>
      unfold orphanFrom
      rw [ih]
      exact map_core_modify rows id _ fun _ => rfl

@[simp] theorem orphanInterior_cores (id : Nat) : (m.orphanInterior id).cores = m.cores :=
  (orphanFrom_cores _ _ _ _).trans (m.setSlot_cores id _ _)

/-! ## Transitions -/

/-- A state written on a core. -/
def coreEdit (edit : Edit) (p : Option Nat × Row) : Option Nat × Row := (p.1, { p.2 with edit })

theorem setEdit_cores (id : Nat) (edit : Edit) :
    (m.setEdit id edit).cores = m.cores.modify id (coreEdit edit) := by
  apply List.ext_getElem?
  intro x
  rw [cores_getElem?, List.getElem?_modify, cores_getElem?]
  show ((m.rows.modify id _)[x]?).map _ = _
  rw [List.getElem?_modify]
  cases m.rows[x]? with
  | none => rfl
  | some c =>
    by_cases hx : id = x
    · simp [hx, Revise.core, Cell.map, coreEdit, Row.core]
    · simp [hx]

theorem turned_cores (id : Nat) (edit : Edit) :
    (m.turned id edit).cores = m.cores.modify id (coreEdit edit) := by
  unfold turned
  extract_lets r written
  split
  · rw [orphanInterior_cores]
    exact m.setEdit_cores id edit
  · exact m.setEdit_cores id edit

theorem writeState_cores (id : Nat) (edit : Edit) :
    (m.writeState id edit).cores = m.cores.modify id (coreEdit edit) :=
  (cores_of_bare (m.writeState_bare id edit)).trans (m.turned_cores id edit)

@[simp] theorem logPush_cores (id : Nat) (past : Edit) : (m.logPush id past).cores = m.cores := by
  rw [← bare_cores, logPush_bare]
  exact m.bare_cores

@[simp] theorem logPop_cores (step : Transition) (log : List Transition) :
    (m.logPop step log).cores = m.cores := by
  rw [← bare_cores, logPop_bare]
  exact m.bare_cores

theorem logPush_log (id : Nat) (past : Edit) :
    (m.logPush id past).log = ⟨id, past, !(m.row id).body.ownHist⟩ :: m.log := by
  rw [← bare_log, logPush_bare]

theorem logPop_log (step : Transition) (log : List Transition) : (m.logPop step log).log = log := by
  rw [← bare_log, logPop_bare]

@[simp] theorem turned_log (id : Nat) (edit : Edit) : (m.turned id edit).log = m.log := by
  unfold turned
  extract_lets r written
  split <;> rfl

@[simp] theorem writeState_log (id : Nat) (edit : Edit) : (m.writeState id edit).log = m.log := by
  rw [← bare_log, writeState_bare, bare_log, turned_log]

theorem applyEdit_cores (id : Nat) (edit : Edit) :
    (m.applyEdit id edit).cores = m.cores.modify id (coreEdit edit) := by
  unfold applyEdit
  rw [writeState_cores, logPush_cores]

theorem applyEdit_log (id : Nat) (edit : Edit) :
    (m.applyEdit id edit).log =
      ⟨id, (m.row id).body.edit, !(m.row id).body.ownHist⟩ :: m.log := by
  unfold applyEdit
  rw [writeState_log, logPush_log]

/-! ## Births -/

theorem onLayer_cores (parent : Option Nat) (f : Layer → Layer) :
    (m.onLayer parent f).cores = m.cores := by
  cases parent with
  | none => rfl
  | some id =>
    refine map_core_modify m.rows id _ fun c => ?_
    obtain ⟨_, _, _, _, _, _, _, _, slot, _, _, _, _, _, _, _, _⟩ := c
    cases slot <;> rfl

theorem splice_cores (plan : Plan) (id : Nat) (r : Row) :
    (m.splice plan id r).cores = m.cores ++ [(plan.parent, r.core)] := by
  have hpushed : (m.rows ++ ([⟨plan.parent, m.planNext plan, none, r⟩] : List (Cell Row))).map
      Revise.core = m.cores ++ [(plan.parent, r.core)] := List.map_append
  unfold splice
  extract_lets next pushed linked
  have hlinked : linked.cores = m.cores ++ [(plan.parent, r.core)] := by
    rw [← hpushed]
    unfold linked
    split
    · exact map_core_modify _ _ _ fun _ => rfl
    · split
      · exact map_core_modify _ _ _ fun _ => rfl
      · rfl
  split
  · rw [onLayer_cores, hlinked]
  · exact hlinked

theorem splice_log (plan : Plan) (id : Nat) (r : Row) : (m.splice plan id r).log = m.log := by
  unfold splice
  extract_lets next pushed linked
  have hlinked : linked.log = m.log := by
    unfold linked
    split
    · rfl
    · split <;> rfl
  split
  · cases plan.parent <;> exact hlinked
  · exact hlinked

end Machine

end ProtobufEdit.Revise
