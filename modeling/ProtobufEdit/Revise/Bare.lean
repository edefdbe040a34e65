import ProtobufEdit.Revise.State

/-!
# The machine without its marks

The marks a row keeps of its subtree, and the counts its layer keeps of them, steer nothing but
the marks themselves and the saves. What is left without them is what the state says; a raised
or a lowered mark leaves it.
-/

namespace ProtobufEdit.Revise

open Wire Wire.Groupless Varint Arena

def Layer.bare (layer : Layer) : Layer := { layer with dirtyKids := 0, historyKids := 0 }

def Slot.bare : Slot → Slot
  | .opened layer => .opened layer.bare
  | slot => slot

def Row.bare (r : Row) : Row :=
  { r with dirty := false, hist := false, ownHist := false, slot := r.slot.bare }

def Machine.bare {standard : Standard} (m : Machine standard) : Machine standard :=
  { m with rows := m.rows.map (Cell.map Row.bare), root := m.root.bare }

@[simp] theorem Layer.bare_setCount (mark : Mark) (n : Nat) (layer : Layer) :
    (layer.setCount mark n).bare = layer.bare := by
  cases mark <;> rfl

theorem Slot.bare_eq_unopened {slot : Slot} : slot.bare = .unopened ↔ slot = .unopened := by
  cases slot <;> simp [Slot.bare]

namespace Row

variable (r : Row)

@[simp] theorem bare_edit : r.bare.edit = r.edit := rfl

@[simp] theorem bare_start : r.bare.start = r.start := rfl

@[simp] theorem bare_stop : r.bare.stop = r.stop := rfl

@[simp] theorem bare_field : r.bare.field = r.field := rfl

@[simp] theorem bare_kind : r.bare.kind = r.kind := rfl

@[simp] theorem bare_slot : r.bare.slot = r.slot.bare := rfl

@[simp] theorem bare_dead : r.bare.dead = r.dead := rfl

@[simp] theorem bare_authoredZone : r.bare.authoredZone = r.authoredZone := rfl

@[simp] theorem bare_isAlias : r.bare.isAlias = r.isAlias := rfl

@[simp] theorem bare_setFlag (mark : Mark) (b : Bool) : (r.setFlag mark b).bare = r.bare := by
  cases mark <;> rfl

end Row

namespace Machine

variable {standard : Standard} (m : Machine standard)

@[simp] theorem bare_rows : m.bare.rows = m.rows.map (Cell.map Row.bare) := rfl

@[simp] theorem bare_source : m.bare.source = m.source := rfl

@[simp] theorem bare_store : m.bare.store = m.store := rfl

@[simp] theorem bare_log : m.bare.log = m.log := rfl

@[simp] theorem bare_top : m.bare.top = m.top := rfl

@[simp] theorem bare_cap : m.bare.cap = m.cap := rfl

theorem bare_getElem? (id : Nat) : m.bare.rows[id]? = m.rows[id]?.map (Cell.map Row.bare) :=
  List.getElem?_map

theorem bare_row (id : Nat) : m.bare.row id = (m.row id).map Row.bare := by
  show (m.rows.map _).getD id default = Cell.map _ (m.rows.getD id default)
  rw [List.getD_eq_getElem?_getD, List.getD_eq_getElem?_getD, List.getElem?_map]
  cases m.rows[id]? <;> rfl

theorem row_eq {id : Nat} {c : Cell Row} (h : m.rows[id]? = some c) : m.row id = c := by
  show m.rows.getD id default = c
  rw [List.getD_eq_getElem?_getD, h]
  rfl

theorem setRow_bare {f g : Row → Row} (h : ∀ r, (f r).bare = g r.bare) (id : Nat) :
    (m.setRow id f).bare = m.bare.setRow id g := by
  have hrows : (m.rows.modify id (Cell.map f)).map (Cell.map Row.bare) =
      (m.rows.map (Cell.map Row.bare)).modify id (Cell.map g) := by
    apply List.ext_getElem?
    intro x
    rw [List.getElem?_map, List.getElem?_modify, List.getElem?_modify, List.getElem?_map]
    cases m.rows[x]? with
    | none => rfl
    | some c =>
      by_cases hx : id = x
      · simp [hx, Cell.map, h]
      · simp [hx]
  show ({ m with rows := (m.rows.modify id (Cell.map f)).map (Cell.map Row.bare), root := _ } :
    Machine standard) = _
  rw [hrows]
  rfl

theorem setRow_self {f : Row → Row} (h : ∀ r, f r = r) (id : Nat) : m.setRow id f = m := by
  have hrows : m.rows.modify id (Cell.map f) = m.rows := by
    apply List.ext_getElem?
    intro x
    rw [List.getElem?_modify]
    cases m.rows[x]? with
    | none => rfl
    | some c => simp [Cell.map, h]
  show ({ m with rows := _ } : Machine standard) = m
  rw [hrows]

/-- A row's marks change. -/
theorem setRow_marks {f : Row → Row} (h : ∀ r, (f r).bare = r.bare) (id : Nat) :
    (m.setRow id f).bare = m.bare :=
  (m.setRow_bare (g := fun r => r) h id).trans (m.bare.setRow_self (fun _ => rfl) id)

theorem onLayer_marks {f : Layer → Layer} (h : ∀ layer, (f layer).bare = layer.bare)
    (parent : Option Nat) : (m.onLayer parent f).bare = m.bare := by
  cases parent with
  | none =>
    show ({ m with rows := _, root := (f m.root).bare } : Machine standard) = _
    rw [h]
    rfl
  | some id =>
    refine m.setRow_marks (fun r => ?_) id
    obtain ⟨_, _, _, _, _, slot, _, _, _, _, _, _, _, _⟩ := r
    cases slot with
    | opened layer => simp [Row.bare, Slot.bare, h]
    | unopened => rfl
    | fault index => rfl

theorem reflag_bare (mark : Mark) (b : Bool) (n : Nat → Nat) (id : Nat) :
    (m.reflag mark b n id).bare = m.bare :=
  (onLayer_marks _ (fun layer => layer.bare_setCount mark _) _).trans
    (m.setRow_marks (fun r => r.bare_setFlag mark b) id)

theorem raiseMark_bare (mark : Mark) (fuel id : Nat) : (raiseMark mark fuel id m).bare = m.bare := by
  induction fuel generalizing id m with
  | zero => rfl
  | succ fuel ih =>
    have hstep := m.reflag_bare mark true (· + 1) id
    unfold raiseMark
    split
    · rfl
    · split
      · next parent _ => exact (ih _ parent).trans hstep
      · exact hstep

theorem lowerMark_bare (mark : Mark) (fuel id : Nat) : (lowerMark mark fuel id m).bare = m.bare := by
  induction fuel generalizing id m with
  | zero => rfl
  | succ fuel ih =>
    have hstep := m.reflag_bare mark false (· - 1) id
    unfold lowerMark
    extract_lets r
    split
    · rfl
    · split
      · next parent _ => exact (ih _ parent).trans hstep
      · exact hstep

@[simp] theorem raise_bare (mark : Mark) (id : Nat) : (m.raise mark id).bare = m.bare :=
  m.raiseMark_bare mark _ id

@[simp] theorem lower_bare (mark : Mark) (id : Nat) : (m.lower mark id).bare = m.bare :=
  m.lowerMark_bare mark _ id

/-! ## What the log and a transition leave -/

theorem setOwn_bare (id : Nat) (b : Bool) : (m.setOwn id b).bare = m.bare :=
  m.setRow_marks (f := fun r => { r with ownHist := b }) (fun _ => rfl) id

theorem logPush_bare (id : Nat) (past : Edit) :
    (m.logPush id past).bare =
      { m.bare with log := ⟨id, past, !(m.row id).body.ownHist⟩ :: m.log } := by
  unfold logPush
  extract_lets fresh pushed
  split
  · rw [raise_bare, setOwn_bare]
    rfl
  · rfl

theorem logPop_bare (step : Transition) (log : List Transition) :
    (m.logPop step log).bare = { m.bare with log } := by
  unfold logPop
  extract_lets popped
  split
  · rw [lower_bare, setOwn_bare]
    rfl
  · rfl

theorem writeState_bare (id : Nat) (edit : Edit) :
    (m.writeState id edit).bare = (m.turned id edit).bare := by
  unfold writeState
  extract_lets settled
  split
  · rw [raise_bare]
  · rw [lower_bare]

end Machine

end ProtobufEdit.Revise
