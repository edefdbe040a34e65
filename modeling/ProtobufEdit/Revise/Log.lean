import Mathlib.Logic.Function.Basic
import ProtobufEdit.Arena.Links
import ProtobufEdit.Revise.State

/-!
# The undo log

Undone newest first, the log's steps take every row back to a state that is clean; and a step
that changed what speaks for a row found nothing beneath it that an older step touches.
-/

namespace ProtobufEdit.Revise

open Arena
open Machine (awakened ghosted)

/-- The step writes the row's state: it is the step's row, or where the step moved it. -/
def Transition.names (step : Transition) (x : Nat) : Prop :=
  step.row = x ∨ step.past = .moved x

/-- The log names the row. -/
def Named (log : List Transition) (x : Nat) : Prop := ∃ step ∈ log, step.row = x

def Touched (log : List Transition) (x : Nat) : Prop := ∃ step ∈ log, step.names x

theorem Named.touched {log : List Transition} {x : Nat} (h : Named log x) : Touched log x :=
  h.imp fun _ hs => ⟨hs.1, .inl hs.2⟩

@[simp] theorem named_nil (x : Nat) : ¬ Named [] x := nofun

@[simp] theorem named_cons {step : Transition} {log : List Transition} {x : Nat} :
    Named (step :: log) x ↔ step.row = x ∨ Named log x := by
  unfold Named
  simp only [List.mem_cons, exists_eq_or_imp]

@[simp] theorem touched_cons {step : Transition} {log : List Transition} {x : Nat} :
    Touched (step :: log) x ↔ step.names x ∨ Touched log x := by
  unfold Touched
  simp only [List.mem_cons, exists_eq_or_imp]

/-! ## What speaks for a row -/

@[simp] theorem speaker_awakened (edit : Edit) : (awakened edit).speaker = edit.speaker := by
  cases edit <;> rfl

@[simp] theorem speaker_ghosted (edit : Edit) : (ghosted edit).speaker = edit.speaker := by
  cases edit <;> rfl

/-- The states behind a step's undoing. -/
def Transition.undo (step : Transition) (f : Nat → Edit) : Nat → Edit :=
  match step.past with
  | .moved d => Function.update (Function.update f step.row .intact) d (ghosted (f d))
  | past => Function.update f step.row past

theorem Transition.undo_moved {step : Transition} {d : Nat} (h : step.past = .moved d)
    (f : Nat → Edit) :
    step.undo f = Function.update (Function.update f step.row .intact) d (ghosted (f d)) := by
  unfold undo
  rw [h]

theorem Transition.undo_plain {step : Transition} (h : ∀ d, step.past ≠ .moved d)
    (f : Nat → Edit) : step.undo f = Function.update f step.row step.past := by
  unfold undo
  split
  · next d hd => exact absurd hd (h d)
  · rfl

theorem Transition.undo_other {step : Transition} {f : Nat → Edit} {x : Nat}
    (h : ¬ step.names x) : step.undo f x = f x := by
  obtain ⟨hrow, hmoved⟩ := not_or.mp h
  by_cases hm : ∃ d, step.past = .moved d
  · obtain ⟨d, hd⟩ := hm
    have hx : x ≠ d := fun e => hmoved (e ▸ hd)
    rw [undo_moved hd, Function.update_of_ne hx, Function.update_of_ne (Ne.symm hrow)]
  · rw [undo_plain (not_exists.mp hm), Function.update_of_ne (Ne.symm hrow)]

/-- Undone newest first, the steps leave every row clean, and a move's two rows are as it left
them when its turn comes. -/
inductive Unwinds : List Transition → (Nat → Edit) → Prop
  | nil {f : Nat → Edit} : (∀ x, (f x).ownDirty = false) → Unwinds [] f
  | cons {step : Transition} {log : List Transition} {f : Nat → Edit} :
      (∀ d, step.past = .moved d →
        step.row ≠ d ∧ f step.row = .moved d ∧ (f d).ownDirty = true) →
      Unwinds log (step.undo f) → Unwinds (step :: log) f

namespace Unwinds

variable {log : List Transition} {f f' : Nat → Edit} {x : Nat}

/-- A row that holds dirt by its own state is one that a step touched. -/
theorem touched (h : Unwinds log f) (hx : (f x).ownDirty = true) : Touched log x := by
  induction h with
  | nil hclean =>
    rw [hclean x] at hx
    cases hx
  | @cons step log f _ _ ih =>
    rw [touched_cons]
    by_cases hn : step.names x
    · exact .inl hn
    · refine .inr (ih ?_)
      rwa [Transition.undo_other hn]

/-- Where a move put its row, the row still holds dirt or has steps of its own. -/
theorem moved (h : Unwinds log f) {step : Transition} (hs : step ∈ log)
    (hx : step.past = .moved x) : (f x).ownDirty = true ∨ Named log x := by
  induction h with
  | nil => cases hs
  | @cons newest log f hmoved _ ih =>
    rw [named_cons]
    by_cases hrow : newest.row = x
    · exact .inr (.inl hrow)
    · by_cases hdest : newest.past = .moved x
      · exact .inl (hmoved x hdest).2.2
      · have hold : step ∈ log := by
          rcases List.mem_cons.mp hs with rfl | hold
          · exact absurd hx hdest
          · exact hold
        refine (ih hold).imp (fun hd => ?_) .inr
        rwa [Transition.undo_other (not_or.mpr ⟨hrow, hdest⟩)] at hd

/-- Every row that a step touched holds dirt by its own state or has steps of its own. -/
theorem held (h : Unwinds log f) (hx : Touched log x) :
    (f x).ownDirty = true ∨ Named log x := by
  obtain ⟨step, hs, hrow | hmoved⟩ := hx
  · exact .inr ⟨step, hs, hrow⟩
  · exact h.moved hs hmoved

/-- Rows that no step touched may be clean in another way. -/
theorem congr (h : Unwinds log f)
    (hf : ∀ y, f' y ≠ f y → ¬ Touched log y ∧ (f' y).ownDirty = false) : Unwinds log f' := by
  induction h generalizing f' with
  | @nil f hclean =>
    refine .nil fun y => ?_
    by_cases hy : f' y = f y
    · rw [hy]
      exact hclean y
    · exact (hf y hy).2
  | @cons step log f hmoved _ ih =>
    have hsame : ∀ y, step.names y → f' y = f y := fun y hy =>
      not_not.mp fun hne => (hf y hne).1 (touched_cons.mpr (.inl hy))
    refine .cons (fun d hd => ?_) (ih fun y hy => ?_)
    · rw [hsame _ (.inl rfl), hsame d (.inr hd)]
      exact hmoved d hd
    · by_cases hn : step.names y
      · refine absurd ?_ hy
        cases hp : step.past with
        | moved d =>
          rw [Transition.undo_moved hp, Transition.undo_moved hp, hsame d (.inr hp)]
          by_cases hyd : y = d
          · subst hyd
            simp
          · have hrow : y = step.row := by
              refine (hn.resolve_right fun e => hyd ?_).symm
              exact (Edit.moved.inj (hp.symm.trans e)).symm
            subst hrow
            simp [hyd]
        | _ =>
          have hrow : y = step.row := by
            refine (hn.resolve_right fun e => ?_).symm
            rw [hp] at e
            cases e
          have hplain : ∀ d, step.past ≠ .moved d := by
            rw [hp]
            nofun
          rw [Transition.undo_plain hplain, Transition.undo_plain hplain, hrow]
          simp
      · rw [Transition.undo_other hn, Transition.undo_other hn] at hy
        rw [Transition.undo_other hn]
        exact (hf y hy).imp_left fun ht e => ht (touched_cons.mpr (.inr e))

end Unwinds

/-! ## Fresh steps -/

/-- A step is fresh exactly where no older one is of its row. -/
def Fresh : List Transition → Prop
  | [] => True
  | step :: log => (step.fresh = true ↔ ¬ Named log step.row) ∧ Fresh log

/-- A row that the log names has one fresh step. -/
theorem Fresh.one {log : List Transition} (h : Fresh log) {x : Nat} (hx : Named log x) :
    log.countP (fun step => step.row = x ∧ step.fresh = true) = 1 := by
  have hnone : ∀ log : List Transition, ¬ Named log x →
      log.countP (fun step => step.row = x ∧ step.fresh = true) = 0 := fun log hn => by
    refine List.countP_eq_zero.mpr fun step hs he => hn ⟨step, hs, ?_⟩
    exact (of_decide_eq_true he).1
  induction log with
  | nil => exact absurd hx (named_nil x)
  | cons step log ih =>
    obtain ⟨hfresh, hold⟩ := h
    rw [List.countP_cons]
    by_cases hin : Named log x
    · rw [ih hold hin, if_neg]
      rintro he
      obtain ⟨rfl, hf⟩ := of_decide_eq_true he
      exact hfresh.mp hf hin
    · obtain rfl := (named_cons.mp hx).resolve_right hin
      rw [hnone log hin, if_pos]
      exact decide_eq_true ⟨rfl, hfresh.mpr hin⟩

/-! ## The log over an arena -/

/-- The log of an arena's rows: it touches live rows alone, it unwinds to clean states, and where
a step's row is spoken for as it was before the step, or else nothing beneath that row is touched
by an older step. -/
structure Logged (log : List Transition) (f : Nat → Edit) (cells : List (Cell Unit))
    (ids : List Nat) : Prop where
  live : ∀ x, Touched log x → x ∈ ids
  unwinds : Unwinds log f
  fresh : Fresh log
  nested : log.Pairwise fun step older =>
    ∀ x, older.names x → Beneath cells x step.row → step.past.speaker = (f step.row).speaker

namespace Logged

variable {log : List Transition} {f f' : Nat → Edit} {cells cells' : List (Cell Unit)}
  {ids ids' : List Nat} {step : Transition} {x : Nat}

/-- The arena grows by rows that no step touches. -/
theorem frame (h : Logged log f cells ids) (hids : ∀ x, Touched log x → x ∈ ids → x ∈ ids')
    (hbelow : ∀ x y, x ∈ ids → Beneath cells' x y → Beneath cells x y)
    (hf : ∀ y, f' y ≠ f y → ¬ Touched log y ∧ (f' y).ownDirty = false) :
    Logged log f' cells' ids' where
  live x hx := hids x hx (h.live x hx)
  unwinds := h.unwinds.congr hf
  fresh := h.fresh
  nested := by
    refine h.nested.imp_of_mem fun {step older} hs ho hp x hx hb => ?_
    have hsame : f' step.row = f step.row :=
      not_not.mp fun hne => (hf _ hne).1 ⟨step, hs, .inl rfl⟩
    rw [hsame]
    exact hp x hx (hbelow x _ (h.live x ⟨older, ho, hx⟩) hb)

/-- A step written, whose row is not moved. -/
theorem push (h : Logged log f cells ids) {id : Nat} (edit : Edit) (fresh : Bool)
    (hid : id ∈ ids) (hmoved : ∀ d, f id ≠ .moved d) (hfresh : fresh = true ↔ ¬ Named log id)
    (hflip : (f id).speaker ≠ edit.speaker → ∀ x, Touched log x → ¬ Beneath cells x id) :
    Logged (⟨id, f id, fresh⟩ :: log) (Function.update f id edit) cells ids where
  live x hx := by
    rcases touched_cons.mp hx with (rfl | hm) | hx
    · exact hid
    · exact absurd hm (hmoved x)
    · exact h.live x hx
  unwinds := by
    refine .cons (fun d hd => absurd hd (hmoved d)) ?_
    rw [Transition.undo_plain hmoved]
    simpa using h.unwinds
  fresh := ⟨hfresh, h.fresh⟩
  nested := by
    refine List.pairwise_cons.mpr ⟨fun older ho x hx hb => ?_, ?_⟩
    · refine not_not.mp fun hne => hflip ?_ x ⟨older, ho, hx⟩ hb
      simpa using hne
    · refine h.nested.imp_of_mem fun {step older} hs ho hp x hx hb => ?_
      by_cases he : step.row = id
      · rw [he, Function.update_self, hp x hx hb, he]
        refine not_not.mp fun hne => hflip hne x ⟨older, ho, hx⟩ ?_
        rwa [he] at hb
      · rw [Function.update_of_ne he]
        exact hp x hx hb

/-- A move's step written: its row was intact, and its destination was born a ghost. -/
theorem pushMove (h : Logged log f cells ids) {source dest : Nat} (fresh : Bool)
    (hsource : source ∈ ids) (hdest : dest ∈ ids) (hne : source ≠ dest)
    (hintact : f source = .intact) (hghost : ghosted (awakened (f dest)) = f dest)
    (hawake : (awakened (f dest)).ownDirty = true)
    (hfresh : fresh = true ↔ ¬ Named log source) :
    Logged (⟨source, .moved dest, fresh⟩ :: log)
      (Function.update (Function.update f source (.moved dest)) dest (awakened (f dest))) cells
      ids where
  live x hx := by
    rcases touched_cons.mp hx with (rfl | hm) | hx
    · exact hsource
    · cases hm
      exact hdest
    · exact h.live x hx
  unwinds := by
    refine .cons (fun d hd => ?_) ?_
    · cases hd
      refine ⟨hne, ?_, ?_⟩
      · simp [hne]
      · simpa using hawake
    · rw [Transition.undo_moved rfl]
      refine h.unwinds.congr fun y hy => absurd ?_ hy
      by_cases hyd : y = dest
      · subst hyd
        simpa using hghost
      · by_cases hys : y = source
        · subst hys
          simp [hyd, hintact]
        · simp [hyd, hys]
  fresh := ⟨hfresh, h.fresh⟩
  nested := by
    refine List.pairwise_cons.mpr ⟨fun older ho x hx hb => ?_, ?_⟩
    · simp [hne, Edit.speaker]
    · refine h.nested.imp fun {step older} hp x hx hb => (hp x hx hb).trans ?_
      by_cases hd : step.row = dest
      · simp [hd]
      · by_cases hs : step.row = source
        · simp [hs, hne, hintact, Edit.speaker]
        · simp [hd, hs]

/-- Where the newest step changed what speaks for its row, the log touches nothing beneath. -/
theorem beneath (h : Logged (step :: log) f cells ids)
    (hflip : step.past.speaker ≠ (f step.row).speaker) (hx : Touched log x) :
    ¬ Beneath cells x step.row := by
  obtain ⟨older, ho, hn⟩ := hx
  exact fun hb => hflip ((List.pairwise_cons.mp h.nested).1 older ho x hn hb)

/-- The newest step undone. -/
theorem pop (h : Logged (step :: log) f cells ids) : Logged log (step.undo f) cells ids where
  live x hx := h.live x (touched_cons.mpr (.inr hx))
  unwinds := by
    cases h.unwinds with
    | cons _ hlog => exact hlog
  fresh := h.fresh.2
  nested := by
    obtain ⟨hhead, htail⟩ := List.pairwise_cons.mp h.nested
    refine htail.imp_of_mem fun {e older} he ho hp x hx hb => (hp x hx hb).trans ?_
    cases h.unwinds with
    | cons hmoved _ =>
      cases hpast : step.past with
      | moved d =>
        obtain ⟨hne, hrow, -⟩ := hmoved d hpast
        rw [Transition.undo_moved hpast]
        by_cases hd : e.row = d
        · simp [hd]
        · by_cases hr : e.row = step.row
          · rw [hr, hrow]
            simp [hne, Edit.speaker]
          · simp [hd, hr]
      | _ =>
        have hplain : ∀ d, step.past ≠ .moved d := by
          rw [hpast]
          nofun
        rw [Transition.undo_plain hplain]
        by_cases hr : e.row = step.row
        · rw [hr, Function.update_self]
          exact (hhead older ho x hx (hr ▸ hb)).symm
        · rw [Function.update_of_ne hr]

end Logged

end ProtobufEdit.Revise
