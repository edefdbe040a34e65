import Mathlib.Logic.Relation

/-!
# Bounded loops

A loop is a body that goes on from a state or halts with a result. `run` executes at most
`fuel` turns; `Yields` is what the loop yields, with no bound, and `Steps` a stretch of it.
A measure that every turn lowers makes `run` yield.
-/

namespace Loop

inductive Turn (σ ρ : Type*) where
  | next (s : σ)
  | halt (r : ρ)

section Run

variable {σ ρ : Type*}

def run (turn : σ → Turn σ ρ) : Nat → σ → Option ρ
  | 0, _ => none
  | fuel + 1, s =>
    match turn s with
    | .next s' => run turn fuel s'
    | .halt r => some r

/-- The loop from `s` halts with `r`. -/
inductive Yields (turn : σ → Turn σ ρ) : σ → ρ → Prop where
  | halt {s : σ} {r : ρ} : turn s = .halt r → Yields turn s r
  | next {s s' : σ} {r : ρ} : turn s = .next s' → Yields turn s' r → Yields turn s r

/-- The loop gets from one state to another. -/
def Steps (turn : σ → Turn σ ρ) : σ → σ → Prop :=
  Relation.ReflTransGen fun s s' => turn s = .next s'

variable {turn : σ → Turn σ ρ} {s s' : σ} {r r' : ρ}

theorem Yields.unique (h : Yields turn s r) (h' : Yields turn s r') : r = r' := by
  induction h with
  | halt e =>
    cases h' with
    | halt e' => rw [e] at e'; cases e'; rfl
    | next e' _ => rw [e] at e'; cases e'
  | next e _ ih =>
    cases h' with
    | halt e' => rw [e] at e'; cases e'
    | next e' h => rw [e] at e'; cases e'; exact ih h

theorem yields_of_halt (e : turn s = .halt r) : Yields turn s r' ↔ r' = r :=
  ⟨fun h => h.unique (.halt e), fun h => h ▸ .halt e⟩

theorem Steps.refl (s : σ) : Steps turn s s := Relation.ReflTransGen.refl

theorem Steps.single (e : turn s = .next s') : Steps turn s s' := Relation.ReflTransGen.single e

theorem Steps.trans {t : σ} (h : Steps turn s s') (h' : Steps turn s' t) : Steps turn s t :=
  Relation.ReflTransGen.trans h h'

theorem Steps.head {t : σ} (e : turn s = .next s') (h : Steps turn s' t) : Steps turn s t :=
  Relation.ReflTransGen.head e h

theorem Steps.yields (h : Steps turn s s') (hy : Yields turn s' r) : Yields turn s r := by
  induction h using Relation.ReflTransGen.head_induction_on with
  | refl => exact hy
  | head e _ ih => exact .next e ih

theorem yields_of_run {fuel : Nat} (h : run turn fuel s = some r) : Yields turn s r := by
  induction fuel generalizing s with
  | zero => cases h
  | succ fuel ih =>
    simp only [run] at h
    split at h
    case h_1 s' e => exact .next e (ih h)
    case h_2 r' e => cases h; exact .halt e

/-- What a loop comes to, one of its turns halts with. -/
theorem halt_of_run {fuel : Nat} (h : run turn fuel s = some r) : ∃ s', turn s' = .halt r := by
  induction fuel generalizing s with
  | zero => cases h
  | succ fuel ih =>
    simp only [run] at h
    split at h
    case h_1 s' e => exact ih h
    case h_2 r' e => cases h; exact ⟨s, e⟩

/-- What a loop yields, where its turns keep an invariant. -/
theorem Yields.keeps (Inv : σ → Prop) {P : ρ → Prop}
    (hnext : ∀ s s', Inv s → turn s = .next s' → Inv s')
    (hhalt : ∀ s r, Inv s → turn s = .halt r → P r) (hs : Inv s) (h : Yields turn s r) : P r := by
  induction h with
  | halt e => exact hhalt _ _ hs e
  | next e _ ih => exact ih (hnext _ _ hs e)

/-- The loop gets from one state to another in so many turns. -/
inductive Takes (turn : σ → Turn σ ρ) : Nat → σ → σ → Prop where
  | refl (s : σ) : Takes turn 0 s s
  | head {n : Nat} {s s' t : σ} : turn s = .next s' → Takes turn n s' t → Takes turn (n + 1) s t

theorem Takes.trans {n k : Nat} {t : σ} (h : Takes turn n s s') (h' : Takes turn k s' t) :
    Takes turn (n + k) s t := by
  induction h with
  | refl => rwa [Nat.zero_add]
  | head e _ ih => exact Nat.succ_add _ k ▸ .head e (ih h')

theorem Takes.run {n k : Nat} (h : Takes turn n s s') : run turn (n + k) s = run turn k s' := by
  induction h with
  | refl => rw [Nat.zero_add]
  | head e _ ih =>
    rw [Nat.succ_add]
    show (match turn _ with | .next s' => Loop.run turn _ s' | .halt r => some r) = _
    rw [e]
    exact ih

/-- A stretch that ends in a halt, run with a turn to spare. -/
theorem Takes.halts {n fuel : Nat} (h : Takes turn n s s') (e : turn s' = .halt r)
    (hn : n < fuel) : Loop.run turn fuel s = some r := by
  obtain ⟨k, rfl⟩ := Nat.exists_eq_add_of_lt hn
  rw [Nat.add_assoc, h.run]
  show (match turn s' with | .next s' => Loop.run turn _ s' | .halt r => some r) = _
  rw [e]

/-- An invariant whose measure every turn lowers: the loop yields inside the measure. -/
theorem run_of_measure (Inv : σ → Prop) (μ : σ → Nat)
    (hstep : ∀ s s', Inv s → turn s = .next s' → Inv s' ∧ μ s' < μ s) {fuel : Nat}
    (hs : Inv s) (hf : μ s < fuel) : ∃ r, run turn fuel s = some r := by
  induction fuel generalizing s with
  | zero => omega
  | succ fuel ih =>
    simp only [run]
    split
    case h_1 s' e =>
      obtain ⟨hi, hlt⟩ := hstep s s' hs e
      exact ih hi (by omega)
    case h_2 r e => exact ⟨r, rfl⟩

theorem run_eq_of_yields (Inv : σ → Prop) (μ : σ → Nat)
    (hstep : ∀ s s', Inv s → turn s = .next s' → Inv s' ∧ μ s' < μ s) {fuel : Nat}
    (hs : Inv s) (hf : μ s < fuel) (h : Yields turn s r) : run turn fuel s = some r := by
  obtain ⟨r', e⟩ := run_of_measure Inv μ hstep hs hf
  rw [e, h.unique (yields_of_run e)]

end Run

end Loop
