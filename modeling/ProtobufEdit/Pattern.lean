import Mathlib.Data.List.Infix
import Mathlib.Tactic.Common

/-!
# Patterns of symbols and runs

A pattern is a sequence of items: one symbol, or a run of symbols of a set. `Matches` is
the words a pattern matches, `after` its partial derivatives: what is left of the pattern
once one symbol has been read.
-/

namespace Pattern

/-- One item: exactly one symbol, or any number of symbols of a set. -/
inductive Item (α : Type*) where
  | sym (a : α)
  | run (set : List α)
  deriving DecidableEq, Repr

section Words

variable {α : Type*}

inductive Matches : List (Item α) → List α → Prop where
  | nil : Matches [] []
  | sym {p : List (Item α)} {w : List α} (a : α) : Matches p w → Matches (.sym a :: p) (a :: w)
  | skip {p : List (Item α)} {w : List α} (set : List α) : Matches p w → Matches (.run set :: p) w
  | more {p : List (Item α)} {w : List α} {set : List α} {a : α} : a ∈ set →
      Matches (.run set :: p) w → Matches (.run set :: p) (a :: w)

variable {p : List (Item α)} {w : List α} {a b : α} {set : List α}

theorem matches_nil_iff : Matches ([] : List (Item α)) w ↔ w = [] :=
  ⟨fun h => by cases h; rfl, fun h => h ▸ .nil⟩

theorem matches_sym_iff : Matches (.sym b :: p) (a :: w) ↔ a = b ∧ Matches p w := by
  constructor
  · rintro ⟨⟩
    exact ⟨rfl, ‹_›⟩
  · rintro ⟨rfl, h⟩
    exact .sym a h

theorem not_matches_sym_nil : ¬ Matches (.sym b :: p) [] := nofun

theorem matches_run_nil : Matches (.run set :: p) [] ↔ Matches p [] := by
  constructor
  · rintro ⟨⟩
    assumption
  · exact .skip set

theorem matches_run_cons :
    Matches (.run set :: p) (a :: w) ↔ a ∈ set ∧ Matches (.run set :: p) w ∨ Matches p (a :: w) := by
  constructor
  · intro h
    cases h with
    | skip _ h => exact .inr h
    | more hm h => exact .inl ⟨hm, h⟩
  · rintro (⟨hm, h⟩ | h)
    · exact .more hm h
    · exact .skip set h

/-- The last item is a symbol: nothing the pattern matches is free to stop early. -/
def EndsSym (p : List (Item α)) : Prop := ∃ init a, p = init ++ [.sym a]

theorem endsSym_sym : EndsSym (.sym b :: p) ↔ p = [] ∨ EndsSym p := by
  constructor
  · rintro ⟨init, a, e⟩
    cases init with
    | nil => exact .inl (List.cons.inj e).2
    | cons i init => exact .inr ⟨init, a, (List.cons.inj e).2⟩
  · rintro (rfl | ⟨init, a, rfl⟩)
    · exact ⟨[], b, rfl⟩
    · exact ⟨.sym b :: init, a, rfl⟩

theorem endsSym_run : EndsSym (.run set :: p) ↔ EndsSym p := by
  constructor
  · rintro ⟨init, a, e⟩
    cases init with
    | nil => cases (List.cons.inj e).1
    | cons i init => exact ⟨init, a, (List.cons.inj e).2⟩
  · rintro ⟨init, a, rfl⟩
    exact ⟨.run set :: init, a, rfl⟩

theorem not_endsSym_nil : ¬ EndsSym ([] : List (Item α)) := by
  rintro ⟨init, a, e⟩
  cases init <;> cases e

theorem EndsSym.of_suffix {q : List (Item α)} (h : EndsSym p) (hq : q <:+ p) (hne : q ≠ []) : EndsSym q := by
  obtain ⟨u, rfl⟩ := hq
  obtain ⟨init, a, e⟩ := h
  obtain ⟨q', b, rfl⟩ := (List.eq_nil_or_concat' q).resolve_left hne
  rw [← List.append_assoc] at e
  obtain ⟨-, e⟩ := List.append_inj' e rfl
  cases e
  exact ⟨q', a, rfl⟩

/-- A pattern that ends on a symbol matches some word, and no empty one. -/
theorem EndsSym.exists_match (h : EndsSym p) : ∃ a w, Matches p (a :: w) := by
  induction p with
  | nil => exact absurd h not_endsSym_nil
  | cons item p ih =>
    cases item with
    | sym b =>
      rcases endsSym_sym.mp h with rfl | h
      · exact ⟨b, [], .sym b .nil⟩
      · obtain ⟨a, w, hm⟩ := ih h
        exact ⟨b, a :: w, .sym b hm⟩
    | run set =>
      obtain ⟨a, w, hm⟩ := ih (endsSym_run.mp h)
      exact ⟨a, w, .skip set hm⟩

theorem EndsSym.not_matches_nil (h : EndsSym p) : ¬ Matches p [] := by
  induction p with
  | nil => exact absurd h not_endsSym_nil
  | cons item p ih =>
    cases item with
    | sym b => exact not_matches_sym_nil
    | run set => exact fun hm => ih (endsSym_run.mp h) (matches_run_nil.mp hm)

/-- Every item may be passed over. -/
def nullable : List (Item α) → Bool
  | [] => true
  | .sym _ :: _ => false
  | .run _ :: p => nullable p

theorem nullable_iff : nullable p = true ↔ Matches p [] := by
  induction p with
  | nil => exact ⟨fun _ => .nil, fun _ => rfl⟩
  | cons item p ih =>
    cases item with
    | sym b => exact ⟨nofun, fun h => absurd h not_matches_sym_nil⟩
    | run set => rw [nullable, ih, matches_run_nil]

/-- The symbols a pattern names. -/
def symbols : List (Item α) → List α
  | [] => []
  | .sym a :: p => a :: symbols p
  | .run set :: p => set ++ symbols p

theorem symbols_of_matches (h : Matches p w) : ∀ a ∈ w, a ∈ symbols p := by
  induction h with
  | nil => nofun
  | sym a _ ih =>
    intro b hb
    rcases List.mem_cons.mp hb with rfl | hb
    · exact List.mem_cons_self
    · exact List.mem_cons_of_mem _ (ih b hb)
  | skip set _ ih => exact fun b hb => List.mem_append_right _ (ih b hb)
  | more hm _ ih =>
    intro b hb
    rcases List.mem_cons.mp hb with rfl | hb
    · exact List.mem_append_left _ hm
    · exact ih b hb

/-- A run over one symbol commutes with that symbol. -/
theorem run_sym_comm (a : α) :
    Matches (.run [a] :: .sym a :: p) w ↔ Matches (.sym a :: .run [a] :: p) w := by
  induction w with
  | nil => simp [matches_run_nil, not_matches_sym_nil]
  | cons b w ih =>
    rw [matches_run_cons, ih, matches_sym_iff, matches_sym_iff]
    constructor
    · rintro (⟨hb, h⟩ | ⟨rfl, h⟩)
      · obtain rfl := List.mem_singleton.mp hb
        cases w with
        | nil => exact absurd h not_matches_sym_nil
        | cons c w =>
          obtain ⟨rfl, h⟩ := matches_sym_iff.mp h
          exact ⟨rfl, .more List.mem_cons_self h⟩
      · exact ⟨rfl, .skip _ h⟩
    · rintro ⟨rfl, h⟩
      cases h with
      | skip _ h => exact .inr ⟨rfl, h⟩
      | more hm h =>
        obtain rfl := List.mem_singleton.mp hm
        exact .inl ⟨List.mem_cons_self, .sym _ h⟩

end Words

/-! ## Derivatives -/

section Derivatives

variable {α : Type*} [DecidableEq α]

/-- What is left of a pattern behind one symbol, in every way of reading it. -/
def after : List (Item α) → α → List (List (Item α))
  | [], _ => []
  | .sym b :: p, a => if a = b then [p] else []
  | .run set :: p, a => if a ∈ set then (.run set :: p) :: after p a else after p a

def accepts (p : List (Item α)) : List α → Bool
  | [] => nullable p
  | a :: w => (after p a).any fun q => accepts q w

variable {p q : List (Item α)} {w : List α} {a : α}

theorem matches_cons : Matches p (a :: w) ↔ ∃ q ∈ after p a, Matches q w := by
  induction p with
  | nil => simp [matches_nil_iff, after]
  | cons item p ih =>
    cases item with
    | sym b =>
      rw [matches_sym_iff, after]
      split_ifs with h <;> simp [h]
    | run set =>
      rw [matches_run_cons, ih, after]
      split_ifs with h <;> simp [h]

theorem accepts_iff : accepts p w = true ↔ Matches p w := by
  induction w generalizing p with
  | nil => exact nullable_iff
  | cons a w ih => simp only [accepts, List.any_eq_true, ih, matches_cons]

instance : DecidableRel (Matches (α := α)) := fun _ _ => decidable_of_iff _ accepts_iff

/-- Every derivative is an end of the pattern. -/
theorem after_suffix (h : q ∈ after p a) : q <:+ p := by
  induction p with
  | nil => cases h
  | cons item p ih =>
    cases item with
    | sym b =>
      simp only [after] at h
      split_ifs at h
      · obtain rfl := List.mem_singleton.mp h
        exact List.suffix_cons _ _
      · cases h
    | run set =>
      simp only [after] at h
      split_ifs at h
      · rcases List.mem_cons.mp h with rfl | h
        · exact List.suffix_rfl
        · exact (ih h).trans (List.suffix_cons _ _)
      · exact (ih h).trans (List.suffix_cons _ _)

/-- What is left of a pattern behind a word. -/
def residuals (p : List (Item α)) : List α → List (List (Item α))
  | [] => [p]
  | a :: w => (after p a).flatMap fun q => residuals q w

theorem matches_append {u : List α} :
    Matches p (u ++ w) ↔ ∃ q ∈ residuals p u, Matches q w := by
  induction u generalizing p with
  | nil => simp [residuals]
  | cons a u ih =>
    simp only [List.cons_append, matches_cons, ih, residuals, List.mem_flatMap]
    constructor
    · rintro ⟨q, hq, q', hq', h⟩
      exact ⟨q', ⟨q, hq, hq'⟩, h⟩
    · rintro ⟨q', ⟨q, hq, hq'⟩, h⟩
      exact ⟨q, hq, q', hq', h⟩

theorem residuals_suffix {u : List α} (h : q ∈ residuals p u) : q <:+ p := by
  induction u generalizing p with
  | nil => rw [List.mem_singleton.mp h]
  | cons a u ih =>
    obtain ⟨q', hq', h⟩ := List.mem_flatMap.mp h
    exact (ih h).trans (after_suffix hq')

/-- Whether the pattern matches a longer word that begins so. -/
def continues (p : List (Item α)) (u : List α) : Bool := (residuals p u).any fun q => !q.isEmpty

theorem continues_iff (h : EndsSym p) {u : List α} :
    continues p u = true ↔ ∃ a w, Matches p (u ++ a :: w) := by
  simp only [continues, List.any_eq_true, Bool.not_eq_true', List.isEmpty_eq_false_iff]
  constructor
  · rintro ⟨q, hq, hne⟩
    obtain ⟨a, w, hm⟩ := (h.of_suffix (residuals_suffix hq) hne).exists_match
    exact ⟨a, w, matches_append.mpr ⟨q, hq, hm⟩⟩
  · rintro ⟨a, w, hm⟩
    obtain ⟨q, hq, hm⟩ := matches_append.mp hm
    refine ⟨q, hq, ?_⟩
    rintro rfl
    cases hm

end Derivatives

end Pattern
