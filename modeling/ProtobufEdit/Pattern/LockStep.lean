import Mathlib.Computability.DFA
import Mathlib.Data.Finset.Powerset
import ProtobufEdit.Pattern

/-!
# Two patterns in lock step

`spread` is every end of a pattern live behind one more symbol. Two patterns walked in lock
step are told apart by a word no longer than the pairs of live sets there are, so whether
they match the same words can be decided by walking so far.
-/

namespace Pattern

section LockStep

variable {α : Type*} [DecidableEq α]

/-- The ends of patterns live behind one more symbol. -/
def spread (S : Finset (List (Item α))) (a : α) : Finset (List (Item α)) :=
  S.biUnion fun q => (after q a).toFinset

/-- Some live end may stop here. -/
def stops (S : Finset (List (Item α))) : Bool := decide (∃ q ∈ S, nullable q = true)

/-- Within `n` symbols the walk reaches live sets of which exactly one may stop. -/
def apart (alphabet : List α) : Nat → Finset (List (Item α)) → Finset (List (Item α)) → Bool
  | 0, S, T => stops S != stops T
  | n + 1, S, T =>
    stops S != stops T || alphabet.any fun a => apart alphabet n (spread S a) (spread T a)

/-- The pairs of live sets two patterns can be walked to, at most. -/
def pairs (p q : List (Item α)) : Nat := 2 ^ (p.length + 1) * 2 ^ (q.length + 1)

/-- The lock-step walk tells the patterns apart. -/
def Apart (p q : List (Item α)) : Prop :=
  apart (symbols p ++ symbols q) (pairs p q) {p} {q} = true

instance : DecidableRel (Apart (α := α)) := fun _ _ => inferInstanceAs (Decidable (_ = _))

variable {p q : List (Item α)} {w : List α} {S T : Finset (List (Item α))}

theorem stops_foldl : stops (w.foldl spread S) = true ↔ ∃ q ∈ S, Matches q w := by
  induction w generalizing S with
  | nil => simp [stops, nullable_iff]
  | cons a w ih =>
    rw [List.foldl_cons, ih]
    simp only [spread, Finset.mem_biUnion, List.mem_toFinset, matches_cons]
    constructor
    · rintro ⟨q', ⟨q, hq, hq'⟩, h⟩
      exact ⟨q, hq, q', hq', h⟩
    · rintro ⟨q, hq, q', hq', h⟩
      exact ⟨q', ⟨q, hq, hq'⟩, h⟩

theorem stops_matches : stops (w.foldl spread {p}) = true ↔ Matches p w := by
  rw [stops_foldl]
  simp

theorem apart_iff {alphabet : List α} {n : Nat} : apart alphabet n S T = true ↔
    ∃ w : List α, w.length ≤ n ∧ (∀ a ∈ w, a ∈ alphabet) ∧
      stops (w.foldl spread S) ≠ stops (w.foldl spread T) := by
  induction n generalizing S T with
  | zero => simp [apart]
  | succ n ih =>
    simp only [apart, Bool.or_eq_true, bne_iff_ne, List.any_eq_true, ih]
    constructor
    · rintro (h | ⟨a, ha, w, hl, hw, h⟩)
      · exact ⟨[], Nat.zero_le _, by simp, h⟩
      · exact ⟨a :: w, Nat.succ_le_succ hl, List.forall_mem_cons.mpr ⟨ha, hw⟩, h⟩
    · rintro ⟨w, hl, hw, h⟩
      cases w with
      | nil => exact .inl h
      | cons a w =>
        obtain ⟨ha, hw⟩ := List.forall_mem_cons.mp hw
        exact .inr ⟨a, ha, w, Nat.le_of_succ_le_succ hl, hw, h⟩

theorem spread_subset (h : S ⊆ p.tails.toFinset) (a : α) : spread S a ⊆ p.tails.toFinset := by
  intro r hr
  simp only [spread, Finset.mem_biUnion, List.mem_toFinset] at hr
  obtain ⟨q, hq, hr⟩ := hr
  have hq := h hq
  simp only [List.mem_toFinset, List.mem_tails] at hq ⊢
  exact (after_suffix hr).trans hq

/-- The sets of ends a pattern can have live. -/
abbrev LiveEnds (p : List (Item α)) := { S // S ∈ p.tails.toFinset.powerset }

theorem card_liveEnds (p : List (Item α)) : Fintype.card (LiveEnds p) ≤ 2 ^ (p.length + 1) := by
  rw [Fintype.card_coe, Finset.card_powerset]
  exact Nat.pow_le_pow_right (by decide) ((List.toFinset_card_le _).trans (by simp))

def spreadEnds (S : LiveEnds p) (a : α) : LiveEnds p :=
  ⟨spread S.1 a, Finset.mem_powerset.mpr (spread_subset (Finset.mem_powerset.mp S.2) a)⟩

/-- The lock-step walk as an automaton. -/
def lockStep (p q : List (Item α)) : DFA α (LiveEnds p × LiveEnds q) where
  step s a := (spreadEnds s.1 a, spreadEnds s.2 a)
  start := (⟨{p}, by simp⟩, ⟨{q}, by simp⟩)
  accept := { s | stops s.1.1 ≠ stops s.2.1 }

theorem lockStep_eval (w : List α) : ((lockStep p q).eval w).1.1 = w.foldl spread {p} ∧
    ((lockStep p q).eval w).2.1 = w.foldl spread {q} := by
  induction w using List.reverseRecOn with
  | nil => exact ⟨rfl, rfl⟩
  | append_singleton w a ih =>
    rw [DFA.eval_append_singleton, List.foldl_append, List.foldl_append, ← ih.1, ← ih.2]
    exact ⟨rfl, rfl⟩

/-- A word no shorter than the pairs of live sets walks a circle, which can be left out. -/
theorem exists_short (h : (lockStep p q).eval w ∈ (lockStep p q).accept) :
    ∃ w' : List α, w'.length ≤ pairs p q ∧ (lockStep p q).eval w' ∈ (lockStep p q).accept := by
  induction hn : w.length using Nat.strong_induction_on generalizing w with
  | _ n ih =>
    by_cases hlen : w.length ≤ pairs p q
    · exact ⟨w, hlen, h⟩
    have hcard : Fintype.card (LiveEnds p × LiveEnds q) ≤ w.length := by
      rw [Fintype.card_prod]
      exact (Nat.mul_le_mul (card_liveEnds p) (card_liveEnds q)).trans (Nat.le_of_not_le hlen)
    obtain ⟨s, a, b, c, rfl, -, hb, ha, hloop, hc⟩ :=
      (lockStep p q).evalFrom_split hcard (rfl : (lockStep p q).evalFrom _ w = _)
    have hshort : (a ++ c).length < n := by
      have := List.length_pos_iff.mpr hb
      simp only [List.length_append] at hn ⊢
      omega
    refine ih _ hshort ?_ rfl
    rw [DFA.eval, DFA.evalFrom_of_append, ha, hc]
    exact h

/-- Walked far enough, the patterns are told apart exactly if they match different words. -/
theorem apart_iff_matches : Apart p q ↔ ¬ ∀ w, Matches p w ↔ Matches q w := by
  have hacc : ∀ w : List α, stops (w.foldl spread {p}) ≠ stops (w.foldl spread {q}) ↔
      ¬ (Matches p w ↔ Matches q w) := by
    intro w
    rw [← stops_matches, ← stops_matches, Ne, Bool.eq_iff_iff]
  rw [Apart, apart_iff, not_forall]
  constructor
  · rintro ⟨w, -, -, h⟩
    exact ⟨w, (hacc w).mp h⟩
  · rintro ⟨w, h⟩
    have hin : (lockStep p q).eval w ∈ (lockStep p q).accept := by
      show stops _ ≠ stops _
      rw [(lockStep_eval w).1, (lockStep_eval w).2]
      exact (hacc w).mpr h
    obtain ⟨w', hlen, hin'⟩ := exists_short hin
    have h' : stops (w'.foldl spread {p}) ≠ stops (w'.foldl spread {q}) := by
      rw [← (lockStep_eval w').1, ← (lockStep_eval w').2]
      exact hin'
    refine ⟨w', hlen, fun a ha => ?_, h'⟩
    -- outside the named symbols neither pattern goes on, so the word names only those
    by_contra hout
    rw [List.mem_append, not_or] at hout
    exact (hacc w').mp h' ⟨fun hm => absurd (symbols_of_matches hm a ha) hout.1,
      fun hm => absurd (symbols_of_matches hm a ha) hout.2⟩

end LockStep

end Pattern
