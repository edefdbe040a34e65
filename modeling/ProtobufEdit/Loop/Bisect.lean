import ProtobufEdit.Loop

/-!
# Bisection

A range that a predicate splits: it holds up to some index, and from there on it fails.
-/

namespace Loop

/-- The first index of a range at which `before` fails. -/
def bisect (before : Nat → Bool) : Nat → Nat → Nat → Nat
  | 0, lo, _ => lo
  | fuel + 1, lo, hi =>
    if lo < hi then
      let mid := lo + (hi - lo) / 2
      if before mid then bisect before fuel (mid + 1) hi else bisect before fuel lo mid
    else lo

/-- The predicate holds of a range up to `cut`, and fails from there on. -/
structure Splits (before : Nat → Bool) (lo hi cut : Nat) : Prop where
  lower : lo ≤ cut
  upper : cut ≤ hi
  below : ∀ i, lo ≤ i → i < cut → before i = true
  above : ∀ i, cut ≤ i → i < hi → before i = false

variable {before : Nat → Bool} {lo hi : Nat}

theorem splits_empty (before : Nat → Bool) (lo : Nat) : Splits before lo lo lo :=
  ⟨Nat.le_refl _, Nat.le_refl _, fun _ h h' => absurd h' (Nat.not_lt.mpr h),
    fun _ h h' => absurd h' (Nat.not_lt.mpr h)⟩

theorem bisect_splits {fuel : Nat} (hle : lo ≤ hi) (hfuel : hi - lo ≤ fuel)
    (hdown : ∀ i j, lo ≤ i → i ≤ j → j < hi → before j = true → before i = true) :
    Splits before lo hi (bisect before fuel lo hi) := by
  induction fuel generalizing lo hi with
  | zero =>
    obtain rfl : hi = lo := by omega
    exact splits_empty before hi
  | succ fuel ih =>
    unfold bisect
    by_cases hlt : lo < hi
    · rw [if_pos hlt]
      have hmid : lo ≤ lo + (hi - lo) / 2 ∧ lo + (hi - lo) / 2 < hi := by omega
      generalize lo + (hi - lo) / 2 = mid at hmid
      obtain ⟨hlo, hhi⟩ := hmid
      dsimp only
      cases hb : before mid with
      | true =>
        rw [if_pos rfl]
        have hsplit : Splits before (mid + 1) hi (bisect before fuel (mid + 1) hi) :=
          ih (by omega) (by omega) fun i j hi hij hj => hdown i j (by omega) hij hj
        obtain ⟨lower, upper, below, above⟩ := hsplit
        refine ⟨by omega, upper, fun i hi hcut => ?_, above⟩
        rcases Nat.lt_or_ge mid i with h | h
        · exact below i h hcut
        · exact hdown i mid hi h hhi hb
      | false =>
        rw [if_neg nofun]
        have hsplit : Splits before lo mid (bisect before fuel lo mid) :=
          ih hlo (by omega) fun i j hi hij hj => hdown i j hi hij (by omega)
        obtain ⟨lower, upper, below, above⟩ := hsplit
        refine ⟨lower, by omega, below, fun i hcut hi => ?_⟩
        rcases Nat.lt_or_ge i mid with h | h
        · exact above i hcut h
        · refine Bool.eq_false_iff.mpr fun ht => ?_
          rw [hdown mid i hlo h hi ht] at hb
          cases hb
    · rw [if_neg hlt]
      obtain rfl : hi = lo := by omega
      exact splits_empty before hi

end Loop
