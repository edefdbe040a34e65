import Mathlib.Data.List.Chain
import ProtobufEdit.Pattern

/-!
# Patterns with one spelling

Two patterns can match the same words: a run over one symbol commutes with that symbol, and a run
beside a run of a smaller set takes it in. A pattern is firm where no neighbours do either, and two
firm patterns for the same words are one pattern.
-/

namespace Pattern

section Spine

variable {α : Type*} {p q : List (Item α)} {w s v : List α} {a c f : α} {set : List α}

/-- The symbols every word has to name, in order. -/
def spine : List (Item α) → List α
  | [] => []
  | .sym a :: p => a :: spine p
  | .run _ :: p => spine p

@[simp]
theorem spine_append : spine (p ++ q) = spine p ++ spine q := by
  induction p with
  | nil => rfl
  | cons item p ih => cases item <;> simp [spine, ih]

theorem matches_spine (p : List (Item α)) : Matches p (spine p) := by
  induction p with
  | nil => exact .nil
  | cons item p ih =>
    cases item with
    | sym a => exact .sym a ih
    | run set => exact .skip set ih

theorem spine_sublist (h : Matches p w) : (spine p).Sublist w := by
  induction h with
  | nil => exact List.Sublist.slnil
  | sym a _ ih => exact ih.cons_cons a
  | skip _ _ ih => exact ih
  | more _ _ ih => exact ih.cons _

theorem spine_eq (h : ∀ w, Matches p w ↔ Matches q w) : spine p = spine q :=
  (spine_sublist ((h _).mpr (matches_spine q))).antisymm
    (spine_sublist ((h _).mp (matches_spine p)))

theorem Matches.append {t : List α} (hp : Matches p w) (hq : Matches q t) :
    Matches (p ++ q) (w ++ t) := by
  induction hp with
  | nil => exact hq
  | sym a _ ih => exact .sym a ih
  | skip set _ ih => exact .skip set ih
  | more ha _ ih => exact .more ha ih

theorem matches_run_append (hs : s ⊆ set) (h : Matches (.run set :: p) w) :
    Matches (.run set :: p) (s ++ w) := by
  induction s with
  | nil => exact h
  | cons a s ih =>
    obtain ⟨ha, hs⟩ := List.cons_subset.mp hs
    exact .more ha (ih hs)

/-- A run reads symbols of its set, then the pattern goes on. -/
theorem matches_run_split (h : Matches (.run set :: p) w) :
    ∃ s t, w = s ++ t ∧ s ⊆ set ∧ Matches p t := by
  induction w with
  | nil => exact ⟨[], [], rfl, List.nil_subset _, matches_run_nil.mp h⟩
  | cons a w ih =>
    rcases matches_run_cons.mp h with ⟨ha, h⟩ | h
    · obtain ⟨s, t, rfl, hs, ht⟩ := ih h
      exact ⟨a :: s, t, rfl, List.cons_subset.mpr ⟨ha, hs⟩, ht⟩
    · exact ⟨[], a :: w, rfl, List.nil_subset _, h⟩

/-- Before a symbol outside its set a run has stopped. -/
theorem matches_run_past (ha : a ∉ set) (h : Matches (.run set :: p) (v ++ a :: w)) :
    ∃ v', Matches p (v' ++ a :: w) := by
  obtain ⟨s, t, he, hs, ht⟩ := matches_run_split h
  rcases List.append_eq_append_iff.mp he with ⟨u, rfl, hu⟩ | ⟨u, rfl, rfl⟩
  · cases u with
    | nil => exact ⟨[], hu ▸ ht⟩
    | cons c u =>
      obtain ⟨rfl, -⟩ := List.cons.inj hu
      exact absurd (hs (List.mem_append_right _ List.mem_cons_self)) ha
  · exact ⟨u, ht⟩

/-- A word one symbol longer than the spine names that symbol in a run. -/
theorem matches_spare (h : Matches p w) (hlen : w.length = (spine p).length + 1) :
    ∃ P set Q a, p = P ++ .run set :: Q ∧ a ∈ set ∧ w = spine P ++ a :: spine Q := by
  induction h with
  | nil => cases hlen
  | sym b _ ih =>
    obtain ⟨P, set, Q, a, rfl, ha, rfl⟩ := ih (Nat.succ.inj hlen)
    exact ⟨.sym b :: P, set, Q, a, rfl, ha, rfl⟩
  | skip set' _ ih =>
    obtain ⟨P, set, Q, a, rfl, ha, rfl⟩ := ih hlen
    exact ⟨.run set' :: P, set, Q, a, rfl, ha, rfl⟩
  | more ha h _ =>
    have hw := (spine_sublist h).eq_of_length (Nat.succ.inj hlen).symm
    exact ⟨[], _, _, _, rfl, ha, by rw [← hw]; rfl⟩

/-- A symbol doubled in a word: wherever it is taken out again, it stood beside itself. -/
theorem spare_neighbour {x y u v : List α} (h : x ++ y = u ++ f :: v)
    (hc : x ++ c :: y = u ++ f :: f :: v) : x.getLast? = some c ∨ y.head? = some c := by
  rcases List.append_eq_append_iff.mp h with ⟨z, rfl, rfl⟩ | ⟨z, rfl, hz⟩
  · rw [List.append_assoc, List.append_cancel_left_eq] at hc
    cases z with
    | nil => exact .inr (congrArg some (List.cons.inj hc).1.symm)
    | cons d z => exact .inr (congrArg some (List.cons.inj hc).1.symm)
  · rw [List.append_assoc, List.append_cancel_left_eq] at hc
    rcases List.eq_nil_or_concat' z with rfl | ⟨z, d, rfl⟩
    · obtain rfl : f :: v = y := hz
      exact .inr (congrArg some (List.cons.inj hc).1.symm)
    · -- the words agree behind the doubled symbol, so on the last one before the cut too
      rw [hz] at hc
      have hd : ((z ++ [d]) ++ [c]) ++ y = ((f :: z) ++ [d]) ++ y := by simpa using hc
      have hd := List.append_cancel_right hd
      obtain ⟨-, hd⟩ := List.append_inj' hd rfl
      obtain rfl : c = d := List.singleton_inj.mp hd
      simp

end Spine

section Firm

variable {α : Type*}

/-- Two runs side by side neither of which takes in the other. -/
def Loose : Item α → Item α → Prop
  | .run set, .run set' => ¬ set ⊆ set' ∧ ¬ set' ⊆ set
  | _, _ => True

/-- Neighbours that cannot trade a symbol: besides, no run holds the symbol beside it. -/
def Stiff : Item α → Item α → Prop
  | .sym _, .sym _ => True
  | .sym a, .run set => a ∉ set
  | .run set, .sym a => a ∉ set
  | .run set, .run set' => ¬ set ⊆ set' ∧ ¬ set' ⊆ set

/-- No run is empty, and none takes in the run beside it. -/
structure Settled (p : List (Item α)) : Prop where
  chain : p.IsChain Loose
  filled : ∀ set, .run set ∈ p → set ≠ []

structure Firm (p : List (Item α)) : Prop where
  chain : p.IsChain Stiff
  filled : ∀ set, .run set ∈ p → set ≠ []

/-- No run holds the symbol next before it or next behind it, other runs passed over. -/
def Clear (p : List (Item α)) : Prop :=
  ∀ P set Q, p = P ++ .run set :: Q → ∀ a ∈ set,
    (spine P).getLast? ≠ some a ∧ (spine Q).head? ≠ some a

/-- One item, up to the order of its set. -/
inductive Same : Item α → Item α → Prop where
  | sym (a : α) : Same (.sym a) (.sym a)
  | run {set set' : List α} : set ⊆ set' → set' ⊆ set → Same (.run set) (.run set')

variable {p q : List (Item α)} {w U : List α} {a b : α} {set set' : List α} {i : Item α}

theorem Firm.tail (h : Firm (i :: p)) : Firm p :=
  ⟨h.chain.tail, fun set hset => h.filled set (List.mem_cons_of_mem _ hset)⟩

theorem Firm.head {j : Item α} (h : Firm (i :: j :: p)) : Stiff i j :=
  (List.isChain_cons_cons.mp h.chain).1

/-- What a firm pattern can always be fed in front, its leading run holds. -/
theorem Firm.absorbs (hp : Firm p) (hU : U ≠ [])
    (h : ∀ w, Matches p w → ∃ v, U ⊆ v ∧ Matches p (v ++ w)) :
    ∃ set rest, p = .run set :: rest ∧ U ⊆ set := by
  induction p generalizing U with
  | nil =>
    obtain ⟨v, hv, hm⟩ := h [] .nil
    rw [List.append_nil, matches_nil_iff] at hm
    exact absurd (List.subset_nil.mp (hm ▸ hv)) hU
  | cons item p ih =>
    cases item with
    | sym f =>
      -- the tail can then always be fed the symbol too
      have hfed : ∀ w, Matches p w → ∃ v, f :: U ⊆ v ∧ Matches p (v ++ w) := by
        intro w hw
        obtain ⟨v, hv, hm⟩ := h (f :: w) (.sym f hw)
        cases v with
        | nil => exact absurd (List.subset_nil.mp hv) hU
        | cons c v =>
          obtain ⟨rfl, hm⟩ := matches_sym_iff.mp hm
          refine ⟨v ++ [c], ?_, by rwa [List.append_assoc]⟩
          intro x hx
          rcases List.mem_cons.mp hx with rfl | hx
          · exact List.mem_append_right _ List.mem_cons_self
          · rcases List.mem_cons.mp (hv hx) with rfl | hx
            · exact List.mem_append_right _ List.mem_cons_self
            · exact List.mem_append_left _ hx
      obtain ⟨set, rest, rfl, hset⟩ := ih hp.tail (List.cons_ne_nil _ _) hfed
      exact absurd (hset List.mem_cons_self) hp.head
    | run set =>
      by_cases hin : U ⊆ set
      · exact ⟨set, p, rfl, hin⟩
      rw [List.subset_def] at hin
      push Not at hin
      obtain ⟨d, hd, hout⟩ := hin
      -- a symbol outside the run is fed to the tail, and with it all of the run's
      have hfed : ∀ w, Matches p w → ∃ v, d :: set ⊆ v ∧ Matches p (v ++ w) := by
        intro w hw
        obtain ⟨v, hv, hm⟩ := h (set ++ w) (matches_run_append (List.Subset.refl _) (.skip set hw))
        obtain ⟨v₁, v₂, rfl⟩ := List.append_of_mem (hv hd)
        rw [List.append_assoc, List.cons_append] at hm
        obtain ⟨v', hm'⟩ := matches_run_past hout hm
        refine ⟨v' ++ d :: v₂ ++ set, List.cons_subset.mpr ⟨?_, List.subset_append_right _ _⟩, ?_⟩
        · exact List.mem_append_left _ (List.mem_append_right _ List.mem_cons_self)
        · simpa using hm'
      obtain ⟨set', rest, rfl, hset⟩ := ih hp.tail (List.cons_ne_nil _ _) hfed
      exact absurd (List.cons_subset.mp hset).2 hp.head.1

/-- Every word of the one pattern ends a word of the other. -/
def Leads (p q : List (Item α)) : Prop := ∀ w, Matches p w → ∃ v, Matches q (v ++ w)

/-- A pattern that leads to a run and back can be fed all the run's symbols. -/
theorem Leads.fed (hp : Firm p) (hset : set ≠ []) (h : Leads p (.run set :: q))
    (h' : Leads (.run set :: q) p) : ∃ set' rest, p = .run set' :: rest ∧ set ⊆ set' := by
  refine hp.absorbs hset fun w hw => ?_
  obtain ⟨v, hm⟩ := h w hw
  obtain ⟨v', hm⟩ := h' _ (matches_run_append (List.Subset.refl set) hm)
  exact ⟨v' ++ (set ++ v), fun x hx => by simp [hx], by simpa using hm⟩

theorem Leads.sym_eq (hp : Firm (.sym a :: p)) (h : Leads (.sym a :: p) (.sym b :: q))
    (h' : Leads (.sym b :: q) (.sym a :: p)) : a = b := by
  by_contra hab
  have hfed : ∀ w, Matches (.sym a :: p) w → ∃ v, [b] ⊆ v ∧ Matches (.sym a :: p) (v ++ w) := by
    intro w hw
    obtain ⟨v, hm⟩ := h w hw
    cases v with
    | nil =>
      cases w with
      | nil => exact absurd hw not_matches_sym_nil
      | cons c w => exact absurd ((matches_sym_iff.mp hw).1.symm.trans (matches_sym_iff.mp hm).1) hab
    | cons c v =>
      obtain ⟨v', hm'⟩ := h' _ hm
      obtain ⟨rfl, -⟩ := matches_sym_iff.mp hm
      exact ⟨v' ++ c :: v, by simp, by simpa using hm'⟩
  obtain ⟨set, rest, he, -⟩ := hp.absorbs (List.cons_ne_nil _ _) hfed
  cases he

theorem Leads.tail_sym (h : Leads (.sym a :: p) (.sym b :: q)) : Leads p q := by
  intro w hw
  obtain ⟨v, hm⟩ := h (a :: w) (.sym a hw)
  cases v with
  | nil => exact ⟨[], (matches_sym_iff.mp hm).2⟩
  | cons c v => exact ⟨v ++ [a], by rw [List.append_assoc]; exact (matches_sym_iff.mp hm).2⟩

/-- Behind a run that takes in the other, what stands outside it is led to. -/
theorem Leads.tail_run (hp : Firm (.run set :: p)) (hset : set' ⊆ set)
    (h : Leads (.run set :: p) (.run set' :: q)) : Leads p q := by
  have hpast : ∀ {c w}, c ∉ set → Matches p (c :: w) → ∃ v, Matches q (v ++ c :: w) := by
    intro c w hc hw
    obtain ⟨v, hm⟩ := h (c :: w) (.skip set hw)
    exact matches_run_past (fun hin => hc (hset hin)) hm
  intro w hw
  cases p with
  | nil =>
    obtain rfl := matches_nil_iff.mp hw
    exact ⟨spine q, by simpa using matches_spine q⟩
  | cons item p =>
    cases item with
    | sym f =>
      cases w with
      | nil => exact absurd hw not_matches_sym_nil
      | cons c w =>
        obtain ⟨rfl, -⟩ := matches_sym_iff.mp hw
        exact hpast hp.head hw
    | run set₁ =>
      have hout := hp.head.2
      rw [List.subset_def] at hout
      push Not at hout
      obtain ⟨c, hc, hout⟩ := hout
      obtain ⟨v, hm⟩ := hpast hout (.more hc hw)
      exact ⟨v ++ [c], by simpa using hm⟩

theorem firm_same_of_leads (hp : Firm p) (hq : Firm q) (h : Leads p q) (h' : Leads q p) :
    List.Forall₂ Same p q := by
  induction p generalizing q with
  | nil =>
    cases q with
    | nil => exact .nil
    | cons item q =>
      cases item with
      | sym b =>
        obtain ⟨v, hm⟩ := h' _ (matches_spine _)
        simp [matches_nil_iff, spine] at hm
      | run set =>
        obtain ⟨_, _, he, -⟩ := Leads.fed hp (hq.filled set List.mem_cons_self) h h'
        cases he
  | cons item p ih =>
    cases item with
    | sym a =>
      cases q with
      | nil =>
        obtain ⟨v, hm⟩ := h _ (matches_spine _)
        simp [matches_nil_iff, spine] at hm
      | cons item q =>
        cases item with
        | sym b =>
          obtain rfl := Leads.sym_eq hp h h'
          exact .cons (.sym a) (ih hp.tail hq.tail h.tail_sym h'.tail_sym)
        | run set =>
          obtain ⟨_, _, he, -⟩ := Leads.fed hp (hq.filled set List.mem_cons_self) h h'
          cases he
    | run set =>
      obtain ⟨set', q', rfl, hset⟩ := Leads.fed hq (hp.filled set List.mem_cons_self) h' h
      obtain ⟨_, _, he, hset'⟩ := Leads.fed hp (hq.filled set' List.mem_cons_self) h h'
      cases he
      exact .cons (.run hset hset')
        (ih hp.tail hq.tail (h.tail_run hp hset') (h'.tail_run hq hset))

/-- Two firm patterns for the same words are one pattern. -/
theorem firm_same (hp : Firm p) (hq : Firm q) (h : ∀ w, Matches p w ↔ Matches q w) :
    List.Forall₂ Same p q :=
  firm_same_of_leads hp hq (fun w hw => ⟨[], (h w).mp hw⟩) fun w hw => ⟨[], (h w).mpr hw⟩

/-- A clear pattern's words have firm patterns only: a symbol beside a run that holds it can be
doubled, and of the clear pattern's runs none can name the double. -/
theorem Clear.firm (hp : Clear p) (hq : Settled q) (h : ∀ w, Matches p w ↔ Matches q w) :
    Firm q := by
  have hdouble : ∀ A f B, spine q = A ++ f :: B → ¬ Matches q (A ++ f :: f :: B) := by
    intro A f B hA hm
    rw [← spine_eq h] at hA
    obtain ⟨P, set, Q, a, rfl, ha, hw⟩ := matches_spare ((h _).mpr hm) (by simp [hA]; omega)
    rw [spine_append] at hA
    rcases spare_neighbour hA hw.symm with hl | hr
    · exact (hp P set Q rfl a ha).1 hl
    · exact (hp P set Q rfl a ha).2 hr
  refine ⟨List.isChain_iff_forall_rel_of_append_cons_cons.mpr fun {i j A B} he => ?_, hq.filled⟩
  have hloose := List.isChain_iff_forall_rel_of_append_cons_cons.mp hq.chain he
  subst he
  cases i with
  | sym f =>
    cases j with
    | sym g => exact trivial
    | run set =>
      intro hf
      refine hdouble (spine A) f (spine B) (by simp [spine]) ((matches_spine A).append ?_)
      exact .sym f (.more hf (.skip set (matches_spine B)))
  | run set =>
    cases j with
    | sym f =>
      intro hf
      refine hdouble (spine A) f (spine B) (by simp [spine]) ((matches_spine A).append ?_)
      exact .more hf (.skip set (.sym f (matches_spine B)))
    | run set' => exact hloose

/-- What keeps two patterns apart unless they are one: another spine, no trade in either, or no
trade even past other runs in one. -/
def Parted (p q : List (Item α)) : Prop := spine p ≠ spine q ∨ Firm p ∧ Firm q ∨ Clear p ∨ Clear q

theorem Parted.same (hp : Settled p) (hq : Settled q) (hpart : Parted p q)
    (h : ∀ w, Matches p w ↔ Matches q w) : List.Forall₂ Same p q := by
  rcases hpart with hspine | ⟨hp, hq⟩ | hclear | hclear
  · exact absurd (spine_eq h) hspine
  · exact firm_same hp hq h
  · exact firm_same (hclear.firm hp fun _ => Iff.rfl) (hclear.firm hq h) h
  · exact firm_same (hclear.firm hp fun w => (h w).symm) (hclear.firm hq fun _ => Iff.rfl) h

end Firm

end Pattern
