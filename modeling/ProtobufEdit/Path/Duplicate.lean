import Mathlib.Data.List.Sort
import ProtobufEdit.Path
import ProtobufEdit.Pattern.Firm
import ProtobufEdit.Pattern.LockStep

/-!
# The duplicate judgment

`pathsEqual` compares spellings, and a selection can have several: a wildcard over one field
commutes with that field. Where no wildcard stands beside a field of its own set a selection has
one spelling, and admission refuses exactly the selections repeated.
-/

namespace ProtobufEdit.Path

open Wire Pattern

/-- Two paths select the same field chains. -/
def SameSelection (a b : Segments) : Prop := ∀ chain, Selects a chain ↔ Selects b chain

/-- Walked in lock step over the fields either path names, the paths come to segments of
which exactly one path's may end the chain. -/
def ToldApart (a b : Segments) : Prop := Apart (pattern a) (pattern b)

theorem toldApart_iff {a b : Segments} : ToldApart a b ↔ ¬ SameSelection a b := apart_iff_matches

/-- Two spellings no trade leads between: their fields differ, or neither has a wildcard directly
beside a field of its set, or one has none even past other wildcards. -/
def Untraded (a b : Segments) : Prop := Parted (pattern a) (pattern b)

/-! ## One spelling -/

section Spelling

variable {path a b : Segments}

theorem ascending_pairwise {d : List FieldNumber} (h : ascending d = true) : d.Pairwise (· < ·) := by
  induction d with
  | nil => exact .nil
  | cons x d ih =>
    cases d with
    | nil => exact List.pairwise_singleton _ _
    | cons y d =>
      simp only [ascending, Bool.and_eq_true, decide_eq_true_eq] at h
      have hd := ih h.2
      refine .cons (fun z hz => ?_) hd
      rcases List.mem_cons.mp hz with rfl | hz
      · exact h.1
      · exact h.1.trans (List.rel_of_pairwise_cons hd hz)

theorem descendSubset_iff {d e : List FieldNumber} : descendSubset d e = true ↔ d ⊆ e := by
  simp only [descendSubset, List.all_eq_true, List.any_eq_true, beq_iff_eq, List.subset_def]
  constructor
  · intro h x hx
    obtain ⟨y, hy, he⟩ := h x hx
    rwa [FieldNumber.ext_inner he]
  · exact fun h x hx => ⟨x, h hx, rfl⟩

/-- Every wildcard's set passed: it is not empty, and in its one order. -/
theorem judgeSegments_sets {seg : Nat} {descend : List FieldNumber}
    (h : judgeSegments seg path = .ok ()) (hin : .anyDepth descend ∈ path) :
    descend ≠ [] ∧ ascending descend = true := by
  induction path generalizing seg with
  | nil => cases hin
  | cons s path ih =>
    cases s with
    | field f =>
      rcases List.mem_cons.mp hin with he | hin
      · cases he
      · exact ih h hin
    | anyDepth d =>
      rw [judgeSegments] at h
      split_ifs at h with _ hne hsort
      rcases List.mem_cons.mp hin with he | hin
      · cases he
        exact ⟨hne, Bool.of_not_eq_false hsort⟩
      · exact ih h hin

theorem judgeAdjacent_chain {seg : Nat} (h : judgeAdjacent seg path = .ok ()) :
    (pattern path).IsChain Loose := by
  induction path generalizing seg with
  | nil => exact .nil
  | cons s path ih =>
    cases path with
    | nil => exact .singleton _
    | cons t path =>
      cases s with
      | field f =>
        rw [judgeAdjacent] at h
        exact List.isChain_cons_cons.mpr ⟨trivial, ih h⟩
        nofun
      | anyDepth d =>
        cases t with
        | field g =>
          rw [judgeAdjacent] at h
          exact List.isChain_cons_cons.mpr ⟨trivial, ih h⟩
          nofun
        | anyDepth e =>
          rw [judgeAdjacent] at h
          split_ifs at h with hsub
          simp only [Bool.or_eq_true, descendSubset_iff, not_or] at hsub
          exact List.isChain_cons_cons.mpr ⟨hsub, ih h⟩

theorem judgePath_parts (h : judgePath path = .ok ()) :
    judgeSegments 0 path = .ok () ∧ judgeAdjacent 1 path = .ok () := by
  unfold judgePath at h
  split_ifs at h
  split at h
  · cases h
  · exact ⟨‹_›, h⟩

theorem judgePath_settled (h : judgePath path = .ok ()) : Settled (pattern path) := by
  obtain ⟨hsegments, hadjacent⟩ := judgePath_parts h
  refine ⟨judgeAdjacent_chain hadjacent, fun set hset => ?_⟩
  obtain ⟨s, hs, he⟩ := List.mem_map.mp hset
  cases s with
  | field f => cases he
  | anyDepth d =>
    cases he
    exact (judgeSegments_sets hsegments hs).1

/-- Judged paths of one pattern are spelled alike: each set has one order. -/
theorem eq_of_same (ha : ∀ d, .anyDepth d ∈ a → ascending d = true)
    (hb : ∀ d, .anyDepth d ∈ b → ascending d = true)
    (h : List.Forall₂ Same (pattern a) (pattern b)) : a = b := by
  induction a generalizing b with
  | nil =>
    cases b with
    | nil => rfl
    | cons t b => cases h
  | cons s a ih =>
    cases b with
    | nil => cases h
    | cons t b =>
      obtain ⟨hst, h⟩ := List.forall₂_cons.mp h
      have hrest := ih (fun d hd => ha d (List.mem_cons_of_mem _ hd))
        (fun d hd => hb d (List.mem_cons_of_mem _ hd)) h
      cases s with
      | field f =>
        cases t with
        | field g =>
          cases hst
          rw [hrest]
        | anyDepth e => cases hst
      | anyDepth d =>
        cases t with
        | field g => cases hst
        | anyDepth e =>
          cases hst with
          | run hde hed =>
            have hd := ascending_pairwise (ha d List.mem_cons_self)
            have he := ascending_pairwise (hb e List.mem_cons_self)
            rw [hrest, hd.eq_of_mem_iff he fun {x} => ⟨(hde ·), (hed ·)⟩]

/-- Judged spellings no trade leads between select alike only as one spelling. -/
theorem eq_of_sameSelection (ha : judgePath a = .ok ()) (hb : judgePath b = .ok ())
    (hpart : Untraded a b) (h : SameSelection a b) : a = b :=
  eq_of_same (fun _ hd => (judgeSegments_sets (judgePath_parts ha).1 hd).2)
    (fun _ hd => (judgeSegments_sets (judgePath_parts hb).1 hd).2)
    (hpart.same (judgePath_settled ha) (judgePath_settled hb) h)

end Spelling

/-- Within the matcher's state domain on both axes. -/
def WithinCaps (paths : List Segments) : Prop :=
  paths.length ≤ stateMax ∧ ∀ path ∈ paths, path.length ≤ stateMax

section Judgment

variable {paths : List Segments}

theorem shapeError_ne_duplicate (breach : ShapeBreach) (index first second : Nat) :
    shapeError breach index ≠ .duplicatePath first second := by
  cases breach <;> nofun

theorem judgeShapes_ne_duplicate {index first second : Nat} :
    judgeShapes index paths ≠ .error (.duplicatePath first second) := by
  induction paths generalizing index with
  | nil =>
    intro e
    cases e
  | cons path rest ih =>
    rw [judgeShapes]
    split_ifs
    · intro e
      cases e
    · split
      · exact fun e => shapeError_ne_duplicate _ _ _ _ (Except.error.inj e)
      · exact ih

theorem judgeTwins_error {first : Nat} {e : ProgramError} (h : judgeTwins first paths = .error e) :
    ∃ i j, e = .duplicatePath i j := by
  induction paths generalizing first with
  | nil => cases h
  | cons path rest ih =>
    rw [judgeTwins] at h
    split at h
    · exact ⟨_, _, (Except.error.inj h).symm⟩
    · exact ih h

/-- Admission refuses a duplicate exactly where a spelling repeats inside the caps. -/
theorem refuses_duplicate_iff (hshape : ∀ path ∈ paths, judgePath path = .ok ()) :
    (∃ first second, judgeProgram paths = .error (.duplicatePath first second)) ↔
      WithinCaps paths ∧ ¬ paths.Nodup := by
  unfold judgeProgram
  split_ifs with hcount
  · exact ⟨nofun, fun h => absurd h.1.1 (Nat.not_le.mpr hcount)⟩
  · cases hj : judgeShapes 0 paths with
    | error e =>
      constructor
      · rintro ⟨first, second, h⟩
        exact absurd (hj.trans h) judgeShapes_ne_duplicate
      · rintro ⟨⟨-, hlen⟩, -⟩
        rw [judgeShapes_ok.mpr fun path hp => ⟨hlen path hp, hshape path hp⟩] at hj
        cases hj
    | ok u =>
      have hcaps : WithinCaps paths :=
        ⟨Nat.le_of_not_lt hcount, fun path hp => (judgeShapes_ok.mp hj path hp).1⟩
      simp only [hcaps, true_and, ← @judgeTwins_ok 0 paths]
      cases ht : judgeTwins 0 paths with
      | ok v => simp
      | error e =>
        obtain ⟨i, j, rfl⟩ := judgeTwins_error ht
        exact ⟨nofun, fun _ => ⟨i, j, rfl⟩⟩

theorem program_over_error {e : ProgramError} :
    Program.over paths = .error e ↔ judgeProgram paths = .error e := by
  unfold Program.over
  split <;> simp [*]

end Judgment

theorem pathsEqual_is_selection (a b : Segments) :
    (pathsEqual a b = true ↔ SameSelection a b) ↔ a = b ∨ ToldApart a b := by
  rw [pathsEqual_iff, toldApart_iff]
  constructor
  · intro h
    by_cases hs : SameSelection a b
    · exact .inl (h.mpr hs)
    · exact .inr hs
  · rintro (rfl | hs)
    · exact ⟨fun _ _ => Iff.rfl, fun _ => rfl⟩
    · exact ⟨fun e => e ▸ fun _ => Iff.rfl, fun h => absurd h hs⟩

theorem sameSelection_of_not_nodup {paths : List Segments} (h : ¬ paths.Nodup) :
    ∃ i j : Fin paths.length, i < j ∧ SameSelection paths[i] paths[j] := by
  simp only [List.Nodup, List.pairwise_iff_get, not_forall, not_not] at h
  obtain ⟨i, j, hij, he⟩ := h
  exact ⟨i, j, hij, fun chain => iff_of_eq (congrArg (Selects · chain) he)⟩

/-- Over spellings no trade leads between, a list repeats a selection only by repeating a
spelling. -/
theorem not_nodup_of_sameSelection {paths : List Segments}
    (hshape : ∀ path ∈ paths, judgePath path = .ok ())
    (hpair : paths.Pairwise fun a b => a = b ∨ Untraded a b)
    (h : ∃ i j : Fin paths.length, i < j ∧ SameSelection paths[i] paths[j]) : ¬ paths.Nodup := by
  obtain ⟨i, j, hij, hs⟩ := h
  intro hdup
  refine List.pairwise_iff_get.mp hdup i j hij ?_
  rcases List.pairwise_iff_get.mp hpair i j hij with he | hpart
  · exact he
  · exact eq_of_sameSelection (hshape _ (List.get_mem _ _)) (hshape _ (List.get_mem _ _)) hpart hs

theorem refuses_duplicate_border {paths : List Segments}
    (hshape : ∀ path ∈ paths, judgePath path = .ok ()) :
    ((∃ first second, Program.over paths = .error (.duplicatePath first second)) ↔
        ∃ i j : Fin paths.length, i < j ∧ SameSelection paths[i] paths[j]) ↔
      paths.Pairwise ToldApart ∨ WithinCaps paths ∧ ¬ paths.Nodup := by
  simp only [program_over_error, refuses_duplicate_iff hshape]
  have hpair : paths.Pairwise ToldApart ↔
      ¬ ∃ i j : Fin paths.length, i < j ∧ SameSelection paths[i] paths[j] := by
    simp only [List.pairwise_iff_get, toldApart_iff, not_exists, not_and]
    rfl
  rw [hpair]
  constructor
  · intro h
    by_cases hd : WithinCaps paths ∧ ¬ paths.Nodup
    · exact .inr hd
    · exact .inl fun hs => hd (h.mpr hs)
  · rintro (hnone | hd)
    · exact ⟨fun hd => sameSelection_of_not_nodup hd.2, fun hs => absurd hs hnone⟩
    · exact ⟨fun _ => sameSelection_of_not_nodup hd.2, fun _ => hd⟩

/-- The duplicate judgment is selection equality over spellings no trade leads between, repeats
being inside the caps, and `pathsEqual` is it for each such pair. Where trades lead between
spellings it is so exactly for the lists told apart pair by pair in lock step, or with a spelling
repeated inside the caps. -/
theorem duplicate_is_selection (paths : List Segments)
    (hshape : ∀ path ∈ paths, judgePath path = .ok ()) :
    ((paths.Pairwise fun a b => a = b ∨ Untraded a b) → paths.Nodup ∨ WithinCaps paths →
      ((∃ first second, Program.over paths = .error (.duplicatePath first second)) ↔
        ∃ i j : Fin paths.length, i < j ∧ SameSelection paths[i] paths[j])) ∧
    (∀ a ∈ paths, ∀ b ∈ paths, a = b ∨ Untraded a b →
      (pathsEqual a b = true ↔ SameSelection a b)) ∧
    (((∃ first second, Program.over paths = .error (.duplicatePath first second)) ↔
        ∃ i j : Fin paths.length, i < j ∧ SameSelection paths[i] paths[j]) ↔
      paths.Pairwise ToldApart ∨ WithinCaps paths ∧ ¬ paths.Nodup) ∧
    ∀ a ∈ paths, ∀ b ∈ paths, (pathsEqual a b = true ↔ SameSelection a b) ↔
      a = b ∨ ToldApart a b := by
  refine ⟨fun hpair hcaps => ?_, fun a ha b hb h => ?_, refuses_duplicate_border hshape,
    fun a _ b _ => pathsEqual_is_selection a b⟩
  · simp only [program_over_error, refuses_duplicate_iff hshape]
    refine ⟨fun h => sameSelection_of_not_nodup h.2, fun h => ?_⟩
    have hdup := not_nodup_of_sameSelection hshape hpair h
    exact ⟨hcaps.resolve_left hdup, hdup⟩
  · rw [pathsEqual_iff]
    constructor
    · rintro rfl chain
      exact Iff.rfl
    · exact fun hs => h.elim id fun hpart =>
        eq_of_sameSelection (hshape a ha) (hshape b hb) hpart hs

/-- Three admitted spellings: a field, and a wildcard before it over another field, and the field
again. -/
theorem duplicate_is_selection_repeat :
    let f1 : FieldNumber := ⟨1, by decide, by decide⟩
    let f2 : FieldNumber := ⟨2, by decide, by decide⟩
    let paths : List Segments := [[.field f1], [.anyDepth [f2], .field f1], [.field f1]]
    (∃ first second, Program.over paths = .error (.duplicatePath first second)) ↔
      ∃ i j : Fin paths.length, i < j ∧ SameSelection (paths.get i) (paths.get j) := by
  intro f1 f2 paths
  have hclear : Clear (pattern [.field f1]) := by
    intro P set Q he
    cases P with
    | nil => cases he
    | cons i P => cases P <;> cases (List.cons.inj he).2
  have hpair : paths.Pairwise fun a b => a = b ∨ Untraded a b := by
    refine .cons (List.forall_mem_cons.mpr ⟨.inr (.inr (.inr (.inl hclear))), ?_⟩) (.cons ?_
      (List.pairwise_singleton _ _))
    · exact List.forall_mem_singleton.mpr (.inl rfl)
    · exact List.forall_mem_singleton.mpr (.inr (.inr (.inr (.inr hclear))))
  exact (duplicate_is_selection paths (by decide)).1 hpair (.inr ⟨by decide, by decide⟩)

/-- A wildcard over one field before or behind that field: two spellings, both admitted, of
one selection. -/
theorem wildcard_respelled :
    let f1 : FieldNumber := ⟨1, by decide, by decide⟩
    let f2 : FieldNumber := ⟨2, by decide, by decide⟩
    let a : Segments := [.anyDepth [f1], .field f1, .field f2]
    let b : Segments := [.field f1, .anyDepth [f1], .field f2]
    judgePath a = .ok () ∧ judgePath b = .ok () ∧ pathsEqual a b = false ∧ SameSelection a b ∧
      ¬ ∃ first second, Program.over [a, b] = .error (.duplicatePath first second) := by
  intro f1 f2 a b
  refine ⟨by decide, by decide, by decide, fun chain => run_sym_comm f1, ?_⟩
  simp only [program_over_error, @refuses_duplicate_iff [a, b] (by decide), not_and,
    not_not]
  exact fun _ => by decide

end ProtobufEdit.Path
