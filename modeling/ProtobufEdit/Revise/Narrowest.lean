import ProtobufEdit.Loop.Bisect
import ProtobufEdit.Revise.Lattice
import ProtobufEdit.Revise.Paved

/-!
# Reverse lookup

The records of a run stand one behind the other in their container's payload, so at most one of
them holds a position, and a bisection over their offsets lands on it. A lookup goes down from
run to run as far as interiors were parsed.
-/

namespace ProtobufEdit.Revise

open Wire Wire.Groupless Varint Arena Loop
open Editor (InsertAt)

namespace Machine

variable {standard : Standard} {m m' : Machine standard} {t t' : Forest Unit} {pos x y p : Nat}

/-! ## The code -/

/-- `run_at`, the unchecked read of a scanned row's offset. -/
def runAt (m : Machine standard) (id : Nat) : Nat := (m.row id).body.start.getD 0

/-- The latest-starting row of a run whose offset is at or before `pos`. -/
def bisectRun (m : Machine standard) (run : Nat × Nat) (pos : Nat) : Option Nat :=
  let lo := bisect (fun mid => m.runAt mid ≤ pos) (run.2 - run.1) run.1 run.2
  if lo = run.1 then none else some (lo - 1)

/-- The loop of `narrowest`, from the best record so far and the run of its interior. -/
def narrowestFrom (m : Machine standard) (pos : Nat) :
    Nat → Option Nat → Option (Nat × Nat) → Option Nat
  | 0, best, _ => best
  | _ + 1, best, none => best
  | fuel + 1, best, some run =>
    match m.bisectRun run pos with
    | none => best
    | some id =>
      let r := (m.row id).body
      if r.stop ≤ pos then best
      else
        m.narrowestFrom pos fuel (some id) <|
          match r.slot with
          | .opened layer => layer.source
          | .unopened | .fault _ => none

def narrowest (m : Machine standard) (pos : Nat) : Option Nat :=
  m.narrowestFrom pos (m.rows.length + 1) none m.root.source

/-! ## What it looks up -/

/-- A record's span in the document. -/
def span (m : Machine standard) (x : Nat) : Option Nat × Nat :=
  ((m.row x).body.start, (m.row x).body.stop)

/-- The record's span holds the position. -/
def Covers (m : Machine standard) (x pos : Nat) : Prop :=
  ∃ start, (m.row x).body.start = some start ∧ start ≤ pos ∧ pos < (m.row x).body.stop

/-- A row's interior was scanned from the document. -/
def Unfolds (m : Machine standard) (x : Nat) : Prop :=
  ∃ layer, (m.row x).body.slot = .opened layer ∧ layer.source ≠ none

/-- The live records of the document, each in an opened chain of source interiors. -/
inductive Shown (m : Machine standard) : Nat → Prop
  | top {x : Nat} {c : Cell Row} : m.live x = .ok c → c.body.FromSource → c.parent = none → Shown m x
  | inner {x p : Nat} {c : Cell Row} : Shown m p → m.Unfolds p → m.live x = .ok c →
      c.body.FromSource → c.parent = some p → Shown m x

/-- The deepest shown record that holds the position: the others that hold it are above it. -/
structure Deepest (m : Machine standard) (pos x : Nat) : Prop where
  shown : m.Shown x
  covers : m.Covers x pos
  above : ∀ y, m.Shown y → m.Covers y pos → y = x ∨ Beneath (links m.rows) x y

/-! ## The records of a run -/

theorem metRows_getElem? (authored : Bool) (pos i : Nat) (records : List Cursor.Record) :
    (metRows standard authored pos records)[i]? = records[i]?.map fun r =>
      .met standard authored (pos + (text (records.take i)).length) r := by
  induction records generalizing pos i with
  | nil => rfl
  | cons r records ih =>
    cases i with
    | zero => rfl
    | succ i =>
      rw [metRows, List.getElem?_cons_succ, List.getElem?_cons_succ, ih]
      simp [text, Nat.add_assoc]

/-- Where a run's records begin and end. -/
theorem text_take_succ {records : List Cursor.Record} {i : Nat} {r : Cursor.Record}
    (h : records[i]? = some r) :
    (text (records.take (i + 1))).length = (text (records.take i)).length + r.bytes.length := by
  rw [List.take_add_one, h, text_append, List.length_append]
  simp [text]

theorem text_take_mono (records : List Cursor.Record) {i j : Nat} (h : i ≤ j) :
    (text (records.take i)).length ≤ (text (records.take j)).length := by
  obtain ⟨k, rfl⟩ := Nat.exists_eq_add_of_le h
  rw [List.take_add, text_append, List.length_append]
  exact Nat.le_add_right _ _

/-- Every position in the records' bytes is in one of them. -/
theorem text_at {records : List Cursor.Record} {pos : Nat} (h : pos < (text records).length) :
    ∃ (i : Nat) (r : Cursor.Record), records[i]? = some r ∧
      (text (records.take i)).length ≤ pos ∧ pos < (text (records.take (i + 1))).length := by
  have hex : ∃ k, pos < (text (records.take k)).length :=
    ⟨records.length, by rwa [List.take_length]⟩
  obtain ⟨k, hk, hmin⟩ : ∃ k, pos < (text (records.take k)).length ∧
      ∀ j < k, ¬ pos < (text (records.take j)).length :=
    ⟨Nat.find hex, Nat.find_spec hex, fun j hj => Nat.find_min hex hj⟩
  cases k with
  | zero => exact absurd hk (Nat.not_lt_zero _)
  | succ i =>
    have hle := Nat.le_of_not_lt (hmin i (Nat.lt_succ_self i))
    have hlt : i < records.length := by
      by_contra hge
      rw [List.take_of_length_le (by omega)] at hk
      rw [List.take_of_length_le (by omega)] at hle
      omega
    exact ⟨i, _, List.getElem?_eq_getElem hlt, hle, hk⟩

/-- Lawful records are told apart by their bytes. -/
theorem text_inj {a b : List Cursor.Record} (ha : ∀ r ∈ a, Cursor.Record.Lawful standard r)
    (hb : ∀ r ∈ b, Cursor.Record.Lawful standard r) (h : text a = text b) : a = b := by
  have hcons : ∀ (r : Cursor.Record) (l : List Cursor.Record),
      text (r :: l) = r.bytes ++ text l := fun r l => List.flatten_cons
  have hnil : ∀ {r : Cursor.Record} {l : List Cursor.Record}, Cursor.Record.Lawful standard r →
      text (r :: l) ≠ [] := fun {r l} hr he => by
    rw [hcons] at he
    have := hr.length_pos
    rw [(List.append_eq_nil_iff.mp he).1] at this
    exact absurd this (Nat.lt_irrefl 0)
  induction a generalizing b with
  | nil =>
    cases b with
    | nil => rfl
    | cons r b => exact absurd h.symm (hnil (hb r List.mem_cons_self))
  | cons r a ih =>
    cases b with
    | nil => exact absurd h (hnil (ha r List.mem_cons_self))
    | cons s b =>
      rw [hcons, hcons] at h
      have hr : Cursor.first standard (r.bytes ++ text a) = some (r, text a) :=
        Cursor.first_iff.mpr ⟨rfl, ha r List.mem_cons_self⟩
      have hs : Cursor.first standard (s.bytes ++ text b) = some (s, text b) :=
        Cursor.first_iff.mpr ⟨rfl, hb s List.mem_cons_self⟩
      rw [h, hs] at hr
      obtain ⟨rfl, ht⟩ := Prod.mk.inj (Option.some.inj hr)
      rw [ih (fun x hx => ha x (List.mem_cons_of_mem _ hx))
        (fun x hx => hb x (List.mem_cons_of_mem _ hx)) ht.symm]

section Run

variable {o : Option Nat} {first : Nat} {records : List Cursor.Record}

/-- A row of a run. -/
structure Stands (m : Machine standard) (t : Forest Unit) (o : Option Nat) (first : Nat)
    (records : List Cursor.Record) (i : Nat) (r : Cursor.Record) : Prop where
  live : first + i ∈ t.ids
  parent : (m.row (first + i)).parent = o
  source : (m.row (first + i)).body.FromSource
  start : (m.row (first + i)).body.start =
    some ((m.extent o).1 + (text (records.take i)).length)
  stop : (m.row (first + i)).body.stop = (m.extent o).1 + (text (records.take (i + 1))).length

theorem Run.stands (h : m.Run t o first records) {i : Nat} {r : Cursor.Record}
    (hi : records[i]? = some r) : m.Stands t o first records i r := by
  obtain ⟨hlive, hparent, hshape⟩ := h.rows i _ (by rw [metRows_getElem?, hi]; rfl)
  have hmet : (m.row (first + i)).body.shape =
      (Row.met standard false ((m.extent o).1 + (text (records.take i)).length) r).shape := hshape
  refine ⟨hlive, hparent, (Row.fromSource_shape hmet).mpr ⟨rfl, rfl, nofun⟩, Row.shape_start hmet,
    (Row.shape_stop hmet).trans ?_⟩
  rw [text_take_succ hi, ← Nat.add_assoc]
  rfl

/-- The records fill the container's payload, which is not empty. -/
theorem Run.fills (h : m.Run t o first records) :
    (m.extent o).1 + (text records).length ≤ (m.extent o).1 + (m.extent o).2 ∧
      0 < (text records).length := by
  have hlen := congrArg List.length h.read
  rw [List.length_drop, List.length_take] at hlen
  have hpos : 0 < (text records).length := by
    obtain ⟨r, l, rfl⟩ := List.exists_cons_of_ne_nil h.nonempty
    have := (h.lawful r List.mem_cons_self).length_pos
    simp only [text, List.map_cons, List.flatten_cons, List.length_append]
    omega
  omega

/-- The top-level records are the document. -/
theorem Run.document (h : m.Run t none first records) : m.source = text records := by
  have hread := h.read
  rw [show m.extent none = (0, m.source.length) from rfl, Nat.zero_add, List.take_length] at hread
  exact hread

theorem Stands.covers {i : Nat} {r : Cursor.Record} (h : m.Stands t o first records i r) :
    m.Covers (first + i) pos ↔
      (m.extent o).1 + (text (records.take i)).length ≤ pos ∧
        pos < (m.extent o).1 + (text (records.take (i + 1))).length := by
  unfold Covers
  rw [h.start, h.stop]
  constructor
  · rintro ⟨start, hs, hle, hlt⟩
    cases hs
    exact ⟨hle, hlt⟩
  · rintro ⟨hle, hlt⟩
    exact ⟨_, rfl, hle, hlt⟩

theorem Stands.runAt {i : Nat} {r : Cursor.Record} (h : m.Stands t o first records i r) :
    m.runAt (first + i) = (m.extent o).1 + (text (records.take i)).length := by
  unfold Machine.runAt
  rw [h.start]
  rfl

/-- The bisection lands on the one record of the run that can hold the position. -/
theorem Run.bisects (h : m.Run t o first records) (pos : Nat) :
    (m.bisectRun (first, first + records.length) pos = none ∧
      ∀ (i : Nat) (r : Cursor.Record), records[i]? = some r → ¬ m.Covers (first + i) pos) ∨
    ∃ (i : Nat) (r : Cursor.Record), records[i]? = some r ∧
      m.bisectRun (first, first + records.length) pos = some (first + i) ∧
      (m.extent o).1 + (text (records.take i)).length ≤ pos ∧
      ∀ (j : Nat) (s : Cursor.Record), records[j]? = some s → j ≠ i → ¬ m.Covers (first + j) pos := by
  have hat : ∀ {i : Nat}, i < records.length → m.runAt (first + i) =
      (m.extent o).1 + (text (records.take i)).length := fun hi =>
    (h.stands (List.getElem?_eq_getElem hi)).runAt
  have hdown : ∀ i j, first ≤ i → i ≤ j → j < first + records.length →
      decide (m.runAt j ≤ pos) = true → decide (m.runAt i ≤ pos) = true := by
    intro i j hi hij hj hb
    obtain ⟨i, rfl⟩ := Nat.exists_eq_add_of_le hi
    obtain ⟨j, rfl⟩ := Nat.exists_eq_add_of_le (Nat.le_trans hi hij)
    have hb' := of_decide_eq_true hb
    have hmono := text_take_mono records (show i ≤ j by omega)
    rw [hat (by omega)] at hb'
    apply decide_eq_true
    rw [hat (by omega)]
    omega
  have hsplit : Splits (fun mid => decide (m.runAt mid ≤ pos)) first (first + records.length)
      (bisect (fun mid => decide (m.runAt mid ≤ pos)) (first + records.length - first) first
        (first + records.length)) :=
    bisect_splits (Nat.le_add_right _ _) (Nat.le_refl _) hdown
  obtain ⟨lower, upper, below, above⟩ := hsplit
  unfold bisectRun
  dsimp only
  generalize bisect (fun mid => decide (m.runAt mid ≤ pos)) (first + records.length - first)
    first (first + records.length) = cut at lower upper below above
  obtain ⟨k, rfl⟩ := Nat.exists_eq_add_of_le lower
  -- a record that starts behind the position does not hold it
  have hbehind : ∀ {j : Nat} {s : Cursor.Record}, records[j]? = some s → k ≤ j →
      ¬ m.Covers (first + j) pos := by
    intro j s hj hkj hc
    have hlt := (List.getElem?_eq_some_iff.mp hj).1
    have ha := of_decide_eq_false (above (first + j) (by omega) (by omega))
    rw [hat hlt] at ha
    exact ha ((h.stands hj).covers.mp hc).1
  cases k with
  | zero =>
    rw [Nat.add_zero, if_pos rfl]
    exact .inl ⟨rfl, fun i r hi => hbehind hi (Nat.zero_le _)⟩
  | succ k =>
    rw [if_neg (by omega)]
    have hk : k < records.length := by omega
    have hb := of_decide_eq_true (below (first + k) (Nat.le_add_right _ _) (by omega))
    rw [hat hk] at hb
    refine .inr ⟨k, _, List.getElem?_eq_getElem hk, rfl, hb, fun j s hj hne hc => ?_⟩
    rcases Nat.lt_or_ge j k with hlt | hge
    · have hmono := text_take_mono records (show j + 1 ≤ k by omega)
      have hstop := ((h.stands hj).covers.mp hc).2
      omega
    · exact hbehind hj (by omega) hc

end Run

/-! ## Shown records -/

/-- A live record of the document stands in its container's run. -/
theorem Paved.stands (h : m.Paved t) (hx : x ∈ t.ids) (hf : (m.row x).body.FromSource) :
    ∃ first records i r, m.src (m.row x).parent = some (first, first + records.length) ∧
      m.Run t (m.row x).parent first records ∧ records[i]? = some r ∧ x = first + i := by
  obtain ⟨first, stop, hsrc, hle, hlt⟩ := h.backed x hx hf
  obtain ⟨records, rfl, hrun⟩ := h.runs _ first stop (fun p hp => h.rooted.parent hx hp) hsrc
  exact ⟨first, records, x - first, _, hsrc, hrun, List.getElem?_eq_getElem (by omega), by omega⟩

/-- A payload stands behind its record's start, and ends where the record does. -/
theorem lenGeometry_tail (m : Machine standard) (r : Row) (start : Nat) :
    start ≤ (m.lenGeometry r start).1 ∧
      (m.lenGeometry r start).2 = r.stop - (m.lenGeometry r start).1 := by
  unfold lenGeometry
  cases standard with
  | tolerant =>
    refine ⟨?_, rfl⟩
    dsimp only
    omega
  | canonicalMinimal =>
    refine ⟨?_, rfl⟩
    dsimp only
    omega

/-- A nested record of the document lies in its container, which is one too. -/
theorem Paved.container (h : m.Paved t) (pos : Nat) (hx : x ∈ t.ids) (hf : (m.row x).body.FromSource)
    (hp : (m.row x).parent = some p) :
    p ∈ t.ids ∧ (m.row p).body.FromSource ∧ m.Unfolds p ∧ (m.Covers x pos → m.Covers p pos) := by
  obtain ⟨first, records, i, r, hsrc, hrun, hi, rfl⟩ := h.stands hx hf
  rw [hp] at hsrc hrun
  have hfrom := hrun.container p rfl
  refine ⟨h.rooted.parent hx hp, hfrom, ?_, fun hc => ?_⟩
  · rw [src_some] at hsrc
    cases hs : (m.row p).body.slot with
    | opened layer =>
      rw [hs] at hsrc
      exact ⟨layer, hs, Option.ne_none_iff_exists'.mpr ⟨_, hsrc⟩⟩
    | unopened => rw [hs] at hsrc; cases hsrc
    | fault index => rw [hs] at hsrc; cases hsrc
  · obtain ⟨hle, hlt⟩ := (hrun.stands hi).covers.mp hc
    obtain ⟨hfill, hpos⟩ := hrun.fills
    have hall := text_take_mono records (show i + 1 ≤ records.length from
      (List.getElem?_eq_some_iff.mp hi).1)
    rw [List.take_length] at hall
    obtain ⟨start, hstart⟩ := Option.ne_none_iff_exists'.mp hfrom.2.2
    obtain ⟨hbehind, hlen⟩ := m.lenGeometry_tail (m.row p).body start
    have hextent : m.extent (some p) = m.lenGeometry (m.row p).body start := by
      show m.lenGeometry _ ((m.row p).body.start.getD 0) = _
      rw [hstart]
      rfl
    rw [← hextent] at hbehind hlen
    exact ⟨start, hstart, by omega, by omega⟩

theorem Paved.shown (h : m.Paved t) : m.Shown x ↔ x ∈ t.ids ∧ (m.row x).body.FromSource := by
  constructor
  · intro hs
    have hlive : ∀ {c : Cell Row}, m.live x = .ok c → c.body.FromSource →
        x ∈ t.ids ∧ (m.row x).body.FromSource := fun hl hf => by
      rw [m.row_eq (live_ok hl).1]
      exact ⟨h.rooted.mem hl, hf⟩
    cases hs with
    | top hl hf _ => exact hlive hl hf
    | inner _ _ hl hf _ => exact hlive hl hf
  · induction x using Nat.strongRecOn with
    | _ x ih =>
      rintro ⟨hx, hf⟩
      obtain ⟨hc, hd⟩ := h.rooted.cell hx
      have hl : m.live x = .ok (m.row x) := by
        unfold live gate
        rw [hc]
        simp only [hd]
        rfl
      cases hp : (m.row x).parent with
      | none => exact .top hl hf hp
      | some p =>
        obtain ⟨hpt, hpf, hopen, -⟩ := h.container 0 hx hf hp
        exact .inner (ih p (h.rooted.parent_lt (h.rooted.lt hx) hp) ⟨hpt, hpf⟩) hopen hl hf hp

/-! ## The lookup -/

/-- A row is a layer's, or below one of the layer's. -/
def Under (m : Machine standard) (x : Nat) : Option Nat → Prop
  | none => True
  | some p => Beneath (links m.rows) x p

/-- The row of a layer above one that holds the position holds it too. -/
theorem Paved.ancestor (h : m.Paved t) (hx : x ∈ t.ids) (hf : (m.row x).body.FromSource)
    (hc : m.Covers x pos) {o : Option Nat} (hu : m.Under x o) :
    ∃ y, (m.row y).parent = o ∧ (x = y ∨ Beneath (links m.rows) x y) ∧ y ∈ t.ids ∧
      (m.row y).body.FromSource ∧ m.Covers y pos := by
  induction x using Nat.strongRecOn with
  | _ x ih =>
    by_cases hp : (m.row x).parent = o
    · exact ⟨x, hp, .inl rfl, hx, hf, hc⟩
    · have hcell := links_of_cell (h.rooted.cell hx).1
      -- the row hangs off another one, which is under the layer
      obtain ⟨q, hq, hqu⟩ : ∃ q, (m.row x).parent = some q ∧ m.Under q o := by
        cases o with
        | none => exact ⟨_, (Option.ne_none_iff_exists'.mp hp).choose_spec, trivial⟩
        | some p =>
          obtain ⟨q, ⟨c, hc, hcp⟩, hb⟩ := Relation.TransGen.head'_iff.mp hu
          obtain rfl := Option.some.inj (hcell.symm.trans hc)
          refine ⟨q, hcp, (Relation.reflTransGen_iff_eq_or_transGen.mp hb).resolve_left ?_⟩
          rintro rfl
          exact hp hcp
      obtain ⟨hqt, hqf, -, hqc⟩ := h.container pos hx hf hq
      obtain ⟨y, hy, hb, hrest⟩ :=
        ih q (h.rooted.parent_lt (h.rooted.lt hx) hq) hqt hqf (hqc hc) hqu
      refine ⟨y, hy, .inr ?_, hrest⟩
      rcases hb with rfl | hb
      · exact .single ⟨_, hcell, hq⟩
      · exact .head ⟨_, hcell, hq⟩ hb

/-- What a lookup below some record answers. -/
structure Answers (m : Machine standard) (pos : Nat) (o r : Option Nat) : Prop where
  found : r = o ∨ ∃ x, r = some x ∧ m.Shown x ∧ m.Covers x pos ∧ m.Under x o
  deepest : ∀ y, m.Shown y → m.Covers y pos → m.Under y o →
    ∃ x, r = some x ∧ (y = x ∨ Beneath (links m.rows) x y)

/-- A layer none of whose records holds the position. -/
theorem Paved.answers_here (h : m.Paved t) {o : Option Nat}
    (hempty : ∀ y ∈ t.ids, (m.row y).body.FromSource → (m.row y).parent = o → ¬ m.Covers y pos) :
    m.Answers pos o o := by
  refine ⟨.inl rfl, fun y hy hc hu => ?_⟩
  obtain ⟨hyt, hyf⟩ := h.shown.mp hy
  obtain ⟨z, hz, -, hzt, hzf, hzc⟩ := h.ancestor hyt hyf hc hu
  exact absurd hzc (hempty z hzt hzf hz)

/-- A record of the layer that holds the position, where no other one does. -/
theorem Paved.answers_below (h : m.Paved t) {o r : Option Nat} (hx : x ∈ t.ids)
    (hf : (m.row x).body.FromSource) (hp : (m.row x).parent = o) (hc : m.Covers x pos)
    (hother : ∀ y ∈ t.ids, (m.row y).body.FromSource → (m.row y).parent = o → m.Covers y pos →
      y = x) (ha : m.Answers pos (some x) r) : m.Answers pos o r := by
  obtain ⟨hfound, hdeep⟩ := ha
  have hcell := links_of_cell (h.rooted.cell hx).1
  have hunder : ∀ {y : Nat}, y = x ∨ Beneath (links m.rows) y x → m.Under y o := fun {y} hy => by
    cases o with
    | none => exact trivial
    | some p =>
      have hxp : Hangs (links m.rows) x p := ⟨_, hcell, hp⟩
      rcases hy with rfl | hb
      · exact .single hxp
      · exact .tail hb hxp
  refine ⟨.inr ?_, fun y hy hyc hu => ?_⟩
  · rcases hfound with rfl | ⟨y, rfl, hy, hyc, hyx⟩
    · exact ⟨x, rfl, h.shown.mpr ⟨hx, hf⟩, hc, hunder (.inl rfl)⟩
    · exact ⟨y, rfl, hy, hyc, hunder (.inr hyx)⟩
  · obtain ⟨hyt, hyf⟩ := h.shown.mp hy
    obtain ⟨z, hz, hyz, hzt, hzf, hzc⟩ := h.ancestor hyt hyf hyc hu
    obtain rfl := hother z hzt hzf hz hzc
    rcases hyz with rfl | hb
    · rcases hfound with rfl | ⟨x, rfl, -, -, hxy⟩
      · exact ⟨_, rfl, .inl rfl⟩
      · exact ⟨x, rfl, .inr hxy⟩
    · exact hdeep y hy hyc hb

theorem Paved.answers (h : m.Paved t) (pos : Nat) {fuel : Nat} {o : Option Nat}
    (ho : ∀ x, o = some x → x ∈ t.ids)
    (hfuel : m.rows.length < fuel + o.elim 0 (· + 1)) :
    m.Answers pos o (m.narrowestFrom pos fuel o (m.src o)) := by
  induction fuel generalizing o with
  | zero =>
    cases o with
    | none => exact absurd hfuel (Nat.not_lt_zero _)
    | some x =>
      have hlt := h.rooted.lt (ho x rfl)
      simp only [Option.elim_some] at hfuel
      omega
  | succ fuel ih =>
    cases hsrc : m.src o with
    | none =>
      refine h.answers_here fun y hy hf hp _ => ?_
      obtain ⟨first, records, i, r, he, -⟩ := h.stands hy hf
      rw [hp, hsrc] at he
      cases he
    | some run =>
      obtain ⟨first, stop⟩ := run
      obtain ⟨records, rfl, hrun⟩ := h.runs o first stop ho hsrc
      -- the records of the layer are the run's
      have hchild : ∀ y ∈ t.ids, (m.row y).body.FromSource → (m.row y).parent = o →
          ∃ (i : Nat) (r : Cursor.Record), records[i]? = some r ∧ y = first + i := by
        intro y hy hf hp
        obtain ⟨first', records', i, r, he, -, hi, rfl⟩ := h.stands hy hf
        rw [hp, hsrc] at he
        obtain ⟨rfl, hlen⟩ := Prod.mk.inj (Option.some.inj he)
        have hlt := (List.getElem?_eq_some_iff.mp hi).1
        exact ⟨i, _, List.getElem?_eq_getElem (by omega), rfl⟩
      unfold narrowestFrom
      rcases hrun.bisects pos with ⟨hb, hcov⟩ | ⟨i, r, hi, hb, hle, hcov⟩
      · rw [hb]
        refine h.answers_here fun y hy hf hp => ?_
        obtain ⟨i, r, hi, rfl⟩ := hchild y hy hf hp
        exact hcov i r hi
      · have hstands := hrun.stands hi
        have hother : ∀ y ∈ t.ids, (m.row y).body.FromSource → (m.row y).parent = o →
            m.Covers y pos → y = first + i := by
          intro y hy hf hp hc
          obtain ⟨j, s, hj, rfl⟩ := hchild y hy hf hp
          exact congrArg (first + ·) (not_not.mp fun hne => hcov j s hj hne hc)
        rw [hb]
        dsimp only
        by_cases hstop : (m.row (first + i)).body.stop ≤ pos
        · rw [if_pos hstop]
          refine h.answers_here fun y hy hf hp hc => ?_
          obtain rfl := hother y hy hf hp hc
          obtain ⟨start, -, -, hlt⟩ := hc
          omega
        · rw [if_neg hstop]
          have hslot : (match (m.row (first + i)).body.slot with
              | .opened layer => layer.source
              | .unopened | .fault _ => none) = m.src (some (first + i)) := by
            rw [src_some]
            cases (m.row (first + i)).body.slot <;> rfl
          rw [hslot]
          refine h.answers_below hstands.live hstands.source hstands.parent
            ⟨_, hstands.start, hle, Nat.lt_of_not_le hstop⟩ hother (ih ?_ ?_)
          · rintro _ ⟨⟩
            exact hstands.live
          · simp only [Option.elim_some]
            cases o with
            | none =>
              simp only [Option.elim_none] at hfuel
              omega
            | some p =>
              have hup := h.rooted.parent_lt (h.rooted.lt hstands.live) hstands.parent
              simp only [Option.elim_some] at hfuel
              omega

theorem Paved.answers_top (h : m.Paved t) (pos : Nat) : m.Answers pos none (m.narrowest pos) :=
  h.answers pos nofun (Nat.lt_succ_self _)

/-- The lookup answers the deepest record that holds the position. -/
theorem Paved.narrowest_iff (h : m.Paved t) (pos x : Nat) :
    m.narrowest pos = some x ↔ m.Deepest pos x := by
  obtain ⟨hfound, hdeep⟩ := h.answers_top pos
  constructor
  · intro he
    rcases hfound with hn | ⟨y, hy, hs, hc, -⟩
    · rw [he] at hn
      cases hn
    · obtain rfl := Option.some.inj (he.symm.trans hy)
      refine ⟨hs, hc, fun y hy hyc => ?_⟩
      obtain ⟨z, hz, hyz⟩ := hdeep y hy hyc trivial
      obtain rfl := Option.some.inj (he.symm.trans hz)
      exact hyz
  · rintro ⟨hs, hc, habove⟩
    obtain ⟨z, hz, hxz⟩ := hdeep x hs hc trivial
    rw [hz]
    rcases hfound with hn | ⟨y, hy, hys, hyc, -⟩
    · rw [hz] at hn
      cases hn
    · obtain rfl := Option.some.inj (hz.symm.trans hy)
      rcases hxz with rfl | hb
      · rfl
      · -- neither can be below the other
        rcases habove z hys hyc with rfl | hb'
        · rfl
        · exact absurd (h.rooted.grown.lt hb) (Nat.lt_asymm (h.rooted.grown.lt hb'))

/-- The lookup answers nothing outside the top-level records, which fill the document. -/
theorem Paved.narrowest_none (h : m.Paved t) (pos : Nat) :
    (m.narrowest pos = none ↔
      ∀ x, m.Shown x → (m.row x).parent = none → ¬ m.Covers x pos) ∧
    (m.narrowest pos = none ↔ m.source.length ≤ pos) := by
  have hsome : ∀ {x : Nat}, m.Shown x → m.Covers x pos → m.narrowest pos ≠ none := fun hs hc => by
    obtain ⟨z, hz, -⟩ := (h.answers_top pos).deepest _ hs hc trivial
    rw [hz]
    nofun
  have htop : m.narrowest pos ≠ none →
      ∃ x, m.Shown x ∧ (m.row x).parent = none ∧ m.Covers x pos := fun hn => by
    obtain ⟨x, hx⟩ := Option.ne_none_iff_exists'.mp hn
    obtain ⟨hs, hc, -⟩ := (h.narrowest_iff pos x).mp hx
    obtain ⟨hxt, hxf⟩ := h.shown.mp hs
    obtain ⟨y, hy, -, hyt, hyf, hyc⟩ := h.ancestor hxt hxf hc (o := none) trivial
    exact ⟨y, h.shown.mpr ⟨hyt, hyf⟩, hy, hyc⟩
  refine ⟨⟨fun hn x hs _ hc => hsome hs hc hn, fun hempty => not_not.mp fun hn => ?_⟩,
    fun hn => Nat.le_of_not_lt fun hlt => ?_, fun hle => not_not.mp fun hn => ?_⟩
  · obtain ⟨x, hs, hp, hc⟩ := htop hn
    exact hempty x hs hp hc
  · have hne : m.source ≠ [] := fun e => by
      rw [e] at hlt
      exact absurd hlt (Nat.not_lt_zero _)
    obtain ⟨run, hsrc⟩ := Option.ne_none_iff_exists'.mp (h.top hne)
    obtain ⟨records, -, hrun⟩ := h.runs none run.1 run.2 nofun hsrc
    obtain ⟨i, r, hi, hlo, hhi⟩ := text_at (hrun.document ▸ hlt)
    have hstands := hrun.stands hi
    refine hsome (h.shown.mpr ⟨hstands.live, hstands.source⟩) (hstands.covers.mpr ?_) hn
    rw [show (m.extent none).1 = 0 from rfl, Nat.zero_add, Nat.zero_add]
    exact ⟨hlo, hhi⟩
  · obtain ⟨x, hs, hp, hc⟩ := htop hn
    obtain ⟨hxt, hxf⟩ := h.shown.mp hs
    obtain ⟨first, records, i, r, -, hrun, hi, rfl⟩ := h.stands hxt hxf
    rw [hp] at hrun
    have hlt := ((hrun.stands hi).covers.mp hc).2
    have hall := text_take_mono records (show i + 1 ≤ records.length from
      (List.getElem?_eq_some_iff.mp hi).1)
    rw [show (m.extent none).1 = 0 from rfl, Nat.zero_add] at hlt
    rw [List.take_length] at hall
    rw [hrun.document] at hle
    omega

/-! ## Insertions -/

theorem Rooted.hangs_iff (h : m.Rooted t) (hx : x ∈ t.ids) :
    Hangs (links m.rows) x p ↔ (m.row x).parent = some p := by
  have hcell := links_of_cell (h.cell hx).1
  constructor
  · rintro ⟨c, hc, hp⟩
    obtain rfl := Option.some.inj (hcell.symm.trans hc)
    exact hp
  · exact fun hp => ⟨_, hcell, hp⟩

/-- Live rows that keep their parents keep what they are beneath. -/
theorem Rooted.beneath_kept (h : m.Rooted t) (h' : m'.Rooted t')
    (hold : ∀ x ∈ t.ids, x ∈ t'.ids ∧ (m'.row x).parent = (m.row x).parent) (hx : x ∈ t.ids) :
    Beneath (links m'.rows) x y ↔ Beneath (links m.rows) x y := by
  have hhangs : ∀ {x p : Nat}, x ∈ t.ids →
      (Hangs (links m'.rows) x p ↔ Hangs (links m.rows) x p) := fun {x p} hx => by
    obtain ⟨hx', hp⟩ := hold x hx
    rw [h.hangs_iff hx, h'.hangs_iff hx', hp]
  have hup : ∀ {x p : Nat}, x ∈ t.ids → Hangs (links m.rows) x p → p ∈ t.ids := fun hx hp =>
    h.parent hx ((h.hangs_iff hx).mp hp)
  constructor
  · intro hb
    induction hb using Relation.TransGen.head_induction_on with
    | single hp => exact .single ((hhangs hx).mp hp)
    | head hp _ ih =>
      have hp' := (hhangs hx).mp hp
      exact .head hp' (ih (hup hx hp'))
  · intro hb
    induction hb using Relation.TransGen.head_induction_on with
    | single hp => exact .single ((hhangs hx).mpr hp)
    | head hp _ ih => exact .head ((hhangs hx).mpr hp) (ih (hup hx hp))

/-- Two states with the same records of the document answer alike. -/
theorem Paved.narrowest_eq (h : m.Paved t) (h' : m'.Paved t')
    (hold : ∀ x ∈ t.ids, x ∈ t'.ids ∧ (m'.row x).parent = (m.row x).parent ∧
      (m'.row x).body.shape = (m.row x).body.shape)
    (hnew : ∀ x ∈ t'.ids, x ∉ t.ids → ¬ (m'.row x).body.FromSource) (pos : Nat) :
    m'.narrowest pos = m.narrowest pos := by
  have hshown : ∀ {x : Nat}, m'.Shown x ↔ m.Shown x := fun {x} => by
    rw [h'.shown, h.shown]
    constructor
    · rintro ⟨hx, hf⟩
      have hxt : x ∈ t.ids := not_not.mp fun hn => hnew x hx hn hf
      exact ⟨hxt, (Row.fromSource_shape (hold x hxt).2.2).mp hf⟩
    · rintro ⟨hx, hf⟩
      exact ⟨(hold x hx).1, (Row.fromSource_shape (hold x hx).2.2).mpr hf⟩
  have hcovers : ∀ {x : Nat}, m.Shown x → (m'.Covers x pos ↔ m.Covers x pos) := fun {x} hs => by
    have hshape := (hold x (h.shown.mp hs).1).2.2
    unfold Covers
    rw [Row.shape_start hshape, Row.shape_stop hshape]
  have hbeneath : ∀ {x y : Nat}, m.Shown x → (Beneath (links m'.rows) x y ↔
      Beneath (links m.rows) x y) := fun hs =>
    h.rooted.beneath_kept h'.rooted (fun x hx => ⟨(hold x hx).1, (hold x hx).2.1⟩)
      (h.shown.mp hs).1
  apply Option.ext
  intro x
  rw [h'.narrowest_iff, h.narrowest_iff]
  constructor
  · rintro ⟨hs, hc, habove⟩
    have hs' := hshown.mp hs
    refine ⟨hs', (hcovers hs').mp hc, fun y hy hyc => ?_⟩
    exact (habove y (hshown.mpr hy) ((hcovers hy).mpr hyc)).imp_right (hbeneath hs').mp
  · rintro ⟨hs, hc, habove⟩
    refine ⟨hshown.mpr hs, (hcovers hs).mpr hc, fun y hy hyc => ?_⟩
    have hy' := hshown.mp hy
    exact (habove y hy' ((hcovers hy').mp hyc)).imp_right (hbeneath hs).mpr

/-- A command leaves the machine, or puts a row it gave birth to at an anchor. -/
inductive Grafts (m : Machine standard) (command : Command standard) : Machine standard → Prop
  | refl : Grafts m command m
  | born {store : Store} {anchor : InsertAt} {plan : Plan} {id : Nat} {r : Row} {edit : Edit} :
      m.resolveAnchor anchor = .ok plan → mintRow m.rows = some id →
      m.Birth command store r edit →
      Grafts m command ((m.withStore store).applyInsert plan id r edit)

section Grafts

variable {command : Command standard}

theorem insertScalar_grafts {anchor : InsertAt} {field : FieldNumber} {kind : RecordKind}
    {pushed : Option (Store × Nat)}
    (hpushed : ∀ store value, pushed = some (store, value) → Stored m.store kind store value) :
    m.Grafts command (m.insertScalar anchor field kind pushed).1 := by
  unfold insertScalar
  cases ha : m.resolveAnchor anchor with
  | error fault => exact .refl
  | ok plan =>
    cases hid : mintRow m.rows with
    | none => exact .refl
    | some id =>
      cases hp : pushed with
      | none => exact .refl
      | some p => exact .born ha hid (.stored (hpushed _ _ hp))

theorem insertPayload_grafts (anchor : InsertAt) (field : FieldNumber) (payload : List UInt8) :
    m.Grafts command (m.insertPayload anchor field payload).1 := by
  unfold insertPayload
  cases ha : m.resolveAnchor anchor with
  | error fault => exact .refl
  | ok plan =>
    cases hid : mintRow m.rows with
    | none => exact .refl
    | some id =>
      simp only
      split
      · exact .refl
      · next hlen =>
        cases hp : m.store.pushBytes payload with
        | none => exact .refl
        | some p => exact .born ha hid (.stored (stored_len (by omega) hp))

/-- A frame's finish at an insertion's door. -/
theorem finish_grafts {plan : Plan} {field : FieldNumber} {declared : Option Nat} {store : Store}
    {payload : List UInt8} (hop : m.Opens (.insert plan field))
    (hd : declared.getD PayloadLen.max ≤ PayloadLen.max)
    (hs : Staged m.store declared store payload) :
    m.Grafts command ((m.withStore store).finish (.insert plan field) m.store.stageMark declared).1 := by
  obtain ⟨anchor, ha⟩ := hop
  have hmint : mintRow (m.withStore store).rows = mintRow m.rows := rfl
  have hfinish : (m.withStore store).store.stageFinish m.store.stageMark =
      store.stageFinish m.store.stageMark := rfl
  unfold finish
  extract_lets staged
  split
  · rw [dropped hs]
    exact .refl
  · unfold publish
    simp only [hmint, hfinish]
    cases hid : mintRow m.rows with
    | none =>
      show m.Grafts command ((m.withStore store).abandon m.store.stageMark)
      rw [dropped hs]
      exact .refl
    | some id =>
      simp only
      cases hf : store.stageFinish m.store.stageMark with
      | none =>
        show m.Grafts command ((m.withStore store).abandon m.store.stageMark)
        rw [dropped hs]
        exact .refl
      | some p =>
        refine .born ha hid (.stored (?_ : Stored _ .len _ _))
        obtain ⟨hstore, hvalue⟩ := hs.finish hf
        rw [hstore, hvalue]
        exact .len payload (hs.2.trans hd)

theorem frame_grafts {anchor : InsertAt} {field : FieldNumber} {declared : Option Nat}
    {chunks : List (List UInt8)} {finished : Bool} :
    m.Grafts command (m.frame (.insert anchor field) declared chunks finished).1 := by
  unfold frame
  cases hb : m.beginFrame (.insert anchor field) declared with
  | error fault => exact .refl
  | ok op =>
    obtain ⟨ha, hd⟩ := beginFrame_ok hb
    obtain ⟨plan, hop, rfl⟩ : ∃ plan, m.Opens op ∧ op = .insert plan field := by
      obtain ⟨hop, ⟨id, w, he, -⟩ | ⟨anchor', plan, field', he, rfl⟩⟩ := admitDoor_ok ha
      · cases he
      · cases he
        exact ⟨plan, hop, rfl⟩
    obtain ⟨payload, hs⟩ := staged_writes chunks
      (⟨by simp, Nat.zero_le _⟩ : Staged m.store declared m.store [])
    simp only
    cases finished with
    | false =>
      rw [if_neg Bool.false_ne_true, dropped hs]
      exact .refl
    | true =>
      rw [if_pos rfl]
      have hg := @finish_grafts _ m command _ _ _ _ _ hop hd hs
      revert hg
      generalize (m.withStore (Machine.writes m.store.stageMark declared m.store chunks).1).finish
        (.insert plan field) m.store.stageMark declared = r
      intro hg
      obtain ⟨m', x⟩ := r
      cases x <;> exact hg

theorem copyRecord_grafts {src : Nat} {anchor : InsertAt} :
    m.Grafts (.copyRecord src anchor) (m.copyRecord src anchor).1 := by
  unfold copyRecord
  cases hs : m.transferSource src with
  | error fault => exact .refl
  | ok s =>
    cases hl : m.landing anchor with
    | error fault => exact .refl
    | ok p =>
      obtain ⟨ha, hid⟩ := landing_ok hl
      exact .born ha hid (.copied rfl hs)

theorem copyRecordFrom_grafts {source : RecordRef standard} {anchor : InsertAt} :
    m.Grafts (.copyRecordFrom source anchor) (m.copyRecordFrom source anchor).1 := by
  unfold copyRecordFrom
  cases hl : m.landing anchor with
  | error fault => exact .refl
  | ok p =>
    obtain ⟨ha, hid⟩ := landing_ok hl
    cases hp : m.store.pushBytes source.record.bytes with
    | none => exact .refl
    | some p => exact .born ha hid (.imported rfl hp)

theorem copyPayload_grafts {src : Nat} {anchor : InsertAt} {field : FieldNumber} :
    m.Grafts (.copyPayload src (.insert anchor field))
      (m.copyPayload src (.insert anchor field)).1 := by
  unfold copyPayload
  cases hs : m.transferSource src with
  | error fault => exact .refl
  | ok s =>
    simp only
    split
    · exact .refl
    · next hkind =>
      cases hl : m.landing anchor with
      | error fault => exact .refl
      | ok p =>
        obtain ⟨ha, hid⟩ := landing_ok hl
        exact .born ha hid (.designated rfl hs (not_not.mp hkind))

end Grafts

end Machine

/-- The command puts a new record somewhere. -/
def Command.inserts {standard : Standard} : Command standard → Bool
  | insertVarint .. | insertI32 .. | insertI64 .. | insertPayload .. | frame (.insert ..) ..
  | copyRecord .. | copyPayload _ (.insert ..) | copyRecordFrom .. => true
  | _ => false

namespace Machine

variable {standard : Standard} {m m' : Machine standard} {t t' : Forest Unit} {pos id x : Nat}

theorem perform_grafts {command : Command standard} (h : command.inserts = true) :
    m.Grafts command (m.perform command).1 := by
  cases command with
  | insertVarint anchor field word => exact insertScalar_grafts fun _ _ => stored_varint
  | insertI32 anchor field bits => exact insertScalar_grafts fun _ _ => stored_i32
  | insertI64 anchor field bits => exact insertScalar_grafts fun _ _ => stored_i64
  | insertPayload anchor field payload => exact insertPayload_grafts anchor field payload
  | frame door declared chunks finished =>
    cases door with
    | set handle => cases h
    | insert anchor field => exact frame_grafts
  | copyRecord src anchor => exact copyRecord_grafts
  | copyPayload src target =>
    cases target with
    | replace handle => cases h
    | insert anchor field => exact copyPayload_grafts
  | copyRecordFrom source anchor => exact copyRecordFrom_grafts
  | descend | setVarint | setI32 | setI64 | setPayload | delete | undelete | clearEdit
  | moveRecord | movePayload | revert => cases h

/-- An insertion leaves every answer. -/
theorem Paved.inserted (h : m.Paved t) {command : Command standard} (hi : command.inserts = true)
    (pos : Nat) : (m.perform command).1.narrowest pos = m.narrowest pos := by
  have hg := perform_grafts (m := m) hi
  revert hg
  generalize (m.perform command).1 = m'
  intro hg
  cases hg with
  | refl => rfl
  | @born store anchor plan id r edit ha hid hb =>
    have hp := h.rooted.anchored ha
    have hs : (m.withStore store).Paved t := h.of_rows rfl rfl rfl rfl
    have hplan : (m.withStore store).Anchored t plan := ⟨hp.parent, hp.prev⟩
    rw [mintRow_eq hid]
    have hpaved : ((m.withStore store).applyInsert plan m.rows.length r edit).Paved
        (spliced t plan m.rows.length) := hs.insert hplan hb.blank.1 hb.blank.2 edit
    have hmem : ∀ {x : Nat}, x ∈ (spliced t plan m.rows.length).ids ↔
        x = m.rows.length ∨ x ∈ t.ids := fun {x} =>
      (spliced_ids hplan _).mem_iff.trans List.mem_cons
    have hlen : m.shapes.length = m.rows.length := by
      unfold shapes
      rw [List.length_map, cores_length]
    have hshapes : ((m.withStore store).applyInsert plan m.rows.length r edit).shapes =
        m.shapes ++ [(plan.parent, r.shape)] := by
      unfold applyInsert
      rw [shapes_modify (writeState_cores _ _ _), shapes_same (logPush_cores _ _ _)]
      unfold shapes
      rw [splice_cores, List.map_append]
      rfl
    refine h.narrowest_eq hpaved (fun x hx => ⟨hmem.mpr (.inr hx), ?_⟩) (fun x hx hn => ?_) pos
    · have hlt := h.rooted.lt hx
      exact row_shape hlt (by rw [hshapes, List.getElem?_append_left (by omega)])
    · obtain rfl := (hmem.mp hx).resolve_right hn
      have hc := List.getElem?_eq_getElem (hpaved.rooted.lt hx)
      have hshape := shapes_getElem?
        (m := (m.withStore store).applyInsert plan m.rows.length r edit) m.rows.length
      rw [hshapes, List.getElem?_append_right (by omega), hlen, Nat.sub_self] at hshape
      have hrow : (((m.withStore store).applyInsert plan m.rows.length r edit).row
          m.rows.length).body.shape = r.shape := by
        have hc' : ((m.withStore store).applyInsert plan m.rows.length r edit).rows[
          m.rows.length]? = some _ := hc
        rw [hc'] at hshape
        rw [row_eq _ hc']
        exact (congrArg Prod.snd (Option.some.inj hshape)).symm
      exact fun hf => hb.blank.2 ((Row.fromSource_shape hrow).mp hf)

/-! ## Two states of one document -/

/-- The records that both states show have their interiors open in both, or in neither. -/
def OpenedAlike (m m' : Machine standard) : Prop :=
  ∀ x x', m.Shown x → m'.Shown x' → m.span x = m'.span x' → (m.Unfolds x ↔ m'.Unfolds x')

theorem span_shape {x' : Nat} (h : (m'.row x').body.shape = (m.row x).body.shape) :
    m'.span x' = m.span x := by
  unfold span
  rw [Row.shape_start h, Row.shape_stop h]

/-- The interiors of one record hold the same records in both states. -/
theorem Paved.twin_child (h : m.Paved t) (h' : m'.Paved t') (hs : m'.source = m.source)
    {o o' : Option Nat} (hextent : m'.extent o' = m.extent o)
    (ho' : ∀ x, o' = some x → x ∈ t'.ids) (hopen : m'.src o' ≠ none) (hx : x ∈ t.ids)
    (hf : (m.row x).body.FromSource) (hp : (m.row x).parent = o) :
    ∃ x', m'.Shown x' ∧ (m'.row x').body.shape = (m.row x).body.shape := by
  obtain ⟨first, records, i, r, -, hrun, hi, rfl⟩ := h.stands hx hf
  rw [hp] at hrun
  obtain ⟨run, hsrc⟩ := Option.ne_none_iff_exists'.mp hopen
  obtain ⟨records', -, hrun'⟩ := h'.runs o' run.1 run.2 ho' hsrc
  have htext : text records' = text records := by
    rw [← hrun'.read, ← hrun.read, hs, hextent]
  obtain rfl := text_inj hrun'.lawful hrun.lawful htext
  have hstands := hrun'.stands hi
  have hmet : (metRows standard false (m.extent o).1 records')[i]? =
      some (.met standard false ((m.extent o).1 + (text (records'.take i)).length) r) := by
    rw [metRows_getElem?, hi]
    rfl
  obtain ⟨-, -, hshape⟩ := hrun.rows i _ hmet
  obtain ⟨-, -, hshape'⟩ := hrun'.rows i _ (by rw [hextent]; exact hmet)
  exact ⟨_, h'.shown.mpr ⟨hstands.live, hstands.source⟩, hshape'.trans hshape.symm⟩

/-- A record that one state shows, the other shows too. -/
theorem Paved.twin (h : m.Paved t) (h' : m'.Paved t') (hs : m'.source = m.source)
    (halike : m.OpenedAlike m') (hx : m.Shown x) :
    ∃ x', m'.Shown x' ∧ (m'.row x').body.shape = (m.row x).body.shape := by
  induction hx with
  | @top x c hl hf hp =>
    obtain ⟨hxt, hxf⟩ := h.shown.mp (.top hl hf hp)
    have hrow := m.row_eq (live_ok hl).1
    rw [← hrow] at hp
    have hopen : m'.src none ≠ none := h'.top fun e => by
      rw [hs] at e
      obtain ⟨first, records, i, r, -, hrun, -⟩ := h.stands hxt hxf
      rw [hp] at hrun
      have hpos := hrun.fills.2
      rw [← hrun.document, e] at hpos
      exact absurd hpos (Nat.lt_irrefl 0)
    have hextent : m'.extent none = m.extent none :=
      congrArg (fun s : List UInt8 => (0, s.length)) hs
    exact h.twin_child h' hs hextent nofun hopen hxt hxf hp
  | @inner x p c hsp hopen hl hf hp ih =>
    obtain ⟨p', hp', hshape⟩ := ih
    obtain ⟨hxt, hxf⟩ := h.shown.mp (.inner hsp hopen hl hf hp)
    have hrow := m.row_eq (live_ok hl).1
    rw [← hrow] at hp
    obtain ⟨layer, hslot, hsource⟩ := (halike p p' hsp hp' (span_shape hshape).symm).mp hopen
    have hsrc : m'.src (some p') ≠ none := by
      rw [src_some, hslot]
      exact hsource
    have hextent : m'.extent (some p') = m.extent (some p) := by
      show m'.lenGeometry _ ((m'.row p').body.start.getD 0) = _
      rw [Row.shape_start hshape]
      exact lenGeometry_shape hs hshape (h.shown.mp hsp).2 _
    exact h.twin_child h' hs hextent (by rintro _ ⟨⟩; exact (h'.shown.mp hp').1) hsrc hxt hxf hp

/-- A record's span is in that of every record above it. -/
theorem Paved.nested (h : m.Paved t) {y : Nat} (hx : m.Shown x) (hb : Beneath (links m.rows) x y)
    (hc : m.Covers x pos) : m.Covers y pos := by
  obtain ⟨hxt, hxf⟩ := h.shown.mp hx
  induction hb using Relation.TransGen.head_induction_on with
  | single hp => exact (h.container pos hxt hxf ((h.rooted.hangs_iff hxt).mp hp)).2.2.2 hc
  | head hp _ ih =>
    obtain ⟨hqt, hqf, -, hqc⟩ := h.container pos hxt hxf ((h.rooted.hangs_iff hxt).mp hp)
    exact ih (h.shown.mpr ⟨hqt, hqf⟩) (hqc hc) hqt hqf

/-- A span is told by the positions it holds. -/
theorem span_covers {x' : Nat} (hx : m.Covers x pos) (hx' : m'.Covers x' pos)
    (h : ∀ pos, m.Covers x pos ↔ m'.Covers x' pos) : m'.span x' = m.span x := by
  obtain ⟨a, ha, hle, hlt⟩ := hx
  obtain ⟨b, hb, hle', hlt'⟩ := hx'
  have hcov : ∀ k, m.Covers x k ↔ a ≤ k ∧ k < (m.row x).body.stop := fun k => by
    unfold Covers
    simp only [ha, Option.some.injEq, exists_eq_left']
  have hcov' : ∀ k, m'.Covers x' k ↔ b ≤ k ∧ k < (m'.row x').body.stop := fun k => by
    unfold Covers
    simp only [hb, Option.some.injEq, exists_eq_left']
  simp only [hcov, hcov'] at h
  have hfirst := h a
  have hfirst' := h b
  have hlast := h ((m.row x).body.stop - 1)
  have hlast' := h ((m'.row x').body.stop - 1)
  have hstart : b = a := by omega
  have hstop : (m'.row x').body.stop = (m.row x).body.stop := by omega
  unfold span
  rw [ha, hb, hstart, hstop]

/-- Where the interiors open alike, the answers have the same span. -/
theorem Paved.narrowest_alike (h : m.Paved t) (h' : m'.Paved t') (hs : m'.source = m.source)
    (halike : m.OpenedAlike m') (pos : Nat) :
    (m'.narrowest pos).map m'.span = (m.narrowest pos).map m.span := by
  have hback : m'.OpenedAlike m := fun x' x hx' hx he => (halike x x' hx hx' he.symm).symm
  have hcovers : ∀ {x x' pos : Nat}, (m'.row x').body.shape = (m.row x).body.shape →
      (m'.Covers x' pos ↔ m.Covers x pos) := fun he => by
    unfold Covers
    rw [Row.shape_start he, Row.shape_stop he]
  cases hn : m.narrowest pos with
  | none =>
    have hle := (h.narrowest_none pos).2.mp hn
    rw [(h'.narrowest_none pos).2.mpr (hs ▸ hle)]
    rfl
  | some x =>
    have hdeep := (h.narrowest_iff pos x).mp hn
    obtain ⟨y, hy⟩ := Option.ne_none_iff_exists'.mp fun hnone => by
      have hle := (h'.narrowest_none pos).2.mp hnone
      rw [hs] at hle
      rw [(h.narrowest_none pos).2.mpr hle] at hn
      cases hn
    have hdeep' := (h'.narrowest_iff pos y).mp hy
    -- each answer has a twin in the other state, which is the other answer or above it
    obtain ⟨x', hx', hxs⟩ := h.twin h' hs halike hdeep.shown
    obtain ⟨y', hy', hys⟩ := h'.twin h hs.symm hback hdeep'.shown
    have hyx := hdeep.above y' hy' ((hcovers hys.symm).mp hdeep'.covers)
    have hxy := hdeep'.above x' hx' ((hcovers hxs).mpr hdeep.covers)
    rw [hy]
    refine congrArg some ?_
    rcases hyx with rfl | hyx
    · exact (span_shape hys).symm
    · rcases hxy with rfl | hxy
      · exact span_shape hxs
      · refine span_covers hdeep.covers hdeep'.covers fun pos => ⟨fun hc => ?_, fun hc => ?_⟩
        · exact (hcovers hys.symm).mpr (h.nested hdeep.shown hyx hc)
        · exact (hcovers hxs).mp (h'.nested hdeep'.shown hxy hc)

/-! ## Every reachable state -/

section Source

theorem writeState_source (edit : Edit) : (m.writeState id edit).source = m.source := by
  have hb := congrArg Machine.source (m.writeState_bare id edit)
  refine hb.trans ?_
  rw [turned_eq]
  split <;> rfl

theorem logPush_source (past : Edit) : (m.logPush id past).source = m.source := by
  have hb := congrArg Machine.source (m.logPush_bare id past)
  exact hb

theorem applyMove_source (source dest : Nat) : (m.applyMove source dest).source = m.source := by
  unfold applyMove
  extract_lets moved
  have hb := congrArg Machine.source
    (((m.logPush source (.moved dest)).setEdit source (.moved dest)).raise_bare .dirt source)
  exact (writeState_source _).trans (hb.trans (logPush_source _))

theorem revert_source : m.revert.1.source = m.source := by
  unfold revert
  cases m.log with
  | nil => rfl
  | cons step log =>
    have hpop : (m.logPop step log).source = m.source := by
      have hb := congrArg Machine.source (m.logPop_bare step log)
      exact hb
    simp only
    split
    · unfold revertMove
      extract_lets restored
      have hb := congrArg Machine.source
        (((m.logPop step log).setEdit step.row .intact).lower_bare .dirt step.row)
      exact (writeState_source _).trans (hb.trans hpop)
    · exact (writeState_source _).trans hpop

theorem effect_source {command : Command standard} (h : m.Effect command m') :
    m'.source = m.source := by
  cases h with
  | refl => rfl
  | edited _ => exact (writeState_source _).trans (logPush_source _)
  | born _ _ _ =>
    exact (writeState_source _).trans ((logPush_source _).trans (splice_source _))
  | moved _ _ _ _ _ _ => exact (applyMove_source _ _).trans (splice_source _)
  | @entered id c _ _ _ =>
    rcases enter_minted (m := m) id c.body with he | ⟨faults, index, he⟩ |
      ⟨w, records, layers, runs, -, -, -, he⟩
    · rw [he]
    · rw [he]
      rfl
    · rw [he]
      rfl
  | reverted => exact revert_source

theorem source_run (m : Machine standard) (commands : List (Command standard)) :
    (m.performAll commands).source = m.source := by
  induction commands generalizing m with
  | nil => rfl
  | cons command commands ih => exact (ih _).trans (effect_source (perform_effect m command))

end Source

/-- What a lookup in one state answers, for every position. -/
structure LooksUp (m : Machine standard) (pos : Nat) : Prop where
  /-- The deepest record that holds the position. -/
  found : ∀ x, m.narrowest pos = some x ↔ m.Deepest pos x
  /-- It is live, and was scanned from the document: it is no copy, insertion or payload row. -/
  backed : ∀ x, m.narrowest pos = some x → ∃ c, m.live x = .ok c ∧ c.body.start ≠ none ∧
    c.body.isAlias = false ∧ c.body.authoredZone = false
  outside : m.narrowest pos = none ↔
    ∀ x, m.Shown x → (m.row x).parent = none → ¬ m.Covers x pos
  beyond : m.narrowest pos = none ↔ m.source.length ≤ pos
  inserted : ∀ command : Command standard, command.inserts = true →
    (m.perform command).1.narrowest pos = m.narrowest pos

theorem Paved.looksUp (h : m.Paved t) (pos : Nat) : m.LooksUp pos := by
  refine ⟨h.narrowest_iff pos, fun x hx => ?_, (h.narrowest_none pos).1, (h.narrowest_none pos).2,
    fun command hi => h.inserted hi pos⟩
  cases ((h.narrowest_iff pos x).mp hx).shown with
  | top hl hf _ => exact ⟨_, hl, hf.2.2, hf.2.1, hf.1⟩
  | inner _ _ hl hf _ => exact ⟨_, hl, hf.2.2, hf.2.1, hf.1⟩

/-- In every reachable state the lookup is exact, and two states whose interiors are open alike
answer records with the same span. -/
theorem narrowest_exact {cap : Nat} {source : List UInt8}
    (h : openSource standard cap source = .ok m) (commands : List (Command standard)) (pos : Nat) :
    (m.performAll commands).LooksUp pos ∧
      ∀ commands' : List (Command standard),
        (m.performAll commands).OpenedAlike (m.performAll commands') →
          ((m.performAll commands').narrowest pos).map (m.performAll commands').span =
            ((m.performAll commands).narrowest pos).map (m.performAll commands).span := by
  obtain ⟨t, ht⟩ := paved_run (paved_open h) commands
  refine ⟨ht.looksUp pos, fun commands' halike => ?_⟩
  obtain ⟨t', ht'⟩ := paved_run (paved_open h) commands'
  exact ht.narrowest_alike ht' (by rw [source_run, source_run]) halike pos

/-- A container's interior parsed, and parsed again behind a replacement and its undoing. -/
def descended : List (Command .tolerant) := [.descend 0]

def redescended : List (Command .tolerant) :=
  [.descend 0, .setPayload 0 [], .revert, .descend 0]

theorem narrowest_exact_redescended :
    ∃ m : Machine .tolerant,
      openSource .tolerant PayloadLen.max [0x0A, 0x02, 0x10, 0x01] = .ok m ∧
      (m.performAll descended).LooksUp 3 ∧
      ((m.performAll redescended).narrowest 3).map (m.performAll redescended).span =
        ((m.performAll descended).narrowest 3).map (m.performAll descended).span ∧
      (m.performAll descended).narrowest 3 = some 1 ∧
      (m.performAll redescended).narrowest 3 = some 2 := by
  obtain ⟨m, hm⟩ : ∃ m : Machine .tolerant,
      openSource .tolerant PayloadLen.max [0x0A, 0x02, 0x10, 0x01] = .ok m := ⟨_, rfl⟩
  obtain ⟨hlook, halike⟩ := narrowest_exact hm descended 3
  refine ⟨m, hm, hlook, halike redescended fun x x' hx hx' he => ?_, ?_⟩
  · have hlive : ∀ {k : Nat} {y : Nat} {m' : Machine .tolerant}, m'.Shown y → m'.rows.length = k →
        y < k := by
      intro k y m' hy hk
      cases hy with
      | top hl => exact hk ▸ (List.getElem?_eq_some_iff.mp (live_ok hl).1).1
      | inner _ _ hl => exact hk ▸ (List.getElem?_eq_some_iff.mp (live_ok hl).1).1
    cases hm
    have hlt := hlive hx (k := 2) rfl
    have hlt' := hlive hx' (k := 3) rfl
    match x, x', hlt, hlt' with
    | 0, 0, _, _ => exact ⟨fun _ => ⟨_, rfl, nofun⟩, fun _ => ⟨_, rfl, nofun⟩⟩
    | 0, 1, _, _ => cases he
    | 0, 2, _, _ => cases he
    | 1, 0, _, _ => cases he
    | 1, 1, _, _ => exact ⟨(fun ⟨_, h, _⟩ => nomatch h), (fun ⟨_, h, _⟩ => nomatch h)⟩
    | 1, 2, _, _ => exact ⟨(fun ⟨_, h, _⟩ => nomatch h), (fun ⟨_, h, _⟩ => nomatch h)⟩
  · cases hm
    exact ⟨rfl, rfl⟩

end Machine

end ProtobufEdit.Revise
