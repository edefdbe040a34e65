import Mathlib.Logic.Relation
import ProtobufEdit.Inspect.Groupless.Run

/-!
# The table's geometry, and the lookup

The rows' spans nest or are disjoint as their subtrees do, so the rows that hold a position are
the last one that starts there and the rows above it.
-/

namespace ProtobufEdit.Inspect.Groupless

open Wire Wire.Groupless Varint Loop

/-! ## Layers stand in their zones -/

/-- The records stand one behind the other from `lo` on, their payloads' records inside. -/
def Nodes.Fits : Nat → Nat → Nodes → Prop
  | lo, hi, nil => lo ≤ hi
  | lo, hi, node r kids rest =>
    r.start = lo ∧ lo < r.payloadStart ∧ r.stop ≤ hi ∧ kids.Fits r.payloadStart r.stop ∧
      rest.Fits r.stop hi

theorem layer_fits {j : Job} {fuel start zone : Nat} {path : List FieldNumber}
    (hle : start ≤ zone) (hz : zone ≤ j.input.bytes.length) :
    (layer j fuel path start zone).nodes.Fits start zone := by
  induction fuel generalizing start zone path with
  | zero => exact hle
  | succ fuel ih =>
    unfold layer
    split
    · exact hle
    cases hj : judge j.standard j.input.bytes zone start with
    | error failure => exact hle
    | ok r =>
      obtain ⟨hstart, hpay, hstop, -⟩ := judge_within hz hj
      have hlen : r.payloadStart ≤ r.stop := Nat.le_add_right _ _
      have hrest : (layer j fuel path r.stop zone).nodes.Fits r.stop zone := ih hstop hz
      have hinner : (layer j fuel (path ++ [r.field]) r.payloadStart r.stop).nodes.Fits
          r.payloadStart r.stop := ih hlen (Nat.le_trans hstop hz)
      have hleaf : ((layer j fuel path r.stop zone).behind r .nil).nodes.Fits start zone :=
        ⟨hstart, hpay, hstop, hlen, hrest⟩
      have hopened : ((layer j fuel path r.stop zone).behind r
          (layer j fuel (path ++ [r.field]) r.payloadStart r.stop).nodes).nodes.Fits start zone :=
        ⟨hstart, hpay, hstop, hinner, hrest⟩
      simp only
      split
      · exact hleaf
      · cases j.advise path r.field with
        | opaqueBytes => exact hleaf
        | speculate =>
          simp only
          split
          · exact hleaf
          · exact hopened
        | commit =>
          simp only
          split
          · exact hle
          · split
            · exact hopened
            · exact ⟨hstart, hpay, hstop, hinner, hstop⟩

/-! ## Rows by their place -/

section Rows

variable {nodes kids rest : Nodes} {r : Met} {parent : Option Nat} {base lo hi i k : Nat}
  {a b : Row}

theorem Met.row_stop : (r.row parent k).stop = r.stop := by
  show r.start + (r.tagWidth + r.delimWidth.getD 0 + r.payloadLen) = _
  unfold Met.stop Met.payloadStart
  omega

/-- A row is the first record's, one of its subtree, or one of the later records'. -/
theorem rows_cases (h : ((Nodes.node r kids rest).rows parent base)[k]? = some a) :
    (k = 0 ∧ a = r.row parent kids.size) ∨
    (∃ n, k = 1 + n ∧ n < kids.size ∧ (kids.rows (some base) (base + 1))[n]? = some a) ∨
    ∃ n, k = 1 + kids.size + n ∧ (rest.rows parent (base + 1 + kids.size))[n]? = some a := by
  rw [Nodes.rows] at h
  cases k with
  | zero => exact .inl ⟨rfl, (Option.some.inj h).symm⟩
  | succ n =>
    rw [List.getElem?_cons_succ, List.getElem?_append, Nodes.rows_length] at h
    split at h
    · next hn => exact .inr (.inl ⟨n, Nat.add_comm n 1, hn, h⟩)
    · next hn => exact .inr (.inr ⟨n - kids.size, by omega, h⟩)

theorem rows_kids {n : Nat} (hn : n < kids.size) :
    ((Nodes.node r kids rest).rows parent base)[1 + n]? =
      (kids.rows (some base) (base + 1))[n]? := by
  rw [Nodes.rows, Nat.add_comm 1 n, List.getElem?_cons_succ, List.getElem?_append,
    Nodes.rows_length, if_pos hn]

theorem rows_rest (n : Nat) :
    ((Nodes.node r kids rest).rows parent base)[1 + kids.size + n]? =
      (rest.rows parent (base + 1 + kids.size))[n]? := by
  rw [Nodes.rows, show 1 + kids.size + n = kids.size + n + 1 by omega, List.getElem?_cons_succ,
    List.getElem?_append, Nodes.rows_length, if_neg (by omega), Nat.add_sub_cancel_left]

theorem lt_size (h : (nodes.rows parent base)[k]? = some a) : k < nodes.size := by
  have hlt := (List.getElem?_eq_some_iff.mp h).1
  rwa [Nodes.rows_length] at hlt

/-- A row's subtree ends inside the layer, and its span inside the zone. -/
theorem rows_inside (hf : nodes.Fits lo hi) (h : (nodes.rows parent base)[k]? = some a) :
    k + a.descendants < nodes.size ∧ lo ≤ a.start ∧ a.start < a.stop ∧ a.stop ≤ hi := by
  induction nodes generalizing parent base lo hi k with
  | nil => cases h
  | node r kids rest ihk ihr =>
    obtain ⟨hstart, hpay, hstop, hk, hr⟩ := hf
    have hpos : r.payloadStart ≤ r.stop := Nat.le_add_right _ _
    rw [Nodes.size]
    rcases rows_cases h with ⟨rfl, rfl⟩ | ⟨n, rfl, -, h'⟩ | ⟨n, rfl, h'⟩
    · rw [Met.row_stop]
      have hs : (r.row parent kids.size).start = lo := hstart
      have hd : (r.row parent kids.size).descendants = kids.size := rfl
      omega
    · have := ihk hk h'
      omega
    · have := ihr hr h'
      omega

/-- Of two rows the later is in the earlier's subtree and span, or behind both. -/
theorem rows_apart (hf : nodes.Fits lo hi) (ha : (nodes.rows parent base)[i]? = some a)
    (hb : (nodes.rows parent base)[k]? = some b) (hlt : i < k) :
    a.start < b.start ∧
      (k + b.descendants ≤ i + a.descendants ∧ b.stop ≤ a.stop ∨
        i + a.descendants < k ∧ a.stop ≤ b.start) := by
  induction nodes generalizing parent base lo hi i k with
  | nil => cases ha
  | node r kids rest ihk ihr =>
    obtain ⟨hstart, hpay, hstop, hk, hr⟩ := hf
    have hpos : r.payloadStart ≤ r.stop := Nat.le_add_right _ _
    have hs : (r.row parent kids.size).start = lo := hstart
    have hd : (r.row parent kids.size).descendants = kids.size := rfl
    rcases rows_cases ha with ⟨rfl, rfl⟩ | ⟨n, rfl, hn, ha'⟩ | ⟨n, rfl, ha'⟩
    · rw [Met.row_stop]
      rcases rows_cases hb with ⟨rfl, rfl⟩ | ⟨n, rfl, hn, hb'⟩ | ⟨n, rfl, hb'⟩
      · omega
      · have := rows_inside hk hb'
        omega
      · have := rows_inside hr hb'
        omega
    · have hin := rows_inside hk ha'
      rcases rows_cases hb with ⟨rfl, rfl⟩ | ⟨n', rfl, hn', hb'⟩ | ⟨n', rfl, hb'⟩
      · omega
      · have := ihk hk ha' hb' (by omega)
        omega
      · have := rows_inside hr hb'
        omega
    · rcases rows_cases hb with ⟨rfl, rfl⟩ | ⟨n', rfl, hn', hb'⟩ | ⟨n', rfl, hb'⟩
      · omega
      · omega
      · have := ihr hr ha' hb' (by omega)
        omega

/-- A row's parent is the layer's, or an earlier row whose subtree it is in. -/
theorem rows_parent (h : (nodes.rows parent base)[k]? = some a) :
    a.parent = parent ∨ ∃ i b, (nodes.rows parent base)[i]? = some b ∧ i < k ∧
      a.parent = some (base + i) ∧ k ≤ i + b.descendants := by
  induction nodes generalizing parent base k with
  | nil => cases h
  | node r kids rest ihk ihr =>
    rcases rows_cases h with ⟨rfl, rfl⟩ | ⟨n, rfl, hn, h'⟩ | ⟨n, rfl, h'⟩
    · exact .inl rfl
    · rcases ihk h' with hp | ⟨i, b, hb, hlt, hp, hle⟩
      · refine .inr ⟨0, r.row parent kids.size, rfl, by omega, hp, ?_⟩
        show 1 + n ≤ 0 + kids.size
        omega
      · refine .inr ⟨1 + i, b, (rows_kids (lt_size hb)).trans hb, by omega, ?_, by omega⟩
        rw [hp, Nat.add_assoc]
    · rcases ihr h' with hp | ⟨i, b, hb, hlt, hp, hle⟩
      · exact .inl hp
      · refine .inr ⟨1 + kids.size + i, b, (rows_rest i).trans hb, by omega, ?_, by omega⟩
        rw [hp]
        congr 1
        omega

end Rows

/-! ## The rows above a row -/

/-- A row's parent link. -/
def Links (rows : List Row) (p i : Nat) : Prop := ∃ r, rows[i]? = some r ∧ r.parent = some p

/-- One row encloses another. -/
def Above (rows : List Row) : Nat → Nat → Prop := Relation.TransGen (Links rows)

section Above

variable {rows : List Row} {nodes kids rest : Nodes} {r : Met} {parent : Option Nat}
  {base p i k lo hi : Nat} {a : Row}

/-- A layer's rows stand in the table from `base` on. -/
def Placed (rows : List Row) (parent : Option Nat) (base : Nat) (nodes : Nodes) : Prop :=
  ∀ n, n < nodes.size → rows[base + n]? = (nodes.rows parent base)[n]?

theorem placed_self (nodes : Nodes) : Placed (nodes.rows none 0) none 0 nodes := fun n _ => by
  rw [Nat.zero_add]

theorem placed_kids (h : Placed rows parent base (.node r kids rest)) :
    Placed rows (some base) (base + 1) kids := by
  intro n hn
  rw [← rows_kids hn, ← h (1 + n) (by rw [Nodes.size]; omega), Nat.add_assoc]

theorem placed_rest (h : Placed rows parent base (.node r kids rest)) :
    Placed rows parent (base + 1 + kids.size) rest := by
  intro n hn
  rw [← rows_rest n, ← h (1 + kids.size + n) (by rw [Nodes.size]; omega)]
  congr 1
  omega

/-- A layer's rows all stand below its container. -/
theorem above_layer (hp : parent = some p) (h : Placed rows parent base nodes)
    (hk : k < nodes.size) : Above rows p (base + k) := by
  induction nodes generalizing parent base p k with
  | nil => cases hk
  | node r kids rest ihk ihr =>
    have hhead : Above rows p base :=
      .single ⟨r.row parent kids.size, h 0 (by rw [Nodes.size]; omega), hp⟩
    rw [Nodes.size] at hk
    rcases Nat.lt_or_ge k 1 with h0 | h0
    · rwa [show k = 0 by omega]
    · rcases Nat.lt_or_ge k (1 + kids.size) with h1 | h1
      · have := ihk rfl (placed_kids h) (k := k - 1) (by omega)
        rw [show base + 1 + (k - 1) = base + k by omega] at this
        exact hhead.trans this
      · have := ihr hp (placed_rest h) (k := k - (1 + kids.size)) (by omega)
        rwa [show base + 1 + kids.size + (k - (1 + kids.size)) = base + k by omega] at this

theorem above_of_subtree (hf : nodes.Fits lo hi) (h : Placed rows parent base nodes)
    (ha : (nodes.rows parent base)[i]? = some a) (hlt : i < k) (hk : k ≤ i + a.descendants) :
    Above rows (base + i) (base + k) := by
  induction nodes generalizing parent base lo hi i k with
  | nil => cases ha
  | node r kids rest ihk ihr =>
    obtain ⟨-, -, -, hkids, hr⟩ := hf
    rcases rows_cases ha with ⟨rfl, rfl⟩ | ⟨n, rfl, hn, ha'⟩ | ⟨n, rfl, ha'⟩
    · have hd : k ≤ 0 + kids.size := hk
      have := above_layer rfl (placed_kids h) (k := k - 1) (by omega)
      rwa [show base + 1 + (k - 1) = base + k by omega] at this
    · have hin := rows_inside hkids ha'
      have := ihk hkids (placed_kids h) ha' (k := k - 1) (by omega) (by omega)
      rwa [show base + 1 + n = base + (1 + n) by omega,
        show base + 1 + (k - 1) = base + k by omega] at this
    · have := ihr hr (placed_rest h) ha' (k := k - (1 + kids.size)) (by omega) (by omega)
      rwa [show base + 1 + kids.size + n = base + (1 + kids.size + n) by omega,
        show base + 1 + kids.size + (k - (1 + kids.size)) = base + k by omega] at this

/-- The rows a row encloses are those its count says. -/
theorem above_iff (hf : nodes.Fits lo hi) (ha : (nodes.rows none 0)[i]? = some a) :
    Above (nodes.rows none 0) i k ↔ i < k ∧ k ≤ i + a.descendants := by
  constructor
  · intro h
    have hlink : ∀ {p k}, Links (nodes.rows none 0) p k →
        ∃ b, (nodes.rows none 0)[p]? = some b ∧ p < k ∧ k ≤ p + b.descendants := by
      rintro p k ⟨c, hc, hp⟩
      rcases rows_parent hc with hn | ⟨q, b, hb, hlt, hq, hle⟩
      · rw [hn] at hp
        cases hp
      · rw [hp, Nat.zero_add] at hq
        cases hq
        exact ⟨b, hb, hlt, hle⟩
    induction h with
    | single hl =>
      obtain ⟨b, hb, hlt, hle⟩ := hlink hl
      cases hb.symm.trans ha
      exact ⟨hlt, hle⟩
    | tail _ hl ih =>
      obtain ⟨b, hb, hlt, hle⟩ := hlink hl
      have := rows_apart hf ha hb ih.1
      omega
  · rintro ⟨hlt, hle⟩
    have := above_of_subtree hf (placed_self nodes) ha hlt hle
    rwa [Nat.zero_add, Nat.zero_add] at this

/-! ## The lookup -/

variable {pos : Nat}

theorem takeWhile_last {rows : List Row} (hasc : rows.Pairwise fun a b => a.start < b.start)
    (ha : rows[i]? = some a) :
    i < (rows.takeWhile fun r => r.start ≤ pos).length ↔ a.start ≤ pos := by
  induction rows generalizing i with
  | nil => cases ha
  | cons r rows ih =>
    obtain ⟨hhead, hasc⟩ := List.pairwise_cons.mp hasc
    rw [List.takeWhile_cons]
    by_cases hr : r.start ≤ pos
    · rw [if_pos (decide_eq_true hr), List.length_cons]
      cases i with
      | zero =>
        cases ha
        exact ⟨fun _ => hr, fun _ => Nat.succ_pos _⟩
      | succ n => exact Nat.succ_lt_succ_iff.trans (ih hasc ha)
    · rw [if_neg (by simpa using hr)]
      refine ⟨fun h => absurd h (Nat.not_lt_zero _), fun h => absurd ?_ hr⟩
      cases i with
      | zero => cases ha; exact h
      | succ n =>
        have := hhead a (List.mem_of_getElem? ha)
        omega

/-- A row is the other, or encloses it. -/
def Stands (rows : List Row) : Nat → Nat → Prop := Relation.ReflTransGen (Links rows)

/-- The climb finds the first row up the parent links that ends past the position. -/
structure Climbed (rows : List Row) (pos cur : Nat) (o : Option Nat) : Prop where
  found : ∀ id, o = some id → ∃ r, rows[id]? = some r ∧ pos < r.stop ∧ Stands rows id cur ∧
    ∀ k a, rows[k]? = some a → Stands rows k cur → pos < a.stop → Stands rows k id
  missed : o = none → ∀ k a, rows[k]? = some a → Stands rows k cur → a.stop ≤ pos

theorem climb_climbed {rows : List Row} (hup : ∀ p i, Links rows p i → p < i) {fuel cur : Nat}
    (hfuel : cur < fuel) (hcur : cur < rows.length) :
    Climbed rows pos cur (climb rows pos fuel cur) := by
  induction fuel generalizing cur with
  | zero => omega
  | succ fuel ih =>
    have hr : rows[cur]? = some rows[cur] := List.getElem?_eq_getElem hcur
    have hself : ∀ k a, rows[k]? = some a → k = cur → a = rows[cur] := by
      rintro k a ha rfl
      exact Option.some.inj (ha.symm.trans hr)
    unfold climb
    rw [hr]
    simp only
    split
    · next hpos =>
      refine ⟨?_, nofun⟩
      rintro _ ⟨⟩
      exact ⟨_, hr, hpos, .refl, fun _ _ _ h _ => h⟩
    · next hpos =>
      cases hp : rows[cur].parent with
      | none =>
        refine ⟨nofun, fun _ k a ha hk => ?_⟩
        rcases Relation.ReflTransGen.cases_tail hk with rfl | ⟨p, -, c, hc, hcp⟩
        · rw [hself cur a ha rfl]
          exact Nat.not_lt.mp hpos
        · rw [hself cur c hc rfl, hp] at hcp
          cases hcp
      | some p =>
        have hlink : Links rows p cur := ⟨_, hr, hp⟩
        have hlt := hup p cur hlink
        have hstep : Climbed rows pos p (climb rows pos fuel p) := ih (by omega) (by omega)
        obtain ⟨hfound, hmissed⟩ := hstep
        -- what stands at or above the row is the row, or stands at or above its parent
        have hsplit : ∀ k, Stands rows k cur → k = cur ∨ Stands rows k p := by
          intro k hk
          rcases Relation.ReflTransGen.cases_tail hk with rfl | ⟨q, hq, c, hc, hcq⟩
          · exact .inl rfl
          · rw [hself cur c hc rfl, hp] at hcq
            cases hcq
            exact .inr hq
        refine ⟨fun id hid => ?_, fun hnone k a ha hk => ?_⟩
        · obtain ⟨a, ha, hin, hstands, hall⟩ := hfound id hid
          refine ⟨a, ha, hin, hstands.tail hlink, fun k b hb hk hpast => ?_⟩
          rcases hsplit k hk with rfl | hk
          · rw [hself k b hb rfl] at hpast
            exact absurd hpast hpos
          · exact hall k b hb hk hpast
        · rcases hsplit k hk with rfl | hk
          · rw [hself k a ha rfl]
            exact Nat.not_lt.mp hpos
          · exact hmissed hnone k a ha hk

/-- The deepest row whose span holds the position: every other that does encloses it. -/
def Narrowest (rows : List Row) (pos id : Nat) : Prop :=
  (∃ r : Row, rows[id]? = some r ∧ r.holds pos = true) ∧
    ∀ (k : Nat) (r : Row), rows[k]? = some r → r.holds pos = true → k = id ∨ Above rows k id

theorem holds_iff {r : Row} : r.holds pos = true ↔ r.start ≤ pos ∧ pos < r.stop := by
  simp [Row.holds]

theorem rows_ascend (hf : nodes.Fits lo hi) :
    (nodes.rows none 0).Pairwise fun a b => a.start < b.start :=
  List.pairwise_iff_getElem.mpr fun _ _ hi hk hlt =>
    (rows_apart hf (List.getElem?_eq_getElem hi) (List.getElem?_eq_getElem hk) hlt).1

theorem stands_iff {rows : List Row} {id : Nat} : Stands rows k id ↔ k = id ∨ Above rows k id := by
  rw [Stands, Relation.reflTransGen_iff_eq_or_transGen]
  exact or_congr_left eq_comm

/-- A row that holds the position is the last one that starts there, or encloses it. -/
theorem holds_stands (hf : nodes.Fits lo hi) {last : Nat} {z : Row}
    (hz : (nodes.rows none 0)[last]? = some z) (hzpos : z.start ≤ pos)
    (hlast : ∀ i a, (nodes.rows none 0)[i]? = some a → a.start ≤ pos → i ≤ last)
    (ha : (nodes.rows none 0)[i]? = some a) (h : a.holds pos = true) :
    Stands (nodes.rows none 0) i last := by
  obtain ⟨hstart, hstop⟩ := holds_iff.mp h
  rcases Nat.eq_or_lt_of_le (hlast i a ha hstart) with rfl | hlt
  · exact .refl
  · have hin : i < last ∧ last ≤ i + a.descendants := by
      have := rows_apart hf ha hz hlt
      omega
    exact stands_iff.mpr (.inr ((above_iff hf ha).mpr hin))

theorem narrowest_spec (hf : nodes.Fits lo hi) {tree : Tree} (ht : tree.rows = nodes.rows none 0) :
    (∀ id, tree.narrowest pos = some id → Narrowest tree.rows pos id) ∧
      (tree.narrowest pos = none →
        ∀ (k : Nat) (r : Row), tree.rows[k]? = some r → r.holds pos = false) := by
  have hasc := rows_ascend hf
  have hup : ∀ p i, Links (nodes.rows none 0) p i → p < i := fun p i hl => by
    obtain ⟨c, hc, hp⟩ := hl
    rcases rows_parent hc with hn | ⟨q, b, -, hlt, hq, -⟩
    · rw [hn] at hp
      cases hp
    · rw [hp, Nat.zero_add] at hq
      cases hq
      exact hlt
  unfold Tree.narrowest
  rw [ht]
  cases hlen : ((nodes.rows none 0).takeWhile fun r => decide (r.start ≤ pos)).length with
  | zero =>
    refine ⟨(fun _ h => nomatch h), fun _ k r hr => Bool.eq_false_iff.mpr fun h => ?_⟩
    have := (takeWhile_last hasc hr).mpr (holds_iff.mp h).1
    omega
  | succ last =>
    have hle : last < (nodes.rows none 0).length := by
      have := (List.takeWhile_sublist (l := nodes.rows none 0)
        fun r => decide (r.start ≤ pos)).length_le
      omega
    have hz := List.getElem?_eq_getElem hle
    have hzpos := (takeWhile_last hasc hz).mp (by rw [hlen]; omega)
    have hlast : ∀ i a, (nodes.rows none 0)[i]? = some a → a.start ≤ pos → i ≤ last := by
      intro i a ha hpos
      have := (takeWhile_last hasc ha).mpr hpos
      omega
    have hclimbed : Climbed (nodes.rows none 0) pos last (climb (nodes.rows none 0) pos _ last) :=
      climb_climbed hup hle hle
    obtain ⟨hfound, hmissed⟩ := hclimbed
    simp only
    refine ⟨fun id hid => ?_, fun hnone k r hr => Bool.eq_false_iff.mpr fun h => ?_⟩
    · obtain ⟨r, hr, hin, hstands, hall⟩ := hfound id hid
      refine ⟨⟨r, hr, holds_iff.mpr ⟨?_, hin⟩⟩, fun k b hb hh => ?_⟩
      · rcases stands_iff.mp hstands with rfl | habove
        · cases hr.symm.trans hz
          exact hzpos
        · have hlt := ((above_iff hf hr).mp habove).1
          have := (rows_apart hf hr hz hlt).1
          omega
      · exact stands_iff.mp
          (hall k b hb (holds_stands hf hz hzpos hlast hb hh) (holds_iff.mp hh).2)
    · have := hmissed hnone k r hr (holds_stands hf hz hzpos hlast hr h)
      have := (holds_iff.mp h).2
      omega

end Above

/-! ## The inspector -/

/-- What the rows of a table keep among each other: the starts ascend, a row's count is that of
the rows it encloses, and of two spans one lies inside the other or behind it, as the rows do. -/
structure Tabled (rows : List Row) (stop : Nat) : Prop where
  ascend : rows.Pairwise fun a b => a.start < b.start
  inside : ∀ r ∈ rows, r.start < r.stop ∧ r.stop ≤ stop
  counts : ∀ i r, rows[i]? = some r → ∀ k, Above rows i k ↔ i < k ∧ k ≤ i + r.descendants
  nested : ∀ i k a b, rows[i]? = some a → rows[k]? = some b → i < k →
    Above rows i k ∧ b.stop ≤ a.stop ∨ ¬ Above rows i k ∧ a.stop ≤ b.start

theorem tabled {nodes : Nodes} {lo hi : Nat} (hf : nodes.Fits lo hi) :
    Tabled (nodes.rows none 0) hi := by
  refine ⟨rows_ascend hf, fun r hr => ?_, fun i r hr k => above_iff hf hr,
    fun i k a b ha hb hlt => ?_⟩
  · obtain ⟨i, hi, rfl⟩ := List.mem_iff_getElem.mp hr
    exact (rows_inside hf (List.getElem?_eq_getElem hi)).2.2
  · have := rows_apart hf ha hb hlt
    rw [above_iff hf ha]
    omega

/-- The inspector is its declarative parse: the bytes have exactly one, and the machine ends with
its table, its fault and where that fault's record stands. -/
theorem inspects (j : Job) :
    ∃ p tree, Parses j [] 0 j.input.bytes.length p ∧
      (∀ p', Parses j [] 0 j.input.bytes.length p' → p' = p) ∧
      parseStandard j = some tree ∧ tree = p.tree j ∧
      Tabled tree.rows j.input.bytes.length ∧
      (∀ m, Steps (Machine.turn j) (.start j) m → m.lend.path = m.stack.map Frame.field) ∧
      ∀ pos, (∀ id, tree.narrowest pos = some id → Narrowest tree.rows pos id) ∧
        (tree.narrowest pos = none →
          ∀ (k : Nat) (r : Row), tree.rows[k]? = some r → r.holds pos = false) := by
  have hf : (reference j).nodes.Fits 0 j.input.bytes.length :=
    layer_fits (Nat.zero_le _) (Nat.le_refl _)
  exact ⟨_, _, parses_iff.mpr rfl, fun _ h => parses_iff.mp h, parseStandard_eq j, rfl, tabled hf,
    fun m hm => lends hm, fun pos => narrowest_spec hf rfl⟩

end ProtobufEdit.Inspect.Groupless
