import ProtobufEdit.Editor.Walk

/-!
# The price of a save

`save_len` goes down the rows as the save does, and adds up what the save writes. So its answer
is the save's length, or the save's refusal.
-/

namespace ProtobufEdit.Editor

open Wire Wire.Grouped Varint Arena Loop

/-- A price is a save's length, or its refusal. -/
def Saved.Prices : Saved → Except SaveFault Nat → Prop
  | .saved out, price => price = .ok out.length
  | .refused fault, price => price = .error fault
  | .panicked, _ => False

namespace Machine

section Price

variable {β : Type} {body : β → Row} {m : Machine} {i : Nat} {last : Option Nat}

/-- A price's last judgment. -/
def priced (total : Nat) : Except SaveFault Nat :=
  if PayloadLen.max < total then .error (.docOverCap total) else .ok total

/-- The pending run ends with the row in front of the position, inside the source. -/
structure Prices (m : Machine) (last : Option Nat) (s : Pricing) : Prop where
  last : ∀ start prev, s.run = some (start, prev) → last = some prev
  rides : ∀ start prev, s.run = some (start, prev) → (m.row prev).body.ridesVerbatim = true
  ordered : ∀ start prev, s.run = some (start, prev) →
    start ≤ (m.row prev).body.spanEnd m.standard

theorem prices_none {cur : Option Nat} {total : Nat} : m.Prices last ⟨cur, none, total⟩ :=
  ⟨nofun, nofun, nofun⟩

section Turns

variable {run : Option (Nat × Nat)} {total : Nat}

theorem priceTurn_rides (hr : (m.row i).body.ridesVerbatim = true) :
    m.priceTurn ⟨some i, run, total⟩ =
      .next ⟨(m.row i).next, some (run.elim (m.row i).body.start Prod.fst, i), total⟩ := by
  unfold priceTurn
  dsimp only
  rw [if_pos hr]

theorem priceTurn_deleted (hr : (m.row i).body.ridesVerbatim = false)
    (hd : (m.row i).body.deleted = true) :
    m.priceTurn ⟨some i, run, total⟩ =
      .next ⟨(m.row i).next, none, m.priceRun ⟨some i, run, total⟩⟩ := by
  unfold priceTurn
  dsimp only
  rw [if_neg (by rw [hr]; decide), if_pos hd]

variable (hr : (m.row i).body.ridesVerbatim = false) (hd : (m.row i).body.deleted = false)

include hr hd

theorem priceTurn_refuses {fault : SaveFault} (h : m.sizeSubtree i = .error fault) :
    m.priceTurn ⟨some i, run, total⟩ = .halt (.error fault) := by
  unfold priceTurn
  dsimp only
  rw [if_neg (by rw [hr]; decide), if_neg (by rw [hd]; decide), h]

theorem priceTurn_sizes {size : Nat} {bodies : List Nat}
    (h : m.sizeSubtree i = .ok (size, bodies)) :
    m.priceTurn ⟨some i, run, total⟩ =
      .next ⟨(m.row i).next, none, m.priceRun ⟨some i, run, total⟩ + size⟩ := by
  unfold priceTurn
  dsimp only
  rw [if_neg (by rw [hr]; decide), if_neg (by rw [hd]; decide), h]

omit hr hd

/-- A row that rides lengthens the pending run by its span. -/
theorem prices_riding {cur cur' : Option Nat} (h : m.Prices last ⟨cur, run, total⟩)
    (hr : (m.row i).body.ridesVerbatim = true)
    (hab : ∀ prev, last = some prev → (m.row prev).body.ridesVerbatim = true →
      (m.row i).body.start = (m.row prev).body.spanEnd m.standard) :
    m.Prices (some i) ⟨cur', some (run.elim (m.row i).body.start Prod.fst, i), total⟩ ∧
      m.priceRun ⟨cur', some (run.elim (m.row i).body.start Prod.fst, i), total⟩ =
        m.priceRun ⟨cur, run, total⟩ +
          ((m.row i).body.spanEnd m.standard - (m.row i).body.start) := by
  have hspan := start_le_spanEnd m.standard (m.row i).body
  cases run with
  | none =>
    refine ⟨⟨?_, ?_, ?_⟩, rfl⟩
    · rintro _ _ ⟨⟩
      rfl
    · rintro _ _ ⟨⟩
      exact hr
    · rintro _ _ ⟨⟩
      exact hspan
  | some r =>
    obtain ⟨start, prev⟩ := r
    have habut := hab prev (h.last start prev rfl) (h.rides start prev rfl)
    have hle := h.ordered start prev rfl
    rw [← habut] at hle
    refine ⟨⟨?_, ?_, ?_⟩, ?_⟩
    · rintro _ _ ⟨⟩
      rfl
    · rintro _ _ ⟨⟩
      exact hr
    · rintro _ _ ⟨⟩
      exact Nat.le_trans hle hspan
    · show total + (_ - start) = total + (_ - start) + _
      rw [← habut]
      omega

end Turns

/-- A row that rides stands in the source. -/
theorem rides_length (hr : (m.row i).body.ridesVerbatim = true)
    (hin : m.Inside (m.zoneOf (m.row i)) (m.settle (m.row i).body)) (text : List UInt8) :
    ((m.shapeOf i).bytes text).length =
      (m.row i).body.spanEnd m.standard - (m.row i).body.start := by
  obtain ⟨hsettle, hzone⟩ := settle_rides hr
  rw [hsettle, hzone] at hin
  rw [shapeOf_rides hr]
  exact slice_length hin

/-- The price from a row of the top layer on. -/
theorem price_layer {first : Option Nat} {t : Forest β} (h : Chain body m.rows none first t)
    (hb : m.Bounded t) (hnodup : t.ids.Nodup) (last : Option Nat) (hab : m.Abut last t)
    (run : Option (Nat × Nat)) (total : Nat) (hruns : m.Prices last ⟨first, run, total⟩) :
    ∃ n ≤ t.ids.length, ∃ s, Takes m.priceTurn n ⟨first, run, total⟩ s ∧
      m.priceTurn s = .halt ((m.overCap t).elim
        (priced (m.priceRun ⟨first, run, total⟩ + (m.text t).length)) .error) := by
  generalize hparent : (none : Option Nat) = parent at h
  induction h generalizing last run total with
  | nil => exact ⟨0, Nat.le_refl _, _, .refl _, rfl⟩
  | @node parent next kid x r kids rest hcell hk _ _ ihr =>
    subst hparent
    have hap := Forest.nodup_node.mp hnodup
    obtain ⟨hin, hbk, hbr⟩ := hb
    obtain ⟨habut, habr⟩ := hab
    have hc := row_of_cell hcell
    -- What the rest does behind a turn that bills this row.
    have hgo : ∀ {run' : Option (Nat × Nat)} {total' : Nat},
        m.priceTurn ⟨some x, run, total⟩ = .next ⟨next, run', total'⟩ →
        m.Prices (some x) ⟨next, run', total'⟩ →
        m.priceRun ⟨next, run', total'⟩ = m.priceRun ⟨some x, run, total⟩ +
          ((m.shapeOf x).bytes (m.text kids)).length →
        (m.shapeOf x).overCap (m.text kids) (m.overCap kids) = none →
        ∃ n ≤ (Forest.node x r kids rest).ids.length, ∃ s,
          Takes m.priceTurn n ⟨some x, run, total⟩ s ∧
          m.priceTurn s = .halt ((m.overCap (.node x r kids rest)).elim
            (priced (m.priceRun ⟨some x, run, total⟩ +
              (m.text (.node x r kids rest)).length)) .error) := by
      intro run' total' hturn hprices hbill hover
      obtain ⟨n, hn, s, ht, hs⟩ := ihr hbr hap.inRest (some x) habr run' total' hprices rfl
      have hnode : m.overCap (.node x r kids rest) = m.overCap rest := by
        show ((m.shapeOf x).overCap _ _).or _ = _
        rw [hover]
        rfl
      have htext : m.text (.node x r kids rest) =
          (m.shapeOf x).bytes (m.text kids) ++ m.text rest := rfl
      refine ⟨n + 1, ?_, s, .head hturn ht, ?_⟩
      · show n + 1 ≤ (kids.ids ++ rest.ids).length + 1
        rw [List.length_append]
        omega
      · rw [hs, hbill, hnode, htext, List.length_append, Nat.add_assoc]
    cases hrides : (m.row x).body.ridesVerbatim with
    | true =>
      have hturn : m.priceTurn ⟨some x, run, total⟩ = _ := priceTurn_rides hrides
      obtain ⟨hprices, hbill⟩ := @prices_riding _ _ _ _ _ _ next hruns hrides
        fun prev hp hr => habut prev hp hr hrides
      rw [hc] at hturn
      refine hgo hturn (hc ▸ hprices) ?_ (by rw [shapeOf_rides hrides]; rfl)
      rw [rides_length hrides hin, ← hbill, hc]
    | false =>
      cases hdel : (m.row x).body.deleted with
      | true =>
        have hshape := shapeOf_deleted hdel
        have hturn : m.priceTurn ⟨some x, run, total⟩ = _ := priceTurn_deleted hrides hdel
        rw [hc] at hturn
        exact hgo hturn prices_none (by rw [hshape]; rfl) (by rw [hshape]; rfl)
      | false =>
        have hsize := sizeSubtree_eq hcell hk hin hbk (interior_shorter hcell hk hap.notKids hap.inKids)
        cases hover : (m.shapeOf x).overCap (m.text kids) (m.overCap kids) with
        | some fault =>
          rw [hover] at hsize
          refine ⟨0, Nat.zero_le _, _, .refl _, ?_⟩
          rw [priceTurn_refuses hrides hdel hsize]
          show _ = Turn.halt (Option.elim (((m.shapeOf x).overCap _ _).or _) _ _)
          rw [hover]
          rfl
        | none =>
          rw [hover] at hsize
          have hturn : m.priceTurn ⟨some x, run, total⟩ = _ := priceTurn_sizes hrides hdel hsize
          rw [hc] at hturn
          exact hgo hturn prices_none rfl hover

/-- `save_len` answers what the save comes to. -/
theorem saveLen_eq {t : Forest β} (h : Chain body m.rows none m.top t) (hb : m.Bounded t)
    (hnodup : t.ids.Nodup) (hab : m.Abut none t) : m.save.Prices m.saveLen := by
  cases hdirty : m.dirty with
  | false =>
    unfold save saveLen
    rw [if_pos hdirty, if_pos hdirty]
    rfl
  | true =>
    obtain ⟨n, hn, s, ht, hs⟩ := price_layer h hb hnodup none hab none 0 prices_none
    have hprice : m.saveLen = (m.overCap t).elim (priced (m.text t).length) .error := by
      have hlen := shorter h hnodup
      unfold saveLen
      rw [if_neg (by rw [hdirty]; decide), ht.halts hs (by omega)]
      show Option.elim _ (priced (0 + _)) _ = _
      rw [Nat.zero_add]
    rw [save_eq h hb hnodup hab hdirty, hprice]
    cases m.overCap t with
    | some fault => rfl
    | none =>
      show (published (m.text t)).Prices (priced (m.text t).length)
      unfold published priced
      split <;> rfl

end Price

end Machine

end ProtobufEdit.Editor
