import ProtobufEdit.Inspect.Groupless.Tree

/-!
# The machine parses layer by layer

From a state at the head of a layer the machine comes to the layer's end with the layer's rows, or
to a turn that disposes of the layer's fault, the containers it committed to inside still open.
-/

namespace ProtobufEdit.Inspect.Groupless

open Wire Wire.Groupless Varint Loop

@[simp] theorem Nodes.rows_length (parent : Option Nat) (base : Nat) (nodes : Nodes) :
    (nodes.rows parent base).length = nodes.size := by
  induction nodes generalizing parent base with
  | nil => rfl
  | node r kids rest ihk ihr =>
    rw [rows, List.length_cons, List.length_append, ihk, ihr, size]
    omega

/-! ## Seals -/

def sealAll (frames : List Frame) (rows : List Row) : List Row :=
  frames.foldr (fun frame rows => sealDescendants frame.row rows) rows

/-- A seal counts the rows behind it. -/
theorem sealDescendants_eq (before behind : List Row) (r : Row) :
    sealDescendants before.length (before ++ r :: behind) =
      before ++ { r with descendants := behind.length } :: behind := by
  have hlen : (before ++ r :: behind).length - 1 - before.length = behind.length := by
    rw [List.length_append, List.length_cons]
    omega
  unfold sealDescendants
  rw [hlen, List.modify_eq_take_cons_drop (by simp)]
  simp

namespace Machine

variable {j : Job} {m : Machine} {r : Met}

/-- The fields of the open containers. -/
def fields (m : Machine) : List FieldNumber := m.stack.map Frame.field

/-- What is materialized of the enclosing fields is current. -/
def Lent (m : Machine) : Prop := m.path <+: m.fields

theorem lend_eq (h : m.Lent) : m.lend = { m with path := m.fields } := by
  obtain ⟨behind, he⟩ := h
  have hlen : m.path.length + behind.length = m.stack.length := by
    rw [← List.length_append, he, fields, List.length_map]
  have hpath : m.path ++ (m.stack.drop m.path.length).map Frame.field = m.fields := by
    rw [List.map_drop]
    show m.path ++ m.fields.drop m.path.length = m.fields
    rw [← he, List.drop_left]
  unfold lend
  split
  · rw [hpath]
  · have hnil : behind = [] := List.length_eq_zero_iff.mp (by omega)
    rw [hnil, List.append_nil] at he
    rw [← he]

theorem fields_length : m.fields.length = m.stack.length := List.length_map _

/-! ## Layers -/

/-- The machine behind a stretch of rows of its layer. -/
def past (m : Machine) (cursor : Nat) (path : List FieldNumber) (rows : List Row) : Machine :=
  { m with cursor, path, rows := m.rows ++ rows }

theorem past_end (h : m.cursor = m.zone) : m.past m.zone m.path [] = m := by
  obtain ⟨cursor, zone, absorber, stack, path, rows⟩ := m
  cases h
  exact congrArg (Machine.mk cursor cursor absorber stack path) (List.append_nil rows)

/-- A machine about to dispose of a fault, its layer left at some records. -/
structure Struck (m m' : Machine) (rows : List Row) : Prop where
  absorber : m'.nearestAbsorber = m.nearestAbsorber
  opened : ∃ frames, m'.stack = m.stack ++ frames ∧
    (frames.head?.map Frame.prevZone).getD m'.zone = m.zone ∧
    sealAll frames m'.rows = m.rows ++ rows
  kept : m'.rows.take m.rows.length = m.rows
  lent : m'.Lent

/-- What the machine comes to over a layer. -/
inductive Goes (j : Job) (m : Machine) : Parse → Prop where
  | ended {n : Nat} {nodes : Nodes} {path : List FieldNumber} : path <+: m.fields →
      Takes (turn j) n m (m.past m.zone path (nodes.rows m.parentRow m.rows.length)) →
      n ≤ 2 * (m.zone - m.cursor) → Goes j m ⟨nodes, none⟩
  | struck {n : Nat} {nodes : Nodes} {failure : Failure} {m₁ m' : Machine} :
      Takes (turn j) n m m₁ → n ≤ 2 * (m.zone - m.cursor) → turn j m₁ = m'.dispose failure →
      Struck m m' (nodes.rows m.parentRow m.rows.length) → Goes j m ⟨nodes, some failure⟩

/-- A record and its payload, and then the layer behind it. -/
theorem Goes.behind {n : Nat} {kids : Nodes} {path : List FieldNumber} {p : Parse}
    (hs : Takes (turn j) n m (m.past r.stop path
      (r.row m.parentRow kids.size :: kids.rows (some m.rows.length) (m.rows.length + 1))))
    (h : Goes j (m.past r.stop path
      (r.row m.parentRow kids.size :: kids.rows (some m.rows.length) (m.rows.length + 1))) p)
    (hn : n + 2 * (m.zone - r.stop) ≤ 2 * (m.zone - m.cursor)) :
    Goes j m (p.behind r kids) := by
  have hlen : (m.rows ++ r.row m.parentRow kids.size ::
      kids.rows (some m.rows.length) (m.rows.length + 1)).length =
      m.rows.length + 1 + kids.size := by
    rw [List.length_append, List.length_cons, Nodes.rows_length]
    omega
  have hrows : ∀ rest : Nodes, (m.rows ++ r.row m.parentRow kids.size ::
      kids.rows (some m.rows.length) (m.rows.length + 1)) ++
        rest.rows m.parentRow (m.rows.length + 1 + kids.size) =
      m.rows ++ (Nodes.node r kids rest).rows m.parentRow m.rows.length := by
    intro rest
    rw [List.append_assoc, Nodes.rows, List.cons_append]
  cases h with
  | ended hpath hsteps hk =>
    refine .ended hpath (hs.trans ?_) (Nat.le_trans (Nat.add_le_add_left hk n) hn)
    unfold past at hsteps ⊢
    rw [← hrows, ← hlen]
    exact hsteps
  | struck hsteps hk hturn hstruck =>
    refine .struck (hs.trans hsteps) (Nat.le_trans (Nat.add_le_add_left hk n) hn) hturn
      ⟨hstruck.absorber, ?_, ?_, hstruck.lent⟩
    · obtain ⟨frames, hstack, hzone, hseal⟩ := hstruck.opened
      refine ⟨frames, hstack, hzone, hseal.trans ?_⟩
      rw [← hrows, ← hlen]
      rfl
    · have hk := hstruck.kept
      have hle : m.rows.length ≤ (m.past r.stop path (r.row m.parentRow kids.size ::
          kids.rows (some m.rows.length) (m.rows.length + 1))).rows.length := by
        show _ ≤ (m.rows ++ _).length
        omega
      rw [← Nat.min_eq_left hle, ← List.take_take, hk]
      exact List.take_left

/-! ### The turns -/

theorem turn_pop {frame : Frame} (h : m.cursor = m.zone) (hf : m.stack.getLast? = some frame) :
    turn j m = .next (closeFrame frame { m with stack := m.stack.dropLast }) := by
  unfold turn
  rw [if_pos h, hf]

theorem turn_record (h : m.cursor ≠ m.zone) : turn j m = m.record j := if_neg h

theorem turn_leaf (h : m.cursor ≠ m.zone) (hlent : m.Lent)
    (hj : judge j.standard j.input.bytes m.zone m.cursor = .ok r)
    (hleaf : r.kind = .len → j.advise m.fields r.field = .opaqueBytes ∨
      (j.advise m.fields r.field = .speculate ∧ j.limit.asInner ≤ m.stack.length)) :
    ∃ path, path <+: m.fields ∧
      turn j m = .next (m.past r.stop path [r.row m.parentRow 0]) := by
  rw [turn_record h]
  unfold record
  rw [hj]
  simp only
  split
  · next hk =>
    refine ⟨m.fields, List.prefix_refl _, ?_⟩
    unfold lenAdvised
    rw [lend_eq hlent]
    rcases hleaf hk with ha | ⟨ha, hd⟩
    · simp only [ha]
      rfl
    · simp only [ha]
      have hdepth : atDepthLimit j { m with path := m.fields } = true := decide_eq_true hd
      rw [if_pos hdepth]
      rfl
  · exact ⟨m.path, hlent, rfl⟩

/-- The machine behind a turn that opens a payload. -/
def entered (m : Machine) (r : Met) (absorbing : Bool) : Machine :=
  { cursor := r.payloadStart
    zone := r.stop
    nearestAbsorber := if absorbing then some m.stack.length else m.nearestAbsorber
    stack := m.stack ++ [⟨m.rows.length, r.field, m.zone, m.nearestAbsorber⟩]
    path := m.fields
    rows := m.rows ++ [r.row m.parentRow 0] }

theorem entered_fields (absorbing : Bool) :
    (m.entered r absorbing).fields = m.fields ++ [r.field] := List.map_append

theorem entered_parentRow (absorbing : Bool) :
    (m.entered r absorbing).parentRow = some m.rows.length :=
  congrArg (Option.map Frame.row) List.getLast?_concat

theorem entered_length (absorbing : Bool) :
    (m.entered r absorbing).rows.length = m.rows.length + 1 := List.length_append

theorem entered_lent (absorbing : Bool) : (m.entered r absorbing).Lent := by
  unfold Lent
  rw [entered_fields]
  exact List.prefix_append _ _

theorem turn_enter (h : m.cursor ≠ m.zone) (hlent : m.Lent)
    (hj : judge j.standard j.input.bytes m.zone m.cursor = .ok r) (hk : r.kind = .len)
    (absorbing : Bool)
    (ha : j.advise m.fields r.field = if absorbing then .speculate else .commit)
    (hd : m.stack.length < j.limit.asInner) : turn j m = .next (m.entered r absorbing) := by
  rw [turn_record h]
  unfold record
  rw [hj]
  simp only
  rw [if_pos hk]
  unfold lenAdvised
  rw [lend_eq hlent]
  have hdepth : ¬ (atDepthLimit j { m with path := m.fields }) = true := by
    simpa [atDepthLimit] using hd
  cases absorbing with
  | true =>
    rw [if_pos rfl] at ha
    simp only [ha]
    rw [if_neg hdepth]
    rfl
  | false =>
    rw [if_neg Bool.false_ne_true] at ha
    simp only [ha]
    rw [if_neg hdepth]
    rfl

/-- A payload read to its end is closed. -/
theorem turn_close {absorbing : Bool} (kids : Nodes) {path : List FieldNumber}
    (hpath : path <+: (m.entered r absorbing).fields) :
    ∃ path', path' <+: m.fields ∧
      turn j ((m.entered r absorbing).past r.stop path
          (kids.rows (some m.rows.length) (m.rows.length + 1))) =
        .next (m.past r.stop path' (r.row m.parentRow kids.size ::
          kids.rows (some m.rows.length) (m.rows.length + 1))) := by
  refine ⟨path.take m.stack.length, ?_, ?_⟩
  · have hp := hpath.take m.stack.length
    rwa [entered_fields, ← fields_length, List.take_left, fields_length] at hp
  · refine (turn_pop rfl List.getLast?_concat).trans (congrArg Turn.next ?_)
    have hseal := sealDescendants_eq m.rows (kids.rows (some m.rows.length) (m.rows.length + 1))
      (r.row m.parentRow 0)
    rw [Nodes.rows_length] at hseal
    unfold closeFrame past entered
    simp only [List.dropLast_concat, List.append_assoc, List.singleton_append, hseal]
    rfl

theorem turn_deep (h : m.cursor ≠ m.zone) (hlent : m.Lent)
    (hj : judge j.standard j.input.bytes m.zone m.cursor = .ok r) (hk : r.kind = .len)
    (ha : j.advise m.fields r.field = .commit) (hd : j.limit.asInner ≤ m.stack.length) :
    turn j m = ({ m with path := m.fields } : Machine).dispose
      ⟨⟨r.start, .depthExceeded r.field j.limit⟩, r.start⟩ := by
  have hdepth : atDepthLimit j { m with path := m.fields } = true := decide_eq_true hd
  rw [turn_record h]
  unfold record
  rw [hj]
  simp only
  rw [if_pos hk]
  unfold lenAdvised
  rw [lend_eq hlent]
  simp only [ha]
  rw [if_pos hdepth]

/-- A fault inside a payload that was only tried concludes that it is bytes. -/
theorem struck_tried {m' : Machine} {failure : Failure} {rows : List Row}
    (h : Struck (m.entered r true) m' rows) :
    ∃ path, path <+: m.fields ∧
      m'.dispose failure = .next (m.past r.stop path [r.row m.parentRow 0]) := by
  obtain ⟨frames, hstack, hzone, -⟩ := h.opened
  have hself : m'.stack = m.stack ++ ⟨m.rows.length, r.field, m.zone, m.nearestAbsorber⟩ :: frames := by
    rw [hstack]
    exact List.append_assoc _ _ _
  have hat : m'.stack[m.stack.length]? =
      some ⟨m.rows.length, r.field, m.zone, m.nearestAbsorber⟩ := by
    rw [hself, List.getElem?_append_right (Nat.le_refl _), Nat.sub_self]
    rfl
  have habove : m'.stack[m.stack.length + 1]? = frames.head? := by
    rw [hself, List.getElem?_append_right (Nat.le_succ _), Nat.succ_sub (Nat.le_refl _),
      Nat.sub_self]
    cases frames <;> rfl
  have hkept : m'.rows.take (m.rows.length + 1) = m.rows ++ [r.row m.parentRow 0] := by
    have hk := h.kept
    rwa [entered_length] at hk
  refine ⟨m'.path.take m.stack.length, ?_, ?_⟩
  · have hp := (show m'.path <+: m'.fields from h.lent).take m.stack.length
    have hf : m'.fields.take m.stack.length = m.fields := by
      unfold fields
      rw [hself, List.map_append, ← fields_length]
      exact List.take_left
    rwa [hf] at hp
  · have habs : m'.nearestAbsorber = some m.stack.length := h.absorber
    unfold dispose
    rw [habs]
    simp only
    rw [hat]
    simp only
    rw [habove, hzone, hkept, hself, List.take_left]
    rfl

/-- A fault inside a payload that was committed to is the layer's own. -/
theorem struck_committed {m' : Machine} {kids : Nodes}
    (h : Struck (m.entered r false) m' (kids.rows (some m.rows.length) (m.rows.length + 1))) :
    Struck m m' ((Nodes.node r kids .nil).rows m.parentRow m.rows.length) := by
  obtain ⟨frames, hstack, hzone, hseal⟩ := h.opened
  refine ⟨h.absorber, ⟨⟨m.rows.length, r.field, m.zone, m.nearestAbsorber⟩ :: frames, ?_, rfl, ?_⟩,
    ?_, h.lent⟩
  · rw [hstack]
    exact List.append_assoc _ _ _
  · show sealDescendants m.rows.length (sealAll frames m'.rows) = _
    rw [hseal]
    show sealDescendants m.rows.length (m.rows ++ [r.row m.parentRow 0] ++ _) = _
    rw [List.append_assoc, List.singleton_append, sealDescendants_eq, Nodes.rows_length,
      Nodes.rows, Nodes.rows, List.append_nil]
    rfl
  · have hk := h.kept
    rw [entered_length] at hk
    have hmin : m.rows.length = min m.rows.length (m.rows.length + 1) := by omega
    rw [hmin, ← List.take_take, hk]
    exact List.take_left

section Payload

variable {nodes : Nodes} {failure : Failure} {rest : Parse} {absorbing : Bool}

/-- A payload read to its end, and the records behind it. -/
theorem Goes.closed (h : Goes j (m.entered r absorbing) ⟨nodes, none⟩)
    (hturn : turn j m = .next (m.entered r absorbing)) (hpay : m.cursor < r.payloadStart)
    (hstop : r.payloadStart ≤ r.stop) (hzone : r.stop ≤ m.zone)
    (hrest : ∀ path rows, path <+: m.fields → Goes j (m.past r.stop path rows) rest) :
    Goes j m (rest.behind r nodes) := by
  cases h with
  | ended hpath hsteps hn =>
    rw [entered_parentRow, entered_length] at hsteps
    have hn : _ ≤ 2 * (r.stop - r.payloadStart) := hn
    obtain ⟨path, hpath', hclose⟩ := turn_close nodes hpath
    exact .behind (.head hturn (hsteps.trans (.head hclose (.refl _)))) (hrest _ _ hpath')
      (by omega)

/-- A payload only tried and found wanting, and the records behind it. -/
theorem Goes.absorbed (h : Goes j (m.entered r true) ⟨nodes, some failure⟩)
    (hturn : turn j m = .next (m.entered r true)) (hpay : m.cursor < r.payloadStart)
    (hstop : r.payloadStart ≤ r.stop) (hzone : r.stop ≤ m.zone)
    (hrest : ∀ path rows, path <+: m.fields → Goes j (m.past r.stop path rows) rest) :
    Goes j m (rest.behind r .nil) := by
  cases h with
  | struck hsteps hn hdispose hstruck =>
    have hn : _ ≤ 2 * (r.stop - r.payloadStart) := hn
    obtain ⟨path, hpath, hbytes⟩ := struck_tried hstruck
    exact .behind (.head hturn (hsteps.trans (.head (hdispose.trans hbytes) (.refl _))))
      (hrest _ _ hpath) (by omega)

/-- A payload committed to and cut short cuts its layer short. -/
theorem Goes.clipped (h : Goes j (m.entered r false) ⟨nodes, some failure⟩)
    (hturn : turn j m = .next (m.entered r false)) (hpay : m.cursor < r.payloadStart)
    (hstop : r.payloadStart ≤ r.stop) (hzone : r.stop ≤ m.zone) :
    Goes j m ⟨.node r nodes .nil, some failure⟩ := by
  cases h with
  | struck hsteps hn hdispose hstruck =>
    have hn : _ ≤ 2 * (r.stop - r.payloadStart) := hn
    rw [entered_parentRow, entered_length] at hstruck
    exact .struck (.head hturn hsteps) (by omega) hdispose (struck_committed hstruck)

end Payload

/-- A layer parsed. -/
theorem layer_goes {fuel : Nat} (hfuel : m.zone - m.cursor < fuel) (hle : m.cursor ≤ m.zone)
    (hz : m.zone ≤ j.input.bytes.length) (hlent : m.Lent) :
    Goes j m (layer j fuel m.fields m.cursor m.zone) := by
  induction fuel generalizing m with
  | zero => omega
  | succ fuel ih =>
    unfold layer
    by_cases hend : m.cursor = m.zone
    · rw [if_pos hend]
      refine .ended hlent ?_ (Nat.zero_le _)
      rw [Nodes.rows, past_end hend]
      exact .refl m
    rw [if_neg hend]
    cases hj : judge j.standard j.input.bytes m.zone m.cursor with
    | error failure =>
      refine .struck (.refl m) (Nat.zero_le _) ?_
        ⟨rfl, ⟨[], (List.append_nil _).symm, rfl, ?_⟩, List.take_length, hlent⟩
      · rw [turn_record hend]
        unfold record
        rw [hj]
      · exact (List.append_nil _).symm
    | ok r =>
      have hr := judge_within hz hj
      have hstop : r.payloadStart ≤ r.stop := Nat.le_add_right _ _
      have hpay := hr.payload
      have hzone := hr.stop
      -- what the rest of the layer comes to behind any row of this record
      have hrest : ∀ path rows, path <+: m.fields → Goes j (m.past r.stop path rows)
          (layer j fuel m.fields r.stop m.zone) := fun path rows hp =>
        ih (m := m.past r.stop path rows) (show m.zone - r.stop < fuel by omega) hr.stop hz hp
      have hleaf : (r.kind = .len → j.advise m.fields r.field = .opaqueBytes ∨
          (j.advise m.fields r.field = .speculate ∧ j.limit.asInner ≤ m.stack.length)) →
          Goes j m ((layer j fuel m.fields r.stop m.zone).behind r .nil) := by
        intro hk
        obtain ⟨path, hpath, hturn⟩ := turn_leaf hend hlent hj hk
        exact .behind (.head hturn (.refl _)) (hrest _ _ hpath) (by omega)
      have hinner : ∀ absorbing, Goes j (m.entered r absorbing)
          (layer j fuel (m.fields ++ [r.field]) r.payloadStart r.stop) := by
        intro absorbing
        rw [← m.entered_fields absorbing]
        exact ih (m := m.entered r absorbing) (show r.stop - r.payloadStart < fuel by omega) hstop
          (Nat.le_trans hr.stop hz) (m.entered_lent absorbing)
      simp only
      generalize layer j fuel m.fields r.stop m.zone = rest at hrest hleaf ⊢
      generalize layer j fuel (m.fields ++ [r.field]) r.payloadStart r.stop = inner at hinner ⊢
      obtain ⟨nodes, failure⟩ := inner
      by_cases hk : r.kind = .len
      · rw [if_neg (not_not.mpr hk)]
        cases ha : j.advise m.fields r.field with
        | opaqueBytes => exact hleaf fun _ => .inl ha
        | speculate =>
          simp only
          by_cases hd : j.limit.asInner ≤ m.fields.length
          · rw [if_pos (.inl hd)]
            exact hleaf fun _ => .inr ⟨ha, by rwa [fields_length] at hd⟩
          · have hturn := turn_enter hend hlent hj hk true ha
              (by rw [fields_length] at hd; omega)
            cases failure with
            | none =>
              rw [if_neg (by simpa using hd)]
              exact (hinner true).closed hturn hpay hstop hzone hrest
            | some failure =>
              rw [if_pos (.inr nofun)]
              exact (hinner true).absorbed hturn hpay hstop hzone hrest
        | commit =>
          simp only
          by_cases hd : j.limit.asInner ≤ m.fields.length
          · rw [if_pos hd]
            refine .struck (.refl m) (Nat.zero_le _)
              (turn_deep hend hlent hj hk ha (by rwa [fields_length] at hd))
              ⟨rfl, ⟨[], (List.append_nil _).symm, rfl, (List.append_nil _).symm⟩,
                List.take_length, List.prefix_refl _⟩
          · rw [if_neg hd]
            have hturn := turn_enter hend hlent hj hk false ha
              (by rw [fields_length] at hd; omega)
            cases failure with
            | none =>
              rw [if_pos rfl]
              exact (hinner false).closed hturn hpay hstop hzone hrest
            | some failure =>
              rw [if_neg nofun]
              exact (hinner false).clipped hturn hpay hstop hzone
      · rw [if_pos hk]
        exact hleaf fun h => absurd h hk

/-! ## The whole parse -/

end Machine

open Machine

/-- The parse yields the reference's tree. -/
theorem parseStandard_eq (j : Job) : parseStandard j = some ((reference j).tree j) := by
  have hgoes : Goes j (start j) (reference j) :=
    layer_goes (m := start j) (Nat.lt_succ_self _) (Nat.zero_le _) (Nat.le_refl _)
      (List.prefix_refl _)
  have hrun : run (turn j) (2 * j.input.bytes.length + 1) (start j) =
      some (some ((reference j).tree j)) := by
    cases hp : reference j with
    | mk nodes failure =>
      rw [hp] at hgoes
      cases hgoes with
      | ended hpath hsteps hn => exact hsteps.halts (if_pos rfl) (Nat.lt_succ_of_le hn)
      | struck hsteps hn hturn hstruck =>
        refine hsteps.halts (hturn.trans ?_) (Nat.lt_succ_of_le hn)
        have habs := hstruck.absorber
        obtain ⟨frames, hstack, -, hseal⟩ := hstruck.opened
        have hstack' : _ = frames := hstack
        unfold dispose
        rw [habs]
        show Turn.halt (some (clip _ _)) = _
        unfold clip
        rw [hstack']
        exact congrArg (fun rows => Turn.halt (some (Tree.mk rows _ _))) hseal
  unfold parseStandard
  rw [hrun]
  rfl

/-! ## What the advisor sees -/

section Lent

variable {j : Job} {m m' : Machine}

theorem dispose_lent {failure : Failure} (h : m.Lent) (ht : m.dispose failure = .next m') :
    m'.Lent := by
  unfold dispose at ht
  cases habs : m.nearestAbsorber with
  | none => rw [habs] at ht; cases ht
  | some idx =>
    rw [habs] at ht
    simp only at ht
    cases hat : m.stack[idx]? with
    | none => rw [hat] at ht; cases ht
    | some frame =>
      rw [hat] at ht
      cases ht
      show m.path.take idx <+: (m.stack.take idx).map Frame.field
      rw [List.map_take]
      exact (show m.path <+: m.fields from h).take idx

theorem lenAdvised_lent {r : Met} (h : m.Lent) (ht : m.lenAdvised j r = .next m') : m'.Lent := by
  have hleaf : (leaf r { m with path := m.fields }).Lent := List.prefix_refl _
  unfold lenAdvised at ht
  rw [lend_eq h] at ht
  simp only at ht
  cases ha : j.advise m.fields r.field with
  | opaqueBytes =>
    rw [ha] at ht
    cases ht
    exact hleaf
  | speculate =>
    rw [ha] at ht
    simp only at ht
    split at ht
    · cases ht
      exact hleaf
    · cases ht
      exact m.entered_lent true
  | commit =>
    rw [ha] at ht
    simp only at ht
    split at ht
    · exact dispose_lent (m := { m with path := m.fields }) (List.prefix_refl _) ht
    · cases ht
      exact m.entered_lent false

theorem turn_lent (h : m.Lent) (ht : turn j m = .next m') : m'.Lent := by
  unfold turn at ht
  split at ht
  · cases hlast : m.stack.getLast? with
    | none => rw [hlast] at ht; cases ht
    | some frame =>
      rw [hlast] at ht
      cases ht
      show m.path.take m.stack.dropLast.length <+: m.stack.dropLast.map Frame.field
      rw [List.dropLast_eq_take, List.map_take, List.length_take, Nat.min_eq_left (Nat.sub_le _ _)]
      exact (show m.path <+: m.fields from h).take _
  · unfold record at ht
    cases hj : judge j.standard j.input.bytes m.zone m.cursor with
    | error failure =>
      rw [hj] at ht
      exact dispose_lent h ht
    | ok r =>
      rw [hj] at ht
      simp only at ht
      split at ht
      · exact lenAdvised_lent h ht
      · cases ht
        exact h

end Lent

/-- In every state of a parse the enclosing fields lent are those of the open containers. -/
theorem lends {j : Job} {m : Machine} (h : Steps (turn j) (start j) m) :
    m.lend.path = m.fields := by
  have hlent : m.Lent := by
    induction h with
    | refl => exact List.prefix_refl _
    | tail _ ht ih => exact turn_lent ih ht
  rw [lend_eq hlent]

end ProtobufEdit.Inspect.Groupless
