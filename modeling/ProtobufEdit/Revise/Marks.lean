import ProtobufEdit.Revise.Tree

/-!
# The mark lattices

A row holds a mark by its own state or through a row of its opened layer. The flags say exactly
that, and every layer counts its flagged rows. A climb that raises or lowers a mark repairs the
flags from one row up.
-/

namespace ProtobufEdit.Revise

open Wire Wire.Groupless Varint Arena

namespace Row

variable (r : Row)

theorem kids_eq (mark : Mark) : r.kids mark = r.slot.layer.count mark := by
  unfold kids Slot.layer
  cases r.slot <;> cases mark <;> rfl

@[simp] theorem flag_setFlag (mark mark' : Mark) (b : Bool) :
    (r.setFlag mark b).flag mark' = if mark' = mark then b else r.flag mark' := by
  cases mark <;> cases mark' <;> rfl

@[simp] theorem own_setFlag (mark mark' : Mark) (b : Bool) :
    (r.setFlag mark b).own mark' = r.own mark' := by
  cases mark <;> cases mark' <;> rfl

@[simp] theorem slot_setFlag (mark : Mark) (b : Bool) : (r.setFlag mark b).slot = r.slot := by
  cases mark <;> rfl

/-- A row as its scan left it. -/
structure Blank (r : Row) : Prop where
  dead : r.dead = false
  slot : r.slot = .unopened
  flag : ∀ mark, r.flag mark = false
  own : ∀ mark, r.own mark = false

end Row

@[simp] theorem Layer.count_setCount (mark mark' : Mark) (n : Nat) (layer : Layer) :
    (layer.setCount mark n).count mark' = if mark' = mark then n else layer.count mark' := by
  cases mark <;> cases mark' <;> rfl

namespace Machine

variable {standard : Standard} {m m' : Machine standard} {t : Forest Unit} {mark : Mark}

def flagged (m : Machine standard) (mark : Mark) (x : Nat) : Bool := (m.row x).body.flag mark

/-- The row's own state or a row of its layer holds the mark. -/
def Held (m : Machine standard) (mark : Mark) (x : Nat) : Prop :=
  (m.row x).body.own mark = true ∨ 0 < (m.row x).body.kids mark

/-- Every layer counts its flagged rows, and the flags are exact, but for a row's. -/
structure Tallied (m : Machine standard) (t : Forest Unit) (mark : Mark) (hole : Option Nat) :
    Prop where
  counted : ∀ o : Option Nat, (∀ x, o = some x → x ∈ t.ids) →
    (m.holdingLayer o).count mark = (t.layer o).countP (m.flagged mark)
  flags : ∀ x ∈ t.ids, hole ≠ some x → (m.flagged mark x = true ↔ m.Held mark x)

/-! ## A flag set -/

section Reflag

variable {b : Bool} {n : Nat → Nat} {id x : Nat}

theorem Rooted.reflag_row (h : m.Rooted t) (hid : id ∈ t.ids) (hx : x ∈ t.ids) (mark' : Mark) :
    ((m.reflag mark b n id).row x).parent = (m.row x).parent ∧
    ((m.reflag mark b n id).row x).body.own mark' = (m.row x).body.own mark' ∧
    ((m.reflag mark b n id).row x).body.flag mark' =
      if x = id ∧ mark' = mark then b else (m.row x).body.flag mark' := by
  have hbase := setRow_row (m := m) (f := Row.setFlag mark b) id x (h.lt hx)
  have hlen : (m.setRow id (Row.setFlag mark b)).rows.length = m.rows.length :=
    List.length_modify _ _ _
  have hfacts : ((m.setRow id (Row.setFlag mark b)).row x).parent = (m.row x).parent ∧
      ((m.setRow id (Row.setFlag mark b)).row x).body.own mark' = (m.row x).body.own mark' ∧
      ((m.setRow id (Row.setFlag mark b)).row x).body.flag mark' =
        if x = id ∧ mark' = mark then b else (m.row x).body.flag mark' := by
    rw [hbase]
    by_cases he : x = id
    · subst he
      simp [Cell.map]
    · simp [he]
  unfold reflag
  cases (m.row id).parent with
  | none => exact hfacts
  | some p =>
    have hlt : x < (m.setRow id (Row.setFlag mark b)).rows.length := hlen ▸ h.lt hx
    obtain ⟨hp, ho, hf⟩ := hfacts
    show (Machine.row (Machine.setRow _ p _) x).parent = _ ∧
      (Machine.row (Machine.setRow _ p _) x).body.own mark' = _ ∧
      (Machine.row (Machine.setRow _ p _) x).body.flag mark' = _
    rw [setRow_row p x hlt]
    split
    · refine ⟨hp, ho ▸ ?_, hf ▸ ?_⟩
      · simp only [Cell.map]
        split <;> cases mark' <;> rfl
      · simp only [Cell.map]
        split <;> cases mark' <;> rfl
    · exact ⟨hp, ho, hf⟩

/-- The count the row's layer keeps of it. -/
theorem Rooted.reflag_count (h : m.Rooted t) (hid : id ∈ t.ids) {o : Option Nat}
    (ho : ∀ x, o = some x → x ∈ t.ids) (mark' : Mark) :
    ((m.reflag mark b n id).holdingLayer o).count mark' =
      if o = (m.row id).parent ∧ mark' = mark then n ((m.holdingLayer o).count mark')
      else (m.holdingLayer o).count mark' := by
  have hset : ∀ {y : Nat}, y ∈ t.ids →
      ((m.setRow id (Row.setFlag mark b)).row y).body.slot = (m.row y).body.slot := fun {y} hy => by
    rw [setRow_row id y (h.lt hy)]
    split
    · exact Row.slot_setFlag _ _ _
    · rfl
  unfold reflag
  cases hp : (m.row id).parent with
  | none =>
    cases o with
    | none =>
      show ((m.root.setCount mark _).count mark') = _
      rw [Layer.count_setCount]
      by_cases he : mark' = mark
      · subst he
        rw [if_pos rfl, if_pos ⟨rfl, rfl⟩]
        rfl
      · rw [if_neg he, if_neg fun e => he e.2]
        rfl
    | some x =>
      rw [if_neg fun e => nomatch e.1]
      simp only [holdingLayer_some]
      exact congrArg (fun s : Slot => s.layer.count mark') (hset (ho x rfl))
  | some p =>
    have hmem : id ∈ t.layer (some p) := h.mem_layer.mpr ⟨hid, hp⟩
    obtain ⟨hpin, layer, hopen⟩ := h.opened hmem
    cases o with
    | none =>
      rw [if_neg fun e => nomatch e.1]
      rfl
    | some x =>
      have hx := ho x rfl
      have hlt : x < (m.setRow id (Row.setFlag mark b)).rows.length := by
        rw [show (m.setRow id (Row.setFlag mark b)).rows.length = m.rows.length from
          List.length_modify _ _ _]
        exact h.lt hx
      rw [holdingLayer_some, holdingLayer_some]
      show (Machine.row (Machine.setRow _ p _) x).body.slot.layer.count mark' = _
      rw [setRow_row p x hlt]
      by_cases he : x = p
      · subst he
        rw [if_pos rfl]
        have hslot := (hset hx).trans hopen
        simp only [Cell.map, hslot, hopen, Slot.layer, Layer.count_setCount, true_and]
        by_cases hm : mark' = mark
        · subst hm
          simp
        · simp [hm]
      · rw [if_neg he, if_neg fun e => he (Option.some.inj e.1), hset hx]

theorem reflag_rooted (h : m.Rooted t) : (m.reflag mark b n id).Rooted t :=
  h.of_bare (reflag_bare m mark b n id)

end Reflag

/-! ## Climbs -/

theorem held_iff (x : Nat) :
    m.Held mark x ↔
      (m.row x).body.own mark = true ∨ 0 < (m.holdingLayer (some x)).count mark := by
  unfold Held
  rw [Row.kids_eq, holdingLayer_some]

/-- One more flag in a layer. -/
theorem countP_update {l : List Nat} (hl : l.Nodup) {id : Nat} {f g : Nat → Bool}
    (hid : f id = false) (hgid : g id = true) (hother : ∀ x ∈ l, x ≠ id → g x = f x) :
    l.countP g = if id ∈ l then l.countP f + 1 else l.countP f := by
  induction l with
  | nil => rfl
  | cons x l ih =>
    obtain ⟨hx, hl⟩ := List.nodup_cons.mp hl
    have hih := ih hl fun y hy => hother y (List.mem_cons_of_mem _ hy)
    rw [List.countP_cons, List.countP_cons, hih]
    by_cases he : x = id
    · subst he
      rw [if_neg hx, if_pos List.mem_cons_self, hid, hgid]
      simp
    · rw [hother x List.mem_cons_self he]
      by_cases hin : id ∈ l
      · rw [if_pos hin, if_pos (List.mem_cons_of_mem _ hin)]
        omega
      · rw [if_neg hin, if_neg fun h => (List.mem_cons.mp h).elim (fun e => he e.symm) hin]

section Step

variable {b : Bool} {n : Nat → Nat} {id : Nat}

theorem reflag_flagged (h : m.Rooted t) (hid : id ∈ t.ids) {x : Nat} (hx : x ∈ t.ids) :
    (m.reflag mark b n id).flagged mark x = if x = id then b else m.flagged mark x := by
  have hf := (@Rooted.reflag_row _ _ _ mark b n _ _ h hid hx mark).2.2
  simp only [and_true] at hf
  exact hf

/-- What one step of a climb leaves of the flags, but for the row's and its parent's. -/
theorem reflag_flags (h : m.Rooted t) (hid : id ∈ t.ids) (ht : m.Tallied t mark (some id))
    (hself : b = true ↔ m.Held mark id) {x : Nat} (hx : x ∈ t.ids)
    (hp : (m.row id).parent ≠ some x) :
    (m.reflag mark b n id).flagged mark x = true ↔ (m.reflag mark b n id).Held mark x := by
  have hsome : ∀ y, some x = some y → y ∈ t.ids := by
    rintro _ ⟨⟩
    exact hx
  have hheld : (m.reflag mark b n id).Held mark x ↔ m.Held mark x := by
    rw [held_iff, held_iff, (h.reflag_row hid hx mark).2.1, h.reflag_count hid hsome mark,
      if_neg fun e => hp e.1.symm]
  rw [hheld, reflag_flagged h hid hx]
  by_cases he : x = id
  · subst he
    rw [if_pos rfl]
    exact hself
  · rw [if_neg he]
    exact ht.flags x hx fun e => he (Option.some.inj e).symm

/-- Raising the mark restores exact flags. -/
theorem raiseMark_tallied (h : m.Rooted t) (hid : id ∈ t.ids) (ht : m.Tallied t mark (some id))
    (hheld : m.Held mark id) {fuel : Nat} (hfuel : id < fuel) :
    (raiseMark mark fuel id m).Tallied t mark none := by
  induction fuel generalizing id m with
  | zero => omega
  | succ fuel ih =>
    unfold raiseMark
    cases hflag : (m.row id).body.flag mark with
    | true =>
      rw [if_pos rfl]
      refine ⟨ht.counted, fun x hx _ => ?_⟩
      by_cases he : x = id
      · subst he
        exact ⟨fun _ => hheld, fun _ => hflag⟩
      · exact ht.flags x hx fun e => he (Option.some.inj e).symm
    | false =>
      rw [if_neg Bool.false_ne_true]
      have hr : (m.reflag mark true (· + 1) id).Rooted t := reflag_rooted h
      have hcounted : ∀ o : Option Nat, (∀ x, o = some x → x ∈ t.ids) →
          ((m.reflag mark true (· + 1) id).holdingLayer o).count mark =
            (t.layer o).countP ((m.reflag mark true (· + 1) id).flagged mark) := by
        intro o ho
        have hup : (t.layer o).countP ((m.reflag mark true (· + 1) id).flagged mark) =
            if id ∈ t.layer o then (t.layer o).countP (m.flagged mark) + 1
            else (t.layer o).countP (m.flagged mark) := by
          refine countP_update (Forest.layer_nodup h.nodup o) hflag ?_ fun x hx hne => ?_
          · rw [reflag_flagged h hid hid, if_pos rfl]
          · rw [reflag_flagged h hid ((Forest.layer_sublist o).subset hx), if_neg hne]
        rw [hup, h.reflag_count hid ho, ht.counted o ho]
        by_cases hin : id ∈ t.layer o
        · rw [if_pos hin, if_pos ⟨(h.mem_layer.mp hin).2.symm, rfl⟩]
        · rw [if_neg hin, if_neg fun e => hin (h.mem_layer.mpr ⟨hid, e.1.symm⟩)]
      cases hp : (m.row id).parent with
      | none =>
        refine ⟨hcounted, fun x hx _ => ?_⟩
        exact reflag_flags h hid ht ⟨fun _ => hheld, fun _ => rfl⟩ hx (by rw [hp]; intro e; cases e)
      | some p =>
        have hpin := h.parent hid hp
        have hlt := h.parent_lt (h.lt hid) hp
        refine ih hr hpin ⟨hcounted, fun x hx hne => ?_⟩ ?_ (by omega)
        · exact reflag_flags h hid ht ⟨fun _ => hheld, fun _ => rfl⟩ hx (by rw [hp]; exact hne)
        · rw [held_iff, h.reflag_count hid (by rintro _ ⟨⟩; exact hpin), if_pos ⟨hp.symm, rfl⟩]
          exact .inr (Nat.succ_pos _)

/-- Lowering the mark restores exact flags. -/
theorem lowerMark_tallied (h : m.Rooted t) (hid : id ∈ t.ids) (ht : m.Tallied t mark (some id))
    (hheld : m.Held mark id → m.flagged mark id = true) {fuel : Nat} (hfuel : id < fuel) :
    (lowerMark mark fuel id m).Tallied t mark none := by
  induction fuel generalizing id m with
  | zero => omega
  | succ fuel ih =>
    unfold lowerMark
    extract_lets r
    by_cases hstop : r.flag mark = false ∨ r.own mark = true ∨ 0 < r.kids mark
    · rw [if_pos hstop]
      refine ⟨ht.counted, fun x hx _ => ?_⟩
      by_cases he : x = id
      · subst he
        refine ⟨fun hf => ?_, hheld⟩
        have hflag : r.flag mark = true := hf
        exact hstop.resolve_left (by rw [hflag]; intro e; cases e)
      · exact ht.flags x hx fun e => he (Option.some.inj e).symm
    · rw [if_neg hstop]
      simp only [not_or, Bool.not_eq_false] at hstop
      obtain ⟨hflag, hown, hkids⟩ := hstop
      have hself : false = true ↔ m.Held mark id :=
        ⟨fun e => (by cases e), fun hh => absurd hh (not_or.mpr ⟨hown, hkids⟩)⟩
      have hr : (m.reflag mark false (· - 1) id).Rooted t := reflag_rooted h
      have hcounted : ∀ o : Option Nat, (∀ x, o = some x → x ∈ t.ids) →
          ((m.reflag mark false (· - 1) id).holdingLayer o).count mark =
            (t.layer o).countP ((m.reflag mark false (· - 1) id).flagged mark) := by
        intro o ho
        have hdown : (t.layer o).countP (m.flagged mark) =
            if id ∈ t.layer o then
              (t.layer o).countP ((m.reflag mark false (· - 1) id).flagged mark) + 1
            else (t.layer o).countP ((m.reflag mark false (· - 1) id).flagged mark) := by
          refine countP_update (Forest.layer_nodup h.nodup o) ?_ hflag fun x hx hne => ?_
          · rw [reflag_flagged h hid hid, if_pos rfl]
          · rw [reflag_flagged h hid ((Forest.layer_sublist o).subset hx), if_neg hne]
        rw [h.reflag_count hid ho, ht.counted o ho]
        by_cases hin : id ∈ t.layer o
        · rw [if_pos hin] at hdown
          rw [if_pos ⟨(h.mem_layer.mp hin).2.symm, rfl⟩, hdown, Nat.add_sub_cancel]
        · rw [if_neg hin] at hdown
          rw [if_neg fun e => hin (h.mem_layer.mpr ⟨hid, e.1.symm⟩), hdown]
      cases hp : (m.row id).parent with
      | none =>
        refine ⟨hcounted, fun x hx _ => ?_⟩
        exact reflag_flags h hid ht hself hx (by rw [hp]; intro e; cases e)
      | some p =>
        have hpin := h.parent hid hp
        have hlt := h.parent_lt (h.lt hid) hp
        have hne : p ≠ id := by omega
        refine ih hr hpin ⟨hcounted, fun x hx hne => ?_⟩ ?_ (by omega)
        · exact reflag_flags h hid ht hself hx (by rw [hp]; exact hne)
        · rw [held_iff, h.reflag_count hid (by rintro _ ⟨⟩; exact hpin), if_pos ⟨hp.symm, rfl⟩,
            (h.reflag_row hid hpin mark).2.1, reflag_flagged h hid hpin, if_neg hne]
          intro hh
          refine (ht.flags p hpin fun e => hne (Option.some.inj e).symm).mpr ?_
          rw [held_iff]
          exact hh.imp_right fun hk => by omega

end Step

/-- What a climb leaves: all but the mark's flags and counts of live rows. -/
structure Climbed (t : Forest Unit) (mark : Mark) (m m' : Machine standard) : Prop where
  bare : m'.bare = m.bare
  own : ∀ x ∈ t.ids, ∀ mark', (m'.row x).body.own mark' = (m.row x).body.own mark'
  buried : ∀ x, x ∉ t.ids → m'.rows[x]? = m.rows[x]?
  others : ∀ mark', mark' ≠ mark → ∀ hole, m.Tallied t mark' hole → m'.Tallied t mark' hole

theorem Climbed.refl (t : Forest Unit) (mark : Mark) (m : Machine standard) : Climbed t mark m m :=
  ⟨rfl, fun _ _ _ => rfl, fun _ _ => rfl, fun _ _ _ h => h⟩

theorem Climbed.trans {m'' : Machine standard} (h : Climbed t mark m m')
    (h' : Climbed t mark m' m'') : Climbed t mark m m'' where
  bare := h'.bare.trans h.bare
  own x hx mark' := (h'.own x hx mark').trans (h.own x hx mark')
  buried x hx := (h'.buried x hx).trans (h.buried x hx)
  others mark' hne hole ht := h'.others mark' hne hole (h.others mark' hne hole ht)

theorem modify_other {rows : List (Cell Row)} {f : Cell Row → Cell Row} {x id : Nat}
    (hx : x ≠ id) : (rows.modify id f)[x]? = rows[x]? :=
  List.getElem?_modify_ne _ _ (Ne.symm hx)

theorem climbed_reflag (mark : Mark) (h : m.Rooted t) {id : Nat} (hid : id ∈ t.ids) (b : Bool)
    (n : Nat → Nat) : Climbed t mark m (m.reflag mark b n id) where
  bare := m.reflag_bare mark b n id
  own x hx mark' := (h.reflag_row hid hx mark').2.1
  buried x hx := by
    have hne : x ≠ id := fun e => hx (e ▸ hid)
    have hset : (m.setRow id (Row.setFlag mark b)).rows[x]? = m.rows[x]? := modify_other hne
    unfold reflag
    cases hp : (m.row id).parent with
    | none => exact hset
    | some p =>
      have hpin := h.parent hid hp
      have hnep : x ≠ p := fun e => hx (e ▸ hpin)
      exact (modify_other hnep).trans hset
  others mark' hne hole ht := by
    have hflag : ∀ x ∈ t.ids, (m.reflag mark b n id).flagged mark' x = m.flagged mark' x := by
      intro x hx
      have hf := (@Rooted.reflag_row _ _ _ mark b n _ _ h hid hx mark').2.2
      rwa [if_neg fun e => hne e.2] at hf
    have hcount : ∀ o : Option Nat, (∀ x, o = some x → x ∈ t.ids) →
        ((m.reflag mark b n id).holdingLayer o).count mark' = (m.holdingLayer o).count mark' := by
      intro o ho
      rw [h.reflag_count hid ho, if_neg fun e => hne e.2]
    refine ⟨fun o ho => ?_, fun x hx hh => ?_⟩
    · rw [hcount o ho, ht.counted o ho]
      refine List.countP_congr fun x hx => ?_
      rw [hflag x ((Forest.layer_sublist o).subset hx)]
    · rw [hflag x hx, ht.flags x hx hh, held_iff, held_iff, (h.reflag_row hid hx mark').2.1,
        hcount (some x) (by rintro _ ⟨⟩; exact hx)]

theorem raiseMark_climbed (mark : Mark) (h : m.Rooted t) {id : Nat} (hid : id ∈ t.ids) (fuel : Nat) :
    Climbed t mark m (raiseMark mark fuel id m) := by
  induction fuel generalizing id m with
  | zero => exact .refl t mark m
  | succ fuel ih =>
    have hstep := climbed_reflag mark h hid true (· + 1)
    unfold raiseMark
    split
    · exact .refl t mark m
    · cases hp : (m.row id).parent with
      | none => exact hstep
      | some p => exact hstep.trans (ih (reflag_rooted h) (h.parent hid hp))

theorem lowerMark_climbed (mark : Mark) (h : m.Rooted t) {id : Nat} (hid : id ∈ t.ids) (fuel : Nat) :
    Climbed t mark m (lowerMark mark fuel id m) := by
  induction fuel generalizing id m with
  | zero => exact .refl t mark m
  | succ fuel ih =>
    have hstep := climbed_reflag mark h hid false (· - 1)
    unfold lowerMark
    extract_lets r
    split
    · exact .refl t mark m
    · cases hp : (m.row id).parent with
      | none => exact hstep
      | some p => exact hstep.trans (ih (reflag_rooted h) (h.parent hid hp))

/-! ## Exact lattices -/

/-- Both lattices are exact over the live rows. -/
structure Exact (m : Machine standard) (t : Forest Unit) : Prop where
  rooted : m.Rooted t
  tallied : ∀ mark, m.Tallied t mark none

section Exact

variable {id : Nat}

/-- Of the lattices, one row's flag is in doubt. -/
structure Nearly (m : Machine standard) (t : Forest Unit) (mark : Mark) (id : Nat) : Prop where
  rooted : m.Rooted t
  tallied : m.Tallied t mark (some id)
  others : ∀ mark', mark' ≠ mark → m.Tallied t mark' none

theorem Nearly.raise (h : m.Nearly t mark id) (hid : id ∈ t.ids) (hheld : m.Held mark id) :
    (m.raise mark id).Exact t where
  rooted := h.rooted.of_bare (m.raise_bare mark id)
  tallied mark' := by
    by_cases he : mark' = mark
    · subst he
      exact raiseMark_tallied h.rooted hid h.tallied hheld (h.rooted.lt hid)
    · exact (raiseMark_climbed _ h.rooted hid _).others mark' he none (h.others mark' he)

theorem Nearly.lower (h : m.Nearly t mark id) (hid : id ∈ t.ids)
    (hheld : m.Held mark id → m.flagged mark id = true) : (m.lower mark id).Exact t where
  rooted := h.rooted.of_bare (m.lower_bare mark id)
  tallied mark' := by
    by_cases he : mark' = mark
    · subst he
      exact lowerMark_tallied h.rooted hid h.tallied hheld (h.rooted.lt hid)
    · exact (lowerMark_climbed _ h.rooted hid _).others mark' he none (h.others mark' he)

/-- A row's body changed, but for its interior, its death and its flags. -/
theorem Exact.setRow (h : m.Exact t) {f : Row → Row} (hslot : ∀ r, (f r).slot = r.slot)
    (hdead : ∀ r, (f r).dead = r.dead) (hflag : ∀ mark r, (f r).flag mark = r.flag mark)
    (hown : ∀ mark', mark' ≠ mark → ∀ r, (f r).own mark' = r.own mark') (id : Nat) :
    (m.setRow id f).Nearly t mark id := by
  have hrow : ∀ x ∈ t.ids, ∀ mark', ((m.setRow id f).row x).body.flag mark' =
      (m.row x).body.flag mark' := fun x hx mark' => by
    rw [setRow_row id x (h.rooted.lt hx)]
    split
    · exact hflag mark' _
    · rfl
  have hlayer : ∀ o : Option Nat, (∀ x, o = some x → x ∈ t.ids) →
      (m.setRow id f).holdingLayer o = m.holdingLayer o := by
    intro o ho
    cases o with
    | none => rfl
    | some x =>
      rw [holdingLayer_some, holdingLayer_some, setRow_row id x (h.rooted.lt (ho x rfl))]
      split
      · exact congrArg Slot.layer (hslot _)
      · rfl
  have hcounted : ∀ mark' o, (∀ x, o = some x → x ∈ t.ids) →
      ((m.setRow id f).holdingLayer o).count mark' =
        (t.layer o).countP ((m.setRow id f).flagged mark') := by
    intro mark' o ho
    rw [hlayer o ho, (h.tallied mark').counted o ho]
    refine List.countP_congr fun x hx => ?_
    unfold flagged
    rw [hrow x ((Forest.layer_sublist o).subset hx)]
  have hflags : ∀ mark' x, x ∈ t.ids →
      ((m.setRow id f).row x).body.own mark' = (m.row x).body.own mark' →
      ((m.setRow id f).flagged mark' x = true ↔ (m.setRow id f).Held mark' x) := by
    intro mark' x hx ho
    have hf := (h.tallied mark').flags x hx nofun
    rw [held_iff] at hf ⊢
    rw [ho, hlayer (some x) (by rintro _ ⟨⟩; exact hx), ← hf]
    unfold flagged
    rw [hrow x hx]
  refine ⟨h.rooted.setRow hdead (fun r => by rw [hslot]) id, ⟨hcounted mark, fun x hx hne => ?_⟩,
    fun mark' hne => ⟨hcounted mark', fun x hx _ => ?_⟩⟩
  · refine hflags mark x hx ?_
    have hnex : x ≠ id := fun e => hne (congrArg some e.symm)
    rw [setRow_row id x (h.rooted.lt hx), if_neg hnex]
  · refine hflags mark' x hx ?_
    rw [setRow_row id x (h.rooted.lt hx)]
    split
    · exact hown mark' hne _
    · rfl

/-- No row of the layer holds a mark. -/
def Clean (m : Machine standard) (id : Nat) : Prop := ∀ mark, (m.row id).body.kids mark = 0

theorem rekid_nil_layer (h : m.Rooted t) {u : Forest Unit} (hu : t.kidsOf id = some u)
    {o : Option Nat} (ho : ∀ x, o = some x → x ∈ (t.rekid id .nil).ids) :
    (t.rekid id .nil).layer o = if o = some id then [] else t.layer o := by
  have hid : id ∈ t.ids := Forest.mem_of_kidsOf hu
  cases o with
  | none =>
    rw [if_neg nofun, Forest.layer_none, Forest.layer_none, Forest.rekid,
      Forest.tops_hang fun _ => rfl]
  | some x =>
    obtain ⟨-, hn⟩ := (mem_rekid_nil h.nodup hu).mp (ho x rfl)
    by_cases he : x = id
    · subst he
      rw [if_pos rfl, Forest.layer_rekid_self hid]
      rfl
    · rw [if_neg fun e => he (Option.some.inj e),
        Forest.layer_rekid h.nodup List.not_mem_nil (by rwa [hu]) he]

/-- A clean interior orphaned. -/
theorem Nearly.orphan (h : m.Nearly t mark id) {u : Forest Unit} (hu : t.kidsOf id = some u)
    (hclean : m.Clean id) : (m.orphanInterior id).Nearly (t.rekid id .nil) mark id := by
  have hr := h.rooted
  have hrow : ∀ x ∈ (t.rekid id .nil).ids, (m.orphanInterior id).row x =
      if x = id then { m.row x with kid := none, body := { (m.row x).body with slot := .unopened } }
      else m.row x := fun x hx => by
    obtain ⟨hin, hn⟩ := (mem_rekid_nil hr.nodup hu).mp hx
    exact hr.orphanInterior_row hu hin hn
  have hflag : ∀ mark' x, x ∈ (t.rekid id .nil).ids →
      (m.orphanInterior id).flagged mark' x = m.flagged mark' x := by
    intro mark' x hx
    unfold flagged
    rw [hrow x hx]
    split
    · cases mark' <;> rfl
    · rfl
  have hheld : ∀ mark' x, x ∈ (t.rekid id .nil).ids →
      ((m.orphanInterior id).Held mark' x ↔ m.Held mark' x) := by
    intro mark' x hx
    unfold Held
    rw [hrow x hx]
    split
    · next he =>
      subst he
      rw [hclean mark']
      cases mark' <;> exact Iff.rfl
    · exact Iff.rfl
  have hcounted : ∀ {mark' hole}, m.Tallied t mark' hole →
      (m.orphanInterior id).Tallied (t.rekid id .nil) mark' hole := by
    intro mark' hole ht
    refine ⟨fun o ho => ?_, fun x hx hne => ?_⟩
    · rw [rekid_nil_layer hr hu ho]
      by_cases he : o = some id
      · subst he
        rw [if_pos rfl, holdingLayer_some, hrow id (ho id rfl), if_pos rfl]
        cases mark' <;> rfl
      · rw [if_neg he]
        have hlayer : (m.orphanInterior id).holdingLayer o = m.holdingLayer o := by
          cases o with
          | none => rfl
          | some x =>
            rw [holdingLayer_some, hrow x (ho x rfl), if_neg fun e => he (congrArg some e),
              holdingLayer_some]
        rw [hlayer, ht.counted o fun x hx => ((mem_rekid_nil hr.nodup hu).mp (ho x hx)).1]
        refine List.countP_congr fun x hx => ?_
        have hin : x ∈ (t.rekid id .nil).layer o := by
          rwa [rekid_nil_layer hr hu ho, if_neg he]
        rw [hflag mark' x ((Forest.layer_sublist o).subset hin)]
    · rw [hflag mark' x hx, hheld mark' x hx]
      exact ht.flags x ((mem_rekid_nil hr.nodup hu).mp hx).1 hne
  exact ⟨hr.orphan hu, hcounted h.tallied, fun mark' hne => hcounted (h.others mark' hne)⟩

/-- Below a clean interior nothing holds a mark. -/
theorem Exact.clean_below (h : m.Exact t) {u : Forest Unit} (hu : t.kidsOf id = some u)
    (hclean : (m.row id).body.kids mark = 0) {x : Nat} (hx : x ∈ u.ids) :
    m.flagged mark x = false ∧ (m.row x).body.own mark = false ∧
      (m.row x).body.kids mark = 0 := by
  have hr := h.rooted
  induction x using Nat.strongRecOn with
  | _ x ih =>
    have hxt : x ∈ t.ids := (Forest.kidsOf_sublist hu).subset hx
    have hflag : m.flagged mark x = false := by
      cases hp : (m.row x).parent with
      | none =>
        obtain ⟨c, -, hchain⟩ := hr.laid.kids hu
        obtain ⟨d, hd, hdp⟩ := Relation.TransGen.head'_iff.mp (hchain.hung rfl hx)
        obtain ⟨e, he, hep⟩ := hd
        obtain rfl := Option.some.inj ((links_of_cell (hr.cell hxt).1).symm.trans he)
        rw [hp] at hep
        cases hep
      | some p =>
        have hkids : (m.row p).body.kids mark = 0 := by
          obtain ⟨c, -, hchain⟩ := hr.laid.kids hu
          obtain ⟨d, ⟨e, he, hep⟩, hdp⟩ := Relation.TransGen.head'_iff.mp (hchain.hung rfl hx)
          obtain rfl := Option.some.inj ((links_of_cell (hr.cell hxt).1).symm.trans he)
          rw [hp] at hep
          cases hep
          rcases Relation.reflTransGen_iff_eq_or_transGen.mp hdp with rfl | hb
          · exact hclean
          · have hpu : p ∈ u.ids := by
              obtain ⟨v, hv, hpv⟩ := (hr.laid.beneath_iff hr.nodup (hr.parent hxt hp)).mp hb
              rw [hu] at hv
              cases hv
              exact hpv
            exact (ih p (hr.parent_lt (hr.lt hxt) hp) hpu).2.2
        have hmem : x ∈ t.layer (some p) := hr.mem_layer.mpr ⟨hxt, hp⟩
        have hpin := hr.parent hxt hp
        have hcount := (h.tallied mark).counted (some p) (by rintro _ ⟨⟩; exact hpin)
        rw [holdingLayer_some, ← Row.kids_eq, hkids] at hcount
        exact Bool.eq_false_iff.mpr (List.countP_eq_zero.mp hcount.symm x hmem)
    have hheld : ¬ m.Held mark x := fun hh => by
      rw [((h.tallied mark).flags x hxt nofun).mpr hh] at hflag
      cases hflag
    unfold Held at hheld
    simp only [not_or, Bool.not_eq_true] at hheld
    exact ⟨hflag, hheld.1, by omega⟩

/-- An interior whose rows hold no mark by themselves is clean. -/
theorem Exact.clean_of (h : m.Exact t) {u : Forest Unit} (hu : t.kidsOf id = some u)
    (hown : ∀ x ∈ u.ids, (m.row x).body.own mark = false) :
    (m.row id).body.kids mark = 0 := by
  have hr := h.rooted
  have hid : id ∈ t.ids := Forest.mem_of_kidsOf hu
  have hkids : ∀ x ∈ t.ids, (∀ y ∈ t.layer (some x), m.flagged mark y = false) →
      (m.row x).body.kids mark = 0 := fun x hx hf => by
    rw [Row.kids_eq, ← holdingLayer_some,
      (h.tallied mark).counted (some x) (by rintro _ ⟨⟩; exact hx)]
    exact List.countP_eq_zero.mpr fun y hy => by rw [hf y hy]; nofun
  -- the rows farthest back in the arena first: children stand behind their parents
  have hflag : ∀ n x, m.rows.length - x = n → x ∈ u.ids → m.flagged mark x = false := by
    intro n
    induction n using Nat.strongRecOn with
    | _ n ih =>
      intro x hn hx
      have hxt : x ∈ t.ids := (Forest.kidsOf_sublist hu).subset hx
      have hzero : (m.row x).body.kids mark = 0 := by
        refine hkids x hxt fun y hy => ?_
        obtain ⟨hyt, hp⟩ := hr.mem_layer.mp hy
        have hlt := hr.parent_lt (hr.lt hyt) hp
        have hyu : y ∈ u.ids := by
          rw [Forest.layer_some, Forest.kidsOf_kidsOf hr.nodup hu hx] at hy
          cases hv : u.kidsOf x with
          | none =>
            rw [hv] at hy
            cases hy
          | some v =>
            rw [hv] at hy
            exact (Forest.kidsOf_sublist hv).subset (Forest.tops_sublist.subset hy)
        have := hr.lt hyt
        exact ih (m.rows.length - y) (by omega) y rfl hyu
      refine Bool.eq_false_iff.mpr fun hf => ?_
      rcases ((h.tallied mark).flags x hxt nofun).mp hf with ho | hk
      · rw [hown x hx] at ho
        cases ho
      · omega
  refine hkids id hid fun y hy => hflag _ y rfl ?_
  rw [Forest.layer_some, hu] at hy
  exact Forest.tops_sublist.subset hy

/-! ## Transitions -/

/-- A transition orphans the row's interior. -/
def Turns (m : Machine standard) (id : Nat) (edit : Edit) : Prop :=
  (m.row id).body.edit.speaker ≠ edit.speaker ∧ (m.row id).body.slot ≠ .unopened

instance (m : Machine standard) (id : Nat) (edit : Edit) : Decidable (m.Turns id edit) :=
  inferInstanceAs (Decidable (_ ∧ _))

/-- The forest behind a transition. -/
def turnedTree (m : Machine standard) (t : Forest Unit) (id : Nat) (edit : Edit) : Forest Unit :=
  if m.Turns id edit then t.rekid id .nil else t

theorem turned_eq (id : Nat) (edit : Edit) :
    m.turned id edit =
      if m.Turns id edit then (m.setEdit id edit).orphanInterior id else m.setEdit id edit := by
  unfold turned
  extract_lets r written
  by_cases h : r.edit.speaker ≠ edit.speaker ∧ r.slot ≠ .unopened
  · rw [if_pos h]
    exact (if_pos (show m.Turns id edit from h)).symm
  · rw [if_neg h]
    exact (if_neg (show ¬ m.Turns id edit from h)).symm

theorem mem_turnedTree (h : m.Rooted t) (hid : id ∈ t.ids) (edit : Edit) :
    id ∈ (m.turnedTree t id edit).ids := by
  unfold turnedTree
  split
  · obtain ⟨u, hu⟩ := Forest.exists_kidsOf hid
    exact (mem_rekid_nil h.nodup hu).mpr ⟨hid, Forest.not_mem_kidsOf h.nodup hu⟩
  · exact hid

theorem setEdit_row (h : m.Rooted t) {x : Nat} (hx : x ∈ t.ids) (edit : Edit) :
    (m.setEdit id edit).row x =
      if x = id then (m.row x).map fun r => { r with edit } else m.row x :=
  setRow_row id x (h.lt hx)

theorem Exact.setEdit (h : m.Exact t) (id : Nat) (edit : Edit) :
    (m.setEdit id edit).Nearly t .dirt id := by
  refine h.setRow (f := fun r => { r with edit }) (fun _ => rfl) (fun _ => rfl)
    (fun mark _ => by cases mark <;> rfl) ?_ id
  intro mark' hne r
  cases mark' with
  | dirt => exact absurd rfl hne
  | hist => rfl

theorem setEdit_kids (h : m.Rooted t) (hid : id ∈ t.ids) (edit : Edit) (mark : Mark) :
    ((m.setEdit id edit).row id).body.kids mark = (m.row id).body.kids mark := by
  rw [setEdit_row h hid, if_pos rfl]
  rfl

theorem Exact.turned (h : m.Exact t) (hid : id ∈ t.ids) {edit : Edit}
    (hclean : m.Turns id edit → m.Clean id) :
    (m.turned id edit).Nearly (m.turnedTree t id edit) .dirt id := by
  rw [turned_eq]
  unfold turnedTree
  have hset := h.setEdit id edit
  split
  · next hturns =>
    obtain ⟨u, hu⟩ := Forest.exists_kidsOf hid
    refine hset.orphan hu fun mark => ?_
    rw [setEdit_kids h.rooted hid]
    exact hclean hturns mark
  · exact hset

/-- The row of a transition, with its new state. -/
theorem turned_row (h : m.Rooted t) (hid : id ∈ t.ids) (edit : Edit) (mark : Mark) :
    ((m.turned id edit).row id).body.edit = edit ∧
      ((m.turned id edit).row id).body.flag mark = (m.row id).body.flag mark ∧
      ((m.turned id edit).row id).body.own .hist = (m.row id).body.own .hist ∧
      ((m.turned id edit).row id).body.kids mark =
        if m.Turns id edit then 0 else (m.row id).body.kids mark := by
  have hset : (m.setEdit id edit).row id = (m.row id).map fun r => { r with edit } := by
    rw [setEdit_row h hid, if_pos rfl]
  rw [turned_eq]
  by_cases hturns : m.Turns id edit
  · rw [if_pos hturns]
    obtain ⟨u, hu⟩ := Forest.exists_kidsOf hid
    have hr : (m.setEdit id edit).Rooted t := h.setRow (f := fun r => { r with edit }) (fun _ => rfl)
      (fun _ => rfl) id
    rw [hr.orphanInterior_row hu hid (Forest.not_mem_kidsOf h.nodup hu), if_pos rfl, hset,
      if_pos hturns]
    cases mark <;> exact ⟨rfl, rfl, rfl, rfl⟩
  · rw [if_neg hturns, hset, if_neg hturns]
    cases mark <;> exact ⟨rfl, rfl, rfl, rfl⟩

/-- A transition over a clean interior keeps both lattices exact. -/
theorem Exact.writeState (h : m.Exact t) (hid : id ∈ t.ids) {edit : Edit}
    (hclean : m.Turns id edit → m.Clean id) :
    (m.writeState id edit).Exact (m.turnedTree t id edit) := by
  have hnear := h.turned hid hclean
  have hin := mem_turnedTree h.rooted hid edit
  obtain ⟨hedit, hflag, -, hkids⟩ := turned_row h.rooted hid edit .dirt
  have hown : ((m.turned id edit).row id).body.own .dirt = edit.ownDirty := by
    show ((m.turned id edit).row id).body.edit.ownDirty = _
    rw [hedit]
  unfold Machine.writeState
  extract_lets settled
  split
  · next hd =>
    refine hnear.raise hin (.inl ?_)
    exact hown.trans hd
  · next hd =>
    refine hnear.lower hin fun hh => ?_
    have hk : 0 < ((m.turned id edit).row id).body.kids .dirt :=
      hh.resolve_left fun ho => hd (hown.symm.trans ho)
    rw [hkids] at hk
    split at hk
    · omega
    · show ((m.turned id edit).row id).body.flag .dirt = true
      rw [hflag]
      exact ((h.tallied .dirt).flags id hid nofun).mpr (.inr hk)

/-! ## The log -/

theorem Exact.withLog (h : m.Exact t) (log : List Transition) :
    ({ m with log } : Machine standard).Exact t :=
  ⟨h.rooted.of_rows rfl rfl rfl, fun mark => ⟨(h.tallied mark).counted, (h.tallied mark).flags⟩⟩

theorem Exact.withStore (h : m.Exact t) (store : Store) : (m.withStore store).Exact t :=
  ⟨h.rooted.of_rows rfl rfl rfl, fun mark => ⟨(h.tallied mark).counted, (h.tallied mark).flags⟩⟩

theorem Exact.setOwn (h : m.Exact t) (id : Nat) (b : Bool) :
    (m.setOwn id b).Nearly t .hist id := by
  refine h.setRow (f := fun r => { r with ownHist := b }) (fun _ => rfl) (fun _ => rfl)
    (fun mark _ => by cases mark <;> rfl) ?_ id
  intro mark' hne r
  cases mark' with
  | dirt => rfl
  | hist => exact absurd rfl hne

theorem Exact.logPush (h : m.Exact t) (hid : id ∈ t.ids) (past : Edit) :
    (m.logPush id past).Exact t := by
  unfold Machine.logPush
  extract_lets fresh pushed
  have hpushed : pushed.Exact t := h.withLog _
  split
  · refine (hpushed.setOwn id true).raise hid (.inl ?_)
    show (Machine.row (Machine.setRow pushed id _) id).body.own .hist = true
    rw [setRow_row id id (hpushed.rooted.lt hid), if_pos rfl]
    rfl
  · exact hpushed

theorem Exact.logPop (h : m.Exact t) {step : Transition} (hid : step.row ∈ t.ids)
    (log : List Transition) : (m.logPop step log).Exact t := by
  unfold Machine.logPop
  extract_lets popped
  have hpopped : popped.Exact t := h.withLog log
  split
  · refine (hpopped.setOwn step.row false).lower hid fun hh => ?_
    have hrow : (popped.setOwn step.row false).row step.row =
        (popped.row step.row).map fun r => { r with ownHist := false } := by
      show Machine.row (Machine.setRow popped step.row _) step.row = _
      rw [setRow_row _ _ (hpopped.rooted.lt hid), if_pos rfl]
    unfold Held at hh
    unfold flagged
    rw [hrow] at hh ⊢
    refine ((hpopped.tallied .hist).flags step.row hid nofun).mpr (.inr ?_)
    exact hh.resolve_left nofun
  · exact hpopped

/-! ## Splices and interiors -/

section Splice

variable {plan : Plan} {r : Row}

/-- The rows behind a splice: the new one, and the others with a tail changed at most. -/
theorem Rooted.splice_getElem? (h : m.Rooted t) (ha : m.Anchored t plan) {x : Nat} :
    (x ∈ t.ids → ∃ c slot, (m.splice plan m.rows.length r).rows[x]? = some c ∧
        c.parent = (m.row x).parent ∧ c.body = { (m.row x).body with slot } ∧
        slot.layer.source = (m.row x).body.slot.layer.source ∧
        ∀ mark, slot.layer.count mark = (m.row x).body.slot.layer.count mark) ∧
      (x < m.rows.length → x ∉ t.ids → (m.splice plan m.rows.length r).rows[x]? = m.rows[x]?) ∧
      (m.splice plan m.rows.length r).rows[m.rows.length]? =
        some ⟨plan.parent, m.planNext plan, none, r⟩ := by
  have hparent : ∀ q, plan.parent = some q → q ≠ m.rows.length := fun q hq =>
    Nat.ne_of_lt (h.lt (ha.parent q hq).1)
  have hlinked : (x ∈ t.ids → ∃ c, (m.linked plan m.rows.length r).rows[x]? = some c ∧
        c.parent = (m.row x).parent ∧ c.body = (m.row x).body) ∧
      (x < m.rows.length → x ∉ t.ids →
        (m.linked plan m.rows.length r).rows[x]? = m.rows[x]?) := by
    refine ⟨fun hx => ?_, fun hlt hx => ?_⟩
    · rw [linked_getElem? _ (h.lt hx), (h.cell hx).1]
      exact ⟨_, rfl, rfl, rfl⟩
    · have hprev : plan.prev ≠ some x := fun e => hx (ha.prev_mem e)
      have hpar : plan.parent ≠ some x := fun e => hx (ha.parent x e).1
      rw [linked_getElem? _ hlt]
      cases m.rows[x]? with
      | none => rfl
      | some c => simp [hprev, hpar]
  have hnew := linked_new (r := r) h ha m.rows.length
  rw [splice_eq]
  by_cases hnext : m.planNext plan = none
  · rw [if_pos hnext]
    cases hp : plan.parent with
    | none =>
      rw [hp] at hnew
      refine ⟨fun hx => ?_, hlinked.2, hnew⟩
      obtain ⟨c, hc, hcp, hcb⟩ := hlinked.1 hx
      exact ⟨c, (m.row x).body.slot, hc, hcp, hcb, rfl, fun _ => rfl⟩
    | some q =>
      rw [hp] at hnew
      have hq := (ha.parent q hp).1
      refine ⟨fun hx => ?_, fun hlt hx => ?_, ?_⟩
      · obtain ⟨c, hc, hcp, hcb⟩ := hlinked.1 hx
        by_cases he : x = q
        · subst he
          obtain ⟨-, layer, hopen⟩ := ha.parent x hp
          refine ⟨c.map fun b => { b with slot := .opened { layer with last := some m.rows.length } },
            .opened { layer with last := some m.rows.length }, ?_, hcp, ?_, ?_, ?_⟩
          · show ((m.linked plan m.rows.length r).rows.modify x _)[x]? = _
            have hslot : c.body.slot = .opened layer := by rw [hcb, hopen]
            rw [List.getElem?_modify_eq, hc]
            simp only [Option.map_eq_map, Option.map_some, Cell.map, hslot]
          · show ({ c.body with slot := _ } : Row) = _
            rw [hcb]
          · rw [hopen]
            rfl
          · intro mark
            rw [hopen]
            cases mark <;> rfl
        · refine ⟨c, (m.row x).body.slot, ?_, hcp, hcb, rfl, fun _ => rfl⟩
          exact (modify_other he).trans hc
      · have hne : x ≠ q := fun e => hx (e ▸ hq)
        exact (modify_other hne).trans (hlinked.2 hlt hx)
      · exact (modify_other (hparent q hp).symm).trans hnew
  · rw [if_neg hnext]
    refine ⟨fun hx => ?_, hlinked.2, hnew⟩
    obtain ⟨c, hc, hcp, hcb⟩ := hlinked.1 hx
    exact ⟨c, (m.row x).body.slot, hc, hcp, hcb, rfl, fun _ => rfl⟩

theorem Rooted.splice_row (h : m.Rooted t) (ha : m.Anchored t plan) {x : Nat} (hx : x ∈ t.ids) :
    ((m.splice plan m.rows.length r).row x).parent = (m.row x).parent ∧
      ∃ slot, ((m.splice plan m.rows.length r).row x).body = { (m.row x).body with slot } ∧
        slot.layer.source = (m.row x).body.slot.layer.source ∧
        ∀ mark, slot.layer.count mark = (m.row x).body.slot.layer.count mark := by
  obtain ⟨c, slot, hc, hp, hb, hs, hk⟩ := (h.splice_getElem? (r := r) ha).1 hx
  rw [row_eq _ hc]
  exact ⟨hp, slot, hb, hs, hk⟩

theorem splice_root :
    (m.splice plan m.rows.length r).root.source = m.root.source ∧
      ∀ mark, (m.splice plan m.rows.length r).root.count mark = m.root.count mark := by
  have hlinked : (m.linked plan m.rows.length r).root = m.root := by
    obtain ⟨parent, prev⟩ := plan
    cases prev <;> cases parent <;> rfl
  rw [splice_eq]
  split
  · cases plan.parent with
    | none =>
      refine ⟨?_, fun mark => ?_⟩
      · show (m.linked plan m.rows.length r).root.source = _
        rw [hlinked]
      · show Layer.count mark { (m.linked plan m.rows.length r).root with last := _ } = _
        rw [hlinked]
        cases mark <;> rfl
    | some q =>
      show (m.linked plan m.rows.length r).root.source = _ ∧
        ∀ mark, Layer.count mark (m.linked plan m.rows.length r).root = _
      rw [hlinked]
      exact ⟨rfl, fun _ => rfl⟩
  · rw [hlinked]
    exact ⟨rfl, fun _ => rfl⟩

/-- A row that holds no mark, spliced. -/
theorem Exact.splice (h : m.Exact t) (ha : m.Anchored t plan) (hdead : r.dead = false)
    (hslot : r.slot = .unopened) (hflag : ∀ mark, r.flag mark = false)
    (hown : ∀ mark, r.own mark = false) :
    (m.splice plan m.rows.length r).Exact (spliced t plan m.rows.length) := by
  have hr := h.rooted
  have hr' := hr.splice ha hdead hslot
  have hnew : (m.splice plan m.rows.length r).row m.rows.length =
      ⟨plan.parent, m.planNext plan, none, r⟩ :=
    row_eq _ (hr.splice_getElem? (x := 0) ha).2.2
  have hmem : ∀ {x : Nat}, x ∈ (spliced t plan m.rows.length).ids → x ≠ m.rows.length →
      x ∈ t.ids := fun {x} hx hne =>
    (List.mem_cons.mp ((spliced_ids ha _).mem_iff.mp hx)).resolve_left hne
  have hfresh : m.rows.length ∉ t.ids := fun hin => Nat.lt_irrefl _ (hr.lt hin)
  have hflagged : ∀ mark x, x ∈ t.ids →
      (m.splice plan m.rows.length r).flagged mark x = m.flagged mark x := by
    intro mark x hx
    obtain ⟨-, slot, hb, -⟩ := hr.splice_row (r := r) ha hx
    unfold flagged
    rw [hb]
    cases mark <;> rfl
  have hnewflag : ∀ mark, (m.splice plan m.rows.length r).flagged mark m.rows.length = false := by
    intro mark
    unfold flagged
    rw [hnew]
    exact hflag mark
  have hcount : ∀ mark o, (∀ x, o = some x → x ∈ t.ids) →
      ((m.splice plan m.rows.length r).holdingLayer o).count mark =
        (m.holdingLayer o).count mark := by
    intro mark o ho
    cases o with
    | none => exact splice_root.2 mark
    | some x =>
      obtain ⟨-, slot, hb, -, hk⟩ := hr.splice_row (r := r) ha (ho x rfl)
      rw [holdingLayer_some, holdingLayer_some, hb]
      exact hk mark
  have hold : ∀ mark o, (t.layer o).countP ((m.splice plan m.rows.length r).flagged mark) =
      (t.layer o).countP (m.flagged mark) := fun mark o =>
    List.countP_congr fun x hx => by rw [hflagged mark x ((Forest.layer_sublist o).subset hx)]
  have hput : ∀ mark (prev : Option Nat) (l : List Nat),
      (put prev m.rows.length l).countP ((m.splice plan m.rows.length r).flagged mark) =
        l.countP ((m.splice plan m.rows.length r).flagged mark) := by
    intro mark prev l
    cases prev with
    | none =>
      show List.countP _ (_ :: l) = _
      rw [List.countP_cons_of_neg (by rw [hnewflag]; nofun)]
    | some p =>
      show List.countP _ (Forest.insertBehind p _ l) = _
      induction l with
      | nil => rfl
      | cons y l ih =>
        have hcons : Forest.insertBehind p m.rows.length (y :: l) =
            (if y = p then [y, m.rows.length] else [y]) ++ Forest.insertBehind p m.rows.length l :=
          List.flatMap_cons
        rw [hcons, List.countP_append, ih, List.countP_cons]
        split
        · simp [List.countP_cons, hnewflag, Nat.add_comm]
        · simp [List.countP_cons, Nat.add_comm]
  refine ⟨hr', fun mark => ⟨fun o ho => ?_, fun x hx _ => ?_⟩⟩
  · by_cases hn : o = some m.rows.length
    · subst hn
      have hnil : (spliced t plan m.rows.length).layer (some m.rows.length) = [] := by
        have htail := hr'.tail (some m.rows.length) ho
        rw [holdingLayer_some, hnew, hslot] at htail
        exact List.getLast?_eq_none_iff.mp htail.symm
      rw [hnil, holdingLayer_some, hnew, hslot]
      cases mark <;> rfl
    · have ho' : ∀ x, o = some x → x ∈ t.ids := fun x hx =>
        hmem (ho x hx) fun e => hn (hx.trans (congrArg some e))
      rw [spliced_layer hr ha hn, hcount mark o ho', (h.tallied mark).counted o ho']
      split
      · rw [hput, hold]
      · rw [hold]
  · by_cases hn : x = m.rows.length
    · subst hn
      rw [hnewflag]
      refine ⟨nofun, fun hh => ?_⟩
      unfold Held at hh
      rw [hnew, Row.kids_eq, hslot, hown mark] at hh
      refine hh.elim nofun fun hk => absurd hk ?_
      cases mark <;> exact Nat.lt_irrefl 0
    · have hxt := hmem hx hn
      obtain ⟨-, slot, hb, -, hk⟩ := hr.splice_row (r := r) ha hxt
      rw [hflagged mark x hxt, (h.tallied mark).flags x hxt nofun]
      unfold Held
      rw [Row.kids_eq, Row.kids_eq, hb]
      have hkm : slot.layer.count mark = (m.row x).body.slot.layer.count mark := hk mark
      show _ ↔ _ ∨ 0 < slot.layer.count mark
      rw [hkm]
      cases mark <;> exact Iff.rfl

end Splice

/-! ## Interiors -/

/-- Rows that keep their marks, and new ones that hold none. -/
theorem Exact.regrown {t' : Forest Unit} (h : m.Exact t) (hr : m'.Rooted t')
    (hrow : ∀ x ∈ t'.ids, ∀ mark, (x ∈ t.ids ∧ m'.flagged mark x = m.flagged mark x ∧
        (m'.Held mark x ↔ m.Held mark x)) ∨ (m'.flagged mark x = false ∧ ¬ m'.Held mark x))
    (hcount : ∀ mark (o : Option Nat), (∀ x, o = some x → x ∈ t'.ids) →
      (m'.holdingLayer o).count mark = (t'.layer o).countP (m'.flagged mark)) :
    m'.Exact t' := by
  refine ⟨hr, fun mark => ⟨hcount mark, fun x hx _ => ?_⟩⟩
  rcases hrow x hx mark with ⟨hin, hf, hh⟩ | ⟨hf, hh⟩
  · rw [hf, hh]
    exact (h.tallied mark).flags x hin nofun
  · rw [hf]
    exact ⟨nofun, fun e => absurd e hh⟩

theorem unheld {x : Nat} (h : (m.row x).body.Blank) (mark : Mark) :
    m.flagged mark x = false ∧ ¬ m.Held mark x := by
  refine ⟨h.flag mark, ?_⟩
  unfold Held
  rw [Row.kids_eq, h.slot, h.own]
  rintro (e | e)
  · cases e
  · cases mark <;> exact absurd e (Nat.lt_irrefl 0)

/-- An interior parsed: its rows hold no mark. -/
theorem Exact.parse (h : m.Exact t) (hid : id ∈ t.ids) (hslot : (m.row id).body.slot = .unopened)
    {rows : List Row} {run : Option (Nat × Nat)} (hs : m.Sprouts m' id rows run)
    (hrows : ∀ r ∈ rows, r.Blank) :
    m'.Exact (t.rekid id (line (List.range' m.rows.length rows.length))) := by
  have hr := h.rooted
  have hlt := hr.lt hid
  have hlast : (m.row id).body.slot.layer.last = none := by rw [hslot]; rfl
  have hr' := hr.parse hid hlast hs fun r hin => ⟨(hrows r hin).dead, (hrows r hin).slot⟩
  have hmem : ∀ {x : Nat}, x ∈ (t.rekid id (line (List.range' m.rows.length rows.length))).ids ↔
      x ∈ t.ids ∨ m.rows.length ≤ x ∧ x < m.rows.length + rows.length := hr.mem_sprouts hid hlast
  have hnew : ∀ {x : Nat}, m.rows.length ≤ x → x < m.rows.length + rows.length →
      (m'.row x).body.Blank := fun {x} hle hxlt => by
    rcases hs.old_or_new (x := x) (by rw [hs.length]; exact hxlt) with hx | ⟨i, r, rfl, hi⟩
    · omega
    · rw [(hs.row_new hi).2]
      exact hrows r (List.mem_of_getElem? hi)
  have hflag : ∀ {x : Nat}, x ∈ t.ids → ∀ mark, m'.flagged mark x = m.flagged mark x :=
    fun {x} hx mark => by
      unfold flagged
      by_cases he : x = id
      · subst he
        rw [hs.row_self hlt]
        cases mark <;> rfl
      · rw [hs.row_other (hr.lt hx) he]
  refine h.regrown hr' (fun x hx mark => ?_) fun mark o ho => ?_
  · rcases hmem.mp hx with hin | ⟨hle, hlt⟩
    · refine .inl ⟨hin, hflag hin mark, ?_⟩
      unfold Held
      by_cases he : x = id
      · subst he
        rw [hs.row_self (hr.lt hid), Row.kids_eq, Row.kids_eq, hslot]
        cases mark <;> exact Iff.rfl
      · rw [hs.row_other (hr.lt hin) he]
    · exact .inr (unheld (hnew hle hlt) mark)
  · by_cases he : o = some id
    · -- the container's own layer is the new rows
      subst he
      rw [Forest.layer_rekid_self hid, line_tops, holdingLayer_some, hs.row_self hlt]
      refine (Eq.trans ?_ (List.countP_eq_zero.mpr fun y hy => ?_).symm : _ = _)
      · cases mark <;> rfl
      · obtain ⟨hle, hlt⟩ := List.mem_range'_1.mp hy
        rw [(unheld (hnew hle hlt) mark).1]
        intro e
        cases e
    · by_cases hin : ∀ x, o = some x → x ∈ t.ids
      · have hheld : m'.holdingLayer o = m.holdingLayer o := by
          cases o with
          | none => exact hs.root
          | some x =>
            rw [holdingLayer_some, holdingLayer_some,
              hs.row_other (hr.lt (hin x rfl)) fun e => he (congrArg some e)]
        rw [hheld, hr.layer_sprouts hid hlast hin he]
        refine ((h.tallied mark).counted o hin).trans (List.countP_congr fun x hx => ?_)
        rw [hflag ((Forest.layer_sublist o).subset hx)]
      · obtain ⟨x, hx⟩ := not_forall.mp hin
        obtain ⟨rfl, hxt⟩ := Classical.not_imp.mp hx
        obtain ⟨hle, hlt⟩ := (hmem.mp (ho x rfl)).resolve_left hxt
        have hblank := hnew hle hlt
        have htail := hr'.tail (some x) ho
        rw [holdingLayer_some, hblank.slot] at htail
        rw [List.getLast?_eq_none_iff.mp htail.symm, holdingLayer_some, hblank.slot]
        cases mark <;> rfl


/-- A fault parked in a slot that was never parsed. -/
theorem Exact.park (h : m.Exact t) (hid : id ∈ t.ids) (hslot : (m.row id).body.slot = .unopened)
    (index : Nat) : (m.setSlot id (.fault index) none).Exact t := by
  have hr := h.rooted
  have hlast : (m.row id).body.slot.layer.last = none := by rw [hslot]; rfl
  have hrow : ∀ {x : Nat}, x ∈ t.ids → ∀ mark,
      ((m.setSlot id (.fault index) none).row x).body.flag mark = (m.row x).body.flag mark ∧
      ((m.setSlot id (.fault index) none).row x).body.own mark = (m.row x).body.own mark ∧
      ((m.setSlot id (.fault index) none).row x).body.slot.layer.count mark =
        (m.row x).body.slot.layer.count mark := by
    intro x hx mark
    rw [setSlot_row _ _ _ (hr.lt hx)]
    split
    · next he =>
      subst he
      rw [hslot]
      cases mark <;> exact ⟨rfl, rfl, rfl⟩
    · exact ⟨rfl, rfl, rfl⟩
  refine h.regrown (hr.park hid hlast index) (fun x hx mark => .inl ⟨hx, (hrow hx mark).1, ?_⟩)
    fun mark o ho => ?_
  · unfold Held
    rw [Row.kids_eq, Row.kids_eq, (hrow hx mark).2.1, (hrow hx mark).2.2]
  · have hlayer : ((m.setSlot id (.fault index) none).holdingLayer o).count mark =
        (m.holdingLayer o).count mark := by
      cases o with
      | none => rfl
      | some x =>
        rw [holdingLayer_some, holdingLayer_some]
        exact (hrow (ho x rfl) mark).2.2
    rw [hlayer, (h.tallied mark).counted o ho]
    refine List.countP_congr fun x hx => ?_
    unfold flagged
    rw [(hrow ((Forest.layer_sublist o).subset hx) mark).1]

theorem blank_met {authored : Bool} {pos : Nat} {records : List Cursor.Record} {r : Row}
    (h : r ∈ metRows standard authored pos records) : r.Blank := by
  obtain ⟨pos, a, rfl⟩ := metRows_met h
  exact ⟨rfl, rfl, fun mark => by cases mark <;> rfl, fun mark => by cases mark <;> rfl⟩

theorem blank_interior {w : Interior} {isAlias : Bool} {records : List Cursor.Record} {r : Row}
    (h : r ∈ interiorRows standard w isAlias records) : r.Blank := by
  obtain ⟨b, hb, rfl⟩ := List.mem_map.mp h
  obtain ⟨hdead, hslot, hflag, hown⟩ := blank_met hb
  refine ⟨hdead, hslot, fun mark => ?_, fun mark => ?_⟩
  · cases mark with
    | dirt => exact hflag .dirt
    | hist => exact hflag .hist
  · cases mark with
    | dirt => exact hown .dirt
    | hist => exact hown .hist

theorem blank_authored (field : FieldNumber) (kind : RecordKind) {ghost : Edit}
    (h : ghost.ownDirty = false) : (Row.authored field kind ghost).Blank := by
  refine ⟨rfl, rfl, fun mark => by cases mark <;> rfl, fun mark => ?_⟩
  cases mark with
  | dirt => exact h
  | hist => rfl

theorem blank_cloned (r : Row) : r.clonedAlias.Blank :=
  ⟨rfl, rfl, fun mark => by cases mark <;> rfl, fun mark => by cases mark <;> rfl⟩

/-- An opened machine holds no mark. -/
theorem exact_open {cap : Nat} {source : List UInt8}
    (h : openSource standard cap source = .ok m) :
    m.Exact (line (List.range' 0 m.rows.length)) := by
  have hr := rooted_open h
  have hblank : ∀ {x : Nat}, x < m.rows.length → (m.row x).body.Blank := fun {x} hx => by
    obtain ⟨records, -, -, rfl⟩ := openSource_eq h
    have hc := List.getElem?_eq_getElem hx
    rw [row_eq _ hc]
    exact blank_met (laid_cell hc).2.2.1
  have hroot : ∀ mark, m.root.count mark = 0 := fun mark => by
    obtain ⟨records, -, -, rfl⟩ := openSource_eq h
    cases mark <;> rfl
  refine ⟨hr, fun mark => ⟨fun o ho => ?_, fun x hx _ => ?_⟩⟩
  · have hzero : (m.holdingLayer o).count mark = 0 := by
      cases o with
      | none => exact hroot mark
      | some x =>
        rw [holdingLayer_some, (hblank (hr.lt (ho x rfl))).slot]
        cases mark <;> rfl
    rw [hzero]
    refine (List.countP_eq_zero.mpr fun y hy => ?_).symm
    rw [(unheld (hblank (hr.lt ((Forest.layer_sublist o).subset hy))) mark).1]
    nofun
  · obtain ⟨hf, hh⟩ := unheld (hblank (hr.lt hx)) mark
    rw [hf]
    exact ⟨nofun, fun e => absurd e hh⟩

end Exact

end Machine

end ProtobufEdit.Revise
