import ProtobufEdit.Inspect.Groupless.Judge

/-!
# The declarative parse

A layer of lawful records up to the first fault in front, each with the layer its payload is read
as. `layer` is that parse by recursion, and the machine's table the preorder of its nodes.
-/

namespace ProtobufEdit.Inspect.Groupless

open Wire Wire.Groupless Cursor

/-! ## The reference -/

/-- A layer of records, each with its payload's records. -/
inductive Nodes where
  | nil
  | node (r : Met) (kids rest : Nodes)
  deriving DecidableEq, Repr

namespace Nodes

def size : Nodes → Nat
  | nil => 0
  | node _ kids rest => 1 + kids.size + rest.size

/-- The rows in preorder, the first of them the table's row `base`. -/
def rows (parent : Option Nat) : Nat → Nodes → List Row
  | _, nil => []
  | base, node r kids rest =>
    r.row parent kids.size ::
      (kids.rows (some base) (base + 1) ++ rest.rows parent (base + 1 + kids.size))

end Nodes

/-- A layer's records, and the fault that cut it short. -/
structure Parse where
  nodes : Nodes
  failure : Option Failure
  deriving DecidableEq, Repr

/-- A record in front of a layer. -/
def Parse.behind (r : Met) (kids : Nodes) (p : Parse) : Parse := ⟨.node r kids p.nodes, p.failure⟩

/-- A record whose payload is not read. -/
def Leaf (j : Job) (path : List FieldNumber) (rec : Record) : Prop :=
  rec.payload.kind ≠ .len ∨ j.advise path rec.field = .opaqueBytes ∨
    j.advise path rec.field = .speculate ∧ j.limit.asInner ≤ path.length

/-- The parse of the bytes from `start` to `zone`, inside containers of the fields in `path`. -/
inductive Parses (j : Job) : List FieldNumber → Nat → Nat → Parse → Prop where
  | done (path : List FieldNumber) (zone : Nat) : Parses j path zone zone ⟨.nil, none⟩
  | struck {path : List FieldNumber} {start zone off : Nat} {fault : FaultKind} : start < zone →
      Struck j.standard (span j.input.bytes start zone) off fault →
      Parses j path start zone ⟨.nil, some ⟨⟨start + off, fault⟩, start⟩⟩
  | leaf {path : List FieldNumber} {start zone : Nat} {rec : Record} {rest : List UInt8}
      {p : Parse} : first j.standard (span j.input.bytes start zone) = some (rec, rest) →
      Leaf j path rec → Parses j path (start + rec.bytes.length) zone p →
      Parses j path start zone (p.behind (.of start rec) .nil)
  -- a LEN whose payload is read, the payload first
  | kept {path : List FieldNumber} {start zone : Nat} {rec : Record} {rest : List UInt8}
      {inner p : Parse} : first j.standard (span j.input.bytes start zone) = some (rec, rest) →
      rec.payload.kind = .len → j.advise path rec.field ≠ .opaqueBytes →
      path.length < j.limit.asInner →
      Parses j (path ++ [rec.field]) (Met.of start rec).payloadStart (start + rec.bytes.length)
        inner →
      inner.failure = none → Parses j path (start + rec.bytes.length) zone p →
      Parses j path start zone (p.behind (.of start rec) inner.nodes)
  | absorbed {path : List FieldNumber} {start zone : Nat} {rec : Record} {rest : List UInt8}
      {inner p : Parse} : first j.standard (span j.input.bytes start zone) = some (rec, rest) →
      rec.payload.kind = .len → j.advise path rec.field = .speculate →
      path.length < j.limit.asInner →
      Parses j (path ++ [rec.field]) (Met.of start rec).payloadStart (start + rec.bytes.length)
        inner →
      inner.failure ≠ none → Parses j path (start + rec.bytes.length) zone p →
      Parses j path start zone (p.behind (.of start rec) .nil)
  | clipped {path : List FieldNumber} {start zone : Nat} {rec : Record} {rest : List UInt8}
      {inner : Parse} : first j.standard (span j.input.bytes start zone) = some (rec, rest) →
      rec.payload.kind = .len → j.advise path rec.field = .commit →
      path.length < j.limit.asInner →
      Parses j (path ++ [rec.field]) (Met.of start rec).payloadStart (start + rec.bytes.length)
        inner →
      inner.failure ≠ none →
      Parses j path start zone ⟨.node (.of start rec) inner.nodes .nil, inner.failure⟩
  | tooDeep {path : List FieldNumber} {start zone : Nat} {rec : Record} {rest : List UInt8} :
      first j.standard (span j.input.bytes start zone) = some (rec, rest) →
      rec.payload.kind = .len → j.advise path rec.field = .commit →
      j.limit.asInner ≤ path.length →
      Parses j path start zone ⟨.nil, some ⟨⟨start, .depthExceeded rec.field j.limit⟩, start⟩⟩

/-- The parse by recursion. -/
def layer (j : Job) : Nat → List FieldNumber → Nat → Nat → Parse
  | 0, _, _, _ => ⟨.nil, none⟩
  | fuel + 1, path, start, zone =>
    if start = zone then ⟨.nil, none⟩
    else
      match judge j.standard j.input.bytes zone start with
      | .error failure => ⟨.nil, some failure⟩
      | .ok r =>
        let rest := layer j fuel path r.stop zone
        let inner := layer j fuel (path ++ [r.field]) r.payloadStart r.stop
        if r.kind ≠ .len then rest.behind r .nil
        else
          match j.advise path r.field with
          | .opaqueBytes => rest.behind r .nil
          | .speculate =>
            if j.limit.asInner ≤ path.length ∨ inner.failure ≠ none then rest.behind r .nil
            else rest.behind r inner.nodes
          | .commit =>
            if j.limit.asInner ≤ path.length then
              ⟨.nil, some ⟨⟨r.start, .depthExceeded r.field j.limit⟩, r.start⟩⟩
            else if inner.failure = none then rest.behind r inner.nodes
            else ⟨.node r inner.nodes .nil, inner.failure⟩

/-- The whole document. -/
def reference (j : Job) : Parse := layer j (j.input.bytes.length + 1) [] 0 j.input.bytes.length

def Parse.tree (j : Job) (p : Parse) : Tree :=
  ⟨p.nodes.rows none 0, (p.failure.map Failure.cut).getD j.input.bytes.length,
    p.failure.map Failure.fault⟩

/-! ## The recursion is the parse -/

section Layer

variable {j : Job} {path : List FieldNumber} {start zone fuel : Nat} {rec : Record}
  {rest : List UInt8} {p : Parse}

/-- A record in front, as `layer` meets it. -/
theorem first_met (hz : zone ≤ j.input.bytes.length)
    (h : first j.standard (span j.input.bytes start zone) = some (rec, rest)) :
    judge j.standard j.input.bytes zone start = .ok (.of start rec) ∧ start < zone ∧
      start < (Met.of start rec).payloadStart ∧
      (Met.of start rec).payloadStart ≤ start + rec.bytes.length ∧
      start + rec.bytes.length ≤ zone := by
  have hj := (judge_ok_iff hz).mpr ⟨rec, rest, h, rfl⟩
  obtain ⟨-, hpay, hstop, -⟩ := judge_within hz hj
  have hlen : (Met.of start rec).payloadStart ≤ (Met.of start rec).stop := Nat.le_add_right _ _
  rw [Met.of_stop] at hstop hlen
  exact ⟨hj, by omega, hpay, hlen, hstop⟩

theorem layer_of_parses (h : Parses j path start zone p) (hz : zone ≤ j.input.bytes.length)
    (hle : start ≤ zone) (hfuel : zone - start < fuel) : layer j fuel path start zone = p := by
  induction h generalizing fuel with
  | done path zone =>
    cases fuel with
    | zero => omega
    | succ fuel => rw [layer, if_pos rfl]
  | struck hlt hs =>
    cases fuel with
    | zero => omega
    | succ fuel => rw [layer, if_neg (Nat.ne_of_lt hlt), (judge_error_iff hz).mpr ⟨_, _, hs, rfl⟩]
  | leaf hfirst hleaf _ ih =>
    obtain ⟨hj, hlt, hpay, hlen, hstop⟩ := first_met hz hfirst
    cases fuel with
    | zero => omega
    | succ fuel =>
      simp only [layer, if_neg (Nat.ne_of_lt hlt), hj, Met.of_stop, Met.of_kind, Met.of_field,
        ih hz hstop (show _ < fuel by omega)]
      rcases hleaf with hk | ha | ⟨ha, hdeep⟩
      · rw [if_pos hk]
      · simp only [ha, ite_self]
      · simp only [ha, hdeep, true_or, if_true, ite_self]
  | kept hfirst hk ha hroom _ hnone _ ihk ih =>
    obtain ⟨hj, hlt, hpay, hlen, hstop⟩ := first_met hz hfirst
    cases fuel with
    | zero => omega
    | succ fuel =>
      simp only [layer, if_neg (Nat.ne_of_lt hlt), hj, Met.of_stop, Met.of_kind, Met.of_field,
        ih hz hstop (show _ < fuel by omega), ihk (hstop.trans hz) hlen (show _ < fuel by omega),
        hk, hnone, Nat.not_le.mpr hroom, ne_eq, not_true_eq_false, or_self, if_false]
      cases hadvise : j.advise _ _ with
      | opaqueBytes => exact absurd hadvise ha
      | speculate => rfl
      | commit => rfl
  | absorbed hfirst hk ha hroom _ hfail _ ihk ih =>
    obtain ⟨hj, hlt, hpay, hlen, hstop⟩ := first_met hz hfirst
    cases fuel with
    | zero => omega
    | succ fuel =>
      simp only [layer, if_neg (Nat.ne_of_lt hlt), hj, Met.of_stop, Met.of_kind, Met.of_field,
        ih hz hstop (show _ < fuel by omega), ihk (hstop.trans hz) hlen (show _ < fuel by omega),
        hk, ha, ne_eq, not_true_eq_false, if_false]
      exact if_pos (.inr hfail)
  | clipped hfirst hk ha hroom _ hfail ihk =>
    obtain ⟨hj, hlt, hpay, hlen, hstop⟩ := first_met hz hfirst
    cases fuel with
    | zero => omega
    | succ fuel =>
      simp only [layer, if_neg (Nat.ne_of_lt hlt), hj, Met.of_stop, Met.of_kind, Met.of_field,
        ihk (hstop.trans hz) hlen (show _ < fuel by omega), hk, ha, hfail, Nat.not_le.mpr hroom,
        ne_eq, not_true_eq_false, if_false]
  | tooDeep hfirst hk ha hdeep =>
    obtain ⟨hj, hlt, -, -, -⟩ := first_met hz hfirst
    cases fuel with
    | zero => omega
    | succ fuel =>
      simp only [layer, if_neg (Nat.ne_of_lt hlt), hj, Met.of_kind, Met.of_field, Met.of_start, hk,
        ha, hdeep, ne_eq, not_true_eq_false, if_false, if_true]

/-- Some parse there is of any stretch of the input. -/
theorem exists_parses (j : Job) (path : List FieldNumber) (hz : zone ≤ j.input.bytes.length)
    (hle : start ≤ zone) : ∃ p, Parses j path start zone p := by
  induction hn : zone - start using Nat.strong_induction_on generalizing path start zone with
  | _ n ih =>
    rcases Nat.eq_or_lt_of_le hle with rfl | hlt
    · exact ⟨_, .done path start⟩
    rcases record_or_struck j.standard (span j.input.bytes start zone) with
      ⟨rec, rest, he, hlaw⟩ | ⟨off, fault, hs⟩
    swap
    · exact ⟨_, .struck hlt hs⟩
    have hfirst := first_iff.mpr ⟨he, hlaw⟩
    obtain ⟨-, -, hpay, hlen, hstop⟩ := first_met hz hfirst
    obtain ⟨p, hp⟩ := ih _ (by omega) path hz hstop rfl
    obtain ⟨inner, hinner⟩ := ih _ (by omega) (path ++ [rec.field]) (hstop.trans hz) hlen rfl
    by_cases hleaf : Leaf j path rec
    · exact ⟨_, .leaf hfirst hleaf hp⟩
    simp only [Leaf, not_or, not_and, not_not] at hleaf
    obtain ⟨hk, hopaque, hspeculate⟩ := hleaf
    cases ha : j.advise path rec.field with
    | opaqueBytes => exact absurd ha hopaque
    | speculate =>
      have hroom := Nat.lt_of_not_le (hspeculate ha)
      by_cases hfail : inner.failure = none
      · exact ⟨_, .kept hfirst hk hopaque hroom hinner hfail hp⟩
      · exact ⟨_, .absorbed hfirst hk ha hroom hinner hfail hp⟩
    | commit =>
      by_cases hdeep : j.limit.asInner ≤ path.length
      · exact ⟨_, .tooDeep hfirst hk ha hdeep⟩
      have hroom := Nat.lt_of_not_le hdeep
      by_cases hfail : inner.failure = none
      · exact ⟨_, .kept hfirst hk hopaque hroom hinner hfail hp⟩
      · exact ⟨_, .clipped hfirst hk ha hroom hinner hfail⟩

end Layer

/-- The recursion is the one parse of the document. -/
theorem parses_iff {j : Job} {p : Parse} :
    Parses j [] 0 j.input.bytes.length p ↔ p = reference j := by
  have heq : ∀ {q}, Parses j [] 0 j.input.bytes.length q → q = reference j := fun h =>
    (layer_of_parses h le_rfl (Nat.zero_le _) (Nat.lt_succ_self _)).symm
  refine ⟨heq, ?_⟩
  rintro rfl
  obtain ⟨q, hq⟩ := exists_parses j [] le_rfl (Nat.zero_le j.input.bytes.length)
  rwa [← heq hq]

end ProtobufEdit.Inspect.Groupless
