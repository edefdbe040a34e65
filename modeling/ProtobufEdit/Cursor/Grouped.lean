import ProtobufEdit.Cursor
import ProtobufEdit.Loop

/-!
# The grouped cursor

The buffered walk over a group-capable document: one step delivers a record, or a group's
framing tag under the pairing law, or the walk's first refusal.
-/

namespace ProtobufEdit.Cursor.Grouped

open Wire Wire.Grouped Varint Loop

set_option linter.dupNamespace false

/-- The cursor's own bound, over the range of `DepthLimit`. -/
abbrev GroupDepth := DepthLimit

inductive FaultKind where
  | record (fault : RecordFault)
  | groupEndMismatch (opened : FieldNumber) (openedAt : Nat) (found : FieldNumber)
  | groupEndOrphan (found : FieldNumber)
  | groupUnclosed (opened : FieldNumber) (openedAt : Nat)
  | depthExceeded (field : FieldNumber) (limit : GroupDepth)
  deriving DecidableEq, Repr

structure Fault where
  pos : Nat
  kind : FaultKind
  deriving DecidableEq, Repr

/-- The wire breach, summarized by who acts on it. -/
inductive WireBreach where
  | varint
  | tag
  | truncated
  | grouping
  | depth
  | nonMinimal
  deriving DecidableEq, Repr

def recordBreach : RecordFault → WireBreach
  | .read _ _ => .varint
  | .fieldZero _ | .unassigned _ _ => .tag
  | .fixedTruncated _ | .lenOverrun _ _ => .truncated
  | .nonMinimalTag | .nonMinimalLen _ | .nonMinimalValue _ => .nonMinimal

def breach : FaultKind → WireBreach
  | .record fault => recordBreach fault
  | .groupEndMismatch _ _ _ | .groupEndOrphan _ | .groupUnclosed _ _ => .grouping
  | .depthExceeded _ _ => .depth

inductive EntryKind where
  | value (v : Value)
  | groupEnter
  | groupExit
  deriving DecidableEq, Repr

structure Entry where
  field : FieldNumber
  kind : EntryKind
  deriving DecidableEq, Repr

/-- `opens` stands innermost first; the widths are the last head's. -/
structure Cursor where
  data : List UInt8
  opens : List (FieldNumber × Nat)
  pos : Nat
  limit : GroupDepth
  tagWidth : Nat
  lenWidth : Nat
  deriving DecidableEq, Repr

/-- The admission cap: `i32::MAX` bytes. -/
def Cursor.over (data : List UInt8) (limit : GroupDepth) : Option Cursor :=
  if data.length > PayloadLen.max then none else some ⟨data, [], 0, limit, 0, 0⟩

/-- `none` is the panic over a payload outside the LEN class. -/
def Cursor.within (payload : List UInt8) (limit : GroupDepth) : Option Cursor :=
  if payload.length ≤ PayloadLen.max then some ⟨payload, [], 0, limit, 0, 0⟩ else none

/-- What one call delivers, with the cursor behind it. -/
abbrev Stepped := Option (Except Fault Entry) × Cursor

/-- A refusal empties the window and the open stack; `pos` stays at the refused head. -/
def Cursor.fault (c : Cursor) (pos : Nat) (kind : FaultKind) : Stepped :=
  (some (.error ⟨pos, kind⟩), { c with data := [], opens := [] })

def step (standard : Standard) (c : Cursor) : Stepped :=
  if c.data.length ≤ c.pos then
    match c.opens with
    | (opened, openedAt) :: _ => c.fault c.pos (.groupUnclosed opened openedAt)
    | [] => (none, c)
  else
    match readHead standard c.data c.pos with
    | .error (pos, fault) => c.fault pos (.record fault)
    | .ok (field, low3, tagW) =>
      let valueAt := c.pos + tagW
      match classify low3 with
      | .record .varint => body field tagW (readBody standard c.data valueAt field .varint)
      | .record .i64 => body field tagW (readBody standard c.data valueAt field .i64)
      | .record .i32 => body field tagW (readBody standard c.data valueAt field .i32)
      | .record .len => body field tagW (readBody standard c.data valueAt field .len)
      | .record .group =>
        if c.limit.asInner ≤ c.opens.length then c.fault c.pos (.depthExceeded field c.limit)
        else
          (some (.ok ⟨field, .groupEnter⟩), { c with
            opens := (field, c.pos) :: c.opens, pos := valueAt, tagWidth := tagW, lenWidth := 0 })
      | .groupEnd =>
        match c.opens with
        | (opened, openedAt) :: opens =>
          if opened = field then
            (some (.ok ⟨field, .groupExit⟩), { c with
              opens := opens, pos := valueAt, tagWidth := tagW, lenWidth := 0 })
          else c.fault c.pos (.groupEndMismatch opened openedAt field)
        | [] => c.fault c.pos (.groupEndOrphan field)
      | .unassigned => c.fault c.pos (.record (.unassigned field low3))
where
  body (field : FieldNumber) (tagW : Nat) : Except (Nat × RecordFault) Body → Stepped
    | .error (pos, fault) => c.fault pos (.record fault)
    | .ok b =>
      (some (.ok ⟨field, .value b.value⟩), { c with
        pos := b.stop, tagWidth := tagW, lenWidth := b.lenWidth })

/-- Stepping on, entering every group: `some` is the walk's refusal. -/
def turn (standard : Standard) (c : Cursor) : Turn Cursor (Option Fault) :=
  match step standard c with
  | (none, _) => .halt none
  | (some (.error fault), _) => .halt (some fault)
  | (some (.ok _), c) => .next c

def exhaust (standard : Standard) (c : Cursor) : Option (Option Fault) :=
  run (turn standard) (c.data.length + 1) c

/-! ## Every delivery advances -/

section Advance

variable {standard : Standard} {c c' : Cursor} {entry : Entry}

/-- A delivering step keeps the window and the limit and moves forward inside the window. -/
theorem step_advances (h : step standard c = (some (.ok entry), c')) :
    c'.data = c.data ∧ c'.limit = c.limit ∧ c.pos < c'.pos ∧ c'.pos ≤ c.data.length := by
  unfold step at h
  split at h
  case isTrue => split at h <;> cases h
  case isFalse =>
    split at h
    case h_1 => cases h
    case h_2 field code tagW hhead =>
      obtain ⟨htag, hin⟩ := readHead_advances hhead
      have hbody : ∀ kind, step.body c field tagW
          (readBody standard c.data (c.pos + tagW) field kind) = (some (.ok entry), c') →
          c'.data = c.data ∧ c'.limit = c.limit ∧ c.pos < c'.pos ∧ c'.pos ≤ c.data.length := by
        intro kind e
        cases hb : readBody standard c.data (c.pos + tagW) field kind with
        | error refused => rw [hb] at e; cases e
        | ok b =>
          rw [hb] at e
          cases e
          obtain ⟨hle, hstop⟩ := readBody_advances hb hin
          exact ⟨rfl, rfl, by simp only; omega, hstop⟩
      simp only at h
      split at h
      · exact hbody .varint h
      · exact hbody .i64 h
      · exact hbody .i32 h
      · exact hbody .len h
      · split at h
        · cases h
        · cases h
          exact ⟨rfl, rfl, by simp only; omega, hin⟩
      · split at h
        · split at h
          · cases h
            exact ⟨rfl, rfl, by simp only; omega, hin⟩
          · cases h
        · cases h
      · cases h

/-- The walk ends inside its window: every document has a verdict. -/
theorem exhaust_yields (standard : Standard) (c : Cursor) (hpos : c.pos ≤ c.data.length) :
    ∃ verdict, exhaust standard c = some verdict ∧ Yields (turn standard) c verdict := by
  have hstep : ∀ s s', (s.data = c.data ∧ s.pos ≤ s.data.length) →
      turn standard s = .next s' →
      (s'.data = c.data ∧ s'.pos ≤ s'.data.length) ∧
        s'.data.length - s'.pos < s.data.length - s.pos := by
    intro s s' ⟨hd, hp⟩ e
    unfold turn at e
    split at e
    case h_1 => cases e
    case h_2 => cases e
    case h_3 entry s'' hs =>
      cases e
      obtain ⟨hd', -, hlt, hle⟩ := step_advances hs
      refine ⟨⟨hd'.trans hd, ?_⟩, ?_⟩ <;> rw [hd'] <;> omega
  obtain ⟨verdict, e⟩ := run_of_measure (fun s : Cursor => s.data = c.data ∧ s.pos ≤ s.data.length)
    (fun s => s.data.length - s.pos) hstep ⟨rfl, hpos⟩
    (show c.data.length - c.pos < c.data.length + 1 by omega)
  exact ⟨verdict, e, yields_of_run e⟩

end Advance

/-! ## A step reads the construct at its position -/

/-- The records of the shared arms under the grouped table. -/
def ofBody : Groupless.RecordKind → RecordKind
  | .varint => .varint
  | .i64 => .i64
  | .len => .len
  | .i32 => .i32

theorem low3_ofBody (kind : Groupless.RecordKind) : (ofBody kind).low3 = kind.low3 := by
  cases kind <;> rfl

section Step

variable {standard : Standard} {c c' : Cursor} {field : FieldNumber} {tag rest : List UInt8}

/-- The cursor behind a record. -/
def Cursor.past (c : Cursor) (r : Record) : Cursor :=
  { c with
    pos := c.pos + r.bytes.length, tagWidth := r.tag.length, lenWidth := r.payload.lenWidth }

/-- The cursor behind a framing tag. -/
def Cursor.framed (c : Cursor) (opens : List (FieldNumber × Nat)) (tag : List UInt8) : Cursor :=
  { c with opens, pos := c.pos + tag.length, tagWidth := tag.length, lenWidth := 0 }

theorem step_end (h : c.data.drop c.pos = []) (ho : c.opens = []) :
    step standard c = (none, c) := by
  unfold step
  rw [if_pos (List.drop_eq_nil_iff.mp h), ho]

theorem inside_of_tag {code : Low3} (he : c.data.drop c.pos = tag ++ rest)
    (ht : IsTag standard field code tag) :
    ¬ c.data.length ≤ c.pos ∧ readHead standard c.data c.pos = .ok (field, code, tag.length) := by
  have hlen := length_of_drop_eq he
  have hpos := ht.admits.isWord.length_pos
  exact ⟨by omega, readHead_ok.mpr ⟨tag, rest, he, ht, rfl⟩⟩

/-- The shared arms, as one. -/
theorem step_arm {kind : Groupless.RecordKind} {tagW : Nat} (hin : ¬ c.data.length ≤ c.pos)
    (hhead : readHead standard c.data c.pos = .ok (field, kind.low3, tagW)) :
    step standard c =
      step.body c field tagW (readBody standard c.data (c.pos + tagW) field kind) := by
  unfold step
  rw [if_neg hin, hhead]
  cases kind <;> rfl

theorem step_record {r : Record} (he : c.data.drop c.pos = r.bytes ++ rest)
    (hlaw : r.Lawful standard) :
    step standard c = (some (.ok ⟨r.field, .value r.payload.value⟩), c.past r) := by
  have he' : c.data.drop c.pos = r.tag ++ (r.payload.bytes ++ rest) := by
    rw [he, Record.bytes, List.append_assoc]
  obtain ⟨hin, hhead⟩ := inside_of_tag he' hlaw.isTag
  have hbody := (@readBody_ok standard c.data (c.pos + r.tag.length) r.field r.payload.kind _).mpr
    ⟨r.payload, rest, drop_of_drop_eq he', hlaw.payload, rfl, rfl⟩
  rw [step_arm hin hhead, hbody]
  simp only [step.body, Cursor.past, Record.bytes, List.length_append, Nat.add_assoc]

theorem step_opener (he : c.data.drop c.pos = tag ++ rest) (ht : IsTag standard field 3 tag)
    (hroom : c.opens.length < c.limit.asInner) :
    step standard c =
      (some (.ok ⟨field, .groupEnter⟩), c.framed ((field, c.pos) :: c.opens) tag) := by
  obtain ⟨hin, hhead⟩ := inside_of_tag he ht
  unfold step
  rw [if_neg hin, hhead]
  show (if c.limit.asInner ≤ c.opens.length then _ else _) = _
  rw [if_neg (by omega)]
  rfl

theorem step_opener_full (he : c.data.drop c.pos = tag ++ rest) (ht : IsTag standard field 3 tag)
    (hfull : c.limit.asInner ≤ c.opens.length) :
    step standard c = c.fault c.pos (.depthExceeded field c.limit) := by
  obtain ⟨hin, hhead⟩ := inside_of_tag he ht
  unfold step
  rw [if_neg hin, hhead]
  exact if_pos hfull

theorem step_closer {openedAt : Nat} {opens : List (FieldNumber × Nat)}
    (he : c.data.drop c.pos = tag ++ rest) (ht : IsTag standard field 4 tag)
    (ho : c.opens = (field, openedAt) :: opens) :
    step standard c = (some (.ok ⟨field, .groupExit⟩), c.framed opens tag) := by
  obtain ⟨hin, hhead⟩ := inside_of_tag he ht
  unfold step
  rw [if_neg hin, hhead, ho]
  show (if field = field then _ else _) = _
  rw [if_pos rfl]
  rfl

/-- A step that delivers a value stands on a lawful record. -/
theorem step_value {v : Value} (h : step standard c = (some (.ok ⟨field, .value v⟩), c')) :
    ∃ r rest, c.data.drop c.pos = Record.bytes r ++ rest ∧ r.Lawful standard ∧
      r.field = field ∧ r.payload.value = v ∧ c' = c.past r := by
  unfold step at h
  split at h
  case isTrue => split at h <;> cases h
  case isFalse =>
    split at h
    case h_1 => cases h
    case h_2 field' code tagW hhead =>
      obtain ⟨tag, behind, he, htag, rfl⟩ := readHead_ok.mp hhead
      have hbody : ∀ kind : Groupless.RecordKind, code = kind.low3 →
          step.body c field' tag.length
            (readBody standard c.data (c.pos + tag.length) field' kind) =
              (some (.ok ⟨field, .value v⟩), c') →
          ∃ r rest, c.data.drop c.pos = Record.bytes r ++ rest ∧ r.Lawful standard ∧
            r.field = field ∧ r.payload.value = v ∧ c' = c.past r := by
        intro kind hk e
        cases hb : readBody standard c.data (c.pos + tag.length) field' kind with
        | error refused => rw [hb] at e; cases e
        | ok b =>
          obtain ⟨p, rest, hp, hlaw, rfl, rfl⟩ := readBody_ok.mp hb
          rw [hb] at e
          cases e
          refine ⟨⟨_, tag, p⟩, rest, ?_, ⟨hk ▸ htag, hlaw⟩, rfl, rfl, ?_⟩
          · rw [he, ← drop_of_drop_eq he, hp, Record.bytes, List.append_assoc]
          · simp only [Cursor.past, Record.bytes, List.length_append, Nat.add_assoc]
      simp only at h
      split at h
      case h_1 hc => exact hbody .varint (low3_of_classify hc) h
      case h_2 hc => exact hbody .i64 (low3_of_classify hc) h
      case h_3 hc => exact hbody .i32 (low3_of_classify hc) h
      case h_4 hc => exact hbody .len (low3_of_classify hc) h
      case h_5 => split at h <;> cases h
      case h_6 =>
        split at h
        · split at h <;> cases h
        · cases h
      case h_7 => cases h

/-- A step that enters a group stands on a start tag with room for it. -/
theorem step_opened (h : step standard c = (some (.ok ⟨field, .groupEnter⟩), c')) :
    ∃ tag rest, c.data.drop c.pos = tag ++ rest ∧ IsTag standard field 3 tag ∧
      c.opens.length < c.limit.asInner := by
  unfold step at h
  split at h
  case isTrue => split at h <;> cases h
  case isFalse =>
    split at h
    case h_1 => cases h
    case h_2 field' code tagW hhead =>
      obtain ⟨tag, behind, he, htag, rfl⟩ := readHead_ok.mp hhead
      have hbody : ∀ kind, step.body c field' tag.length
          (readBody standard c.data (c.pos + tag.length) field' kind) ≠
            (some (.ok ⟨field, .groupEnter⟩), c') := by
        intro kind e
        cases hb : readBody standard c.data (c.pos + tag.length) field' kind with
        | error refused => rw [hb] at e; cases e
        | ok b => rw [hb] at e; cases e
      simp only at h
      split at h
      · exact absurd h (hbody .varint)
      · exact absurd h (hbody .i64)
      · exact absurd h (hbody .i32)
      · exact absurd h (hbody .len)
      · next hc =>
        split at h
        case isTrue => cases h
        case isFalse hroom =>
          cases h
          have hcode : code = 3 := low3_of_classify hc
          exact ⟨tag, behind, he, hcode ▸ htag, Nat.lt_of_not_le hroom⟩
      · split at h
        · split at h <;> cases h
        · cases h
      · cases h

/-- A step that exits a group stands on the end tag of the innermost open one. -/
theorem step_closed (h : step standard c = (some (.ok ⟨field, .groupExit⟩), c')) :
    ∃ openedAt opens tag rest, c.data.drop c.pos = tag ++ rest ∧ IsTag standard field 4 tag ∧
      c.opens = (field, openedAt) :: opens := by
  unfold step at h
  split at h
  case isTrue => split at h <;> cases h
  case isFalse =>
    split at h
    case h_1 => cases h
    case h_2 field' code tagW hhead =>
      obtain ⟨tag, behind, he, htag, rfl⟩ := readHead_ok.mp hhead
      have hbody : ∀ kind, step.body c field' tag.length
          (readBody standard c.data (c.pos + tag.length) field' kind) ≠
            (some (.ok ⟨field, .groupExit⟩), c') := by
        intro kind e
        cases hb : readBody standard c.data (c.pos + tag.length) field' kind with
        | error refused => rw [hb] at e; cases e
        | ok b => rw [hb] at e; cases e
      simp only at h
      split at h
      · exact absurd h (hbody .varint)
      · exact absurd h (hbody .i64)
      · exact absurd h (hbody .i32)
      · exact absurd h (hbody .len)
      · split at h <;> cases h
      · next hc =>
        cases ho : c.opens with
        | nil => rw [ho] at h; cases h
        | cons o opens =>
          obtain ⟨opened, openedAt⟩ := o
          rw [ho] at h
          simp only at h
          split_ifs at h with hsame
          · cases h
            exact ⟨openedAt, opens, tag, behind, he, code_of_groupEnd hc ▸ htag, by rw [hsame]⟩
          · cases h
      · cases h

/-- What stands at a cursor: the end of its window, a record, a group's start tag with room for
it, the innermost open group's end tag, or nothing a step delivers. -/
theorem step_stands (standard : Standard) (c : Cursor) :
    c.data.drop c.pos = [] ∧ c.opens = [] ∨
      (∃ fault c', step standard c = (some (.error fault), c')) ∨
      (∃ r rest, c.data.drop c.pos = Record.bytes r ++ rest ∧ r.Lawful standard) ∨
      (∃ field tag rest, c.data.drop c.pos = tag ++ rest ∧ IsTag standard field 3 tag ∧
        c.opens.length < c.limit.asInner) ∨
      ∃ field openedAt opens tag rest, c.data.drop c.pos = tag ++ rest ∧
        IsTag standard field 4 tag ∧ c.opens = (field, openedAt) :: opens := by
  cases hs : step standard c with
  | mk item c' =>
    cases item with
    | none =>
      unfold step at hs
      split at hs
      case isTrue hend =>
        cases ho : c.opens with
        | nil => exact .inl ⟨List.drop_eq_nil_iff.mpr hend, rfl⟩
        | cons o opens => rw [ho] at hs; cases hs
      case isFalse =>
        exfalso
        have hbody : ∀ {field : FieldNumber} {tagW : Nat} {read : Except (Nat × RecordFault) Body},
            step.body c field tagW read ≠ (none, c') := by
          intro field tagW read e
          cases read <;> cases e
        repeat' (split at hs <;> try cases hs)
        all_goals exact hbody hs
    | some item =>
      cases item with
      | error fault => exact .inr (.inl ⟨fault, c', rfl⟩)
      | ok entry =>
        obtain ⟨field, kind⟩ := entry
        cases kind with
        | value v =>
          obtain ⟨r, rest, he, hlaw, -⟩ := step_value hs
          exact .inr (.inr (.inl ⟨r, rest, he, hlaw⟩))
        | groupEnter =>
          obtain ⟨tag, rest, he, htag, hroom⟩ := step_opened hs
          exact .inr (.inr (.inr (.inl ⟨field, tag, rest, he, htag, hroom⟩)))
        | groupExit =>
          obtain ⟨openedAt, opens, tag, rest, he, htag, ho⟩ := step_closed hs
          exact .inr (.inr (.inr (.inr ⟨field, openedAt, opens, tag, rest, he, htag, ho⟩)))

/-- A step that enters a group had room for it. -/
theorem step_enters (h : step standard c = (some (.ok ⟨field, .groupEnter⟩), c')) :
    c.opens.length < c.limit.asInner ∧ c'.opens.length = c.opens.length + 1 ∧
      c'.limit = c.limit := by
  obtain ⟨tag, rest, he, htag, hroom⟩ := step_opened h
  rw [step_opener he htag hroom] at h
  cases h
  exact ⟨hroom, rfl, rfl⟩

end Step

end ProtobufEdit.Cursor.Grouped
