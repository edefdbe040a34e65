import ProtobufEdit.Cursor.Grouped
import ProtobufEdit.Scan.Chunking

/-!
# The buffered and the streaming reader

The grouped cursor, stepped to exhaustion, and the validator accept one language. Each
cursor step is a turn or two of the scanner over the whole input, and a refusal of one is a
refusal of the other under `streamFault`.
-/

namespace ProtobufEdit.Scan.Grouped

open Wire Wire.Grouped Loop Base128 Varint

/-! ## Corresponding faults -/

/-- The validator's fault where the cursor refuses. What the input cuts short the cursor
places at the cut construct, the validator at the input's end. -/
def streamFault (total : Nat) (fault : Cursor.Grouped.Fault) : Fault :=
  match fault.kind with
  | .record (.read stage .truncated) => ⟨total, .read stage .streamEnd⟩
  | .record (.read stage .tooWide) => ⟨fault.pos, .read stage .tooWide⟩
  | .record (.read stage .outOfClass) => ⟨fault.pos, .read stage .outOfClass⟩
  | .record (.fieldZero _) => ⟨fault.pos, .fieldZero⟩
  | .record (.unassigned field code) => ⟨fault.pos, .unassigned field code⟩
  | .record (.fixedTruncated field) => ⟨total, .fixedTruncated field⟩
  | .record (.lenOverrun _ len) => ⟨total, .payloadTruncated (len.asInner - (total - fault.pos))⟩
  | .record .nonMinimalTag => ⟨fault.pos, .nonMinimalTag⟩
  | .record (.nonMinimalLen field) => ⟨fault.pos, .nonMinimalLen field⟩
  | .record (.nonMinimalValue field) => ⟨fault.pos, .nonMinimalValue field⟩
  | .groupEndMismatch opened _ found => ⟨fault.pos, .groupEndMismatch found opened⟩
  | .groupEndOrphan found => ⟨fault.pos, .groupEndOrphan found⟩
  | .groupUnclosed opened _ => ⟨fault.pos, .groupUnclosed opened⟩
  | .depthExceeded field _ => ⟨fault.pos, .depthExceeded field⟩

/-- The refusals of a construct the input cuts short. -/
def CutShort : Cursor.Grouped.FaultKind → Prop
  | .record (.read _ .truncated) => True
  | .record (.fixedTruncated _) => True
  | .record (.lenOverrun _ _) => True
  | _ => False

/-- Corresponding faults strike at one coordinate, unless the input was cut short. -/
theorem streamFault_pos (total : Nat) (fault : Cursor.Grouped.Fault) :
    (CutShort fault.kind → (streamFault total fault).pos = total) ∧
      (¬ CutShort fault.kind → (streamFault total fault).pos = fault.pos) := by
  obtain ⟨pos, kind⟩ := fault
  cases kind with
  | record refused =>
    cases refused with
    | read stage cause => cases cause <;> simp [CutShort, streamFault]
    | _ => simp [CutShort, streamFault]
  | _ => simp [CutShort, streamFault]

def streamVerdict (total : Nat) : Option Cursor.Grouped.Fault → Conclusion
  | none => .accepted
  | some fault => .refused (streamFault total fault)

/-! ## The scanner over a whole input -/

/-- The drive over the input from `s` on, and the finish behind it, conclude so. -/
def Concludes (s : State) (conclusion : Conclusion) : Prop :=
  ∃ r events, Yields (turn .unit) s r ∧ conclude r = some (conclusion, events)

section Whole

variable (standard : Standard) (data : List UInt8) (depth : DepthLimit)

/-- The armed scanner at `pos`, between constructs of the root zone, the rest of the input
ahead. -/
def whole (pos : Nat) (mode : Mode) (stack : List Extent) (seen : List Event) : State :=
  ⟨⟨⟨pos, u64Max, .empty, standard, true⟩, mode, stack, depth⟩, data.drop pos, seen⟩

/-- The scanner whose input ran out inside a word. -/
def spent (held : List UInt8) (mode : Mode) (stack : List Extent) (seen : List Event) : State :=
  ⟨⟨⟨data.length, u64Max, ⟨value held, held⟩, standard, true⟩, mode, stack, depth⟩, [], seen⟩

variable {standard data depth} {pos : Nat} {mode : Mode} {stack : List Extent}
  {seen : List Event}

theorem whole_ready (hlen : data.length ≤ PayloadLen.max) (hpos : pos ≤ data.length) :
    (whole standard data depth pos mode stack seen).parser.pump.Ready := by
  refine ⟨rfl, Nat.zero_le _, ?_⟩
  simp only [whole, u64Max, PayloadLen.max] at hlen ⊢
  omega

theorem whole_settled (hlen : data.length ≤ PayloadLen.max) (hpos : pos ≤ data.length) :
    (whole standard data depth pos mode stack seen).parser.atEndpoint = false := by
  have hne : pos ≠ u64Max := by simp only [u64Max, PayloadLen.max] at hlen ⊢; omega
  simp [Parser.atEndpoint, whole, hne]

/-- What one arm's flow concludes: the run goes on, or the stream is judged where it halts. -/
def FlowConcludes (flow : Flow) (conclusion : Conclusion) : Prop :=
  match flow with
  | .next s => Concludes s conclusion
  | .halt r => ∃ events, conclude r = some (conclusion, events)

theorem concludes_of_turn {s : State} {flow : Flow} {conclusion : Conclusion}
    (h : turn .unit s = flow) (hc : FlowConcludes flow conclusion) : Concludes s conclusion := by
  cases flow with
  | next s' =>
    obtain ⟨r, events, hy, e⟩ := hc
    exact ⟨r, events, .next h hy, e⟩
  | halt r =>
    obtain ⟨events, e⟩ := hc
    exact ⟨r, events, .halt h, e⟩

theorem concludes_of_steps {s s' : State} {conclusion : Conclusion}
    (h : Steps (turn .unit) s s') (hc : Concludes s' conclusion) : Concludes s conclusion := by
  obtain ⟨r, events, hy, e⟩ := hc
  exact ⟨r, events, h.yields hy, e⟩

theorem halt_concludes (s : State) (pos : Nat) (kind : FaultKind) :
    FlowConcludes (s.halt pos kind) (.refused ⟨pos, kind⟩) := ⟨s.seen, rfl⟩

/-- A drive the input leaves wanting more is judged by its resume position. -/
theorem more_concludes (s : State) : FlowConcludes (.halt (s, .more))
    (match endFault s.parser with
      | some kind => .refused ⟨s.parser.pump.off, kind⟩
      | none => .accepted) := by
  refine ⟨s.seen, ?_⟩
  have hend : endFault { s.parser with pump.terminal := false } = endFault s.parser := rfl
  simp only [conclude, scanFrom, finish, Bool.false_eq_true, if_false, hend]
  cases endFault s.parser <;> rfl

/-! ## One word, both ways -/

section Word

variable {w : Window}

/-- The scanner's reader over the input is the slice reader but for the room past its end. -/
theorem outcome_whole (hlen : data.length ≤ PayloadLen.max) (hpos : pos ≤ data.length) :
    (whole standard data depth pos mode stack seen).parser.pump.outcome w (data.drop pos) =
      match resume w.cap w.last [] (data.length - pos) (data.drop pos) with
      | .cut held _ => .more held
      | o => o := by
  have hroom : (data.drop pos).length < u64Max - pos := by
    simp only [u64Max, PayloadLen.max, List.length_drop] at hlen ⊢
    omega
  show resume w.cap w.last [] (u64Max - pos) (data.drop pos) = _
  have hread : resume w.cap w.last [] (u64Max - pos) (data.drop pos) = _ := resume_room hroom
  rw [List.length_drop] at hread
  exact hread

variable {stage : Stage} {suspend : Mode} {handle : Nat → State → Flow}

theorem readWord_ok (hw : w.Fits) (hlen : data.length ≤ PayloadLen.max) (hpos : pos ≤ data.length)
    {v width : Nat} (h : Slice.tiers w.cap w.last data pos data.length = .ok (v, width))
    (hm : widthPadded width v standard w.minimal = false) :
    readWord w stage suspend (whole standard data depth pos mode stack seen) handle =
      handle v (whole standard data depth (pos + width) mode stack seen) ∧
        pos + width ≤ data.length := by
  obtain ⟨word, rest, he, hword, rfl, rfl⟩ := (Slice.tiers_ok hw).mp h
  have hl := Cursor.length_of_drop_eq he
  have ho : (whole standard data depth pos mode stack seen).parser.pump.outcome w
      (data.drop pos) = .done word rest := by
    rw [outcome_whole hlen hpos, he, hword.resume rest (by omega)]
  rw [readWord_done hw (whole_ready hlen hpos) ho hm]
  have hrest := Cursor.drop_of_drop_eq he
  refine ⟨?_, by omega⟩
  simp only [whole, hrest]
  rfl

/-- A word the slice reader refuses is refused by the scanner, a cut one at the end. -/
theorem readWord_error (hw : w.Fits) (hlen : data.length ≤ PayloadLen.max)
    (hpos : pos ≤ data.length) {cause : Slice.ReadFault}
    (h : Slice.tiers w.cap w.last data pos data.length = .error cause)
    (hend : endFault (spent standard data depth (data.drop pos) suspend stack seen).parser =
      some (.read stage .streamEnd)) :
    FlowConcludes
      (readWord w stage suspend (whole standard data depth pos mode stack seen) handle)
      (.refused (streamFault data.length ⟨pos, .record (.read stage cause)⟩)) := by
  rw [Slice.tiers_eq hw.1 hw.2 le_rfl] at h
  have ho := @outcome_whole standard data depth pos mode stack seen w hlen hpos
  have hsplit := resume_split w.cap w.last [] (data.length - pos) (data.drop pos)
  have hready := @whole_ready standard data depth pos mode stack seen hlen hpos
  have hcut : (whole standard data depth pos mode stack seen).parser.pump.outcome w
      (data.drop pos) = .more (data.drop pos) → FlowConcludes
        (readWord w stage suspend (whole standard data depth pos mode stack seen) handle)
        (.refused ⟨data.length, .read stage .streamEnd⟩) := by
    intro hmore
    have hoff : pos + (data.drop pos).length = data.length := by rw [List.length_drop]; omega
    have hjudge := more_concludes (spent standard data depth (data.drop pos) suspend stack seen)
    rw [hend] at hjudge
    rw [readWord_more hw hready hmore]
    simpa only [whole, spent, hoff] using hjudge
  cases hr : resume w.cap w.last [] (data.length - pos) (data.drop pos) with
  | done word rest => rw [hr] at h; cases h
  | more held => exact absurd (List.length_drop ▸ hr) (resume_ne_more _ _ _)
  | cut held rest =>
    rw [hr] at h hsplit ho
    cases h
    obtain ⟨he, hl⟩ := hsplit
    have hd := congrArg List.length he
    simp only [List.length_append, List.nil_append, List.length_drop, List.length_nil] at hd hl
    obtain rfl := List.eq_nil_of_length_eq_zero (show rest.length = 0 by omega)
    exact hcut (by simpa using ho.trans (congrArg Outcome.more (by simpa using he)))
  | tooWide held rest | outOfClass held rest =>
    rw [hr] at h ho
    cases h
    obtain ⟨s', e, -⟩ := @readWord_refused w stage _ suspend handle hw hready _
      ((congrArg (wordFault w standard stage u64Max pos) ho).trans rfl)
    exact e ▸ ⟨_, rfl⟩

/-- A completed word wider than its number is refused under the canonical standard alone. -/
theorem readWord_padded (hw : w.Fits) (hlen : data.length ≤ PayloadLen.max)
    (hpos : pos ≤ data.length) {v width : Nat}
    (h : Slice.tiers w.cap w.last data pos data.length = .ok (v, width))
    (hm : widthPadded width v standard w.minimal = true) :
    FlowConcludes
      (readWord w stage suspend (whole standard data depth pos mode stack seen) handle)
      (.refused ⟨pos, .padded stage⟩) := by
  obtain ⟨word, rest, he, hword, rfl, rfl⟩ := (Slice.tiers_ok hw).mp h
  have hl := Cursor.length_of_drop_eq he
  have ho := @outcome_whole standard data depth pos mode stack seen w hlen hpos
  rw [he, hword.resume rest (by omega)] at ho
  rw [← he] at ho
  obtain ⟨s', e, -⟩ := @readWord_refused w stage _ suspend handle hw
    (@whole_ready standard data depth pos mode stack seen hlen hpos) ⟨pos, .padded stage⟩
    ((congrArg (wordFault w standard stage u64Max pos) ho).trans (if_pos hm))
  exact e ▸ ⟨_, rfl⟩

end Word

/-! ## One record, both ways -/

section Arms

variable {field : FieldNumber} (hlen : data.length ≤ PayloadLen.max)
include hlen

/-- The head's flow where the cursor's head is refused. -/
theorem head_error (hpos : pos < data.length) {at_ : Nat} {fault : Cursor.RecordFault}
    (h : Cursor.readHead standard data pos = .error (at_, fault)) :
    FlowConcludes (head .unit (whole standard data depth pos .head stack seen))
      (.refused (streamFault data.length ⟨at_, .record fault⟩)) := by
  unfold Cursor.readHead at h
  split at h
  case h_1 cause hread =>
    cases h
    rw [head]
    refine readWord_error Window.tag_fits hlen (Nat.le_of_lt hpos) hread ?_
    have hne : (data.drop pos).length ≠ 0 := by rw [List.length_drop]; omega
    simp only [endFault, spent, hne, ne_eq, not_false_iff, if_true]
  case h_2 word tagW hread =>
    split at h
    case isTrue hm =>
      cases h
      rw [head]
      exact readWord_padded Window.tag_fits hlen (Nat.le_of_lt hpos) hread hm
    case isFalse hm =>
      split at h
      case h_2 => cases h
      case h_1 hf =>
        cases h
        have hm' := Bool.eq_false_of_not_eq_true hm
        rw [head, (readWord_ok Window.tag_fits hlen (Nat.le_of_lt hpos) hread hm').1]
        simp only [hf]
        exact halt_concludes _ _ _

theorem head_ok (hpos : pos < data.length) {code : Low3} {tagW : Nat}
    (h : Cursor.readHead standard data pos = .ok (field, code, tagW)) :
    head .unit (whole standard data depth pos .head stack seen) =
      classifyHead .unit pos (tagWord field code) field
        (whole standard data depth (pos + tagW) .head stack seen) := by
  unfold Cursor.readHead at h
  split at h
  case h_1 => cases h
  case h_2 word tagW' hread =>
    split at h
    case isTrue => cases h
    case isFalse hm =>
      split at h
      case h_1 => cases h
      case h_2 hf =>
        cases h
        have hm' := Bool.eq_false_of_not_eq_true hm
        rw [head, (readWord_ok Window.tag_fits hlen (Nat.le_of_lt hpos) hread hm').1]
        simp only [hf, tagWord_of_fromWord hf]
        rfl

/-- What one record's arm does where the cursor's body reads so. -/
def ArmAgrees (standard : Standard) (data : List UInt8) (depth : DepthLimit)
    (stack : List Extent) (flow : Flow) (read : Except (Nat × Cursor.RecordFault) Cursor.Body) :
    Prop :=
  match read with
  | .error (pos, fault) =>
    FlowConcludes flow (.refused (streamFault data.length ⟨pos, .record fault⟩))
  | .ok b => ∃ s seen, flow = .next s ∧
      Steps (turn .unit) s (whole standard data depth b.stop .head stack seen)

theorem varintValue_agrees (hpos : pos ≤ data.length) : ArmAgrees standard data depth stack
    (varintValue .unit field (whole standard data depth pos .head stack seen))
    (Cursor.readVarint standard data pos field) := by
  unfold Cursor.readVarint
  split
  case h_1 cause hread => exact readWord_error Window.value_fits hlen hpos hread rfl
  case h_2 v width hread =>
    split
    case isTrue hm => exact readWord_padded Window.value_fits hlen hpos hread hm
    case isFalse hm =>
      rw [varintValue, (readWord_ok Window.value_fits hlen hpos hread
        (Bool.eq_false_of_not_eq_true hm)).1]
      exact ⟨_, _, rfl, .refl _⟩

theorem fixedTail_agrees (hpos : pos ≤ data.length) (kind : FixedKind)
    (deliver : Nat → Cursor.Value) : ArmAgrees standard data depth stack
      (classifyHead.admitFixed .unit field (whole standard data depth pos .head stack seen) kind)
      (Cursor.readFixed kind.need deliver data pos field) := by
  have hneed : kind.need ≤ 8 := by cases kind <;> decide
  have hpos' : 0 < kind.need := by cases kind <;> decide
  simp only [PayloadLen.max] at hlen
  have hadm : ¬ u64Max - pos < kind.need := by simp only [u64Max]; omega
  have hcoll : (whole standard data depth pos .head stack seen).parser.pump.Collecting kind.need :=
    ⟨rfl, hpos', Nat.zero_le _, by simp only [whole, u64Max]; omega⟩
  have hgrab := Pump.grabFixed_eq hcoll (data.drop pos)
  simp only [whole, Carry.empty, List.length_nil, Nat.zero_add, List.nil_append,
    List.length_drop] at hgrab
  rw [classifyHead.admitFixed]
  simp only [whole, hadm, if_false, fixedTail, Carry.empty, hgrab]
  unfold Cursor.readFixed
  by_cases hshort : data.length - pos < kind.need
  · have hoff : pos + (data.length - pos) = data.length := by omega
    simp only [hshort, show ¬ kind.need ≤ data.length - pos by omega, if_true, if_false, hoff]
    exact more_concludes _
  · simp only [hshort, show kind.need ≤ data.length - pos by omega, if_true, if_false]
    simp only [Nat.sub_zero, List.drop_drop]
    exact ⟨_, seen ++ [_], rfl, .refl _⟩

/-- The unit sink skips every payload. -/
theorem admitLen_unit (hpos : pos ≤ data.length) (len : PayloadLen) :
    admitLen .unit field len (whole standard data depth pos .head stack seen) =
      .next (whole standard data depth pos
        (if len.asInner = 0 then .head else .swallow len.asInner) stack
        (seen ++ [.len field len pos])) := by
  have hle := len.le_max
  have hroom : pos + len.asInner ≤ u64Max ∧ pos + len.asInner < u64Max := by
    simp only [u64Max, PayloadLen.max] at hlen ⊢
    omega
  simp only [admitLen, whole, hroom, and_self, if_true, Sink.unit]

/-- A skipped payload is passed over, or outruns the input by what is left of it. -/
theorem swallow_agrees (hpos : pos ≤ data.length) (remaining : Nat) :
    let s := whole standard data depth pos (if remaining = 0 then .head else .swallow remaining)
      stack seen
    if data.length - pos < remaining then
      Concludes s (.refused ⟨data.length, .payloadTruncated (remaining - (data.length - pos))⟩)
    else Steps (turn .unit) s (whole standard data depth (pos + remaining) .head stack seen) := by
  rcases Nat.eq_zero_or_pos remaining with rfl | hrem
  · simp only [Nat.not_lt_zero, if_false, if_true, Nat.add_zero]
    exact .refl _
  rcases Nat.eq_or_lt_of_le hpos with hend | hin
  · have hchunk : data.drop pos = [] := by rw [hend, List.drop_length]
    simp only [hend, Nat.sub_self, hrem, if_true, Nat.sub_zero, Nat.pos_iff_ne_zero.mp hrem,
      if_false]
    exact concludes_of_turn (turn_idle (whole_settled hlen le_rfl) (List.drop_length))
      (more_concludes _)
  · have hchunk : data.drop pos ≠ [] := by simp; omega
    have hturn := @turn_settled .unit (whole standard data depth pos (.swallow remaining) stack
      seen) (whole_settled hlen hpos) hchunk
    simp only [Nat.pos_iff_ne_zero.mp hrem, if_false]
    split
    case isTrue hout =>
      have htake : min remaining (data.length - pos) = data.length - pos := by omega
      have hoff : pos + (data.length - pos) = data.length := by omega
      have hleft : ¬ remaining - (data.length - pos) = 0 := by omega
      have hnext : turn .unit (whole standard data depth pos (.swallow remaining) stack seen) =
          .next (whole standard data depth data.length
            (.swallow (remaining - (data.length - pos))) stack seen) := by
        rw [hturn]
        simp only [dispatch, whole, swallow, List.length_drop, htake, hoff, hleft, if_false,
          List.drop_drop]
      refine concludes_of_turn hnext ?_
      exact concludes_of_turn (turn_idle (whole_settled hlen le_rfl) List.drop_length)
        (more_concludes _)
    case isFalse hfit =>
      have htake : min remaining (data.length - pos) = remaining := by omega
      refine .single ?_
      rw [hturn]
      simp only [dispatch, whole, swallow, List.length_drop, htake, Nat.sub_self, if_true,
        List.drop_drop]

theorem lenWord_agrees (hpos : pos ≤ data.length) : ArmAgrees standard data depth stack
    (lenWord .unit field (whole standard data depth pos .head stack seen))
    (Cursor.readLen standard data pos field) := by
  unfold Cursor.readLen
  split
  case h_1 cause hread => exact readWord_error Window.len_fits hlen hpos hread rfl
  case h_2 len width hread =>
    split
    case isTrue hm => exact readWord_padded Window.len_fits hlen hpos hread hm
    case isFalse hm =>
      obtain ⟨word, rest, -, hword, rfl, -⟩ := Cursor.lenWord_ok.mp hread
      have hle := isWordLen_le hword
      obtain ⟨e, hin⟩ := @readWord_ok standard data depth pos .head stack seen _
        (.lenPrefix field) (.lenWord field)
        (fun len s => admitLen .unit field (.newUnchecked len) s)
        Window.len_fits hlen hpos _ _ hread (Bool.eq_false_of_not_eq_true hm)
      rw [lenWord, e, admitLen_unit hlen hin]
      have hrun := @swallow_agrees standard data depth (pos + width) stack
        (seen ++ [.len field (.newUnchecked (value word)) (pos + width)]) hlen hin (value word)
      rw [PayloadLen.newUnchecked_asInner hle]
      by_cases hout : data.length - (pos + width) < value word
      · simp only [hout, if_true] at hrun ⊢
        simpa only [ArmAgrees, FlowConcludes, streamFault,
          PayloadLen.newUnchecked_asInner hle] using hrun
      · simp only [hout, if_false] at hrun ⊢
        exact ⟨_, _, rfl, hrun⟩

end Arms

end Whole

/-! ## One step, and the walk -/

section Walk

open Cursor.Grouped (Cursor)

variable {standard : Standard} {c : Cursor}

def extents (opens : List (FieldNumber × Nat)) : List Extent := opens.map fun o => .group o.1

/-- The scanner where the cursor stands, after the events `seen`. -/
def beside (standard : Standard) (c : Cursor) (seen : List Event) : State :=
  whole standard c.data c.limit c.pos .head (extents c.opens) seen

/-- What the scanner does beside a cursor whose step delivers so. -/
def StepAgrees (standard : Standard) (s : State) (total : Nat) :
    Cursor.Grouped.Stepped → Prop
  | (none, _) => Concludes s .accepted
  | (some (.error fault), _) => Concludes s (.refused (streamFault total fault))
  | (some (.ok _), c') => ∃ seen, Steps (turn .unit) s (beside standard c' seen)

theorem body_agrees {s : State} {flow : Flow} (hturn : turn .unit s = flow)
    {read : Except (Nat × Cursor.RecordFault) Cursor.Body}
    (h : ArmAgrees standard c.data c.limit (extents c.opens) flow read) (field : FieldNumber)
    (tagW : Nat) :
    StepAgrees standard s c.data.length (Cursor.Grouped.step.body c field tagW read) := by
  cases read with
  | error refused => exact concludes_of_turn hturn h
  | ok b =>
    obtain ⟨s', seen, rfl, hs⟩ := h
    exact ⟨seen, .head hturn hs⟩

theorem step_agrees (hlen : c.data.length ≤ PayloadLen.max) (hpos : c.pos ≤ c.data.length)
    (seen : List Event) : StepAgrees standard (beside standard c seen) c.data.length
      (Cursor.Grouped.step standard c) := by
  have hset := @whole_settled standard c.data c.limit c.pos .head (extents c.opens) seen hlen hpos
  unfold Cursor.Grouped.step
  by_cases hend : c.data.length ≤ c.pos
  · have hidle := @turn_idle .unit (beside standard c seen) hset (List.drop_eq_nil_of_le hend)
    have hoff : c.pos = c.data.length := by omega
    have hjudge := concludes_of_turn hidle (more_concludes _)
    simp only [hend, if_true]
    cases hopens : c.opens with
    | nil =>
      simp only [beside, whole, hopens] at hjudge
      simp only [StepAgrees, beside, whole, hopens]
      exact hjudge
    | cons o opens =>
      simp only [beside, whole, hopens] at hjudge
      simp only [StepAgrees, beside, whole, hopens, Cursor.Grouped.Cursor.fault]
      exact hjudge
  have hturn : turn .unit (beside standard c seen) = head .unit (beside standard c seen) :=
    turn_settled hset (by simp only [beside, whole, ne_eq, List.drop_eq_nil_iff]; exact hend)
  simp only [hend, if_false]
  cases hhead : Cursor.readHead standard c.data c.pos with
  | error refused => exact concludes_of_turn hturn (head_error hlen (by omega) hhead)
  | ok read =>
    obtain ⟨field, code, tagW⟩ := read
    obtain ⟨-, hin⟩ := Cursor.readHead_advances hhead
    have hflow := hturn.trans (head_ok hlen (by omega) hhead)
    have hdepth : (extents c.opens).length = c.opens.length := List.length_map _
    rw [classifyHead, low3_tagWord] at hflow
    simp only
    cases hclass : classify code with
    | record kind =>
      rw [hclass] at hflow
      cases kind with
      | varint => exact body_agrees hflow (varintValue_agrees hlen hin) field tagW
      | i64 => exact body_agrees hflow (fixedTail_agrees hlen hin .i64 .i64) field tagW
      | i32 => exact body_agrees hflow (fixedTail_agrees hlen hin .i32 .i32) field tagW
      | len => exact body_agrees hflow (lenWord_agrees hlen hin) field tagW
      | group =>
        simp only at hflow ⊢
        by_cases hfull : c.limit.asInner ≤ c.opens.length
        · simp only [whole, hdepth, hfull, if_true] at hflow
          simp only [hfull, if_true]
          exact concludes_of_turn hflow (halt_concludes _ _ _)
        · simp only [whole, hdepth, hfull, if_false] at hflow
          simp only [hfull, if_false]
          exact ⟨_, .single hflow⟩
    | groupEnd =>
      rw [hclass] at hflow
      simp only [groupEnd] at hflow ⊢
      cases hopens : c.opens with
      | nil =>
        simp only [whole, hopens, extents, List.map_nil] at hflow
        exact concludes_of_turn hflow (halt_concludes _ _ _)
      | cons o opens =>
        obtain ⟨opened, openedAt⟩ := o
        simp only [whole, hopens, extents, List.map_cons] at hflow
        by_cases hsame : opened = field
        · simp only [hsame, ne_eq, not_true_eq_false, if_false] at hflow
          simp only [hsame, if_true]
          exact ⟨_, .single hflow⟩
        · simp only [hsame, ne_eq, not_false_iff, if_true] at hflow
          simp only [hsame, if_false]
          exact concludes_of_turn hflow (halt_concludes _ _ _)
    | unassigned =>
      rw [hclass] at hflow
      exact concludes_of_turn hflow (halt_concludes _ _ _)

/-- The cursor's verdict is the scanner's. -/
theorem walk_agrees {verdict : Option Cursor.Grouped.Fault}
    (h : Yields (Cursor.Grouped.turn standard) c verdict) (hlen : c.data.length ≤ PayloadLen.max)
    (hpos : c.pos ≤ c.data.length) (seen : List Event) :
    Concludes (beside standard c seen) (streamVerdict c.data.length verdict) := by
  induction h generalizing seen with
  | halt e =>
    rename_i c r
    have hs := @step_agrees standard c hlen hpos seen
    unfold Cursor.Grouped.turn at e
    split at e
    case h_1 c' hstep => cases e; rw [hstep] at hs; exact hs
    case h_2 fault c' hstep => cases e; rw [hstep] at hs; exact hs
    case h_3 => cases e
  | next e _ ih =>
    rename_i c c'' r _
    have hs := @step_agrees standard c hlen hpos seen
    unfold Cursor.Grouped.turn at e
    split at e
    case h_1 => cases e
    case h_2 => cases e
    case h_3 entry c' hstep =>
      cases e
      rw [hstep] at hs
      obtain ⟨seen', hsteps⟩ := hs
      obtain ⟨hd, -, -, hle⟩ := Cursor.Grouped.step_advances hstep
      rw [← hd] at hlen hle ⊢
      exact concludes_of_steps hsteps (ih hlen hle seen')

end Walk

theorem unit_deterministic : Sink.unit.Deterministic := fun _ _ _ => ⟨rfl, rfl⟩

theorem unit_neverBreaks : Sink.unit.NeverBreaks := fun _ => ⟨nofun, rfl⟩

/-- The validator over any partition of a document concludes what the cursor's walk does, at the
cursor's coordinate, or at the document's end where the document cuts a construct short. -/
theorem validate_eq_walk (standard : Standard) (limit : DepthLimit) (chunks : List (List UInt8))
    (hlen : chunks.flatten.length ≤ PayloadLen.max) :
    ∃ c verdict, Cursor.Grouped.Cursor.over chunks.flatten limit = some c ∧
      Cursor.Grouped.exhaust standard c = some verdict ∧
      validate standard limit chunks =
        some (streamVerdict chunks.flatten.length verdict) ∧
      ∀ fault ∈ verdict,
        (CutShort fault.kind →
          (streamFault chunks.flatten.length fault).pos = chunks.flatten.length) ∧
        (¬ CutShort fault.kind → (streamFault chunks.flatten.length fault).pos = fault.pos) := by
  obtain ⟨verdict, hex, hy⟩ := Cursor.Grouped.exhaust_yields standard
    ⟨chunks.flatten, [], 0, limit, 0, 0⟩ (Nat.zero_le _)
  refine ⟨_, verdict, if_neg (Nat.not_lt.mpr hlen), hex, ?_, fun fault _ => streamFault_pos _ fault⟩
  have hroom : (Parser.new standard limit).pump.off + chunks.flatten.length < u64Max := by
    simp only [Parser.new, Pump.new, u64Max, PayloadLen.max] at hlen ⊢
    omega
  obtain ⟨r, events, hr, hconc⟩ := walk_agrees hy hlen (Nat.zero_le _) []
  obtain ⟨conclusion, evs, evs', -, hscan, hwhole, -⟩ := scanFrom_flatten unit_deterministic
    unit_neverBreaks chunks (live_new standard limit) (rfl : merge [] = merge []) hroom
  rw [scanFrom_single unit_deterministic unit_neverBreaks (live_new standard limit) hroom hr,
    hconc] at hwhole
  cases hwhole
  simp only [validate, scan, hscan, Option.map_some]

/-- A group closed across a chunk cut. -/
theorem validate_eq_walk_group :
    ∃ c verdict, Cursor.Grouped.Cursor.over [[0x0B, 0x10], [0x05, 0x0C]].flatten ⟨1, by decide, by decide⟩ =
        some c ∧
      Cursor.Grouped.exhaust .canonicalMinimal c = some verdict ∧
      validate .canonicalMinimal ⟨1, by decide, by decide⟩ [[0x0B, 0x10], [0x05, 0x0C]] =
        some (streamVerdict [[0x0B, 0x10], [0x05, (0x0C : UInt8)]].flatten.length verdict) ∧
      ∀ fault ∈ verdict, (CutShort fault.kind → (streamFault 4 fault).pos = 4) ∧
        (¬ CutShort fault.kind → (streamFault 4 fault).pos = fault.pos) :=
  validate_eq_walk .canonicalMinimal ⟨1, by decide, by decide⟩ [[0x0B, 0x10], [0x05, 0x0C]]
    (by decide)

/-- A tag cut short: the cursor names its first byte, the validator the input's end. -/
theorem cut_tag_apart :
    ∃ c fault fault', Cursor.Grouped.Cursor.over [0x80] ⟨1, by decide, by decide⟩ = some c ∧
      Cursor.Grouped.exhaust .tolerant c = some (some fault) ∧
      validate .tolerant ⟨1, by decide, by decide⟩ [[0x80]] = some (.refused fault') ∧
      fault.pos ≠ fault'.pos :=
  ⟨_, ⟨0, .record (.read .tag .truncated)⟩, ⟨1, .read .tag .streamEnd⟩, rfl, by decide, by decide,
    by decide⟩

end ProtobufEdit.Scan.Grouped
