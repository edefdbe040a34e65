import ProtobufEdit.Splice.Groupless.Runs
import ProtobufEdit.Splice.Overlay

/-!
# The sink face against the Vec face

Both faces drive one walk, so they are run in lockstep (`Lock`): a turn takes both to the same
control state with their back-ends in step, or refuses both alike. The overlay announces a commit's
tail at its ask, which is where it can pass the cap before the buffer does.
-/

namespace ProtobufEdit.Splice.Groupless

open Wire ProtobufEdit.Path Cursor Cursor.Groupless Varint Loop TwoPass

section Face

variable {σ : Type}

/-- Splices `input` under the rule, handing windows to a sink. -/
def spliceSink (input : List UInt8) (rule : Rule σ) (standard : Standard) (limit : DepthLimit)
    (s : σ) : Option (Ended × σ × List (List UInt8)) :=
  match walk input rule standard limit Plan.back s (Plan.new input) with
  | none => none
  | some (.ok, s, plan) =>
    match plan.fold with
    | (true, windows) => some (.ok, s, windows)
    | (false, windows) => some (.panic, s, windows)
  | some (ended, s, _) => some (ended, s, [])

/-- The rule with a note of whether a commit of it carried tail bytes. -/
def Rule.noted (rule : Rule σ) : Rule (σ × Bool) where
  onVarint s head field value :=
    let (answer, s') := rule.onVarint s.1 head field value
    (answer, s', s.2)
  onI32 s head field bits :=
    let (answer, s') := rule.onI32 s.1 head field bits
    (answer, s', s.2)
  onI64 s head field bits :=
    let (answer, s') := rule.onI64 s.1 head field bits
    (answer, s', s.2)
  onLen s head field payload :=
    let (answer, s') := rule.onLen s.1 head field payload
    (answer, s', s.2 || match answer with
      | .commit (some tail) => !tail.isEmpty
      | _ => false)

theorem Rule.projects_noted (rule : Rule σ) : rule.noted.Projects Prod.fst rule :=
  ⟨fun _ _ _ _ => rfl, fun _ _ _ _ => rfl, fun _ _ _ _ => rfl, fun _ _ _ _ => rfl⟩

/-- A rule state is quiet only where no commit up to it carried tail bytes. -/
structure Rule.Heeds (rule : Rule σ) (quiet : σ → Prop) : Prop where
  onVarint : ∀ s head field value, quiet (rule.onVarint s head field value).2 → quiet s
  onI32 : ∀ s head field bits, quiet (rule.onI32 s head field bits).2 → quiet s
  onI64 : ∀ s head field bits, quiet (rule.onI64 s head field bits).2 → quiet s
  onLen : ∀ s head field payload, quiet (rule.onLen s head field payload).2 → quiet s ∧
    ∀ tail, (rule.onLen s head field payload).1 = .commit tail → tail.getD [] = []

theorem Rule.heeds_noted (rule : Rule σ) : rule.noted.Heeds fun s => s.2 = false := by
  refine ⟨fun _ _ _ _ h => h, fun _ _ _ _ h => h, fun _ _ _ _ h => h, fun s head field payload h => ?_⟩
  have h' : (s.2 || match (rule.onLen s.1 head field payload).1 with
      | .commit (some tail) => !tail.isEmpty
      | _ => false) = false := h
  rw [Bool.or_eq_false_iff] at h'
  refine ⟨h'.1, fun tail htail => ?_⟩
  have hanswer : (rule.onLen s.1 head field payload).1 = .commit tail := htail
  cases tail with
  | none => rfl
  | some bytes =>
    have hempty := h'.2
    rw [hanswer] at hempty
    simpa using hempty

end Face

/-! ## The layers over the input -/

/-- A layer's payload stands in the input. -/
structure Within (input : List UInt8) (layer : Layer) : Prop where
  inside : layer.cursor.pos ≤ layer.cursor.data.length
  stands : ∃ behind, input.drop layer.base = layer.cursor.data ++ behind
  base_le : layer.base ≤ input.length

/-- Each layer's payload stands in the input, and the layer under it stands behind that payload. -/
def Placed (input : List UInt8) : Layer → List Layer → Prop
  | layer, [] => Within input layer
  | layer, under :: below => Within input layer ∧
    under.base + under.cursor.pos = layer.base + layer.cursor.data.length ∧
    Placed input under below

/-- Where the open containers start, innermost first. -/
def starts : Layer → List Layer → List Nat
  | _, [] => []
  | layer, under :: below => layer.base :: starts under below

section Lock

variable {σ ν : Type} {input before : List UInt8} {quiet : σ → Prop} {layer : Layer}
  {below : List Layer} {s s' : σ} {e : Emit} {p : Plan}

/-- Both walks take the same turn, their back-ends in step; or both refuse alike; or the overlay
refuses past the cap, and in a quiet state the buffer with it. -/
inductive Lock (input before : List UInt8) (quiet : σ → Prop) :
    Turned σ Emit → Turned σ Plan → Prop where
  | next {layer : Layer} {below : List Layer} {s : σ} {e : Emit} {p : Plan} :
      Placed input layer below →
      Holds input before (quiet s) (starts layer below) (layer.base + layer.cursor.pos) e p →
      Lock input before quiet (.next ⟨layer, below, s, e⟩) (.next ⟨layer, below, s, p⟩)
  | done {s : σ} {e : Emit} {p : Plan} {here : Nat} :
      Holds input before (quiet s) [] here e p →
      Lock input before quiet (.halt (.ok, s, e)) (.halt (.ok, s, p))
  | refused {fault : TwoPass.Fault FaultKind} {s : σ} {e : Emit} {p : Plan} :
      Lock input before quiet (.halt (.err fault, s, e)) (.halt (.err fault, s, p))
  | capped {t : Turned σ Emit} {pos len : Nat} {crossed : List Crossing} {s : σ} {p : Plan} :
      (quiet s → ∃ len' e, t = .halt (.err ⟨pos, crossed, .output len'⟩, s, e)) →
      Lock input before quiet t (.halt (.err ⟨pos, crossed, .output len⟩, s, p))

theorem Holds.mono {Q Q' : Prop} {starts : List Nat} {here : Nat} (hQ : Q' → Q)
    (h : Holds input before Q starts here e p) : Holds input before Q' starts here e p := by
  obtain ⟨ns, body, hm, hstarts, hq⟩ := h
  exact ⟨ns, body, hm, hstarts, fun hquiet => hq (hQ hquiet)⟩

theorem flow_lock (head : Nat) {d : Did Emit} {d' : Did Plan} (hp : Placed input layer below)
    (h : Agrees input before (quiet s) (starts layer below) (layer.base + layer.cursor.pos) d d') :
    Lock input before quiet (Walk.flow ⟨layer, below, s, e⟩ head d)
      (Walk.flow ⟨layer, below, s, p⟩ head d') := by
  rcases h with ⟨e, p, rfl, rfl, h⟩ | ⟨len, p, rfl, hq⟩
  · exact .next hp h
  · refine .capped fun hquiet => ?_
    obtain ⟨len', b, rfl⟩ := hq hquiet
    exact ⟨len', b, rfl⟩

theorem judgeAnswer_lock {bytes : List UInt8} {head : Nat} {t : Turned σ Emit} {t' : Turned σ Plan}
    (h : bytes.length ≤ PayloadLen.max → Lock input before quiet t t') :
    Lock input before quiet (Walk.judgeAnswer ⟨layer, below, s, e⟩ bytes head t)
      (Walk.judgeAnswer ⟨layer, below, s, p⟩ bytes head t') := by
  unfold Walk.judgeAnswer
  split
  case isTrue => exact .refused
  case isFalse hfits => exact h (Nat.le_of_not_lt hfits)

/-- A record's extents, in front of where the layer now stands. -/
structure Extents (input : List UInt8) (layer : Layer) (head tagEnd : Nat) : Prop where
  head_le : head ≤ tagEnd
  tagEnd_le : tagEnd ≤ layer.base + layer.cursor.pos
  stop_le : layer.base + layer.cursor.pos ≤ input.length

variable {head tagEnd : Nat}

theorem insert_lock (hp : Placed input layer below) (hx : Extents input layer head tagEnd)
    (h : Holds input before (quiet s) (starts layer below) head e p) (bytes : List UInt8) :
    Lock input before quiet
      (Walk.judgeAnswer ⟨layer, below, s, e⟩ bytes head
        (Walk.flow ⟨layer, below, s, e⟩ head ((Emit.back.author bytes e).andThen
          (Emit.back.verbatim head (layer.base + layer.cursor.pos)))))
      (Walk.judgeAnswer ⟨layer, below, s, p⟩ bytes head
        (Walk.flow ⟨layer, below, s, p⟩ head ((Plan.back.author bytes p).andThen
          (Plan.back.verbatim head (layer.base + layer.cursor.pos))))) := by
  refine judgeAnswer_lock fun _ => flow_lock head hp ?_
  exact (edit_agrees h bytes head).andThen fun e p h =>
    verbatim_agrees h (hx.head_le.trans hx.tagEnd_le) hx.stop_le

theorem scalar_lock (hp : Placed input layer below) (hx : Extents input layer head tagEnd)
    (h : Holds input before (quiet s) (starts layer below) head e p)
    {author : ν → Emit → Did Emit} {author' : ν → Plan → Did Plan} {spell : ν → List UInt8}
    (hauthor : ∀ value e, author value e = e.append (spell value))
    (hauthor' : ∀ value p, author' value p = p.edit (spell value)) (answer : Scalar ν) :
    Lock input before quiet
      (Walk.scalar Emit.back author ⟨layer, below, s, e⟩ head tagEnd (layer.base + layer.cursor.pos)
        answer)
      (Walk.scalar Plan.back author' ⟨layer, below, s, p⟩ head tagEnd
        (layer.base + layer.cursor.pos) answer) := by
  cases answer with
  | keep => exact flow_lock head hp (verbatim_agrees h (hx.head_le.trans hx.tagEnd_le) hx.stop_le)
  | rewrite value =>
    refine flow_lock head hp ?_
    refine (verbatim_agrees h hx.head_le (hx.tagEnd_le.trans hx.stop_le)).andThen fun e p h => ?_
    rw [hauthor, hauthor']
    exact edit_agrees h _ _
  | drop => exact flow_lock head hp (.inl ⟨_, _, rfl, rfl, dirty_holds h _⟩)
  | insert bytes => exact insert_lock hp hx h bytes

theorem enter_lock (hp : Placed input layer below) (hx : Extents input layer head tagEnd)
    (h : Holds input before (quiet s) (starts layer below) head e p) (field : FieldNumber)
    {payload : List UInt8} {tail : Option (List UInt8)} (remaining : Nat) {payloadStart : Nat}
    (hstart : payloadStart + payload.length = layer.base + layer.cursor.pos)
    (htag : tagEnd ≤ payloadStart) (hin : ∃ behind, input.drop payloadStart = payload ++ behind)
    (hlen : payload.length ≤ PayloadLen.max) (htail : quiet s → tail.getD [] = []) :
    Lock input before quiet
      (Walk.enter Emit.back ⟨layer, below, s, e⟩ head tagEnd (layer.base + layer.cursor.pos) field
        payload tail remaining)
      (Walk.enter Plan.back ⟨layer, below, s, p⟩ head tagEnd (layer.base + layer.cursor.pos) field
        payload tail remaining) := by
  have hstop := hx.stop_le
  have hat : layer.base + layer.cursor.pos - payload.length = payloadStart := by omega
  have hcommit := commit_agrees h hx.head_le htag (by omega : payloadStart ≤ input.length) htail
  unfold Walk.enter
  rw [hat]
  simp only [within, if_pos hlen]
  rcases hcommit with ⟨e', p', he, hp', hh⟩ | ⟨len, p', hp', hq⟩
  · have he' : Emit.back.commit head tagEnd payloadStart tail e = (.ok (), e') := he
    have hp'' : Plan.back.commit head tagEnd payloadStart tail p = (.ok (), p') := hp'
    rw [he', hp'']
    exact .next ⟨⟨Nat.zero_le _, hin, by show payloadStart ≤ _; omega⟩, hstart.symm, hp⟩ hh
  · have hp'' : Plan.back.commit head tagEnd payloadStart tail p
        = (.error (.outgrown len), p') := hp'
    rw [hp'']
    refine .capped fun hquiet => ?_
    obtain ⟨len', b, he⟩ := hq hquiet
    have he' : Emit.back.commit head tagEnd payloadStart tail e
        = (.error (.outgrown len'), b) := he
    rw [he']
    exact ⟨len', b, rfl⟩

theorem len_lock (hp : Placed input layer below) (hx : Extents input layer head tagEnd)
    (h : Holds input before (quiet s) (starts layer below) head e p) {field : FieldNumber}
    {payload : List UInt8} {payloadStart : Nat}
    (hstart : payloadStart + payload.length = layer.base + layer.cursor.pos)
    (htag : tagEnd ≤ payloadStart) (hin : ∃ behind, input.drop payloadStart = payload ++ behind)
    (hlen : payload.length ≤ PayloadLen.max) (answer : Len)
    (htail : ∀ tail, quiet s → answer = .commit tail → tail.getD [] = []) :
    Lock input before quiet
      (Walk.len Emit.back ⟨layer, below, s, e⟩ head tagEnd (layer.base + layer.cursor.pos) field
        payload answer)
      (Walk.len Plan.back ⟨layer, below, s, p⟩ head tagEnd (layer.base + layer.cursor.pos) field
        payload answer) := by
  cases answer with
  | pass => exact flow_lock head hp (verbatim_agrees h (hx.head_le.trans hx.tagEnd_le) hx.stop_le)
  | commit tail =>
    unfold Walk.len
    simp only
    split
    case h_1 => exact .refused
    case h_2 remaining _ =>
      have henter := enter_lock hp hx h field remaining hstart htag hin hlen
        fun hquiet => htail tail hquiet rfl
      cases tail with
      | none => exact henter
      | some bytes => exact judgeAnswer_lock fun _ => henter
  | replace bytes =>
    refine judgeAnswer_lock fun _ => flow_lock head hp ?_
    have hword : Agrees input before (quiet s) (starts layer below) tagEnd
        ((Emit.back.verbatim head tagEnd e).andThen (Emit.back.authorVarint bytes.length))
        ((Plan.back.verbatim head tagEnd p).andThen (Plan.back.authorVarint bytes.length)) :=
      (verbatim_agrees h hx.head_le (hx.tagEnd_le.trans hx.stop_le)).andThen
        fun e p h => edit_agrees h (emit64 bytes.length) tagEnd
    exact hword.andThen fun e p h => edit_agrees h bytes _
  | drop => exact flow_lock head hp (.inl ⟨_, _, rfl, rfl, dirty_holds h _⟩)
  | insert bytes => exact insert_lock hp hx h bytes

theorem Placed.within (h : Placed input layer below) : Within input layer := by
  cases below with
  | nil => exact h
  | cons under below => exact h.1

theorem Placed.moved {cursor : Cursor} (h : Placed input layer below)
    (hdata : cursor.data = layer.cursor.data) (hpos : cursor.pos ≤ cursor.data.length) :
    Placed input { layer with cursor } below := by
  have hwithin : Within input { layer with cursor } := by
    refine ⟨hpos, ?_, h.within.base_le⟩
    show ∃ behind, input.drop layer.base = cursor.data ++ behind
    rw [hdata]
    exact h.within.stands
  cases below with
  | nil => exact hwithin
  | cons under below =>
    refine ⟨hwithin, ?_, h.2.2⟩
    show _ = layer.base + cursor.data.length
    rw [hdata]
    exact h.2.1

/-- The layer at a delivered record. -/
theorem placed_extents {r : Record} {rest : List UInt8} {standard : Standard}
    (hp : Placed input layer below)
    (hf : first standard (layer.cursor.data.drop layer.cursor.pos) = some (r, rest)) :
    Placed input { layer with cursor := layer.cursor.past r } below ∧
      Extents input { layer with cursor := layer.cursor.past r } (layer.base + layer.cursor.pos)
        (layer.base + layer.cursor.pos + r.tag.length) ∧
      ∃ behind, input.drop (layer.base + layer.cursor.pos) = r.bytes ++ behind := by
  obtain ⟨hpos, ⟨behind, hin⟩, hbase⟩ := hp.within
  obtain ⟨he, -⟩ := first_iff.mp hf
  have hlen := length_of_drop_eq he
  have hin' := length_of_drop_eq hin
  have htag : r.tag.length ≤ r.bytes.length := by
    rw [Record.bytes, List.length_append]
    omega
  have hdrop : input.drop (layer.base + layer.cursor.pos) = r.bytes ++ (rest ++ behind) := by
    rw [← List.drop_drop, hin, List.drop_append_of_le_length hpos, he, List.append_assoc]
  refine ⟨hp.moved rfl ?_, ⟨Nat.le_add_right _ _, ?_, ?_⟩, _, hdrop⟩
  · show layer.cursor.pos + r.bytes.length ≤ layer.cursor.data.length
    omega
  · show layer.base + layer.cursor.pos + r.tag.length
      ≤ layer.base + (layer.cursor.pos + r.bytes.length)
    omega
  · show layer.base + (layer.cursor.pos + r.bytes.length) ≤ input.length
    omega

theorem deliver_lock {r : Record} {rest : List UInt8} {standard : Standard} {rule : Rule σ}
    (hr : rule.Heeds quiet) (hp : Placed input layer below)
    (hf : first standard (layer.cursor.data.drop layer.cursor.pos) = some (r, rest))
    (h : Holds input before (quiet s) (starts layer below) (layer.base + layer.cursor.pos) e p) :
    Lock input before quiet
      (Walk.deliver rule Emit.back ⟨{ layer with cursor := layer.cursor.past r }, below, s, e⟩
        (layer.base + layer.cursor.pos) ⟨r.field, r.payload.value⟩)
      (Walk.deliver rule Plan.back ⟨{ layer with cursor := layer.cursor.past r }, below, s, p⟩
        (layer.base + layer.cursor.pos) ⟨r.field, r.payload.value⟩) := by
  obtain ⟨hp', hx, behind, hin⟩ := placed_extents hp hf
  have h' : Holds input before (quiet s) (starts { layer with cursor := layer.cursor.past r } below)
      (layer.base + layer.cursor.pos) e p := by
    cases below <;> exact h
  unfold Walk.deliver
  cases hpl : r.payload with
  | varint word =>
    exact scalar_lock hp' hx (Holds.mono (hr.onVarint _ _ _ _) h')
      (fun value e => rfl) (fun value p => rfl) _
  | i64 word =>
    exact scalar_lock hp' hx (Holds.mono (hr.onI64 _ _ _ _) h')
      (fun value e => rfl) (fun value p => rfl) _
  | i32 word =>
    exact scalar_lock hp' hx (Holds.mono (hr.onI32 _ _ _ _) h')
      (fun value e => rfl) (fun value p => rfl) _
  | len word payload =>
    have hbytes : r.bytes = r.tag ++ (word ++ payload) := by rw [Record.bytes, hpl]; rfl
    have hlaw := (first_iff.mp hf).2.payload
    rw [hpl] at hlaw
    have hstart : layer.base + layer.cursor.pos + r.tag.length + word.length + payload.length
        = layer.base + (layer.cursor.pos + r.bytes.length) := by
      rw [hbytes]
      simp only [List.length_append]
      omega
    refine len_lock hp' hx (Holds.mono (fun hq => (hr.onLen _ _ _ _ hq).1) h') hstart
      (Nat.le_add_right _ _) ⟨behind, ?_⟩ ?_ _ (fun tail hq heq => (hr.onLen _ _ _ _ hq).2 tail heq)
    · rw [hbytes, List.append_assoc, List.append_assoc] at hin
      exact drop_of_drop_eq (drop_of_drop_eq hin)
    · rw [← hlaw.2]
      exact Varint.isWordLen_le hlaw.1.isWord

theorem exhaust_lock (hp : Placed input layer below)
    (hend : layer.cursor.data.length ≤ layer.cursor.pos)
    (h : Holds input before (quiet s) (starts layer below) (layer.base + layer.cursor.pos) e p) :
    Lock input before quiet (Walk.exhaust Emit.back ⟨layer, below, s, e⟩)
      (Walk.exhaust Plan.back ⟨layer, below, s, p⟩) := by
  unfold Walk.exhaust
  cases below with
  | nil => exact .done h
  | cons under below =>
    obtain ⟨⟨hpos, -, -⟩, hunder, hbelow⟩ := hp
    have hclose := close_agrees h
    have hold : layer.base + layer.cursor.pos - layer.base = layer.cursor.pos :=
      Nat.add_sub_cancel_left _ _
    have hhere : under.base + under.cursor.pos = layer.base + layer.cursor.pos := by omega
    rw [hold] at hclose
    rw [← hhere] at hclose
    rcases hclose with ⟨e', p', he, hp', hh⟩ | ⟨len, p', hp', hq⟩
    · have he' : Emit.back.close layer.cursor.pos e = (.ok (), e') := he
      have hp'' : Plan.back.close layer.cursor.pos p = (.ok (), p') := hp'
      simp only [he', hp'']
      exact .next hbelow hh
    · have hp'' : Plan.back.close layer.cursor.pos p = (.error (.outgrown len), p') := hp'
      simp only [hp'']
      refine .capped fun hquiet => ?_
      obtain ⟨len', b, he⟩ := hq hquiet
      have he' : Emit.back.close layer.cursor.pos e = (.error (.outgrown len'), b) := he
      simp only [he']
      exact ⟨len', b, rfl⟩

theorem step_none {standard : Standard} {c c' : Cursor} (h : step standard c = (none, c')) :
    c' = c ∧ c.data.length ≤ c.pos := by
  unfold step at h
  split at h
  case isTrue hend =>
    obtain ⟨-, rfl⟩ := Prod.mk.inj h
    exact ⟨rfl, hend⟩
  case isFalse => repeat (split at h <;> try cases h)

theorem turn_lock (standard : Standard) {rule : Rule σ} (hr : rule.Heeds quiet)
    (hp : Placed input layer below)
    (h : Holds input before (quiet s) (starts layer below) (layer.base + layer.cursor.pos) e p) :
    Lock input before quiet (Walk.turn rule standard Emit.back ⟨layer, below, s, e⟩)
      (Walk.turn rule standard Plan.back ⟨layer, below, s, p⟩) := by
  unfold Walk.turn
  cases hs : step standard layer.cursor with
  | mk item cursor =>
    simp only
    cases item with
    | none =>
      obtain ⟨rfl, hend⟩ := step_none hs
      exact exhaust_lock hp hend h
    | some item =>
      cases item with
      | error fault => exact .refused
      | ok entry =>
        obtain ⟨r, rest, hf, rfl, rfl⟩ := step_ok hs
        exact deliver_lock hr hp hf h

/-! ## The whole job -/

/-- How two jobs driven in lockstep end. -/
inductive Ends (input before : List UInt8) (quiet : σ → Prop) :
    Option (Ended × σ × Emit) → Option (Ended × σ × Plan) → Prop where
  | spent : Ends input before quiet none none
  | done {s : σ} {e : Emit} {p : Plan} {here : Nat} :
      Holds input before (quiet s) [] here e p →
      Ends input before quiet (some (.ok, s, e)) (some (.ok, s, p))
  | refused {fault : TwoPass.Fault FaultKind} {s : σ} {e : Emit} {p : Plan} :
      Ends input before quiet (some (.err fault, s, e)) (some (.err fault, s, p))
  | capped {r : Option (Ended × σ × Emit)} {pos len : Nat} {crossed : List Crossing} {s : σ}
      {p : Plan} :
      (quiet s → ∃ len' e, r = some (.err ⟨pos, crossed, .output len'⟩, s, e)) →
      Ends input before quiet r (some (.err ⟨pos, crossed, .output len⟩, s, p))

theorem run_ends {standard : Standard} {rule : Rule σ} (hr : rule.Heeds quiet) (fuel : Nat)
    (hp : Placed input layer below)
    (h : Holds input before (quiet s) (starts layer below) (layer.base + layer.cursor.pos) e p) :
    Ends input before quiet (run (Walk.turn rule standard Emit.back) fuel ⟨layer, below, s, e⟩)
      (run (Walk.turn rule standard Plan.back) fuel ⟨layer, below, s, p⟩) := by
  induction fuel generalizing layer below s e p with
  | zero => exact .spent
  | succ fuel ih =>
    have hlock := turn_lock standard hr hp h
    unfold run
    generalize Walk.turn rule standard Emit.back ⟨layer, below, s, e⟩ = t at hlock ⊢
    generalize Walk.turn rule standard Plan.back ⟨layer, below, s, p⟩ = t' at hlock ⊢
    cases hlock with
    | next hp' h' => exact ih hp' h'
    | done h' => exact .done h'
    | refused => exact .refused
    | capped hq =>
      refine .capped fun hquiet => ?_
      obtain ⟨len', b, rfl⟩ := hq hquiet
      exact ⟨len', b, rfl⟩

/-- A job starts with its back-ends in step. -/
theorem start_holds {root : Cursor} (hover : Cursor.over input = some root) (limit : DepthLimit)
    (Q : Prop) (out : List UInt8) :
    Placed input ⟨root, 0, none, limit.asInner⟩ [] ∧
      Holds input out Q (starts ⟨root, 0, none, limit.asInner⟩ []) (0 + root.pos)
        (Emit.new input out) (Plan.new input) := by
  unfold Cursor.over at hover
  split at hover
  case isTrue => cases hover
  case isFalse =>
    cases hover
    refine ⟨⟨Nat.zero_le _, ⟨[], (List.append_nil _).symm⟩, Nat.zero_le _⟩, [], [], ?_, rfl,
      fun _ => rfl⟩
    refine ⟨?_, rfl, ⟨[], [], rfl, rfl, [], [], rfl, ⟨rfl, .nil⟩, .inr ⟨rfl, rfl, rfl⟩⟩,
      (by nofun), trivial, rfl, Nat.zero_le _⟩
    simp only [Emit.new, Emit.wrote, Nest.written, Nest.holes, Nest.tails, List.append_nil]

/-- The two faces' walks from a job's start. -/
theorem walk_ends (standard : Standard) {rule : Rule σ} (hr : rule.Heeds quiet) (input : List UInt8)
    (limit : DepthLimit) (s : σ) (out : List UInt8) :
    Ends input out quiet (walk input rule standard limit Emit.back s (Emit.new input out))
      (walk input rule standard limit Plan.back s (Plan.new input)) := by
  unfold walk
  cases hover : Cursor.over input with
  | none => exact .refused
  | some root =>
    obtain ⟨hplaced, hholds⟩ := start_holds hover limit (quiet s) out
    exact run_ends hr (input.length + 1) hplaced hholds

end Lock

theorem walk_noted {σ β : Type} (B : Back β) (input : List UInt8) (rule : Rule σ)
    (standard : Standard) (limit : DepthLimit) (s : σ) (back : β) :
    walk input rule standard limit B s back
      = (walk input rule.noted standard limit B (s, false) back).map (mapEnded Prod.fst) := by
  unfold walk
  cases Cursor.over input with
  | none => rfl
  | some root =>
    exact run_map B ⟨⟨root, 0, none, limit.asInner⟩, [], (s, false), back⟩ rule.projects_noted
      standard (input.length + 1)

/-- The overlay stands in step with some buffer. -/
def InStep {σ : Type} (input : List UInt8) (w : Walk σ Plan) : Prop :=
  Placed input w.layer w.below ∧ ∃ e, Holds input [] False (starts w.layer w.below)
    (w.layer.base + w.layer.cursor.pos) e w.back

theorem InStep.steps {σ : Type} {input : List UInt8} {rule : Rule σ} {standard : Standard}
    {w w' : Walk σ Plan} (hw : InStep input w)
    (h : Steps (Walk.turn rule standard Plan.back) w w') : InStep input w' := by
  have hr : rule.Heeds fun _ => False := ⟨by nofun, by nofun, by nofun, by nofun⟩
  induction h using Relation.ReflTransGen.head_induction_on with
  | refl => exact hw
  | @head w₁ w₂ hturn _ ih =>
    obtain ⟨hp, e, hh⟩ := hw
    have hlock : Lock input [] (fun _ => False)
        (Walk.turn rule standard Emit.back ⟨w₁.layer, w₁.below, w₁.rule, e⟩)
        (Walk.turn rule standard Plan.back ⟨w₁.layer, w₁.below, w₁.rule, w₁.back⟩) :=
      turn_lock standard hr hp hh
    have hturn' : Walk.turn rule standard Plan.back ⟨w₁.layer, w₁.below, w₁.rule, w₁.back⟩
      = .next w₂ := hturn
    rw [hturn'] at hlock
    generalize Walk.turn rule standard Emit.back ⟨w₁.layer, w₁.below, w₁.rule, e⟩ = t at hlock
    cases hlock with
    | next hp' hh' => exact ih ⟨hp', _, hh'⟩

/-- Where the sink face succeeds the Vec face does, with the windows' bytes; where it refuses it
hands over nothing, and the Vec face refuses alike, a refusal past the cap apart: there the two part
only over a job that committed tails, which the sink face announces at the ask. In every state of
the walk the unfilled slots are the open containers', each once. -/
theorem spliceSink_spliceInto {σ : Type} (input : List UInt8) (rule : Rule σ) (standard : Standard)
    (limit : DepthLimit) (s : σ) (out : List UInt8) :
    ∃ ended s₁ noted windows ended' s₂ out',
      spliceSink input rule standard limit s = some (ended, s₁, windows) ∧
      spliceSink input rule.noted standard limit (s, false) = some (ended, (s₁, noted), windows) ∧
      spliceInto input rule standard limit s out = some (ended', s₂, out') ∧
      (ended = .ok ∧ ended' = .ok ∧ s₂ = s₁ ∧ out' = out ++ windows.flatten ∨
        ∃ fault, ended = .err fault ∧ windows = [] ∧
          (ended' = .err fault ∧ s₂ = s₁ ∨
            ∃ len, fault.kind = .output len ∧
              (noted = false → ∃ len', ended' = .err { fault with kind := .output len' } ∧
                s₂ = s₁))) ∧
      ∀ root, Cursor.over input = some root →
        ∀ w, Steps (Walk.turn rule standard Plan.back)
          ⟨⟨root, 0, none, limit.asInner⟩, [], s, .new input⟩ w →
          Plan.unfilled 0 w.back.ops = w.back.frames.filterMap Frame.op := by
  have hslots : ∀ root, Cursor.over input = some root →
      ∀ w, Steps (Walk.turn rule standard Plan.back)
        ⟨⟨root, 0, none, limit.asInner⟩, [], s, .new input⟩ w →
        Plan.unfilled 0 w.back.ops = w.back.frames.filterMap Frame.op := by
    intro root hover w hw
    obtain ⟨hplaced, hholds⟩ := start_holds hover limit False []
    obtain ⟨-, e, hh⟩ := InStep.steps ⟨hplaced, _, hholds⟩ hw
    exact unfilled_holds hh
  have hends := walk_ends standard rule.heeds_noted input limit (s, false) out
  obtain ⟨ended, asked, b, hwalk, -, -, hend⟩ :=
    walk_carries input rule.noted standard limit (s, false) out
  have hinto := walk_noted Emit.back input rule standard limit s (Emit.new input out)
  have hsink := walk_noted Plan.back input rule standard limit s (Plan.new input)
  generalize walk input rule.noted standard limit Emit.back (s, false) (Emit.new input out) = r
    at hends hwalk hinto
  generalize hplan : walk input rule.noted standard limit Plan.back (s, false) (Plan.new input) = r'
    at hends hsink
  cases hends with
  | spent => cases hwalk
  | @done s' e p here hh =>
    obtain ⟨windows, hfold, hout⟩ := fold_holds hh
    refine ⟨.ok, s'.1, s'.2, windows, .ok, s'.1, out ++ windows.flatten, ?_, ?_, ?_,
      .inl ⟨rfl, rfl, rfl, rfl⟩, hslots⟩
    · unfold spliceSink
      rw [hsink]
      simp only [Option.map_some, mapEnded, hfold]
    · unfold spliceSink
      rw [hplan]
      simp only [hfold]
    · unfold spliceInto
      rw [hinto]
      simp only [Option.map_some, mapEnded, hout]
  | @refused fault s' e p =>
    refine ⟨.err fault, s'.1, s'.2, [], .err fault, s'.1, e.out.take out.length, ?_, ?_, ?_,
      .inr ⟨fault, rfl, rfl, .inl ⟨rfl, rfl⟩⟩, hslots⟩
    · unfold spliceSink
      rw [hsink]
      rfl
    · unfold spliceSink
      rw [hplan]
    · unfold spliceInto
      rw [hinto]
      rfl
  | @capped r pos len crossed s' p hq =>
    have hsink' : spliceSink input rule standard limit s
        = some (.err ⟨pos, crossed, .output len⟩, s'.1, []) := by
      unfold spliceSink
      rw [hsink]
      rfl
    have hnoted : spliceSink input rule.noted standard limit (s, false)
        = some (.err ⟨pos, crossed, .output len⟩, (s'.1, s'.2), []) := by
      unfold spliceSink
      rw [hplan]
    subst hwalk
    have hquiet (hn : s'.2 = false) : ∃ len',
        ended = .err ⟨pos, crossed, .output len'⟩ ∧ rule.noted.replay (s, false) asked = s' := by
      obtain ⟨len', e, he⟩ := hq hn
      obtain ⟨he, hs, -⟩ := Prod.mk.inj (Option.some.inj he) |>.imp_right Prod.mk.inj
      exact ⟨len', he, hs⟩
    rcases hend with ⟨rfl, -, -⟩ | ⟨fault, rfl, -⟩
    · refine ⟨_, _, _, _, .ok, (rule.noted.replay (s, false) asked).1, b.out, hsink', hnoted, ?_, .inr ⟨_, rfl, rfl, .inr ⟨len, rfl,
        fun hn => ?_⟩⟩, hslots⟩
      · unfold spliceInto
        rw [hinto]
        rfl
      · obtain ⟨len', he, -⟩ := hquiet hn
        cases he
    · refine ⟨_, _, _, _, .err fault, (rule.noted.replay (s, false) asked).1, b.out.take out.length,
        hsink', hnoted, ?_, .inr ⟨_, rfl, rfl, .inr ⟨len, rfl, fun hn => ?_⟩⟩, hslots⟩
      · unfold spliceInto
        rw [hinto]
        rfl
      · obtain ⟨len', he, hs⟩ := hquiet hn
        exact ⟨len', he, by rw [hs]⟩

/-! ## Where the faces part -/

section Apart

variable {σ β : Type} {rule : Rule σ} {standard : Standard} {B : Back β} {layer : Layer}
  {below : List Layer} {s s' : σ} {b b' : β} {field : FieldNumber} {payload tail : List UInt8}
  {cursor : Cursor} {staged : Option (List UInt8)} {remaining head tagEnd payloadStart : Nat}

/-- A turn at a commit inside the budget and the LEN class. -/
theorem turn_commit (hhead : layer.base + layer.cursor.pos = head)
    (hstep : step standard layer.cursor = (some (.ok ⟨field, .len payload⟩), cursor))
    (hanswer : rule.onLen s head field payload = (.commit staged, s'))
    (hremaining : layer.remaining = remaining + 1)
    (hstaged : (staged.getD []).length ≤ PayloadLen.max) :
    Walk.turn rule standard B ⟨layer, below, s, b⟩
      = Walk.enter B ⟨{ layer with cursor }, below, s', b⟩ head (head + cursor.tagWidth)
        (layer.base + cursor.pos) field payload staged remaining := by
  subst hhead
  unfold Walk.turn
  simp only [hstep, Walk.deliver, hanswer, Walk.len, hremaining]
  cases staged with
  | none => rfl
  | some bytes => exact if_neg (Nat.not_lt.mpr hstaged)

theorem enter_ok (hstart : layer.base + layer.cursor.pos - payload.length = payloadStart)
    (hcommit : B.commit head tagEnd payloadStart staged b = (.ok (), b'))
    (hlen : payload.length ≤ PayloadLen.max) :
    Walk.enter B ⟨layer, below, s, b⟩ head tagEnd (layer.base + layer.cursor.pos) field payload
        staged remaining
      = .next ⟨⟨⟨payload, 0, 0, 0⟩, payloadStart, some ⟨field, head⟩, remaining⟩, layer :: below, s,
        b'⟩ := by
  unfold Walk.enter
  rw [hstart]
  simp only [hcommit, within, if_pos hlen]

theorem enter_capped {len : Nat}
    (hstart : layer.base + layer.cursor.pos - payload.length = payloadStart)
    (hcommit : B.commit head tagEnd payloadStart staged b = (.error (.outgrown len), b')) :
    Walk.enter B ⟨layer, below, s, b⟩ head tagEnd (layer.base + layer.cursor.pos) field payload
        staged remaining
      = .halt (.err ⟨head, trail (layer :: below), .output len⟩, s, b') := by
  unfold Walk.enter
  rw [hstart]
  simp only [hcommit]
  rfl

theorem turn_closed {under : Layer} (hstep : step standard layer.cursor = (none, layer.cursor))
    (hclose : B.close layer.cursor.pos b = (.ok (), b')) :
    Walk.turn rule standard B ⟨layer, under :: below, s, b⟩ = .next ⟨under, below, s, b'⟩ := by
  unfold Walk.turn
  simp only [hstep, Walk.exhaust, hclose]

/-- An outer and an inner container, both prefixes padded, around one varint. -/
def padded : List UInt8 :=
  [0x0A, 0x88, 0x80, 0x80, 0x80, 0x00, 0x12, 0x82, 0x80, 0x80, 0x80, 0x00, 0x08, 0x01]

/-- Commits both containers, the outer one with a tail, and drops the varint. -/
def announcing (tail : List UInt8) : Rule Unit where
  onVarint _ _ _ _ := (.drop, ())
  onI32 _ _ _ _ := (.keep, ())
  onI64 _ _ _ _ := (.keep, ())
  onLen _ head _ _ := (.commit (if head = 0 then some tail else none), ())

/-- The layers of that job: the input, the outer container's and the inner one's. -/
def layerAt (cursor : Cursor) : Nat → Layer
  | 0 => ⟨cursor, 0, none, 5⟩
  | 6 => ⟨cursor, 6, some ⟨default, 0⟩, 4⟩
  | start => ⟨cursor, start, some ⟨⟨2, by decide, by decide⟩, 6⟩, 3⟩

theorem step_outer : step .tolerant (layerAt ⟨padded, 0, 0, 0⟩ 0).cursor
    = (some (.ok ⟨⟨1, by decide, by decide⟩, .len (padded.drop 6)⟩), ⟨padded, 14, 1, 5⟩) := by
  decide

theorem step_inner : step .tolerant (layerAt ⟨padded.drop 6, 0, 0, 0⟩ 6).cursor
    = (some (.ok ⟨⟨2, by decide, by decide⟩, .len (padded.drop 12)⟩),
      ⟨padded.drop 6, 8, 1, 5⟩) := by
  decide

theorem turn_outer {B : Back β} {b b' : β} (h : tail.length ≤ PayloadLen.max)
    (hcommit : B.commit 0 1 6 (some tail) b = (.ok (), b')) :
    Walk.turn (announcing tail) .tolerant B ⟨layerAt ⟨padded, 0, 0, 0⟩ 0, [], (), b⟩
      = .next ⟨layerAt ⟨padded.drop 6, 0, 0, 0⟩ 6, [layerAt ⟨padded, 14, 1, 5⟩ 0], (), b'⟩ := by
  have hanswer : (announcing tail).onLen () 0 ⟨1, by decide, by decide⟩ (padded.drop 6)
      = (.commit (some tail), ()) := rfl
  have hremaining : (layerAt ⟨padded, 0, 0, 0⟩ 0).remaining = 4 + 1 := rfl
  exact (turn_commit rfl step_outer hanswer hremaining h).trans (enter_ok rfl hcommit (by decide))

theorem turn_inner (tail : List UInt8) {B : Back β} {b : β} :
    Walk.turn (announcing tail) .tolerant B
        ⟨layerAt ⟨padded.drop 6, 0, 0, 0⟩ 6, [layerAt ⟨padded, 14, 1, 5⟩ 0], (), b⟩
      = Walk.enter B ⟨layerAt ⟨padded.drop 6, 8, 1, 5⟩ 6, [layerAt ⟨padded, 14, 1, 5⟩ 0], (), b⟩
        6 7 14 ⟨2, by decide, by decide⟩ (padded.drop 12) none 3 := by
  have hanswer : (announcing tail).onLen () 6 ⟨2, by decide, by decide⟩ (padded.drop 12)
      = (.commit none, ()) := rfl
  have hremaining : (layerAt ⟨padded.drop 6, 0, 0, 0⟩ 6).remaining = 3 + 1 := rfl
  exact turn_commit rfl step_inner hanswer hremaining (Nat.zero_le _)

/-- The sink face announces the tail at the ask, and the inner container's padded prefix takes the
account past the cap. -/
theorem spliceSink_announcing (h : tail.length = 2147483639) :
    (spliceSink padded (announcing tail) .tolerant ⟨5, by decide, by decide⟩ ()).map Prod.fst
      = some (.err ⟨6, [⟨⟨1, by decide, by decide⟩, 0⟩], .output 2147483651⟩) := by
  have hcommit : Plan.back.commit 0 1 6 (some tail) (.new padded) = (.ok (),
      ⟨padded, [], tail, [⟨0, 0, 1, 6, none, 0, tail.length⟩], 0, some (0, 6), 6 + tail.length⟩) := by
    show Plan.commit 0 1 6 (some tail) (.new padded) = _
    unfold Plan.commit
    rw [admitGrow_andThen, if_neg (by decide)]
    simp only [Plan.stage]
    rw [admitGrow_andThen, if_neg (by show ¬ 6 + tail.length > 2147483647; omega)]
    rfl
  set p : Plan := ⟨padded, [], tail, [⟨0, 0, 1, 6, none, 0, tail.length⟩], 0, some (0, 6),
    6 + tail.length⟩ with hp
  have hover : Plan.back.commit 6 7 12 none p = (.error (.outgrown 2147483651), p) := by
    show Plan.commit 6 7 12 none p = _
    unfold Plan.commit
    rw [admitGrow_andThen, if_pos (by show 6 + tail.length + 6 > 2147483647; omega)]
    show (Except.error (Trap.outgrown (6 + tail.length + 6)), p) = _
    rw [h]
  have h1 := turn_outer (by show tail.length ≤ 2147483647; omega) hcommit
  have h2 := (turn_inner tail).trans (enter_capped rfl hover)
  have hrun := (Takes.head h1 (.refl _)).halts h2 (by decide : 1 < padded.length + 1)
  have hwalk : walk padded (announcing tail) .tolerant ⟨5, by decide, by decide⟩ Plan.back ()
      (.new padded) = _ := hrun
  unfold spliceSink
  rw [hwalk]
  rfl

/-- The Vec face lands the tail once that prefix has been settled, inside the cap. -/
theorem spliceInto_announcing (h : tail.length = 2147483639) :
    (spliceInto padded (announcing tail) .tolerant ⟨5, by decide, by decide⟩ () []).map Prod.fst
      = some .ok := by
  have hcommit : Emit.back.commit 0 1 6 (some tail) (.new padded [])
      = (.ok (), ⟨padded, padded.take 6, 0, [⟨1, 6, tail.length⟩], tail⟩) := by
    rfl
  have hinner : Emit.back.commit 6 7 12 none ⟨padded, padded.take 6, 0, [⟨1, 6, tail.length⟩], tail⟩
      = (.ok (), ⟨padded, padded.take 12, 0, [⟨7, 12, 0⟩, ⟨1, 6, tail.length⟩], tail ++ []⟩) := by
    rfl
  have hshrunk : Emit.back.close 2
      ⟨padded, padded.take 12, 0, [⟨7, 12, 0⟩, ⟨1, 6, tail.length⟩], tail ++ []⟩
      = (.ok (), ⟨padded, padded.take 7 ++ [0], 0, [⟨1, 6, tail.length⟩], tail⟩) := by
    have hj := @close_judges padded [] tail (padded.take 7) [0x82, 0x80, 0x80, 0x80, 0x00] [] []
      [⟨1, 6, tail.length⟩] 2 (by decide)
    have hsettled : settledPrefix [0x82, 0x80, 0x80, 0x80, 0x00] 2 ([] ++ [] : List UInt8).length
        = [0] := by decide
    rw [hsettled] at hj
    exact hj.1 (by rw [Emit.rel_wrote]; decide)
  have hlands : ∃ e, Emit.back.close 8
      ⟨padded, padded.take 7 ++ [0], 0, [⟨1, 6, tail.length⟩], tail⟩ = (.ok (), e) := by
    have hj := @close_judges padded [] [] [0x0A] [0x88, 0x80, 0x80, 0x80, 0x00] [0x12, 0x00] tail [] 8
      (by show 8 + tail.length ≤ 2147483647; omega)
    have hlen : ([0x12, 0x00] ++ tail : List UInt8).length = 2147483641 := by
      rw [List.length_append, h]; rfl
    have hsettled : (settledPrefix [0x88, 0x80, 0x80, 0x80, 0x00] 8
        ([0x12, 0x00] ++ tail : List UInt8).length).length = 5 := by
      rw [hlen, settledPrefix, if_neg (by decide), Base128.minimal_length]
      decide
    refine ⟨_, hj.1 ?_⟩
    rw [Emit.rel_wrote, List.length_append, List.length_append, hsettled, hlen]
    decide
  obtain ⟨e, hlands⟩ := hlands
  have h1 := turn_outer (by show tail.length ≤ 2147483647; omega) hcommit
  have h2 := (turn_inner tail).trans (enter_ok rfl hinner (by decide))
  have h3 : Walk.turn (announcing tail) .tolerant Emit.back
      ⟨layerAt ⟨padded.drop 12, 0, 0, 0⟩ 12,
        [layerAt ⟨padded.drop 6, 8, 1, 5⟩ 6, layerAt ⟨padded, 14, 1, 5⟩ 0], (),
        ⟨padded, padded.take 12, 0, [⟨7, 12, 0⟩, ⟨1, 6, tail.length⟩], tail ++ []⟩⟩
      = .next ⟨layerAt ⟨padded.drop 12, 2, 1, 0⟩ 12,
        [layerAt ⟨padded.drop 6, 8, 1, 5⟩ 6, layerAt ⟨padded, 14, 1, 5⟩ 0], (),
        ⟨padded, padded.take 12, 0, [⟨7, 12, 0⟩, ⟨1, 6, tail.length⟩], tail ++ []⟩⟩ := by
    have hstep : step .tolerant (layerAt ⟨padded.drop 12, 0, 0, 0⟩ 12).cursor
        = (some (.ok ⟨⟨1, by decide, by decide⟩, .varint 1⟩), ⟨padded.drop 12, 2, 1, 0⟩) := by
      decide
    unfold Walk.turn
    simp only [hstep]
    rfl
  have h4 := @turn_closed _ _ (announcing tail) .tolerant Emit.back
    (layerAt ⟨padded.drop 12, 2, 1, 0⟩ 12) [layerAt ⟨padded, 14, 1, 5⟩ 0] () _ _
    (layerAt ⟨padded.drop 6, 8, 1, 5⟩ 6) (by decide) hshrunk
  have h5 := @turn_closed _ _ (announcing tail) .tolerant Emit.back
    (layerAt ⟨padded.drop 6, 8, 1, 5⟩ 6) [] () _ _ (layerAt ⟨padded, 14, 1, 5⟩ 0) (by decide) hlands
  have h6 : Walk.turn (announcing tail) .tolerant Emit.back
      ⟨layerAt ⟨padded, 14, 1, 5⟩ 0, [], (), e⟩ = .halt (.ok, (), e) := by
    have hstep : step .tolerant (layerAt ⟨padded, 14, 1, 5⟩ 0).cursor
        = (none, ⟨padded, 14, 1, 5⟩) := by
      decide
    unfold Walk.turn
    simp only [hstep]
    rfl
  have hrun := (Takes.head h1 (.head h2 (.head h3 (.head h4 (.head h5 (.refl _)))))).halts h6
    (by decide : 5 < padded.length + 1)
  have hwalk : walk padded (announcing tail) .tolerant ⟨5, by decide, by decide⟩ Emit.back ()
      (.new padded []) = _ := hrun
  unfold spliceInto
  rw [List.length_nil]
  simp only [hwalk]
  rfl

/-- One job under one rule, which the Vec face completes and the sink face refuses. -/
theorem faces_part :
    ∃ (input : List UInt8) (rule : Rule Unit) (limit : DepthLimit) (fault : TwoPass.Fault FaultKind),
      (spliceInto input rule .tolerant limit () []).map Prod.fst = some .ok ∧
        (spliceSink input rule .tolerant limit ()).map Prod.fst = some (.err fault) :=
  ⟨padded, announcing (List.replicate 2147483639 0), ⟨5, by decide, by decide⟩, _,
    spliceInto_announcing List.length_replicate, spliceSink_announcing List.length_replicate⟩

end Apart

end ProtobufEdit.Splice.Groupless
