import ProtobufEdit.Splice.Groupless.Reference

/-!
# The splicer computes its reference

What a turn of the walk comes to at a record, at a container's opening and at its close, and what
a run over a layer's records comes to (`carries`). `spliceInto_reference` says that a job asks for
the reference's records in order, and that where it succeeds it appends the reference's bytes.
-/

namespace ProtobufEdit.Splice.Groupless

open Wire ProtobufEdit.Path Cursor Cursor.Groupless Base128 Loop TwoPass

/-! ## One ask's consequences -/

section Turns

variable {σ ν : Type} {input before written tails front behind : List UInt8} {holes : List Hole}

/-- A length past its class: an answer's, or the output's. -/
def FaultKind.Past : FaultKind → Prop
  | .growth len | .output len => PayloadLen.max < len
  | _ => False

/-- A turn goes on in the walk `w'`, inside the cap, or refuses a length past its class with the
caller's bytes kept. -/
def Goes (before : List UInt8) (t : Turned σ Emit) (w' : Walk σ Emit) : Prop :=
  t = .next w' ∧ w'.back.rel ≤ PayloadLen.max ∨
    ∃ fault b, t = .halt (.err fault, w'.rule, b) ∧ fault.kind.Past ∧ before <+: b.out

variable {w : Walk σ Emit} {head tagEnd stop : Nat}

theorem flow_goes {d : Did Emit} {e : Emit} (h : Emit.Comes before d e) :
    Goes before (w.flow head d) { w with back := e } := by
  rcases h with ⟨rfl, hcap⟩ | ⟨len, b, rfl, hlen, hb⟩
  · exact .inl ⟨rfl, hcap⟩
  · exact .inr ⟨_, b, rfl, hlen, hb⟩

theorem judgeAnswer_goes {bytes : List UInt8} {t : Turned σ Emit} {w' : Walk σ Emit}
    (hout : before <+: w.back.out) (hrule : w'.rule = w.rule)
    (h : bytes.length ≤ PayloadLen.max → Goes before t w') :
    Goes before (w.judgeAnswer bytes head t) w' := by
  unfold Walk.judgeAnswer
  split
  case isTrue hlong =>
    refine .inr ⟨⟨head, trail (w.layer :: w.below), .growth bytes.length⟩, w.back, ?_, hlong, hout⟩
    rw [hrule]
    rfl
  case isFalse hin => exact h (Nat.le_of_not_lt hin)

/-- The record at `head`, in the walk's input. -/
structure Heads (input : List UInt8) (head tagEnd stop : Nat) (r : Record) : Prop where
  stands : ∃ behind, input.drop head = r.bytes ++ behind
  head_le : head ≤ input.length
  tagEnd : tagEnd = head + r.tag.length
  stop : stop = head + r.bytes.length

variable {r : Record}

theorem Heads.record_comes (h : Heads input head tagEnd stop r) :
    Emit.Comes before (Emit.verbatim head stop (.wrote input before written holes tails))
      (.wrote input before (written ++ r.bytes) holes tails) := by
  obtain ⟨behind, hin⟩ := h.stands
  exact Emit.verbatim_comes hin h.head_le h.stop

theorem Heads.tag_comes (h : Heads input head tagEnd stop r) :
    Emit.Comes before (Emit.verbatim head tagEnd (.wrote input before written holes tails))
      (.wrote input before (written ++ r.tag) holes tails) := by
  obtain ⟨behind, hin⟩ := h.stands
  rw [Record.bytes, List.append_assoc] at hin
  exact Emit.verbatim_comes hin h.head_le h.tagEnd

/-- The walk with so much written behind a verdict. -/
def Walk.wrote (w : Walk σ Emit) (input before written : List UInt8) (holes : List Hole)
    (tails : List UInt8) : Walk σ Emit :=
  { w with back := .wrote input before written holes tails }

theorem insert_goes (h : Heads input head tagEnd stop r) (bytes : List UInt8) :
    Goes before
      ((w.wrote input before written holes tails).judgeAnswer bytes head
        ((w.wrote input before written holes tails).flow head
          ((Emit.author bytes (.wrote input before written holes tails)).andThen
            (Emit.verbatim head stop))))
      (w.wrote input before (written ++ (bytes ++ r.bytes)) holes tails) := by
  refine judgeAnswer_goes (List.prefix_append _ _) rfl fun _ => ?_
  rw [← List.append_assoc]
  exact flow_goes ((Emit.append_comes bytes).andThen fun _ => h.record_comes)

theorem drop_goes (hcap : written.length ≤ PayloadLen.max) (head : Nat) :
    Goes before
      ((w.wrote input before written holes tails).flow head
        (.ok (), Emit.back.dirty (.wrote input before written holes tails)))
      (w.wrote input before (written ++ []) holes tails) := by
  rw [List.append_nil]
  exact flow_goes (.inl ⟨rfl, by rwa [Emit.rel_wrote]⟩)

/-- A scalar arm leaves its verdict's piece. -/
theorem scalar_goes (h : Heads input head tagEnd stop r) (hcap : written.length ≤ PayloadLen.max)
    {author : ν → Emit → Did Emit} {spell : ν → List UInt8}
    (hauthor : ∀ value written', Emit.Comes before
      (author value (.wrote input before written' holes tails))
      (.wrote input before (written' ++ spell value) holes tails))
    (answer : Scalar ν) :
    Goes before
      ((w.wrote input before written holes tails).scalar Emit.back author head tagEnd stop answer)
      (w.wrote input before (written ++ (Scalar.verdict spell answer).piece r) holes tails) := by
  cases answer with
  | keep => exact flow_goes h.record_comes
  | rewrite value =>
    show Goes _ _ (w.wrote input before (written ++ (r.tag ++ spell value)) holes tails)
    rw [← List.append_assoc]
    exact flow_goes (h.tag_comes.andThen fun _ => hauthor value _)
  | drop => exact drop_goes hcap head
  | insert bytes => exact insert_goes h bytes

/-- A LEN arm that does not enter leaves its verdict's piece. -/
theorem len_goes (h : Heads input head tagEnd stop r) (hcap : written.length ≤ PayloadLen.max)
    {field : FieldNumber} {payload : List UInt8} {answer : Len}
    (hc : ∀ tail, Len.verdict answer ≠ .commit tail) :
    Goes before
      ((w.wrote input before written holes tails).len Emit.back head tagEnd stop field payload
        answer)
      (w.wrote input before (written ++ (Len.verdict answer).piece r) holes tails) := by
  cases answer with
  | pass => exact flow_goes h.record_comes
  | commit tail => exact absurd rfl (hc _)
  | replace bytes =>
    refine judgeAnswer_goes (List.prefix_append _ _) rfl fun hlen => ?_
    have hword : bytes.length < 2 ^ 64 := Nat.lt_of_le_of_lt hlen (by decide)
    show Goes _ _ (w.wrote input before
      (written ++ (r.tag ++ (minimal bytes.length ++ bytes))) holes tails)
    rw [← List.append_assoc, ← List.append_assoc]
    exact flow_goes ((h.tag_comes.andThen fun _ => Emit.authorVarint_comes hword).andThen
      fun _ => Emit.append_comes bytes)
  | drop => exact drop_goes hcap head
  | insert bytes => exact insert_goes h bytes

/-- The walk inside a container just committed. -/
def Walk.inside (w : Walk σ Emit) (field : FieldNumber) (head payloadStart remaining : Nat)
    (payload : List UInt8) (e : Emit) : Walk σ Emit :=
  { w with
    layer := ⟨⟨payload, 0, 0, 0⟩, payloadStart, some ⟨field, head⟩, remaining⟩
    below := w.layer :: w.below
    back := e }

/-- An entering verdict copies the tag and the prefix over a hole. -/
theorem enter_goes (h : Heads input head tagEnd stop r) {field : FieldNumber}
    {word payload : List UInt8} (hp : r.payload = .len word payload)
    (hlen : payload.length ≤ PayloadLen.max) (tail : Option (List UInt8)) (remaining : Nat) :
    Goes before
      ((w.wrote input before written holes tails).enter Emit.back head tagEnd stop field payload
        tail remaining)
      (w.inside field head (head + r.tag.length + word.length) remaining payload
        (.wrote input before (written ++ r.tag ++ word)
          (⟨(written ++ r.tag).length, (written ++ r.tag).length + word.length,
            (tail.getD []).length⟩ :: holes) (tails ++ tail.getD []))) := by
  obtain ⟨behind, hin⟩ := h.stands
  have hbytes : r.bytes = r.tag ++ (word ++ payload) := by rw [Record.bytes, hp]; rfl
  have hdrop : input.drop head = r.tag ++ (word ++ (payload ++ behind)) := by
    rw [hin, hbytes]; simp only [List.append_assoc]
  have hstart : stop - payload.length = head + r.tag.length + word.length := by
    rw [h.stop, hbytes]; simp only [List.length_append]; omega
  have hcommit := @Emit.commit_comes input before written tails holes head tagEnd
    (head + r.tag.length + word.length) r.tag word (payload ++ behind) tail hdrop h.head_le h.tagEnd
    (by rw [h.tagEnd])
  have hback : Emit.back.commit head tagEnd (head + r.tag.length + word.length) tail
      (w.wrote input before written holes tails).back
      = Emit.commit head tagEnd (head + r.tag.length + word.length) tail
        (.wrote input before written holes tails) := rfl
  unfold Walk.enter
  rw [hstart]
  rcases hcommit with ⟨he, hcap⟩ | ⟨len, b, he, hlong, hb⟩
  · refine .inl ⟨?_, hcap⟩
    simp only [hback, he, within, if_pos hlen]
    rfl
  · refine .inr ⟨⟨head, trail (w.layer :: w.below), .output len⟩, b, ?_, hlong, hb⟩
    simp only [hback, he]
    rfl

theorem len_commit_goes (h : Heads input head tagEnd stop r) {field : FieldNumber}
    {word payload : List UInt8} (hp : r.payload = .len word payload)
    (hlen : payload.length ≤ PayloadLen.max) (tail : Option (List UInt8)) {remaining : Nat}
    (hr : w.layer.remaining = remaining + 1) :
    Goes before
      ((w.wrote input before written holes tails).len Emit.back head tagEnd stop field payload
        (.commit tail))
      (w.inside field head (head + r.tag.length + word.length) remaining payload
        (.wrote input before (written ++ r.tag ++ word)
          (⟨(written ++ r.tag).length, (written ++ r.tag).length + word.length,
            (tail.getD []).length⟩ :: holes) (tails ++ tail.getD []))) := by
  have hr' : (w.wrote input before written holes tails).layer.remaining = remaining + 1 := hr
  simp only [Walk.len, hr']
  cases tail with
  | none => exact enter_goes h hp hlen none remaining
  | some bytes =>
    exact judgeAnswer_goes (List.prefix_append _ _) rfl fun _ =>
      enter_goes h hp hlen (some bytes) remaining

end Turns

/-! ## A layer's records -/

section Runs

variable {σ : Type} {rule : Rule σ} {standard : Standard} {input before bytes rest : List UInt8}
  {w w' : Walk σ Emit} {asks asked : List Ask} {n k : Nat} {t : Told σ}

/-- What a refusal behind some asks is for: a length past its class, or wire that the reference
refuses behind the same asks. -/
def FaultKind.Caused (t : Told σ) (asked : List Ask) (kind : FaultKind) : Prop :=
  kind.Past ∨ (∃ breach, kind = .wire breach) ∧ t.out = none ∧ asked = t.asks

/-- The run from `w` refuses inside `n` turns, having asked for a first part of what is told. -/
def Refuses (rule : Rule σ) (standard : Standard) (before : List UInt8) (w : Walk σ Emit) (n : Nat)
    (t : Told σ) : Prop :=
  ∃ k w' fault asked b, k ≤ n ∧ Takes (Walk.turn rule standard Emit.back) k w w' ∧
    w'.turn rule standard Emit.back = .halt (.err fault, rule.replay w.rule asked, b) ∧
    asked <+: t.asks ∧ fault.kind.Caused t asked ∧ before <+: b.out

/-- The walk with its layer's cursor moved to `pos`, the rule behind `s` and `body` written. -/
def Walk.ran (w : Walk σ Emit) (cursor : Cursor) (s : σ) (body : List UInt8) : Walk σ Emit :=
  { w with
    layer := { w.layer with cursor }, rule := s, back := { w.back with out := w.back.out ++ body } }

/-- The run from `w` over its layer's last `n` bytes comes to what is told of them. -/
def Carries (rule : Rule σ) (standard : Standard) (before : List UInt8) (w : Walk σ Emit) (n : Nat)
    (t : Told σ) : Prop :=
  (∃ k cursor body, k ≤ n ∧ t.out = some body ∧ t.rule = rule.replay w.rule t.asks ∧
    Takes (Walk.turn rule standard Emit.back) k w (w.ran cursor t.rule body) ∧
    w.back.rel + body.length ≤ PayloadLen.max ∧ cursor.data = w.layer.cursor.data ∧
    cursor.pos = cursor.data.length) ∨
  Refuses rule standard before w n t

theorem replay_append (s : σ) (asks asks' : List Ask) :
    rule.replay s (asks ++ asks') = rule.replay (rule.replay s asks) asks' := List.foldl_append

/-- A committed record's two tokens stand around its payload. -/
theorem first_len_lt {r : Record} {word payload : List UInt8}
    (hf : first standard bytes = some (r, rest)) (hp : r.payload = .len word payload) :
    payload.length + rest.length + 2 ≤ bytes.length := by
  obtain ⟨rfl, hlaw⟩ := first_iff.mp hf
  have htag := hlaw.isTag.admits.isWord.length_pos
  have hword : 0 < word.length := by
    have hpl := hlaw.payload
    rw [hp] at hpl
    exact hpl.1.isWord.length_pos
  simp only [Record.bytes, hp, Payload.bytes, List.length_append]
  omega

theorem Refuses.mono (h : Refuses rule standard before w n t) (hn : n ≤ k) :
    Refuses rule standard before w k t := by
  obtain ⟨j, w', fault, asked, b, hj, h⟩ := h
  exact ⟨j, w', fault, asked, b, by omega, h⟩

/-- A refusal behind some turns. -/
theorem Refuses.after (ht : Takes (Walk.turn rule standard Emit.back) k w w')
    (hrule : w'.rule = rule.replay w.rule asked) (h : Refuses rule standard before w' n t)
    (piece : List UInt8) : Refuses rule standard before w (k + n) (t.behind asked piece) := by
  obtain ⟨j, w'', fault, asked', b, hj, ht', he, hpre, hcause, hb⟩ := h
  refine ⟨k + j, w'', fault, asked ++ asked', b, by omega, ht.trans ht', ?_, ?_, ?_, hb⟩
  · rw [he, replay_append, hrule]
  · exact List.prefix_append_right_inj asked |>.mpr hpre
  · refine hcause.imp_right fun ⟨hwire, hout, hasked⟩ => ⟨hwire, ?_, ?_⟩
    · rw [Told.behind, hout]
      rfl
    · rw [Told.behind, hasked]

/-- A refusal inside a container is one of the container's. -/
theorem Refuses.outer {ask : Ask} {tag word payload tail : List UInt8} {behind : σ → Told σ}
    (h : Refuses rule standard before w n (t.behind [ask] [])) :
    Refuses rule standard before w n (t.entered ask tag word payload tail behind) := by
  obtain ⟨k, w', fault, asked, b, hk, ht, he, hpre, hcause, hb⟩ := h
  have hpre : asked <+: ask :: t.asks := hpre
  refine ⟨k, w', fault, asked, b, hk, ht, he, ?_, ?_, hb⟩
  · unfold Told.entered
    cases t.out with
    | none => exact hpre
    | some body => exact hpre.trans (List.prefix_append _ _)
  · refine hcause.imp_right fun ⟨hwire, hout, hasked⟩ => ⟨hwire, ?_⟩
    have hout : t.out = none := Option.map_eq_none_iff.mp hout
    unfold Told.entered
    rw [hout]
    exact ⟨rfl, hasked⟩

theorem Carries.mono (h : Carries rule standard before w n t) (hn : n ≤ k) :
    Carries rule standard before w k t := by
  rcases h with ⟨j, cursor, body, hj, h⟩ | h
  · exact .inl ⟨j, cursor, body, by omega, h⟩
  · exact .inr (h.mono hn)

/-- Some told records behind a stretch of the run that wrote `piece`. -/
theorem Carries.chain {cursor : Cursor} {piece : List UInt8} {s : σ}
    (ht : Takes (Walk.turn rule standard Emit.back) k w (w.ran cursor s piece))
    (hs : s = rule.replay w.rule asked) (hmark : w.back.mark ≤ w.back.out.length)
    (hdata : cursor.data = w.layer.cursor.data)
    (h : Carries rule standard before (w.ran cursor s piece) n t) :
    Carries rule standard before w (k + n) (t.behind asked piece) := by
  rcases h with ⟨j, cursor', body, hj, hout, hrule, ht', hcap, hdata', hpos⟩ | h
  · refine .inl ⟨k + j, cursor', piece ++ body, by omega, ?_, ?_, ?_, ?_, hdata'.trans hdata, hpos⟩
    · rw [Told.behind, hout]; rfl
    · show t.rule = _
      rw [hrule, Told.behind, replay_append, ← hs]; rfl
    · have hran : w.ran cursor' t.rule (piece ++ body)
          = (w.ran cursor s piece).ran cursor' t.rule body := by
        simp only [Walk.ran, List.append_assoc]
      show Takes _ (k + j) w (w.ran cursor' t.rule (piece ++ body))
      rw [hran]
      exact ht.trans ht'
    · have hrel : (w.ran cursor s piece).back.rel = w.back.rel + piece.length := by
        simp only [Walk.ran, Emit.rel, List.length_append]; omega
      rw [hrel] at hcap
      rw [List.length_append]; omega
  · exact .inr (h.after ht hs piece)

/-- The walk stands before its layer's last records, which are `bytes`. -/
structure At (input before : List UInt8) (w : Walk σ Emit) (bytes : List UInt8) : Prop where
  left : w.layer.cursor.data.drop w.layer.cursor.pos = bytes
  inside : w.layer.cursor.pos ≤ w.layer.cursor.data.length
  stands : ∃ behind, input.drop (w.layer.base + w.layer.cursor.pos) = bytes ++ behind
  head_le : w.layer.base + w.layer.cursor.pos ≤ input.length
  wrote : ∃ written holes tails, w.back = .wrote input before written holes tails
  cap : w.back.rel ≤ PayloadLen.max

section Record

variable {r : Record} {verdict : Verdict} {s' : σ}

theorem At.heads (h : At input before w bytes) (hf : first standard bytes = some (r, rest)) :
    Heads input (w.layer.base + w.layer.cursor.pos)
      (w.layer.base + w.layer.cursor.pos + (w.layer.cursor.past r).tagWidth)
      (w.layer.base + (w.layer.cursor.past r).pos) r := by
  obtain ⟨rfl, -⟩ := first_iff.mp hf
  obtain ⟨behind, hin⟩ := h.stands
  exact ⟨⟨rest ++ behind, by rw [hin, List.append_assoc]⟩, h.head_le, rfl,
    (Nat.add_assoc _ _ _).symm⟩

/-- The walk behind a record, whatever it wrote there. -/
theorem At.past (h : At input before w bytes) (hf : first standard bytes = some (r, rest))
    (piece : List UInt8) (hcap : (w.ran (w.layer.cursor.past r) s' piece).back.rel ≤ PayloadLen.max) :
    At input before (w.ran (w.layer.cursor.past r) s' piece) rest := by
  obtain ⟨rfl, -⟩ := first_iff.mp hf
  obtain ⟨behind, hin⟩ := h.stands
  obtain ⟨written, holes, tails, hback⟩ := h.wrote
  have hl := length_of_drop_eq h.left
  have hl' := length_of_drop_eq hin
  have hhead := h.head_le
  have hinside := h.inside
  have hadd : w.layer.base + (w.layer.cursor.pos + r.bytes.length)
      = w.layer.base + w.layer.cursor.pos + r.bytes.length := (Nat.add_assoc _ _ _).symm
  refine ⟨drop_of_drop_eq h.left, ?_, ⟨behind, ?_⟩, ?_, ⟨written ++ piece, holes, tails, ?_⟩, hcap⟩
  · show w.layer.cursor.pos + r.bytes.length ≤ _
    rw [List.length_append] at hl'
    show _ ≤ w.layer.cursor.data.length
    have := hl
    omega
  · show input.drop (w.layer.base + (w.layer.cursor.pos + r.bytes.length)) = _
    rw [hadd]
    exact drop_of_drop_eq (by rw [hin, List.append_assoc])
  · show w.layer.base + (w.layer.cursor.pos + r.bytes.length) ≤ _
    rw [List.length_append] at hl'
    omega
  · simp only [Walk.ran, hback, Emit.wrote, List.append_assoc]

/-- A turn at a record whose verdict does not enter. -/
theorem turn_goes (h : At input before w bytes) (hf : first standard bytes = some (r, rest))
    (hv : rule.verdict w.rule ⟨w.layer.base + w.layer.cursor.pos, r.field, r.payload.value⟩
      = (verdict, s')) (hc : ∀ tail, verdict ≠ .commit tail) :
    Goes before (w.turn rule standard Emit.back)
      (w.ran (w.layer.cursor.past r) s' (verdict.piece r)) := by
  have hheads := h.heads hf
  have hcap := h.cap
  obtain ⟨written, holes, tails, hback⟩ := h.wrote
  have hstep := (step_record (h.left ▸ hf)).1
  have hran : w.ran (w.layer.cursor.past r) s' (verdict.piece r)
      = ({ w with layer := { w.layer with cursor := w.layer.cursor.past r }, rule := s' } :
          Walk σ Emit).wrote input before (written ++ verdict.piece r) holes tails := by
    simp only [Walk.ran, Walk.wrote, hback, Emit.wrote, List.append_assoc]
  have hwrote (s : σ) : ({ w with
      layer := { w.layer with cursor := w.layer.cursor.past r }, rule := s } : Walk σ Emit)
      = ({ w with layer := { w.layer with cursor := w.layer.cursor.past r }, rule := s } :
          Walk σ Emit).wrote input before written holes tails := by
    simp only [Walk.wrote, ← hback]
  rw [hback, Emit.rel_wrote] at hcap
  rw [hran]
  unfold Walk.turn
  simp only [hstep, Walk.deliver]
  cases hp : r.payload with
  | varint word =>
    simp only [Rule.verdict, hp, Payload.value] at hv ⊢
    obtain ⟨rfl, rfl⟩ := Prod.mk.inj hv
    rw [hwrote]
    exact scalar_goes hheads hcap (fun value _ => Emit.authorVarint_comes value.toNat_lt) _
  | i64 word =>
    simp only [Rule.verdict, hp, Payload.value] at hv ⊢
    obtain ⟨rfl, rfl⟩ := Prod.mk.inj hv
    rw [hwrote]
    exact scalar_goes hheads hcap (fun value _ => Emit.append_comes value.bytes) _
  | i32 word =>
    simp only [Rule.verdict, hp, Payload.value] at hv ⊢
    obtain ⟨rfl, rfl⟩ := Prod.mk.inj hv
    rw [hwrote]
    exact scalar_goes hheads hcap (fun value _ => Emit.append_comes value.bytes) _
  | len word payload =>
    simp only [Rule.verdict, hp, Payload.value] at hv ⊢
    obtain ⟨rfl, rfl⟩ := Prod.mk.inj hv
    rw [hwrote]
    exact len_goes hheads hcap hc

/-- A committing verdict leaves the LEN answer it was read from. -/
theorem commit_of_verdict {word payload tail : List UInt8} {s : σ} {head : Nat}
    (hp : r.payload = .len word payload)
    (hv : rule.verdict s ⟨head, r.field, r.payload.value⟩ = (.commit tail, s')) :
    ∃ staged, rule.onLen s head r.field payload = (.commit staged, s') ∧ staged.getD [] = tail := by
  rw [hp] at hv
  have hv' : (Len.verdict (rule.onLen s head r.field payload).1,
      (rule.onLen s head r.field payload).2) = (.commit tail, s') := hv
  obtain ⟨hanswer, rfl⟩ := Prod.mk.inj hv'
  obtain ⟨staged, hstaged, htail⟩ := len_verdict_commit hanswer
  exact ⟨staged, Prod.ext hstaged rfl, htail⟩

/-- The emission inside a container just committed. -/
def Emit.inside (e : Emit) (tag word tail : List UInt8) : Emit :=
  { e with
    out := e.out ++ (tag ++ word)
    holes := ⟨e.rel + tag.length, e.rel + tag.length + word.length, tail.length⟩ :: e.holes
    tails := e.tails ++ tail }

variable {word payload tail : List UInt8} {remaining : Nat}

/-- The walk inside the container of a record. -/
def Walk.entered (w : Walk σ Emit) (r : Record) (s : σ) (word payload tail : List UInt8)
    (remaining : Nat) : Walk σ Emit :=
  { layer := ⟨⟨payload, 0, 0, 0⟩, w.layer.base + w.layer.cursor.pos + r.tag.length + word.length,
      some ⟨r.field, w.layer.base + w.layer.cursor.pos⟩, remaining⟩
    below := { w.layer with cursor := w.layer.cursor.past r } :: w.below
    rule := s
    back := Emit.inside w.back r.tag word tail }

/-- A turn at a record whose verdict enters. -/
theorem turn_enters (h : At input before w bytes) (hf : first standard bytes = some (r, rest))
    (hp : r.payload = .len word payload)
    (hv : rule.verdict w.rule ⟨w.layer.base + w.layer.cursor.pos, r.field, r.payload.value⟩
      = (.commit tail, s')) (hr : w.layer.remaining = remaining + 1) :
    Goes before (w.turn rule standard Emit.back) (w.entered r s' word payload tail remaining) := by
  have hheads := h.heads hf
  obtain ⟨staged, ha, rfl⟩ := commit_of_verdict hp hv
  obtain ⟨written, holes, tails, hback⟩ := h.wrote
  have hstep := (step_record (h.left ▸ hf)).1
  obtain ⟨-, hlaw⟩ := first_iff.mp hf
  have hlen : payload.length ≤ PayloadLen.max := by
    have hpl := hlaw.payload
    rw [hp] at hpl
    rw [← hpl.2]
    exact Varint.isWordLen_le hpl.1.isWord
  have hgoes := @len_commit_goes σ input before written tails holes
    { w with layer := { w.layer with cursor := w.layer.cursor.past r }, rule := s' }
    _ _ _ r hheads r.field word payload hp hlen staged remaining hr
  have hwrote : ({ w with
      layer := { w.layer with cursor := w.layer.cursor.past r }, rule := s' } : Walk σ Emit)
      = ({ w with layer := { w.layer with cursor := w.layer.cursor.past r }, rule := s' } :
          Walk σ Emit).wrote input before written holes tails := by
    simp only [Walk.wrote, ← hback]
  have hentered : w.entered r s' word payload (staged.getD []) remaining
      = ({ w with layer := { w.layer with cursor := w.layer.cursor.past r }, rule := s' } :
          Walk σ Emit).inside r.field (w.layer.base + w.layer.cursor.pos)
          (w.layer.base + w.layer.cursor.pos + r.tag.length + word.length) remaining payload
          (.wrote input before (written ++ r.tag ++ word)
            (⟨(written ++ r.tag).length, (written ++ r.tag).length + word.length,
              (staged.getD []).length⟩ :: holes) (tails ++ staged.getD [])) := by
    simp only [Walk.entered, Walk.inside, Emit.inside, hback, Emit.rel_wrote, List.length_append]
    simp only [Emit.wrote, List.append_assoc]
  rw [hentered]
  unfold Walk.turn
  simp only [hstep, Walk.deliver, hp, Payload.value, ha]
  rw [hwrote]
  exact hgoes

/-- A turn at a committing verdict past the budget. -/
theorem turn_wall (h : At input before w bytes) (hf : first standard bytes = some (r, rest))
    (hp : r.payload = .len word payload)
    (hv : rule.verdict w.rule ⟨w.layer.base + w.layer.cursor.pos, r.field, r.payload.value⟩
      = (.commit tail, s')) (hr : w.layer.remaining = 0) :
    ∃ fault, w.turn rule standard Emit.back = .halt (.err fault, s', w.back) ∧
      fault.kind = .wire .depth := by
  obtain ⟨staged, ha, rfl⟩ := commit_of_verdict hp hv
  have hstep := (step_record (h.left ▸ hf)).1
  refine ⟨⟨w.layer.base + w.layer.cursor.pos, trail ({ w.layer with
    cursor := w.layer.cursor.past r } :: w.below), .wire .depth⟩, ?_, rfl⟩
  unfold Walk.turn
  simp only [hstep, Walk.deliver, hp, Payload.value, ha, Walk.len]
  rw [hr]
  rfl

/-- The walk stands before the container's interior. -/
theorem At.entered (h : At input before w bytes) (hf : first standard bytes = some (r, rest))
    (hp : r.payload = .len word payload)
    (hcap : (w.entered r s' word payload tail remaining).back.rel ≤ PayloadLen.max) :
    At input before (w.entered r s' word payload tail remaining) payload := by
  obtain ⟨behind, hin⟩ := (h.heads hf).stands
  have hbytes : r.bytes = r.tag ++ (word ++ payload) := by rw [Record.bytes, hp]; rfl
  have hl := length_of_drop_eq hin
  have hhead := h.head_le
  rw [hbytes, List.append_assoc, List.append_assoc] at hin
  have hword := drop_of_drop_eq (drop_of_drop_eq hin)
  rw [hbytes, List.length_append, List.length_append] at hl
  obtain ⟨written, holes, tails, hback⟩ := h.wrote
  refine ⟨rfl, Nat.zero_le _, ⟨behind, hword⟩, ?_, ⟨written ++ r.tag ++ word, ?_⟩, hcap⟩
  · show w.layer.base + w.layer.cursor.pos + r.tag.length + word.length + 0 ≤ input.length
    omega
  · refine ⟨⟨written.length + r.tag.length, written.length + r.tag.length + word.length,
      tail.length⟩ :: holes, tails ++ tail, ?_⟩
    simp only [Walk.entered, Emit.inside, hback, Emit.rel_wrote]
    simp only [Emit.wrote, List.append_assoc]

/-- A container's close, at its walk. -/
theorem exhaust_goes {e : Emit} {layer : Layer} {below : List Layer} (hb : w.below = layer :: below)
    (h : Emit.Comes before (Emit.close w.layer.cursor.pos w.back) e) :
    Goes before (w.exhaust Emit.back) { w with layer, below, back := e } := by
  have hclose : Emit.back.close w.layer.cursor.pos w.back = Emit.close w.layer.cursor.pos w.back :=
    rfl
  unfold Walk.exhaust
  simp only [hb]
  rcases h with ⟨he, hcap⟩ | ⟨len, b, he, hlong, hb⟩
  · refine .inl ⟨?_, hcap⟩
    simp only [hclose, he]
  · refine .inr ⟨⟨(w.layer.crossing.map Crossing.pos).getD 0, trail (layer :: below), .output len⟩,
      b, ?_, hlong, hb⟩
    simp only [hclose, he]
    rfl

/-- A turn at the end of a container closes it: its record is behind, settled. -/
theorem turn_closes (h : At input before w bytes) {cursor : Cursor} {s : σ} {body : List UInt8}
    (hcap : (w.entered r s' word payload tail remaining).back.rel + body.length ≤ PayloadLen.max)
    (hdata : cursor.data = payload) (hpos : cursor.pos = cursor.data.length) :
    Goes before
      (((w.entered r s' word payload tail remaining).ran cursor s body).turn rule standard Emit.back)
      (w.ran (w.layer.cursor.past r) s (enclosed r.tag word payload (body ++ tail))) := by
  obtain ⟨written, holes, tails, hback⟩ := h.wrote
  have hend : step standard cursor = (none, cursor) := by
    refine step_end ?_
    rw [hpos, List.drop_length]
  have hopen : ((w.entered r s' word payload tail remaining).ran cursor s body).back
      = .wrote input before ((written ++ r.tag) ++ word ++ body)
        (⟨(written ++ r.tag).length, (written ++ r.tag).length + word.length, tail.length⟩ :: holes)
        (tails ++ tail) := by
    simp only [Walk.ran, Walk.entered, Emit.inside, hback, Emit.rel_wrote, List.length_append]
    simp only [Emit.wrote, List.append_assoc]
  have hclosed : w.ran (w.layer.cursor.past r) s (enclosed r.tag word payload (body ++ tail))
      = { w with
          layer := { w.layer with cursor := w.layer.cursor.past r }
          rule := s
          back := .wrote input before ((written ++ r.tag)
            ++ settledPrefix word payload.length (body ++ tail).length ++ (body ++ tail))
            holes tails } := by
    simp only [Walk.ran, enclosed, hback, Emit.wrote, List.append_assoc]
  have hlen : ((written ++ r.tag) ++ word ++ body).length ≤ PayloadLen.max := by
    have hrel : (w.entered r s' word payload tail remaining).back.rel
        = (written ++ r.tag ++ word).length := by
      simp only [Walk.entered, Emit.inside, hback, Emit.rel, Emit.wrote, List.length_append]
      omega
    rw [hrel] at hcap
    simpa only [List.length_append] using hcap
  have hclose := @Emit.close_comes input before tails (written ++ r.tag) word holes body tail
    cursor.pos hlen
  have hpos' : cursor.pos = payload.length := by rw [hpos, hdata]
  rw [← hopen] at hclose
  have hturn : ((w.entered r s' word payload tail remaining).ran cursor s body).turn rule standard
      Emit.back = ((w.entered r s' word payload tail remaining).ran cursor s body).exhaust
        Emit.back := by
    unfold Walk.turn
    simp only [Walk.ran, hend]
  rw [hturn, hclosed, ← hpos']
  exact exhaust_goes rfl hclose

end Record

/-- A turn that refuses ends the run. -/
theorem refuses_of_halt {fault : TwoPass.Fault FaultKind} {b : Emit}
    (h : w.turn rule standard Emit.back = .halt (.err fault, rule.replay w.rule asked, b))
    (ha : asked <+: t.asks) (hc : fault.kind.Caused t asked) (hb : before <+: b.out) :
    Refuses rule standard before w n t :=
  ⟨0, w, fault, asked, b, Nat.zero_le n, .refl w, h, ha, hc, hb⟩

theorem At.kept (h : At input before w bytes) : before <+: w.back.out := by
  obtain ⟨written, holes, tails, hback⟩ := h.wrote
  rw [hback]
  exact List.prefix_append _ _

theorem At.mark_le (h : At input before w bytes) : w.back.mark ≤ w.back.out.length := by
  obtain ⟨written, holes, tails, hback⟩ := h.wrote
  rw [hback]
  exact h.kept.length_le.trans_eq (by rw [hback]) |>.trans' (by rfl)

/-- The container's own asks come first. -/
theorem asks_entered (t : Told σ) (ask : Ask) (tag word payload tail : List UInt8)
    (behind : σ → Told σ) :
    [ask] ++ t.asks <+: (t.entered ask tag word payload tail behind).asks := by
  unfold Told.entered
  cases t.out with
  | none => exact List.prefix_rfl
  | some body => exact List.prefix_append _ _

/-- The run over a layer's last records comes to their reference. -/
def Carried (rule : Rule σ) (standard : Standard) (before bytes : List UInt8) (w : Walk σ Emit) :
    Prop :=
  Carries rule standard before w bytes.length
    (reference rule standard w.layer.remaining (w.layer.base + w.layer.cursor.pos) bytes w.rule)

section Cases

variable {r : Record} {verdict : Verdict} {s' : σ} {word payload tail : List UInt8}

theorem carried_nil (h : At input before w []) : Carried rule standard before [] w := by
  have hend := List.drop_eq_nil_iff.mp h.left
  refine .inl ⟨0, w.layer.cursor, [], le_rfl, by rw [reference_nil], by rw [reference_nil]; rfl,
    ?_, h.cap, rfl, Nat.le_antisymm h.inside hend⟩
  have hran : w.ran w.layer.cursor w.rule [] = w := by
    simp only [Walk.ran, List.append_nil]
  rw [reference_nil, hran]
  exact .refl w

/-- Where no record stands the run is refused, as the reference is. -/
theorem carried_stuck (h : At input before w bytes) (hne : bytes ≠ [])
    (hf : first standard bytes = none) : Carried rule standard before bytes w := by
  unfold Carried
  rw [reference_stuck hf hne]
  obtain ⟨fault, cursor, hstep⟩ := step_refuses (h.left ▸ hne) (h.left ▸ hf)
  have ht : w.turn rule standard Emit.back = .halt
      (.err ⟨w.layer.base + fault.pos, trail ({ w.layer with cursor } :: w.below),
        .wire (breach fault.kind)⟩, rule.replay w.rule [], w.back) := by
    unfold Walk.turn
    simp only [hstep]
    rfl
  exact .inr (refuses_of_halt ht List.prefix_rfl (.inr ⟨⟨_, rfl⟩, rfl, rfl⟩) h.kept)

/-- A record that is answered with bytes, and the records behind it. -/
theorem carried_piece (h : At input before w bytes) (hf : first standard bytes = some (r, rest))
    (hv : rule.verdict w.rule ⟨w.layer.base + w.layer.cursor.pos, r.field, r.payload.value⟩
      = (verdict, s')) (hne : ∀ tail, verdict ≠ .commit tail)
    (hbehind : ∀ s piece, (w.ran (w.layer.cursor.past r) s piece).back.rel ≤ PayloadLen.max →
      Carries rule standard before (w.ran (w.layer.cursor.past r) s piece) rest.length
        (reference rule standard w.layer.remaining
          (w.layer.base + w.layer.cursor.pos + r.bytes.length) rest s)) :
    Carried rule standard before bytes w := by
  have hs' : s' = rule.replay w.rule
      [⟨w.layer.base + w.layer.cursor.pos, r.field, r.payload.value⟩] := by
    show s' = (rule.verdict w.rule _).2
    rw [hv]
  have hrest := first_rest_lt hf
  unfold Carried
  rw [reference_piece hf hv hne]
  rcases turn_goes h hf hv hne with ⟨ht, hcap⟩ | ⟨fault, b, ht, hpast, hb⟩
  · have hgo := Carries.chain (.head ht (.refl _)) hs' h.mark_le rfl (hbehind _ _ hcap)
    exact hgo.mono (by omega)
  · exact .inr (refuses_of_halt (ht.trans (by rw [← hs']; rfl)) (List.prefix_append _ _)
      (.inl hpast) hb)

/-- A committed record past the budget. -/
theorem carried_wall (h : At input before w bytes) (hf : first standard bytes = some (r, rest))
    (hp : r.payload = .len word payload)
    (hv : rule.verdict w.rule ⟨w.layer.base + w.layer.cursor.pos, r.field, r.payload.value⟩
      = (.commit tail, s')) (hr : w.layer.remaining = 0) :
    Carried rule standard before bytes w := by
  have hs' : s' = rule.replay w.rule
      [⟨w.layer.base + w.layer.cursor.pos, r.field, r.payload.value⟩] := by
    show s' = (rule.verdict w.rule _).2
    rw [hv]
  unfold Carried
  rw [hr, reference_wall hf hv]
  obtain ⟨fault, ht, hwire⟩ := turn_wall h hf hp hv hr
  exact .inr (refuses_of_halt (ht.trans (by rw [← hs'])) List.prefix_rfl
    (.inr ⟨⟨_, hwire⟩, rfl, rfl⟩) h.kept)

/-- A committed record: the run over its interior, its close, and the records behind it. -/
theorem carried_commit {remaining : Nat} (h : At input before w bytes)
    (hf : first standard bytes = some (r, rest)) (hp : r.payload = .len word payload)
    (hv : rule.verdict w.rule ⟨w.layer.base + w.layer.cursor.pos, r.field, r.payload.value⟩
      = (.commit tail, s')) (hr : w.layer.remaining = remaining + 1)
    (hinner : ∀ w', At input before w' payload → Carried rule standard before payload w')
    (hbehind : ∀ s piece, (w.ran (w.layer.cursor.past r) s piece).back.rel ≤ PayloadLen.max →
      Carries rule standard before (w.ran (w.layer.cursor.past r) s piece) rest.length
        (reference rule standard (remaining + 1)
          (w.layer.base + w.layer.cursor.pos + r.bytes.length) rest s)) :
    Carried rule standard before bytes w := by
  set ask : Ask := ⟨w.layer.base + w.layer.cursor.pos, r.field, r.payload.value⟩
  have hs' : s' = rule.replay w.rule [ask] := by
    show s' = (rule.verdict w.rule ask).2
    rw [hv]
  have hlen := first_len_lt hf hp
  unfold Carried
  rw [hr, reference_commit hf hp hv]
  rcases turn_enters h hf hp hv hr with ⟨ht, hcap⟩ | ⟨fault, b, ht, hpast, hb⟩
  swap
  · exact .inr (refuses_of_halt (ht.trans (by rw [← hs']; rfl))
      ((List.prefix_append _ _).trans (asks_entered _ _ _ _ _ _ _)) (.inl hpast) hb)
  rcases hinner _ (h.entered hf hp hcap) with
    ⟨j, cursor, body, hj, hout, hrule, hrun, hcap', hdata, hpos⟩ | hrefuses
  swap
  · exact .inr ((hrefuses.after (.head ht (.refl _)) hs' []).outer.mono (by omega))
  have hthere := Takes.trans (.head ht (.refl _)) hrun
  set interior := reference rule standard remaining
    (w.layer.base + w.layer.cursor.pos + r.tag.length + word.length) payload s'
  have hasked : interior.rule = rule.replay w.rule (ask :: interior.asks) := by
    refine hrule.trans ?_
    show rule.replay s' interior.asks = _
    rw [hs']
    rfl
  have hentered : interior.entered ask r.tag word payload tail
      (reference rule standard (remaining + 1)
        (w.layer.base + w.layer.cursor.pos + r.bytes.length) rest)
      = (reference rule standard (remaining + 1)
          (w.layer.base + w.layer.cursor.pos + r.bytes.length) rest interior.rule).behind
          (ask :: interior.asks) (enclosed r.tag word payload (body ++ tail)) := by
    have hout' : interior.out = some body := hout
    unfold Told.entered
    rw [hout']
  rw [hentered]
  rcases turn_closes h hcap' hdata hpos with
    ⟨hclose, hcap''⟩ | ⟨fault, b, hclose, hpast, hb⟩
  · have hgo := Carries.chain (hthere.trans (.head hclose (.refl _))) hasked h.mark_le rfl
      (hbehind _ _ hcap'')
    exact hgo.mono (by omega)
  · exact .inr ⟨_, _, fault, _, b, by omega, hthere, hclose.trans (by rw [← hasked]; rfl),
      List.prefix_append _ _, .inl hpast, hb⟩

end Cases

/-- A run over a layer's last records comes to their reference: over the records from here on,
and into the containers a verdict enters. -/
theorem carries (h : At input before w bytes) : Carried rule standard before bytes w := by
  induction hn : bytes.length using Nat.strong_induction_on generalizing bytes w with
  | _ n ih =>
  subst hn
  by_cases hne : bytes = []
  · subst hne
    exact carried_nil h
  cases hf : first standard bytes with
  | none => exact carried_stuck h hne hf
  | some p =>
    obtain ⟨r, rest⟩ := p
    rcases hv : rule.verdict w.rule ⟨w.layer.base + w.layer.cursor.pos, r.field, r.payload.value⟩
      with ⟨verdict, s'⟩
    -- the records behind this one, whatever it wrote
    have hbehind : ∀ s piece,
        (w.ran (w.layer.cursor.past r) s piece).back.rel ≤ PayloadLen.max →
        Carries rule standard before (w.ran (w.layer.cursor.past r) s piece) rest.length
          (reference rule standard w.layer.remaining
            (w.layer.base + w.layer.cursor.pos + r.bytes.length) rest s) := by
      intro s piece hcap
      have hnext := ih rest.length (first_rest_lt hf) (h.past hf piece hcap) rfl
      have hhead : w.layer.base + (w.layer.cursor.pos + r.bytes.length)
          = w.layer.base + w.layer.cursor.pos + r.bytes.length := (Nat.add_assoc _ _ _).symm
      rw [← hhead]
      exact hnext
    by_cases hc : ∃ tail, verdict = .commit tail
    case neg => exact carried_piece h hf hv (fun tail e => hc ⟨tail, e⟩) hbehind
    case pos =>
      obtain ⟨tail, rfl⟩ := hc
      obtain ⟨word, payload, hp⟩ := len_of_verdict hv
      cases hr : w.layer.remaining with
      | zero => exact carried_wall h hf hp hv hr
      | succ remaining =>
        rw [hr] at hbehind
        exact carried_commit h hf hp hv hr
          (fun w' hin => ih payload.length (first_payload_lt hf hp) hin rfl) hbehind

end Runs

/-! ## The whole job -/

variable {σ : Type}

theorem logged_replay (rule : Rule σ) (s : σ) (log asks : List Ask) :
    rule.logged.replay (s, log) asks = (rule.replay s asks, log ++ asks) := by
  induction asks generalizing s log with
  | nil => simp only [Rule.replay, List.foldl_nil, List.append_nil]
  | cons ask asks ih =>
    have hask : rule.logged.verdict (s, log) ask
        = ((rule.verdict s ask).1, (rule.verdict s ask).2, log ++ [ask]) := by
      obtain ⟨head, field, value⟩ := ask
      cases value <;> rfl
    show rule.logged.replay (rule.logged.verdict (s, log) ask).2 asks = _
    rw [hask, ih, List.append_assoc]
    rfl

/-- A whole job over an emission's walk. -/
theorem walk_carries (input : List UInt8) (rule : Rule σ) (standard : Standard) (limit : DepthLimit)
    (s : σ) (out : List UInt8) :
    ∃ ended asked b,
      walk input rule standard limit Emit.back s (Emit.new input out)
        = some (ended, rule.replay s asked, b) ∧
      asked <+: (reference rule standard limit.asInner 0 input s).asks ∧ out <+: b.out ∧
      (ended = .ok ∧ asked = (reference rule standard limit.asInner 0 input s).asks ∧
          (∃ bytes, (reference rule standard limit.asInner 0 input s).out = some bytes ∧
            b.out = out ++ bytes) ∨
        ∃ fault, ended = .err fault ∧
          (fault.kind = .oversize ∧ PayloadLen.max < input.length ∧ asked = [] ∨
            fault.kind.Caused (reference rule standard limit.asInner 0 input s) asked)) := by
  unfold walk
  by_cases hsize : input.length > PayloadLen.max
  case pos =>
    have hover : Cursor.over input = none := if_pos hsize
    rw [hover]
    exact ⟨_, [], _, rfl, List.nil_prefix, List.prefix_rfl, .inr ⟨_, rfl, .inl ⟨rfl, hsize, rfl⟩⟩⟩
  case neg =>
    have hover : Cursor.over input = some ⟨input, 0, 0, 0⟩ := if_neg hsize
    rw [hover]
    have hat : At input out (⟨⟨⟨input, 0, 0, 0⟩, 0, none, limit.asInner⟩, [], s, .new input out⟩ :
        Walk σ Emit) input :=
      ⟨rfl, Nat.zero_le _, ⟨[], (List.append_nil _).symm⟩, Nat.zero_le _,
        ⟨[], [], [], by simp only [Emit.new, Emit.wrote, List.append_nil]⟩,
        by simp only [Emit.rel, Emit.new, Nat.sub_self, Nat.zero_le]⟩
    have hcarries : Carries rule standard out _ _ _ := carries hat
    simp only
    rcases hcarries with
      ⟨k, cursor, body, hk, hout, hrule, hrun, hcap, hdata, hpos⟩ |
      ⟨k, w', fault, asked, b, hk, hrun, hhalt, hpre, hcause, hb⟩
    · have hend : step standard cursor = (none, cursor) := by
        refine step_end ?_
        rw [hpos, List.drop_length]
      have hhalt : Walk.turn rule standard Emit.back
          (Walk.ran ⟨⟨⟨input, 0, 0, 0⟩, 0, none, limit.asInner⟩, [], s, .new input out⟩ cursor
            (reference rule standard limit.asInner 0 input s).rule body)
          = .halt (.ok, rule.replay s (reference rule standard limit.asInner 0 input s).asks,
            { Emit.new input out with out := out ++ body }) := by
        have hrule' : (reference rule standard limit.asInner 0 input s).rule
            = rule.replay s (reference rule standard limit.asInner 0 input s).asks := hrule
        unfold Walk.turn
        simp only [Walk.ran, hend]
        rw [← hrule']
        rfl
      exact ⟨.ok, _, _, hrun.halts hhalt (Nat.lt_succ_of_le hk), List.prefix_rfl,
        List.prefix_append out body, .inl ⟨rfl, rfl, body, hout, rfl⟩⟩
    · exact ⟨_, asked, b, hrun.halts hhalt (Nat.lt_succ_of_le hk), hpre, hb,
        .inr ⟨_, rfl, .inr hcause⟩⟩

/-- A job asks for the reference's records in order, each once, and where it succeeds it appends
the reference's bytes. A refusal leaves the caller's bytes; it is for a length past its class, or
the reference refuses the wire behind the same asks. -/
theorem spliceInto_reference (input : List UInt8) (rule : Rule σ) (standard : Standard)
    (limit : DepthLimit) (s : σ) (out : List UInt8) :
    ∃ ended s' asked out',
      spliceInto input rule standard limit s out = some (ended, s', out') ∧
      spliceInto input rule.logged standard limit (s, []) out = some (ended, (s', asked), out') ∧
      asked <+: (reference rule standard limit.asInner 0 input s).asks ∧
      (ended = .ok ∧ asked = (reference rule standard limit.asInner 0 input s).asks ∧
          (∃ bytes, (reference rule standard limit.asInner 0 input s).out = some bytes ∧
            out' = out ++ bytes) ∨
        (∃ fault, ended = .err fault ∧
          (fault.kind = .oversize ∧ PayloadLen.max < input.length ∧ asked = [] ∨
            fault.kind.Caused (reference rule standard limit.asInner 0 input s) asked)) ∧
          out' = out) := by
  obtain ⟨ended, asked, b, hwalk, hpre, hkept, hend⟩ :=
    walk_carries input rule.logged standard limit (s, []) out
  have hmap : reference rule standard limit.asInner 0 input s
      = (reference rule.logged standard limit.asInner 0 input (s, [])).map Prod.fst :=
    reference_map rule.projects_logged limit.asInner 0 input (s, [])
  rw [logged_replay, List.nil_append] at hwalk
  have hasks : (reference rule standard limit.asInner 0 input s).asks
      = (reference rule.logged standard limit.asInner 0 input (s, [])).asks := by rw [hmap]; rfl
  have hout : (reference rule standard limit.asInner 0 input s).out
      = (reference rule.logged standard limit.asInner 0 input (s, [])).out := by rw [hmap]; rfl
  rw [← hasks] at hpre hend
  rw [← hout] at hend
  rcases hend with ⟨rfl, hall, hbytes⟩ | ⟨fault, rfl, hcause⟩
  · have hlogged : spliceInto input rule.logged standard limit (s, []) out
        = some (.ok, (rule.replay s asked, asked), b.out) := by
      unfold spliceInto
      simp only [hwalk]
    refine ⟨.ok, _, asked, b.out, ?_, hlogged, hpre, .inl ⟨rfl, hall, hbytes⟩⟩
    rw [spliceInto_logged, hlogged]
    rfl
  · have htake : b.out.take out.length = out := by
      obtain ⟨more, hmore⟩ := hkept
      rw [← hmore, List.take_left]
    have hlogged : spliceInto input rule.logged standard limit (s, []) out
        = some (.err fault, (rule.replay s asked, asked), out) := by
      unfold spliceInto
      simp only [hwalk, htake]
    refine ⟨.err fault, _, asked, out, ?_, hlogged, hpre, .inr ⟨⟨fault, rfl, ?_⟩, rfl⟩⟩
    swap
    · refine hcause.imp_right (Or.imp_right fun ⟨hwire, hnone, hall⟩ => ⟨hwire, ?_, ?_⟩)
      · exact hout.trans hnone
      · exact hall.trans hasks.symm
    rw [spliceInto_logged, hlogged]
    rfl

end ProtobufEdit.Splice.Groupless
