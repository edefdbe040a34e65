import ProtobufEdit.TwoPass

/-!
# The seam between the passes

What the events of an edited document make of each consumer. The measuring pass bills the
rendered length and fills the document's slots, or meets an interior past the LEN class; the
emit pass over those slots renders the document.
-/

namespace ProtobufEdit.TwoPass

open Wire Varint Emission

/-- A length prefix spelled anew: minimal. -/
def spell (n : Nat) : List UInt8 := write64At n (encodedLen32 n)

@[simp] theorem spell_length (n : Nat) : (spell n).length = encodedLen32 n := write64At_length _ _

@[simp] theorem authoredWord_flatten (n : Nat) : (authoredWord n).pieces.flatten = spell n := by
  simp [authoredWord, spell]

/-! ## Raw slots -/

def payload : Slot → Nat
  | .dirty newLen => newLen
  | .clean descendants => descendants

def rawSlot : Slot → Nat
  | .dirty newLen => newLen ||| dirtyBit
  | .clean descendants => descendants

theorem and_dirtyBit {n : Nat} (h : n ≤ PayloadLen.max) : n &&& dirtyBit = 0 := by
  have hlt : n < 2 ^ 31 := Nat.lt_succ_of_le h
  refine Nat.eq_of_testBit_eq fun i => ?_
  rw [show dirtyBit = 2 ^ 31 from rfl, Nat.testBit_and, Nat.testBit_two_pow]
  by_cases hi : 31 = i
  · subst hi
    simp [Nat.testBit_lt_two_pow hlt]
  · simp [hi]

theorem or_dirtyBit_and (n : Nat) : (n ||| dirtyBit) &&& dirtyBit ≠ 0 := by
  intro h
  have := congrArg (Nat.testBit · 31) h
  simp only [show dirtyBit = 2 ^ 31 from rfl, Nat.testBit_and, Nat.testBit_or,
    Nat.testBit_two_pow_self, Bool.or_true, Bool.and_true, Nat.zero_testBit] at this
  cases this

/-- A slot in the class reads back as it was filled. -/
theorem read_rawSlot {table : SlotTable} {cursor : Nat} {slot : Slot}
    (h : table.slots[cursor]? = some (rawSlot slot))
    (hin : payload slot ≤ PayloadLen.max) :
    table.read cursor = .ok slot := by
  simp only [SlotTable.read, h]
  cases slot with
  | clean descendants => exact if_pos (and_dirtyBit hin)
  | dirty newLen =>
    have hlt : newLen < 2 ^ 31 := Nat.lt_succ_of_le hin
    have hor : newLen ||| dirtyBit = 2 ^ 31 * 1 + newLen := by
      rw [Nat.or_comm, Nat.two_pow_add_eq_or_of_lt hlt]
      rfl
    have hlow : rawSlot (.dirty newLen) &&& (dirtyBit - 1) = newLen := by
      rw [rawSlot, hor, show dirtyBit - 1 = 2 ^ 31 - 1 from rfl, Nat.and_two_pow_sub_one_eq_mod]
      omega
    rw [if_neg (by exact or_dirtyBit_and newLen), hlow]

theorem fill_eq {slots more : List Nat} {raw payload : Nat} {dirty : Bool}
    (h : payload ≤ PayloadLen.max) :
    SlotTable.fill ⟨slots ++ raw :: more⟩ slots.length dirty payload =
      .ok ⟨slots ++ (if dirty then payload ||| dirtyBit else payload) :: more⟩ := by
  simp [SlotTable.fill, and_dirtyBit h]

/-! ## Measuring -/

section Measuring

variable {τ ι : Type} {note : ι → τ → τ} {down : τ → τ} {d : Doc UInt8 ι}

/-- The measure behind a document's events. -/
def Measure.billed (top : Frame) (frames : List Frame) (slots : List Nat) (d : Doc UInt8 ι) :
    Measure :=
  ⟨{ top with
      total := top.total + (d.render spell).length
      dirty := top.dirty || d.dirty } :: frames,
    ⟨slots ++ (d.slots spell).map rawSlot⟩⟩

theorem clean_length (h : d.dirty = false) : (d.render spell).length = d.source.length := by
  rw [Doc.render_of_clean h]

theorem slots_le (ht : d.Tagged) (hlen : d.source.length ≤ PayloadLen.max) :
    (d.slots spell).length ≤ PayloadLen.max := by
  have := @Doc.two_mul_slots _ _ spell _ ht
  omega

/-- An ascent bills its container, and fills the slot its descent claimed. -/
theorem Measure.ascend_eq {tag word : List UInt8} {inner : Doc UInt8 ι} (ht : inner.Tagged)
    (hlen : inner.source.length ≤ PayloadLen.max)
    (hin : (inner.render spell).length ≤ PayloadLen.max) (top : Frame) (frames : List Frame)
    (slots : List Nat) (pos : Nat) :
    Measure.ascend pos (pos + tag.length) (pos + tag.length + word.length)
        (pos + tag.length + word.length + inner.source.length)
        ⟨⟨(inner.render spell).length, slots.length, inner.dirty⟩ :: top :: frames,
          ⟨slots ++ 0 :: (inner.slots spell).map rawSlot⟩⟩ =
      .ok (.billed top frames slots (.cross tag word inner .nil)) := by
  have hold : pos + tag.length + word.length + inner.source.length -
      (pos + tag.length + word.length) = inner.source.length := by omega
  have htag : pos + tag.length - pos = tag.length := by omega
  have hword : pos + tag.length + word.length - (pos + tag.length) = word.length := by omega
  simp only [Measure.ascend, Nat.not_lt.mpr hin, if_false, hold, htag, hword]
  cases hd : inner.dirty with
  | true =>
    simp only [if_true, fill_eq hin, bind, Except.bind, Measure.bill, Measure.billed, Doc.render,
      Doc.dirty, Doc.slots, hd, List.append_nil, Bool.true_or]
    split <;> simp [rawSlot, Nat.add_assoc]
  | false =>
    have hsame := clean_length hd
    have hcount : (slots ++ 0 :: (inner.slots spell).map rawSlot).length - (slots.length + 1) =
        (inner.slots spell).length := by
      simp only [List.length_append, List.length_cons, List.length_map]
      omega
    have hall : pos + tag.length + word.length + inner.source.length - pos =
        tag.length + word.length + inner.source.length := by omega
    simp only [Bool.false_eq_true, if_false, hsame, ne_eq, not_true_eq_false, SlotTable.claimed,
      hcount, fill_eq (slots_le ht hlen), bind, Except.bind, Measure.bill, Measure.billed,
      Doc.render, Doc.dirty, Doc.slots, hd, List.append_nil, if_true, hall, Bool.or_false]
    simp [rawSlot, hsame, Nat.add_assoc]

/-- The measuring pass over a document whose interiors stay in the class. -/
theorem Measure.feed_ok (ht : d.Tagged) (hlen : d.source.length ≤ PayloadLen.max)
    (hfits : d.Fits spell PayloadLen.max) (top : Frame) (frames : List Frame) (slots : List Nat)
    (pos : Nat) (t : τ) :
    feed Measure.sink note down d pos (⟨top :: frames, ⟨slots⟩⟩, t) =
      .ok (.billed top frames slots d, d.tally note down true t) := by
  induction d generalizing top frames slots pos t with
  | nil => simp [feed, billed, Doc.render, Doc.dirty, Doc.slots, Doc.tally]
  | copy bytes rest ih =>
    simp only [Doc.source, List.length_append] at hlen
    simp only [feed, sink_verbatim, verbatim, bill, bind, Except.bind]
    rw [ih ht (by omega) hfits]
    simp [billed, Doc.render, Doc.dirty, Doc.slots, Doc.tally, Nat.add_assoc]
  | drop mark bytes rest ih =>
    simp only [Doc.source, List.length_append] at hlen
    simp only [feed, sink_delete, delete, bill, bind, Except.bind]
    rw [ih ht (by omega) hfits]
    simp [billed, Doc.render, Doc.dirty, Doc.slots, Doc.tally]
  | author mark old new rest ih =>
    simp only [Doc.source, List.length_append] at hlen
    simp only [feed, sink_author, author, bill, bind, Except.bind]
    rw [ih ht (by omega) hfits]
    simp [billed, Doc.render, Doc.dirty, Doc.slots, Doc.tally, ← new.size_eq, Nat.add_assoc]
  | replace mark tag old new rest ih =>
    simp only [Doc.source, List.length_append] at hlen
    simp only [feed, sink_replace, replace, bill, bind, Except.bind]
    rw [ih ht (by omega) hfits]
    simp [billed, Doc.render, Doc.dirty, Doc.slots, Doc.tally, ← new.size_eq, Nat.add_assoc]
  | frame mark old opener inner closer rest ihi ihr =>
    simp only [Doc.source, List.length_append] at hlen
    simp only [feed, sink_frameEnter, frameEnter, bill, bind, Except.bind, pure, Except.pure]
    rw [ihi ht.1 (by omega) hfits.1]
    simp only [billed, sink_frameExit, frameExit, bill]
    rw [ihr ht.2 (by omega) hfits.2]
    simp [billed, Doc.render, Doc.dirty, Doc.slots, Doc.tally, ← opener.size_eq,
      ← closer.size_eq, Nat.add_assoc]
  | cross tag word inner rest ihi ihr =>
    simp only [Doc.source, List.length_append] at hlen
    obtain ⟨-, -, hti, htr⟩ := ht
    obtain ⟨hfi, hin, hfr⟩ := hfits
    have hascend := @ascend_eq ι tag word inner hti (by omega) hin top frames slots pos
    simp only [feed, sink_descend, descend, SlotTable.claim, bind, Except.bind]
    rw [ihi hti (by omega) hfi]
    simp only [billed, Nat.zero_add, Bool.false_or, List.append_assoc, List.singleton_append,
      sink_ascend, hascend]
    rw [ihr htr (by omega) hfr]
    simp [billed, Doc.render, Doc.dirty, Doc.slots, Doc.tally, Nat.add_assoc, Bool.or_assoc]

/-- An interior past the class stops the measuring pass. -/
theorem Measure.feed_over (ht : d.Tagged) (hlen : d.source.length ≤ PayloadLen.max)
    (hfits : ¬d.Fits spell PayloadLen.max) (top : Frame) (frames : List Frame) (slots : List Nat)
    (pos : Nat) (t : τ) :
    ∃ len, feed Measure.sink note down d pos (⟨top :: frames, ⟨slots⟩⟩, t) =
      .error (.outgrown len) := by
  induction d generalizing top frames slots pos t with
  | nil => exact absurd trivial hfits
  | copy bytes rest ih =>
    simp only [Doc.source, List.length_append] at hlen
    exact ih ht (by omega) hfits ..
  | drop mark bytes rest ih =>
    simp only [Doc.source, List.length_append] at hlen
    exact ih ht (by omega) hfits ..
  | author mark old new rest ih =>
    simp only [Doc.source, List.length_append] at hlen
    exact ih ht (by omega) hfits ..
  | replace mark tag old new rest ih =>
    simp only [Doc.source, List.length_append] at hlen
    exact ih ht (by omega) hfits ..
  | frame mark old opener inner closer rest ihi ihr =>
    simp only [Doc.source, List.length_append] at hlen
    simp only [feed, sink_frameEnter, frameEnter, bill, bind, Except.bind, pure, Except.pure]
    by_cases hfi : inner.Fits spell PayloadLen.max
    · rw [feed_ok ht.1 (by omega) hfi]
      exact ihr ht.2 (by omega) (fun hfr => hfits ⟨hfi, hfr⟩) ..
    · obtain ⟨len, hfeed⟩ := ihi ht.1 (by omega) hfi ⟨0, 0, false⟩ _ slots (pos + old.length)
        (note mark t)
      exact ⟨len, by rw [hfeed]⟩
  | cross tag word inner rest ihi ihr =>
    simp only [Doc.source, List.length_append] at hlen
    obtain ⟨-, -, hti, htr⟩ := ht
    simp only [feed, sink_descend, descend, SlotTable.claim, bind, Except.bind]
    by_cases hfi : inner.Fits spell PayloadLen.max
    · rw [feed_ok hti (by omega) hfi]
      by_cases hin : (inner.render spell).length ≤ PayloadLen.max
      · have hascend := @ascend_eq ι tag word inner hti (by omega) hin top frames slots pos
        simp only [billed, Nat.zero_add, Bool.false_or, List.append_assoc, List.singleton_append,
          sink_ascend, hascend]
        exact ihr htr (by omega) (fun hfr => hfits ⟨hfi, hin, hfr⟩) ..
      · refine ⟨(inner.render spell).length, ?_⟩
        simp only [billed, Nat.zero_add, sink_ascend, ascend, Nat.lt_of_not_le hin, if_true]
    · obtain ⟨len, hfeed⟩ := ihi hti (by omega) hfi ⟨0, slots.length, false⟩ _ (slots ++ [0])
        (pos + tag.length + word.length) (down t)
      exact ⟨len, by rw [hfeed]⟩

end Measuring

/-! ## Emitting -/

/-- The bytes standing in `input` from `pos`. -/
def Stands (input : List UInt8) (pos : Nat) (bytes : List UInt8) : Prop :=
  pos ≤ input.length ∧ bytes <+: input.drop pos

section Standing

variable {input more bytes : List UInt8} {pos : Nat}

theorem Stands.of_self (input : List UInt8) : Stands input 0 input :=
  ⟨Nat.zero_le _, List.prefix_refl _⟩

theorem Stands.le (h : Stands input pos bytes) : pos + bytes.length ≤ input.length := by
  have := h.2.length_le
  have := h.1
  simp only [List.length_drop] at *
  omega

theorem Stands.window (h : Stands input pos bytes) : (input.drop pos).take bytes.length = bytes :=
  (List.prefix_iff_eq_take.mp h.2).symm

theorem stands_append : Stands input pos (bytes ++ more) ↔
    Stands input pos bytes ∧ Stands input (pos + bytes.length) more := by
  constructor
  · rintro h
    obtain ⟨after, hafter⟩ := h.2
    have hle := h.le
    rw [List.length_append] at hle
    refine ⟨⟨h.1, more ++ after, by simpa using hafter⟩, by omega, after, ?_⟩
    rw [← List.drop_drop, ← hafter, List.append_assoc, List.drop_left]
  · rintro ⟨⟨hpos, rest, hrest⟩, -, hmore⟩
    refine ⟨hpos, ?_⟩
    rw [← List.drop_drop, ← hrest, List.drop_left] at hmore
    rw [← hrest]
    exact List.prefix_append_right_inj bytes |>.mpr hmore

end Standing

namespace Emit

/-- What has been emitted, the pending run counted in. -/
def output (e : Emit) : List UInt8 :=
  e.pieces.flatten ++ match e.run with
    | none => []
    | some run => e.window run

structure Sound (e : Emit) : Prop where
  written : e.written = e.pieces.flatten.length
  run : ∀ run, e.run = some run → run.1 ≤ run.2 ∧ run.2 ≤ e.input.length

/-- From `e` to `e'`, `bytes` were written and `used` slots consumed. -/
structure Writes (e e' : Emit) (bytes : List UInt8) (used : Nat) : Prop where
  input : e'.input = e.input
  total : e'.total = e.total
  slots : e'.slots = e.slots
  ledger : e'.ledger = e.ledger
  sound : e'.Sound
  output : e'.output = e.output ++ bytes
  cursor : e'.cursor = e.cursor + used

/-- The same, with the logical count kept in step. -/
structure Emits (e e' : Emit) (bytes : List UInt8) (used : Nat) : Prop
    extends Writes e e' bytes used where
  logical : e'.logical = e.logical + bytes.length

variable {e e' e'' : Emit} {bytes more : List UInt8} {used again pos : Nat}

theorem Writes.refl (h : e.Sound) : Writes e e [] 0 := ⟨rfl, rfl, rfl, rfl, h, by simp, rfl⟩

theorem Writes.trans (h : Writes e e' bytes used) (h' : Writes e' e'' more again) :
    Writes e e'' (bytes ++ more) (used + again) where
  input := h'.input.trans h.input
  total := h'.total.trans h.total
  slots := h'.slots.trans h.slots
  ledger := h'.ledger.trans h.ledger
  sound := h'.sound
  output := by rw [h'.output, h.output, List.append_assoc]
  cursor := by rw [h'.cursor, h.cursor, Nat.add_assoc]

theorem Emits.refl (h : e.Sound) : Emits e e [] 0 := ⟨Writes.refl h, rfl⟩

theorem Emits.trans (h : Emits e e' bytes used) (h' : Emits e' e'' more again) :
    Emits e e'' (bytes ++ more) (used + again) :=
  ⟨h.toWrites.trans h'.toWrites, by rw [h'.logical, h.logical, List.length_append, Nat.add_assoc]⟩

theorem push_ok (bytes : List UInt8) (hs : e.Sound) (hrun : e.run = none)
    (hroom : e.output.length + bytes.length ≤ e.total) :
    ∃ e', push bytes e = .ok e' ∧ Writes e e' bytes 0 ∧ e'.run = none ∧
      e'.logical = e.logical := by
  have hout : e.output = e.pieces.flatten := by simp [output, hrun]
  rw [hout, ← hs.written] at hroom
  have hgrown : Writes e { e with
      pieces := e.pieces ++ [bytes]
      written := e.written + bytes.length } bytes 0 :=
    ⟨rfl, rfl, rfl, rfl, ⟨by simp [hs.written], hs.run⟩, by simp [output, hrun], rfl⟩
  unfold push
  split
  · exact ⟨_, if_pos (by omega), hgrown, hrun, rfl⟩
  · split
    · next hb =>
      subst hb
      exact ⟨e, rfl, Writes.refl hs, hrun, rfl⟩
    · exact ⟨_, rfl, hgrown, hrun, rfl⟩

theorem flush_ok (hs : e.Sound) (hroom : e.output.length ≤ e.total) :
    ∃ e', e.flush = .ok e' ∧ Writes e e' [] 0 ∧ e'.run = none ∧ e'.logical = e.logical := by
  unfold flush
  split
  · next hrun => exact ⟨e, rfl, Writes.refl hs, hrun, rfl⟩
  · next run hrun =>
    rw [if_pos (hs.run run hrun)]
    have hout : e.output = e.pieces.flatten ++ e.window run := by simp [output, hrun]
    obtain ⟨e', hpush, hw, hnone, hlogical⟩ :=
      @push_ok { e with run := none } (e.window run) ⟨hs.written, nofun⟩ rfl
        (by simpa [output, hrun] using hroom)
    refine ⟨e', hpush, { hw with output := ?_ }, hnone, hlogical⟩
    rw [hw.output, hout]
    simp [output]

theorem verbatim_ok (hs : e.Sound) (hstands : Stands e.input pos bytes)
    (hroom : e.output.length + bytes.length ≤ e.total) :
    ∃ e', verbatim pos (pos + bytes.length) e = .ok e' ∧ Emits e e' bytes 0 := by
  have hend := hstands.le
  have hcount : pos + bytes.length - pos = bytes.length := by omega
  unfold verbatim
  simp only [hcount]
  split
  · next start tail hrun =>
    have hin := hs.run _ hrun
    split
    · next htail =>
      -- contiguous: the run grows over the span
      subst htail
      refine ⟨_, rfl, ⟨rfl, rfl, rfl, rfl, ⟨hs.written, ?_⟩, ?_, rfl⟩, rfl⟩
      · rintro run ⟨⟩
        exact ⟨by simp only at hin ⊢; omega, hend⟩
      · simp only [output, hrun, window, List.append_assoc]
        congr 1
        have hsum : tail + bytes.length - start = (tail - start) + bytes.length := by
          simp only at hin
          omega
        have htail : start + (tail - start) = tail := by
          simp only at hin
          omega
        rw [hsum, List.take_add, List.drop_drop, htail, hstands.window]
    · obtain ⟨e', hflush, hw, hnone, hlogical⟩ :=
        @flush_ok { e with logical := e.logical + bytes.length } ⟨hs.written, hs.run⟩
          (by have : output { e with logical := e.logical + bytes.length } = e.output := rfl
              rw [this]
              simp only
              omega)
      simp only [hflush, bind, Except.bind, pure, Except.pure]
      refine ⟨_, rfl, ⟨hw.input, hw.total, hw.slots, hw.ledger, ⟨hw.sound.written, ?_⟩, ?_,
        hw.cursor⟩, hlogical⟩
      · rintro run ⟨⟩
        exact ⟨by simp only; omega, by simpa only [hw.input] using hend⟩
      · have hout : e'.output = e.output := hw.output.trans (List.append_nil _)
        rw [← hout]
        simp only [output, hnone, window, hcount, List.append_nil, hw.input, hstands.window]
  · next hrun =>
    refine ⟨_, rfl, ⟨rfl, rfl, rfl, rfl, ⟨hs.written, ?_⟩, ?_, rfl⟩, rfl⟩
    · rintro run ⟨⟩
      exact ⟨by simp only; omega, hend⟩
    · simp only [output, hrun, window, hcount, hstands.window, List.append_nil]

theorem Writes.length (h : Writes e e' bytes used) :
    e'.output.length = e.output.length + bytes.length := by
  rw [h.output, List.length_append]

theorem pushAll_ok {pieces : List (List UInt8)} (hs : e.Sound) (hrun : e.run = none)
    (hroom : e.output.length + pieces.flatten.length ≤ e.total) :
    ∃ e', pushAll pieces e = .ok e' ∧ Writes e e' pieces.flatten 0 ∧ e'.logical = e.logical := by
  induction pieces generalizing e with
  | nil => exact ⟨e, rfl, Writes.refl hs, rfl⟩
  | cons piece pieces ih =>
    rw [List.flatten_cons, List.length_append] at hroom
    obtain ⟨e₁, hpush, hw₁, hrun₁, hl₁⟩ := push_ok piece hs hrun (by omega)
    obtain ⟨e₂, hrest, hw₂, hl₂⟩ := ih hw₁.sound hrun₁ (by
      rw [hw₁.output, hw₁.total, List.length_append]
      omega)
    refine ⟨e₂, ?_, hw₁.trans hw₂, hl₂.trans hl₁⟩
    simp only [pushAll, hpush, bind, Except.bind, hrest]

theorem author_ok (new : Authored UInt8) (hs : e.Sound)
    (hroom : e.output.length + new.pieces.flatten.length ≤ e.total) :
    ∃ e', author new e = .ok e' ∧ Emits e e' new.pieces.flatten 0 := by
  obtain ⟨e₁, hflush, hw₁, hrun₁, hl₁⟩ := flush_ok hs (by omega)
  obtain ⟨e₂, hall, hw₂, hl₂⟩ :=
    @pushAll_ok { e₁ with logical := e₁.logical + new.size } new.pieces
      ⟨hw₁.sound.written, hw₁.sound.run⟩ hrun₁ (by
        have hout : output { e₁ with logical := e₁.logical + new.size } = e₁.output := rfl
        rw [hout, hw₁.output, List.append_nil]
        simpa only [hw₁.total] using hroom)
  refine ⟨e₂, by simp only [author, hflush, bind, Except.bind, hall], ?_, ?_⟩
  · have hw : Writes e₁ e₂ new.pieces.flatten 0 :=
      ⟨hw₂.input, hw₂.total, hw₂.slots, hw₂.ledger, hw₂.sound, hw₂.output, hw₂.cursor⟩
    exact hw₁.trans hw
  · rw [hl₂, new.size_eq, hl₁]

theorem replace_ok {tag : List UInt8} (new : Authored UInt8) (hs : e.Sound)
    (hstands : Stands e.input pos tag)
    (hroom : e.output.length + (tag ++ new.pieces.flatten).length ≤ e.total) :
    ∃ e', replace pos (pos + tag.length) new e = .ok e' ∧
      Emits e e' (tag ++ new.pieces.flatten) 0 := by
  rw [List.length_append] at hroom
  obtain ⟨e₁, hverb, hw₁⟩ := verbatim_ok hs hstands (by omega)
  obtain ⟨e₂, hauthor, hw₂⟩ := author_ok new hw₁.sound (by
    rw [hw₁.length, hw₁.total]
    omega)
  exact ⟨e₂, by simp only [replace, hverb, bind, Except.bind, hauthor], hw₁.trans hw₂⟩

/-- The slots the emit pass meets next. -/
def Next (e : Emit) (slots : List Slot) : Prop :=
  slots.map rawSlot <+: e.slots.slots.drop e.cursor

section Slots

variable {slot : Slot} {slots later : List Slot}

theorem Next.head (h : e.Next (slot :: slots)) : e.slots.slots[e.cursor]? = some (rawSlot slot) := by
  obtain ⟨after, hafter⟩ := h
  have := congrArg (·[0]?) hafter
  simpa using this.symm

theorem Next.left (h : e.Next (slots ++ later)) : e.Next slots := by
  rw [Next, List.map_append] at h
  exact (List.prefix_append _ _).trans h

theorem Next.after (h : e.Next (slots ++ later)) (hw : Writes e e' bytes slots.length) :
    e'.Next later := by
  obtain ⟨after, hafter⟩ := h
  refine ⟨after, ?_⟩
  rw [hw.slots, hw.cursor, ← List.drop_drop, ← hafter, List.map_append, List.append_assoc]
  exact (List.drop_left' (List.length_map _)).symm

end Slots

/-! ## Replaying -/

section Replaying

variable {τ ι : Type} {note : ι → τ → τ} {down : τ → τ} {d : Doc UInt8 ι}

/-- What the emit pass needs: bytes of the input, their slots, and room for what is written. -/
structure Ready (e : Emit) (pos : Nat) (source : List UInt8) (slots : List Slot)
    (bytes : List UInt8) : Prop where
  sound : e.Sound
  stands : Stands e.input pos source
  slots : e.Next slots
  room : e.output.length + bytes.length ≤ e.total

section Ready

variable {source source' tail : List UInt8} {slots slots' : List Slot}

theorem Ready.left (h : e.Ready pos (source ++ source') (slots ++ slots') (bytes ++ tail)) :
    e.Ready pos source slots bytes := by
  obtain ⟨hs, hstands, hslots, hroom⟩ := h
  rw [List.length_append] at hroom
  exact ⟨hs, (stands_append.mp hstands).1, hslots.left, by omega⟩

/-- What is needed behind a piece that was written. -/
theorem Ready.past {pos' : Nat} (h : e.Ready pos (source ++ source') (slots ++ slots')
    (bytes ++ tail)) (hw : Writes e e' bytes used) (hused : used = slots.length)
    (hpos : pos' = pos + source.length) : e'.Ready pos' source' slots' tail := by
  obtain ⟨-, hstands, hslots, hroom⟩ := h
  subst hused hpos
  rw [List.length_append] at hroom
  refine ⟨hw.sound, ?_, hslots.after hw, ?_⟩
  · rw [hw.input]
    exact (stands_append.mp hstands).2
  · rw [hw.length, hw.total]
    omega

/-- The ledger is no part of it. -/
theorem Ready.ledger (h : e.Ready pos source slots bytes) (ledger : List (Nat × Nat)) :
    Ready { e with ledger } pos source slots bytes :=
  ⟨⟨h.sound.written, h.sound.run⟩, h.stands, h.slots, h.room⟩

end Ready

theorem Emits.reledger (h : Emits e e' bytes used) (ledger : List (Nat × Nat)) :
    Emits { e with ledger } { e' with ledger } bytes used :=
  ⟨⟨h.input, h.total, h.slots, rfl, ⟨h.sound.written, h.sound.run⟩, h.output, h.cursor⟩,
    h.logical⟩

/-- A dirty container's frame: kept whole, or the prefix spelled anew. -/
theorem descend_dirty {tag word : List UInt8} {inner rest : Doc UInt8 ι}
    (hd : inner.dirty = true) (hin : (inner.render spell).length ≤ PayloadLen.max)
    (h : e.Ready pos (Doc.source (.cross tag word inner rest))
      (Doc.slots spell (.cross tag word inner rest))
      (Doc.render spell (.cross tag word inner rest))) :
    ∃ e', Emits e { e' with ledger := e.ledger } (tag ++
          if (inner.render spell).length = inner.source.length then word
          else spell (inner.render spell).length) 1 ∧
      e'.ledger = (e'.logical, (inner.render spell).length) :: e.ledger ∧
      descend pos (pos + tag.length) (pos + tag.length + word.length)
        (pos + tag.length + word.length + inner.source.length) e = .ok (.walk, e') := by
  obtain ⟨hs, hstands, hslots, hroom⟩ := h
  simp only [Doc.source, stands_append] at hstands
  obtain ⟨⟨⟨htag, hword⟩, -⟩, -⟩ := hstands
  simp only [Doc.slots, hd, if_true, List.cons_append] at hslots
  have hread := read_rawSlot hslots.head hin
  have hold : pos + tag.length + word.length + inner.source.length -
      (pos + tag.length + word.length) = inner.source.length := by omega
  simp only [Doc.render, List.length_append] at hroom
  unfold descend
  simp only [hread, bind, Except.bind, pure, Except.pure, hold]
  have hs₁ : Sound { e with cursor := e.cursor + 1 } := ⟨hs.written, hs.run⟩
  have hout₁ : output { e with cursor := e.cursor + 1 } = e.output := rfl
  split
  · next hsame =>
    rw [if_pos hsame] at hroom
    have hboth : Stands e.input pos (tag ++ word) := stands_append.mpr ⟨htag, hword⟩
    obtain ⟨e₁, hverb, hw⟩ := verbatim_ok hs₁ hboth (by
      rw [hout₁, List.length_append]
      simp only
      omega)
    rw [List.length_append, ← Nat.add_assoc] at hverb
    rw [hverb]
    refine ⟨{ e₁ with ledger := (e₁.logical, (inner.render spell).length) :: e₁.ledger },
      ⟨⟨hw.input, hw.total, hw.slots, rfl, ⟨hw.sound.written, hw.sound.run⟩, hw.output,
      hw.cursor⟩, hw.logical⟩, by rw [hw.ledger], rfl⟩
  · next hnew =>
    rw [if_neg hnew, spell_length] at hroom
    obtain ⟨e₁, hverb, hw₁⟩ := verbatim_ok hs₁ htag (by
      rw [hout₁]
      simp only
      omega)
    obtain ⟨e₂, hauthor, hw₂⟩ :=
      author_ok (authoredWord (inner.render spell).length) hw₁.sound (by
        rw [hw₁.length, hw₁.total, hout₁, authoredWord_flatten, spell_length]
        simp only
        omega)
    rw [hverb]
    simp only [hauthor]
    have hw := hw₁.trans hw₂
    rw [authoredWord_flatten] at hw
    refine ⟨{ e₂ with ledger := (e₂.logical, (inner.render spell).length) :: e₂.ledger },
      ⟨⟨hw.input, hw.total, hw.slots, rfl, ⟨hw.sound.written, hw.sound.run⟩, hw.output,
      hw.cursor⟩, hw.logical⟩, by rw [hw.ledger], rfl⟩

/-- A dirty container closes on its slot length. -/
theorem ascend_dirty {inner : List UInt8} (head tagEnd payloadStart payloadEnd : Nat)
    {ledger : List (Nat × Nat)} (hledger : e.ledger = (e.logical, inner.length) :: ledger)
    (hw : Emits e e' inner used) :
    ascend head tagEnd payloadStart payloadEnd e' = .ok { e' with ledger := ledger } := by
  unfold ascend
  simp only [hw.ledger, hledger, hw.logical, Nat.add_sub_cancel_left, if_true]

/-- The emit pass renders a document, over its own slots. -/
def Feeds (note : ι → τ → τ) (down : τ → τ) (d : Doc UInt8 ι) (pos : Nat) (e : Emit) (t : τ) :
    Prop :=
  ∃ e', feed Emit.sink note down d pos (e, t) = .ok (e', d.tally note down false t) ∧
    Emits e e' (d.render spell) (d.slots spell).length

/-- A document is fed from wherever the emit pass is ready for it. -/
def Fed (note : ι → τ → τ) (down : τ → τ) (d : Doc UInt8 ι) : Prop :=
  ∀ (e : Emit) (pos : Nat) (t : τ),
    e.Ready pos d.source (d.slots spell) (d.render spell) → Feeds note down d pos e t

section Containers

variable {tag word : List UInt8} {inner rest : Doc UInt8 ι}

/-- A container an edit stands in: its frame, its interior, and what is behind it. -/
theorem fed_dirty (hd : inner.dirty = true) (hin : (inner.render spell).length ≤ PayloadLen.max)
    (ihi : Fed note down inner) (ihr : Fed note down rest) :
    Fed note down (.cross tag word inner rest) := by
  intro e pos t h
  obtain ⟨e₁, hw₁, hledger, hdescend⟩ := descend_dirty hd hin h
  have hready : e.Ready pos ((tag ++ word) ++ inner.source ++ rest.source)
      ([.dirty (inner.render spell).length] ++ inner.slots spell ++ rest.slots spell)
      (Doc.render spell (.cross tag word inner rest)) := by
    obtain ⟨hs, hstands, hslots, hroom⟩ := h
    simp only [Doc.slots, hd, if_true] at hslots
    exact ⟨hs, hstands, hslots, hroom⟩
  obtain ⟨e₂, hinner, hw₂⟩ := ihi e₁ (pos + tag.length + word.length) (down t)
    ((hready.left.past hw₁.toWrites rfl (by
      rw [List.length_append, Nat.add_assoc])).ledger e₁.ledger)
  have hascend := ascend_dirty pos (pos + tag.length) (pos + tag.length + word.length)
    (pos + tag.length + word.length + inner.source.length) hledger hw₂
  have hw := hw₁.trans (hw₂.reledger e.ledger)
  obtain ⟨e₃, hrest, hw₃⟩ := ihr { e₂ with ledger := e.ledger }
    (pos + tag.length + word.length + inner.source.length)
    (inner.tally note down false (down t)) (hready.past hw.toWrites (by
      rw [List.length_append, List.length_singleton]) (by
      simp only [List.length_append, Nat.add_assoc]))
  refine ⟨e₃, ?_, by
    simpa [Doc.render, Doc.slots, Nat.add_assoc, Nat.add_comm] using hw.trans hw₃⟩
  simp only [feed, sink_descend, hdescend, bind, Except.bind, hinner, sink_ascend, hascend,
    hrest, Doc.tally, hd, Bool.false_or, if_true]

/-- A container no edit stands in is skipped over, and rides whole. -/
theorem fed_clean (hd : inner.dirty = false) (ht : inner.Tagged)
    (hlen : inner.source.length ≤ PayloadLen.max) (ihr : Fed note down rest) :
    Fed note down (.cross tag word inner rest) := by
  intro e pos t h
  have hsame := @Doc.render_of_clean _ _ spell _ hd
  have hready : e.Ready pos ((tag ++ word ++ inner.source) ++ rest.source)
      ((.clean (inner.slots spell).length :: inner.slots spell) ++ rest.slots spell)
      ((tag ++ word ++ inner.source) ++ rest.render spell) := by
    obtain ⟨hs, hstands, hslots, hroom⟩ := h
    simp only [Doc.slots, hd, Bool.false_eq_true, if_false] at hslots
    simp only [Doc.render, hsame, if_true] at hroom
    exact ⟨hs, hstands, hslots, hroom⟩
  obtain ⟨hs, hstands, hslots, hroom⟩ := hready.left
  have hread := read_rawSlot (Next.head hslots) (slots_le ht hlen)
  have hdescend : descend pos (pos + tag.length) (pos + tag.length + word.length)
      (pos + tag.length + word.length + inner.source.length) e =
      .ok (.skip, { e with cursor := e.cursor + 1 + (inner.slots spell).length }) := by
    simp only [descend, hread, bind, Except.bind, pure, Except.pure]
  obtain ⟨e₁, hverb, hw₁⟩ :=
    @verbatim_ok { e with cursor := e.cursor + 1 + (inner.slots spell).length }
      (tag ++ word ++ inner.source) pos ⟨hs.written, hs.run⟩ hstands hroom
  have hw : Emits e e₁ (tag ++ word ++ inner.source) ((inner.slots spell).length + 1) :=
    ⟨⟨hw₁.input, hw₁.total, hw₁.slots, hw₁.ledger, hw₁.sound, hw₁.output, by
      rw [hw₁.cursor]; simp only; omega⟩, hw₁.logical⟩
  simp only [List.length_append, ← Nat.add_assoc] at hverb
  obtain ⟨e₂, hrest, hw₂⟩ := ihr e₁ (pos + tag.length + word.length + inner.source.length) t
    (hready.past hw.toWrites rfl (by simp only [List.length_append, Nat.add_assoc]))
  refine ⟨e₂, ?_, by
    simpa [Doc.render, Doc.slots, hsame, hd, Nat.add_assoc, Nat.add_comm] using hw.trans hw₂⟩
  simp only [feed, sink_descend, hdescend, bind, Except.bind, sink_verbatim, hverb, hrest,
    Doc.tally, hd, Bool.false_or, Bool.false_eq_true, if_false]

/-- A frame authored anew around its interior. -/
theorem fed_frame {mark : ι} {old : List UInt8} {opener closer : Authored UInt8}
    (ihi : Fed note down inner) (ihr : Fed note down rest) :
    Fed note down (.frame mark old opener inner closer rest) := by
  intro e pos t h
  have hready : e.Ready pos ((old ++ inner.source) ++ rest.source)
      (inner.slots spell ++ rest.slots spell)
      ((opener.pieces.flatten ++ inner.render spell ++ closer.pieces.flatten) ++
        rest.render spell) := h
  obtain ⟨hs, -, -, hroom⟩ := hready.left
  rw [List.length_append, List.length_append] at hroom
  obtain ⟨e₁, hopen, hw₁⟩ := author_ok opener hs (by omega)
  have hinner₀ : e.Ready pos (old ++ inner.source) ([] ++ inner.slots spell)
      (opener.pieces.flatten ++ inner.render spell) := by
    refine ⟨hs, hready.left.stands, hready.left.slots, ?_⟩
    rw [List.length_append]
    omega
  obtain ⟨e₂, hinner, hw₂⟩ := ihi e₁ (pos + old.length) (note mark t)
    (hinner₀.past hw₁.toWrites rfl rfl)
  obtain ⟨e₃, hclose, hw₃⟩ := author_ok closer hw₂.sound (by
    rw [hw₂.length, hw₁.length, hw₂.total, hw₁.total]
    omega)
  have hw := (hw₁.trans hw₂).trans hw₃
  obtain ⟨e₄, hrest, hw₄⟩ := ihr e₃ (pos + old.length + inner.source.length)
    (inner.tally note down false (note mark t)) (hready.past hw.toWrites (by omega) (by
      rw [List.length_append, Nat.add_assoc]))
  refine ⟨e₄, ?_, by simpa [Doc.render, Doc.slots] using hw.trans hw₄⟩
  simp only [feed, sink_frameEnter, hopen, bind, Except.bind, hinner, sink_frameExit, hclose,
    hrest, Doc.tally]

end Containers

/-- The emit pass over a document's own slots renders it. -/
theorem feed_ok (ht : d.Tagged) (hlen : d.source.length ≤ PayloadLen.max)
    (hfits : d.Fits spell PayloadLen.max) : Fed note down d := by
  induction d with
  | nil => exact fun e pos t h => ⟨e, rfl, Emits.refl h.sound⟩
  | copy bytes rest ih =>
    intro e pos t h
    simp only [Doc.source, List.length_append] at hlen
    have hready : e.Ready pos (bytes ++ rest.source) ([] ++ rest.slots spell)
        (bytes ++ rest.render spell) := h
    obtain ⟨hs, hstands, -, hroom⟩ := hready.left
    obtain ⟨e₁, hverb, hw₁⟩ := verbatim_ok hs hstands hroom
    obtain ⟨e₂, hrest, hw₂⟩ := ih ht (by omega) hfits e₁ _ t (hready.past hw₁.toWrites rfl rfl)
    refine ⟨e₂, ?_, by simpa only [Doc.render, Doc.slots, Nat.zero_add] using hw₁.trans hw₂⟩
    simp only [feed, sink_verbatim, hverb, bind, Except.bind, hrest, Doc.tally]
  | drop mark bytes rest ih =>
    intro e pos t h
    simp only [Doc.source, List.length_append] at hlen
    have hready : e.Ready pos (bytes ++ rest.source) ([] ++ rest.slots spell)
        ([] ++ rest.render spell) := h
    obtain ⟨e₁, hrest, hw₁⟩ := ih ht (by omega) hfits e (pos + bytes.length) (note mark t)
      (hready.past (Writes.refl h.sound) rfl rfl)
    exact ⟨e₁, hrest, hw₁⟩
  | author mark old new rest ih =>
    intro e pos t h
    simp only [Doc.source, List.length_append] at hlen
    have hready : e.Ready pos (old ++ rest.source) ([] ++ rest.slots spell)
        (new.pieces.flatten ++ rest.render spell) := h
    obtain ⟨e₁, hauthor, hw₁⟩ := author_ok new h.sound hready.left.room
    obtain ⟨e₂, hrest, hw₂⟩ := ih ht (by omega) hfits e₁ (pos + old.length) (note mark t)
      (hready.past hw₁.toWrites rfl rfl)
    refine ⟨e₂, ?_, by simpa only [Doc.render, Doc.slots, Nat.zero_add] using hw₁.trans hw₂⟩
    simp only [feed, sink_author, hauthor, bind, Except.bind, hrest, Doc.tally]
  | replace mark tag old new rest ih =>
    intro e pos t h
    simp only [Doc.source, List.length_append] at hlen
    have hready : e.Ready pos ((tag ++ old) ++ rest.source) ([] ++ rest.slots spell)
        ((tag ++ new.pieces.flatten) ++ rest.render spell) := h
    obtain ⟨hs, hstands, -, hroom⟩ := hready.left
    obtain ⟨e₁, hreplace, hw₁⟩ := replace_ok new hs (stands_append.mp hstands).1 hroom
    obtain ⟨e₂, hrest, hw₂⟩ := ih ht (by omega) hfits e₁ (pos + tag.length + old.length)
      (note mark t) (hready.past hw₁.toWrites rfl (by rw [List.length_append, Nat.add_assoc]))
    refine ⟨e₂, ?_, by simpa only [Doc.render, Doc.slots, Nat.zero_add] using hw₁.trans hw₂⟩
    simp only [feed, sink_replace, hreplace, bind, Except.bind, hrest, Doc.tally]
  | frame mark old opener inner closer rest ihi ihr =>
    simp only [Doc.source, List.length_append] at hlen
    exact fed_frame (ihi ht.1 (by omega) hfits.1) (ihr ht.2 (by omega) hfits.2)
  | cross tag word inner rest ihi ihr =>
    obtain ⟨-, -, hti, htr⟩ := ht
    obtain ⟨hfi, hin, hfr⟩ := hfits
    simp only [Doc.source, List.length_append] at hlen
    cases hd : inner.dirty with
    | true => exact fed_dirty hd hin (ihi hti (by omega) hfi) (ihr htr (by omega) hfr)
    | false => exact fed_clean hd hti (by omega) (ihr htr (by omega) hfr)

end Replaying

theorem finish_ok (hs : e.Sound) (hcursor : e.cursor = e.slots.claimed) (hledger : e.ledger = [])
    (htotal : e.output.length = e.total) :
    ∃ e', e.finish = .ok e' ∧ e'.pieces.flatten = e.output ∧ e'.written = e.total := by
  obtain ⟨e', hflush, hw, hnone, -⟩ := flush_ok hs (Nat.le_of_eq htotal)
  have hout : e'.pieces.flatten = e.output := by
    simpa [output, hnone] using hw.output
  have hwritten : e'.written = e.total := by rw [hw.sound.written, hout, htotal]
  refine ⟨e', ?_, hout, hwritten⟩
  simp only [finish, hflush, bind, Except.bind, pure, Except.pure]
  rw [if_pos ⟨by rw [hw.cursor, hw.slots, hcursor, Nat.add_zero], hw.ledger.trans hledger,
    hwritten.trans hw.total.symm⟩]

/-- What the pins of a finished pass say. -/
theorem finish_pins (h : e.finish = .ok e') :
    e'.cursor = e'.slots.claimed ∧ e'.ledger = [] ∧ e'.written = e'.total := by
  unfold finish at h
  cases hf : e.flush with
  | error trap => simp [hf, bind, Except.bind] at h
  | ok f =>
    simp only [hf, bind, Except.bind, pure, Except.pure] at h
    split at h
    · next hpins =>
      cases h
      exact hpins
    · cases h

end Emit

/-! ## Whole documents -/

section Whole

variable {τ ι : Type} (note : ι → τ → τ) (down : τ → τ) {d : Doc UInt8 ι}

/-- The slots a document's measuring pass leaves. -/
def slotsOf (d : Doc UInt8 ι) : SlotTable := ⟨(d.slots spell).map rawSlot⟩

theorem Measure.whole (ht : d.Tagged) (hlen : d.source.length ≤ PayloadLen.max)
    (hfits : d.Fits spell PayloadLen.max) (t : τ) :
    feed Measure.sink note down d 0 (.new, t) =
      .ok (⟨[⟨(d.render spell).length, 0, d.dirty⟩], slotsOf d⟩, d.tally note down true t) := by
  simpa [billed, slotsOf, new] using feed_ok ht hlen hfits ⟨0, 0, false⟩ [] [] 0 t

theorem Measure.whole_over (ht : d.Tagged) (hlen : d.source.length ≤ PayloadLen.max)
    (hfits : ¬d.Fits spell PayloadLen.max) (t : τ) :
    ∃ len, feed Measure.sink note down d 0 (.new, t) = .error (.outgrown len) :=
  feed_over ht hlen hfits ⟨0, 0, false⟩ [] [] 0 t

/-- The emit pass over a whole document passes every pin, and its pieces are the rendering. -/
theorem Emit.whole (face : Face) (ht : d.Tagged) (hlen : d.source.length ≤ PayloadLen.max)
    (hfits : d.Fits spell PayloadLen.max) (t : τ) :
    ∃ e e', feed Emit.sink note down d 0
          (.new face d.source (slotsOf d) (d.render spell).length, t) =
        .ok (e, d.tally note down false t) ∧
      e.finish = .ok e' ∧ e'.pieces.flatten = d.render spell ∧
      e'.written = (d.render spell).length := by
  obtain ⟨e, hfeed, hw⟩ := feed_ok ht hlen hfits
    (.new face d.source (slotsOf d) (d.render spell).length) 0 t
    { sound := ⟨rfl, nofun⟩
      stands := Stands.of_self _
      slots := List.prefix_refl _
      room := by simp [output, Emit.new] }
  have hout : e.output = d.render spell := by simpa [output, Emit.new] using hw.output
  obtain ⟨e', hfinish, hflat, hwritten⟩ := finish_ok hw.sound
    (by rw [hw.cursor, hw.slots]; simp [Emit.new, slotsOf, SlotTable.claimed])
    hw.ledger (by rw [hout, hw.total]; rfl)
  exact ⟨e, e', hfeed, hfinish, hflat.trans hout, hwritten.trans hw.total⟩

end Whole

end ProtobufEdit.TwoPass
