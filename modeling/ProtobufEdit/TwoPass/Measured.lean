import ProtobufEdit.TwoPass.Seam
import ProtobufEdit.TwoPass.Walk

/-!
# The measuring pass is safe

How the walk's layers and the measuring pass's frames stand to each other at every turn. Where
they do, no event of the pass fails but an ascent over the LEN class: no access leaves its
table, and no assertion fires.
-/

namespace ProtobufEdit.TwoPass

open Wire ProtobufEdit.Path Cursor Cursor.Groupless Loop Emission

variable {κ φ τ : Type}

/-- A layer above the record that opened it, passed in the layer under it. -/
structure Layer.Over (parent l : Layer κ) : Prop where
  crossing : l.crossing ≠ none
  base : l.base = l.payloadStart
  head : l.head ≤ l.payloadStart
  stop : l.payloadStart + l.cursor.data.length = l.payloadEnd
  behind : l.payloadEnd = parent.base + parent.cursor.pos

/-- A frame no edit touched has billed all its layer read, but for the record still open. -/
def Frame.Billed (f : Frame) (l : Layer κ) (pending : Nat) : Prop :=
  f.dirty = false → f.total + pending = l.cursor.pos

/-- Layers and frames, innermost first, with the bytes of the innermost layer not billed yet. A
layer of a `slotted` kind holds a claimed slot, and one of another kind stands in a frame some
edit touched. -/
inductive Stacked (slotted : κ → Bool) (claimed : Nat) :
    Nat → List (Layer κ) → List Frame → Prop
  | root {pending : Nat} {l : Layer κ} {f : Frame} (base : l.base = 0)
      (fits : l.cursor.data.length ≤ PayloadLen.max)
      (within : l.cursor.pos ≤ l.cursor.data.length) (billed : f.Billed l pending) :
      Stacked slotted claimed pending [l] [f]
  | crossed {pending : Nat} {l parent : Layer κ} {below : List (Layer κ)} {f g : Frame}
      {frames : List Frame} (above : parent.Over l)
      (within : l.cursor.pos ≤ l.cursor.data.length) (billed : f.Billed l pending)
      (slot : slotted l.kind = true → f.slot < claimed)
      (dirty : slotted l.kind = false → g.dirty = true)
      (rest : Stacked slotted claimed (l.payloadEnd - l.head) (parent :: below) (g :: frames)) :
      Stacked slotted claimed pending (l :: parent :: below) (f :: g :: frames)

section Stacked

variable {slotted : κ → Bool} {claimed pending n : Nat} {l parent : Layer κ}
  {below : List (Layer κ)} {f g : Frame} {frames : List Frame}

theorem Stacked.within (h : Stacked slotted claimed pending (l :: below) frames) :
    l.cursor.pos ≤ l.cursor.data.length := by
  cases h with
  | root base fits within billed => exact within
  | crossed above within billed slot dirty rest => exact within

theorem Stacked.billed (h : Stacked slotted claimed pending (l :: below) (f :: frames)) :
    f.Billed l pending := by
  cases h with
  | root base fits within billed => exact billed
  | crossed above within billed slot dirty rest => exact billed

theorem Stacked.frames_ne (h : Stacked slotted claimed pending (l :: below) frames) :
    ∃ f rest, frames = f :: rest := by
  cases h with
  | root base fits within billed => exact ⟨_, _, rfl⟩
  | crossed above within billed slot dirty rest => exact ⟨_, _, rfl⟩

/-- No layer reaches past the input. -/
theorem Stacked.reach (h : Stacked slotted claimed pending (l :: below) frames) :
    l.base + l.cursor.data.length ≤ PayloadLen.max := by
  induction below generalizing l frames pending with
  | nil =>
    cases h with
    | root base fits within billed => omega
  | cons parent below ih =>
    cases h with
    | crossed above within billed slot dirty rest =>
      have hreach := ih rest
      have hwithin := rest.within
      have hstop := above.stop
      have hbase := above.base
      have hbehind := above.behind
      omega

/-- Another billing of the innermost layer, read further. -/
theorem Stacked.rebill {cursor : Cursor} {f' : Frame} {pending' : Nat}
    (h : Stacked slotted claimed pending (l :: below) (f :: frames))
    (hdata : cursor.data = l.cursor.data) (hwithin : cursor.pos ≤ l.cursor.data.length)
    (hslot : f'.slot = f.slot) (hbilled : f'.Billed { l with cursor } pending') :
    Stacked slotted claimed pending' ({ l with cursor } :: below) (f' :: frames) := by
  cases h with
  | root base fits within billed =>
    exact .root base (by rw [hdata]; exact fits) (by rw [hdata]; exact hwithin) hbilled
  | crossed above within billed slot dirty rest =>
    exact .crossed
      ⟨above.crossing, above.base, above.head, by rw [hdata]; exact above.stop, above.behind⟩
      (by rw [hdata]; exact hwithin) hbilled (fun hk => hslot ▸ slot hk) dirty rest

/-- More slots claimed. -/
theorem Stacked.claim {claimed' : Nat} (hle : claimed ≤ claimed') {layers : List (Layer κ)}
    (h : Stacked slotted claimed pending layers frames) :
    Stacked slotted claimed' pending layers frames := by
  induction h with
  | root base fits within billed => exact .root base fits within billed
  | crossed above within billed slot dirty rest ih =>
    exact .crossed above within billed (fun hk => Nat.lt_of_lt_of_le (slot hk) hle) dirty ih

end Stacked

/-! ## One event -/

section Events

variable {slotted : κ → Bool} {pending : Nat} {l : Layer κ} {below : List (Layer κ)}
  {m : Measure}

/-- The layers the pass's frames and claims stand for. -/
abbrev Measure.Stands (slotted : κ → Bool) (pending : Nat) (layers : List (Layer κ))
    (m : Measure) : Prop :=
  Stacked slotted m.slots.slots.length pending layers m.frames

/-- The open record billed as it stood. -/
theorem Measure.Stands.clean (h : m.Stands slotted pending (l :: below)) :
    ∃ m', m.bill pending false = .ok m' ∧ m'.Stands slotted 0 (l :: below) ∧
      m'.slots = m.slots := by
  obtain ⟨frames, slots⟩ := m
  obtain ⟨f, rest, rfl⟩ := h.frames_ne
  refine ⟨_, rfl, ?_, rfl⟩
  have hbilled := Stacked.billed h
  refine Stacked.rebill h rfl h.within rfl fun hd => ?_
  rw [Bool.or_false] at hd
  have := hbilled hd
  simpa using this

/-- Anything billed as an edit. -/
theorem Measure.Stands.edited (n pending' : Nat) (h : m.Stands slotted pending (l :: below)) :
    ∃ m', m.bill n true = .ok m' ∧ m'.Stands slotted pending' (l :: below) ∧
      m'.slots = m.slots ∧ ∃ g frames, m'.frames = g :: frames ∧ g.dirty = true := by
  obtain ⟨frames, slots⟩ := m
  obtain ⟨f, rest, rfl⟩ := h.frames_ne
  refine ⟨_, rfl, ?_, rfl, _, _, rfl, Bool.or_true _⟩
  exact Stacked.rebill h rfl h.within rfl fun hd => by simp at hd

/-- A container entered: a slot claimed, and a frame pushed. -/
theorem Measure.Stands.descend (child : Layer κ) (h : m.Stands slotted pending (l :: below))
    (hover : l.Over child) (hpos : child.cursor.pos = 0)
    (hpending : child.payloadEnd - child.head = pending) (hslotted : slotted child.kind = true) :
    ∃ m', m.descend child.head child.tagEnd child.payloadStart child.payloadEnd = .ok (.walk, m') ∧
      m'.Stands slotted 0 (child :: l :: below) ∧
      m'.slots.slots.length = m.slots.slots.length + 1 := by
  obtain ⟨frames, slots⟩ := m
  obtain ⟨f, rest, rfl⟩ := h.frames_ne
  refine ⟨_, rfl, ?_, by simp⟩
  refine .crossed hover (by omega) (fun _ => by simp [hpos]) (fun _ => ?_) (fun hk => ?_) ?_
  · simp
  · rw [hslotted] at hk; cases hk
  · rw [hpending]
    exact Stacked.claim (by simp) h

/-- A container re-framed: its parent dirtied, and a frame pushed. -/
theorem Measure.Stands.frameEnter (child : Layer κ) (opener : Authored UInt8)
    (h : m.Stands slotted pending (l :: below)) (hover : l.Over child)
    (hpos : child.cursor.pos = 0) (hslotted : slotted child.kind = false) :
    ∃ m', m.frameEnter opener = .ok m' ∧ m'.Stands slotted 0 (child :: l :: below) ∧
      m'.slots = m.slots := by
  obtain ⟨m', hbill, hstands, hslots, g, frames, hframes, hdirty⟩ :=
    h.edited opener.size (child.payloadEnd - child.head)
  refine ⟨{ m' with frames := ⟨0, 0, false⟩ :: m'.frames }, ?_, ?_, hslots⟩
  · simp only [Measure.frameEnter, hbill, bind, Except.bind, pure, Except.pure]
  · rw [hframes]
    rw [Measure.Stands, hframes] at hstands
    refine .crossed hover (by omega) (fun _ => by simp [hpos]) (fun hk => ?_) (fun _ => hdirty)
      hstands
    rw [hslotted] at hk; cases hk

/-- A re-framed container left: nothing is judged. -/
theorem Measure.Stands.frameExit {child : Layer κ} (closer : Authored UInt8)
    (h : m.Stands slotted 0 (child :: l :: below)) (hslotted : slotted child.kind = false) :
    ∃ m', m.frameExit closer = .ok m' ∧ m'.Stands slotted 0 (l :: below) ∧
      m'.slots = m.slots := by
  obtain ⟨frames, slots⟩ := m
  cases h with
  | @crossed _ _ _ _ f g frames above within billed slot dirty rest =>
    refine ⟨_, rfl, ?_, rfl⟩
    exact Stacked.rebill rest rfl rest.within rfl fun hd => by simp [dirty hslotted] at hd

/-- A crossed container exhausted: its slot is filled, unless it outgrew the LEN class. -/
theorem Measure.Stands.ascend {child : Layer κ} (h : m.Stands slotted 0 (child :: l :: below))
    (hend : child.cursor.data.drop child.cursor.pos = [])
    (hslotted : slotted child.kind = true) (hclaims : m.slots.slots.length ≤ PayloadLen.max) :
    (∃ len, m.ascend child.head child.tagEnd child.payloadStart child.payloadEnd =
        .error (.outgrown len)) ∨
      ∃ m', m.ascend child.head child.tagEnd child.payloadStart child.payloadEnd = .ok m' ∧
        m'.Stands slotted 0 (l :: below) ∧
        m'.slots.slots.length = m.slots.slots.length := by
  obtain ⟨frames, ⟨slots⟩⟩ := m
  cases h with
  | @crossed _ _ _ _ f g frames above within billed slot dirty rest =>
    by_cases hover : PayloadLen.max < f.total
    · exact .inl ⟨f.total, by simp only [Measure.ascend, hover, if_true]⟩
    right
    have hslot := slot hslotted
    have hread : child.cursor.pos = child.cursor.data.length :=
      Nat.le_antisymm within (List.drop_eq_nil_iff.mp hend)
    have hfill : ∀ payload dirty, payload ≤ PayloadLen.max →
        SlotTable.fill ⟨slots⟩ f.slot dirty payload =
          .ok ⟨slots.set f.slot (if dirty then payload ||| dirtyBit else payload)⟩ := by
      intro payload dirty hle
      have hbit := and_dirtyBit hle
      simp only [SlotTable.fill, ne_eq, hbit, not_true_eq_false, if_false]
      exact if_pos hslot
    cases hd : f.dirty with
    | true =>
      have hstands : Measure.Stands slotted (child.payloadEnd - child.head) (l :: below)
          ⟨g :: frames, ⟨slots.set f.slot (f.total ||| dirtyBit)⟩⟩ := by
        simpa [Measure.Stands] using rest
      obtain ⟨m', hbill, hm', hslots, -⟩ := hstands.edited _ _
      refine ⟨m', ?_, hm', by rw [hslots]; simp⟩
      simp only [Measure.ascend, hover, if_false, hd, if_true, hfill _ _ (Nat.le_of_not_lt hover)]
      exact hbill
    | false =>
      have hstop := above.stop
      have htotal : f.total = child.payloadEnd - child.payloadStart := by
        have := billed hd
        omega
      have hstands : Measure.Stands slotted (child.payloadEnd - child.head) (l :: below)
          ⟨g :: frames, ⟨slots.set f.slot (slots.length - (f.slot + 1))⟩⟩ := by
        simpa [Measure.Stands] using rest
      obtain ⟨m', hbill, hm', hslots⟩ := hstands.clean
      refine ⟨m', ?_, hm', by rw [hslots]; simp⟩
      rw [htotal] at hover
      simp only [Measure.ascend, htotal, hover, if_false, hd, Bool.false_eq_true, ne_eq,
        not_true_eq_false, SlotTable.claimed]
      rw [hfill _ _ (by simp only at hclaims; omega)]
      exact hbill

end Events

/-! ## One turn -/

/-- How a safe pass ends. -/
def Outcome.Safe {σ : Type} : Outcome φ τ σ → Prop
  | .done _ _ | .refused _ => True
  | .panic | .undefined => False

section Turns

variable {slotted : κ → Bool} {pending : Nat} {w : Walk κ τ Measure} {r : Cursor.Record}
  {standard : Standard} {rest : List UInt8}

/-- The walk's layers and the pass's frames agree, and no more slots are claimed than bytes
read. -/
structure Walk.Sane (slotted : κ → Bool) (pending : Nat) (w : Walk κ τ Measure) : Prop where
  stands : w.sink.Stands slotted pending (w.layer :: w.below)
  claims : w.sink.slots.slots.length ≤ w.head

theorem Walk.Sane.head_le (h : w.Sane slotted pending) : w.head ≤ PayloadLen.max := by
  have := h.stands.reach
  have := h.stands.within
  unfold Walk.head
  omega

/-- A record delivered, and not billed yet. -/
theorem Walk.Sane.past (h : w.Sane slotted 0)
    (hfirst : first standard (w.layer.cursor.data.drop w.layer.cursor.pos) = some (r, rest))
    (staged : List Path.State) (stats : τ) :
    (w.onward (w.layer.cursor.past r) staged stats w.sink).Sane slotted r.bytes.length := by
  obtain ⟨he, -⟩ := first_iff.mp hfirst
  have hlen := Cursor.length_of_drop_eq he
  have hpos : 0 < r.bytes.length := (first_iff.mp hfirst).2.length_pos
  have hstands := h.stands
  refine ⟨?_, ?_⟩
  · obtain ⟨f, frames, hframes⟩ := hstands.frames_ne
    rw [Measure.Stands, hframes] at hstands
    rw [Measure.Stands]
    show Stacked slotted _ _ ({ w.layer with cursor := w.layer.cursor.past r } :: w.below)
      w.sink.frames
    rw [hframes]
    refine Stacked.rebill hstands rfl ?_ rfl fun hd => ?_
    · simp only [Cursor.past]
      omega
    · have := hstands.billed hd
      simp only [Cursor.past]
      omega
  · have := h.claims
    simp only [Walk.head, Walk.onward, Cursor.past] at this ⊢
    omega

/-- One event that bills the record, and the turn is above. -/
theorem Walk.Sane.event {f : Measure → Except Trap Measure} (h : w.Sane slotted pending)
    (hf : ∃ m', f w.sink = .ok m' ∧ m'.Stands slotted 0 (w.layer :: w.below) ∧
      m'.slots = w.sink.slots) :
    ∃ w', (w.event f : Turn _ (Outcome φ τ Measure)) = .next w' ∧ w'.Sane slotted 0 ∧
      w'.matcher = w.matcher ∧ w'.below.length = w.below.length ∧ w'.stats = w.stats := by
  obtain ⟨m', hm, hstands, hslots⟩ := hf
  refine ⟨{ w with sink := m' }, by simp only [Walk.event, hm], ⟨hstands, ?_⟩, rfl, rfl, rfl⟩
  have := h.claims
  rw [hslots]
  exact this

/-- The layer above the payload of a LEN record just passed. -/
theorem Walk.opening_over {word payload : List UInt8} (hp : r.payload = .len word payload)
    (kind : κ) :
    Layer.Over { w.layer with cursor := w.layer.cursor.past r }
      (w.opening r word payload kind) := by
  refine ⟨fun e => (by cases e), rfl, ?_, rfl, ?_⟩
  · simp only [Walk.opening]
    omega
  · have hbytes : r.bytes.length = r.tag.length + (word.length + payload.length) := by
      simp only [Cursor.Record.bytes, hp, Cursor.Payload.bytes, List.length_append]
    simp only [Walk.opening, Walk.head, Cursor.past, hbytes]
    omega

theorem Walk.payload_le {word payload : List UInt8} (h : w.Sane slotted 0)
    (hfirst : first standard (w.layer.cursor.data.drop w.layer.cursor.pos) = some (r, rest))
    (hp : r.payload = .len word payload) : payload.length ≤ PayloadLen.max := by
  have hlt := first_payload_lt hfirst hp
  have := h.stands.reach
  rw [List.length_drop] at hlt
  omega

/-- A layer's own end. -/
theorem Walk.Sane.exhausted {child parent : Layer κ} {below : List (Layer κ)}
    (h : w.Sane slotted 0) (hlayer : w.layer = child) (hbelow : w.below = parent :: below)
    (hend : child.cursor.data.drop child.cursor.pos = []) :
    parent.Over child ∧ w.head = parent.base + parent.cursor.pos := by
  have hstands := h.stands
  obtain ⟨f, frames, hframes⟩ := hstands.frames_ne
  rw [Measure.Stands, hlayer, hbelow, hframes] at hstands
  cases hstands with
  | crossed above within billed slot dirty rest =>
    refine ⟨above, ?_⟩
    have := above.base
    have := above.stop
    have := above.behind
    have := List.drop_eq_nil_iff.mp hend
    simp only [Walk.head, hlayer]
    omega

end Turns

/-! ## The matcher under a walk -/

/-- A matcher some descents behind the root. -/
inductive Seated (paths : Paths) : Nat → Matcher → Prop
  | root {m : Matcher} {live : List Path.State} (hat : At paths [] m live) : Seated paths 0 m
  | descended {depth : Nat} {m : Matcher} {chain : List FieldNumber} {live : List Path.State}
      (under : Seated paths depth m) (hat : At paths chain m live) (field : FieldNumber)
      (staged : List Path.State) :
      Seated paths (depth + 1) ((m.opened (descend paths live field)).restage staged)

section Seats

variable {paths : Paths} {depth : Nat} {m : Matcher}

theorem Seated.at_ (h : Seated paths depth m) : ∃ chain live, At paths chain m live := by
  cases h with
  | root hat => exact ⟨_, _, hat⟩
  | descended under hat field staged => exact ⟨_, _, (hat.opened field).restage staged⟩

theorem Seated.restage (h : Seated paths depth m) (staged : List Path.State) :
    Seated paths depth (m.restage staged) := by
  cases h with
  | root hat => exact .root (hat.restage staged)
  | descended under hat field others => exact .descended under hat field staged

theorem Seated.exit (h : Seated paths (depth + 1) m) : Seated paths depth m.exit := by
  cases h with
  | descended under hat field staged =>
    rw [hat.exit_opened]
    exact under.restage staged

end Seats

end ProtobufEdit.TwoPass
