import ProtobufEdit.Editor.Walk
import ProtobufEdit.Revise.Save
import ProtobufEdit.Revise.Tree

/-!
# The save walks of a revising machine

Either pass goes down the rows by their links; what it comes to is a recursion over the forest
the links lay out. A row's `Shape` is the one account of it that the size walk, the emit walk and
the recursion share.
-/

namespace ProtobufEdit.Revise

open Wire Wire.Groupless Varint Arena Loop
open Editor (SaveFault Shape slice_eq slice_append slice_length emit64_length)
open Editor.Machine (slice prefixed prefixed_length)

/-! ## The emitter -/

namespace Emit

/-- What is written, with the pending stretch. -/
def text (e : Emit) : List UInt8 := e.flush.pieces.flatten

def Ordered (e : Emit) : Prop := ∀ zone pos stop, e.run = some (zone, pos, stop) → pos ≤ stop

/-- One emitter is the other with a piece more. -/
structure Writes (e e' : Emit) (piece : List UInt8) : Prop where
  ordered : e.Ordered → e'.Ordered
  text : e.Ordered → e'.text = e.text ++ piece

variable {e e' e'' : Emit} {piece piece' : List UInt8}

theorem Writes.refl (e : Emit) : e.Writes e [] := ⟨id, fun _ => (List.append_nil _).symm⟩

theorem Writes.trans (h : e.Writes e' piece) (h' : e'.Writes e'' piece') :
    e.Writes e'' (piece ++ piece') := by
  refine ⟨fun ho => h'.ordered (h.ordered ho), fun ho => ?_⟩
  rw [h'.text (h.ordered ho), h.text ho, List.append_assoc]

theorem ordered_of_none (h : e.run = none) : e.Ordered := by
  intro zone pos stop hrun
  rw [h] at hrun
  cases hrun

theorem text_of_some {pieces : List (List UInt8)} {zone : List UInt8} {pos stop : Nat} :
    (⟨pieces, some (zone, pos, stop)⟩ : Emit).text = pieces.flatten ++ slice zone pos stop := by
  show (pieces ++ [slice zone pos stop]).flatten = _
  rw [List.flatten_append, List.flatten_singleton]

theorem writes_bytes (e : Emit) (piece : List UInt8) : e.Writes (e.bytes piece) piece := by
  refine ⟨fun _ => ordered_of_none rfl, fun _ => ?_⟩
  show (e.flush.pieces ++ [piece]).flatten = _
  rw [List.flatten_append, List.flatten_singleton]
  rfl

theorem writes_varint (e : Emit) (v : Nat) : e.Writes (e.varint v) (emit64 v) := e.writes_bytes _

theorem writes_verbatimIn (e : Emit) (zone : List UInt8) {pos stop : Nat} (h : pos ≤ stop) :
    e.Writes (e.verbatimIn zone pos stop) (slice zone pos stop) := by
  have hout : ∀ pieces, (⟨pieces, some (zone, pos, stop)⟩ : Emit).Ordered := by
    rintro pieces _ _ _ ⟨⟩
    exact h
  rcases e with ⟨pieces, _ | ⟨z, start, reached⟩⟩
  · exact ⟨fun _ => hout pieces, fun _ => text_of_some⟩
  · unfold verbatimIn
    show Writes _ (if reached = pos ∧ z = zone then _ else _) _
    split
    · next hjoin =>
      obtain ⟨rfl, rfl⟩ := hjoin
      refine ⟨fun ho => ?_, fun ho => ?_⟩
      · rintro _ _ _ ⟨⟩
        exact Nat.le_trans (ho z start reached rfl) h
      · rw [text_of_some, text_of_some, List.append_assoc, slice_append (ho z start reached rfl) h]
    · exact ⟨fun _ => hout _, fun _ => text_of_some⟩

theorem writes_lenPrefix (e : Emit) (zone : List UInt8) {tagEnd prefixEnd : Nat}
    (h : tagEnd ≤ prefixEnd) (srcLen len : Nat) :
    e.Writes (e.lenPrefix zone tagEnd prefixEnd srcLen len)
      (prefixed zone tagEnd prefixEnd srcLen len) := by
  unfold lenPrefix prefixed
  split
  · exact e.writes_verbatimIn zone h
  · exact e.writes_varint len

end Emit

/-! ## Shapes -/

namespace Machine

variable {standard : Standard}

/-- A rewritten container's minimal prefix is its own at length zero too. -/
def shape (m : Machine standard) (zone : List UInt8) : Arm → Shape
  | .skip => .leaf []
  | .clean pos stop => .leaf (slice zone pos stop)
  | .reValue tagAt tagEnd value => .leaf (slice zone tagAt tagEnd ++ value.bytes)
  | .newValue head value => .leaf (emit64 head ++ value.bytes)
  | .reBody tagAt tagEnd prefixEnd srcLen value =>
    .leaf (slice zone tagAt tagEnd ++
      prefixed zone tagEnd prefixEnd srcLen (m.spanLen value) ++ m.store.spanBytes value)
  | .newBody head value =>
    .leaf (emit64 head ++ emit64 (m.spanLen value) ++ m.store.spanBytes value)
  | .reBodyAlias tagAt tagEnd prefixEnd srcLen pos len =>
    .leaf (slice zone tagAt tagEnd ++ prefixed zone tagEnd prefixEnd srcLen len ++
      slice m.source pos (pos + len))
  | .newBodyAlias head pos len =>
    .leaf (emit64 head ++ emit64 len ++ slice m.source pos (pos + len))
  | .imported value => .leaf (m.store.spanBytes value)
  | .spine tagAt tagEnd prefixEnd srcLen =>
    .len tagAt (slice zone tagAt tagEnd) (slice zone tagEnd prefixEnd) srcLen
  | .importSpine tagAt tagEnd prefixEnd srcLen _ =>
    .len tagAt (slice m.store.bytes tagAt tagEnd) (slice m.store.bytes tagEnd prefixEnd) srcLen
  | .newSpine head pos => .len pos (emit64 head) (emit64 0) 0

/-- An arm's offsets stand in order inside the bytes they index, and its payload is as long as it
says. -/
def Inside (m : Machine standard) (zone : List UInt8) : Arm → Prop
  | .skip | .newValue .. | .newSpine .. => True
  | .clean pos stop => pos ≤ stop ∧ stop ≤ zone.length
  | .reValue tagAt tagEnd _ => tagAt ≤ tagEnd ∧ tagEnd ≤ zone.length
  | .reBody tagAt tagEnd prefixEnd _ value =>
    tagAt ≤ tagEnd ∧ tagEnd ≤ prefixEnd ∧ prefixEnd ≤ zone.length ∧
      m.spanLen value = (m.store.spanBytes value).length
  | .newBody _ value | .imported value => m.spanLen value = (m.store.spanBytes value).length
  | .reBodyAlias tagAt tagEnd prefixEnd _ pos len =>
    tagAt ≤ tagEnd ∧ tagEnd ≤ prefixEnd ∧ prefixEnd ≤ zone.length ∧ pos + len ≤ m.source.length
  | .newBodyAlias _ pos len => pos + len ≤ m.source.length
  | .spine tagAt tagEnd prefixEnd _ =>
    tagAt ≤ tagEnd ∧ tagEnd ≤ prefixEnd ∧ prefixEnd ≤ zone.length
  | .importSpine tagAt tagEnd prefixEnd _ _ =>
    tagAt ≤ tagEnd ∧ tagEnd ≤ prefixEnd ∧ prefixEnd ≤ m.store.bytes.length

/-- The arm of a row that the save reaches. -/
def armOf (m : Machine standard) (x : Nat) : Arm := (m.settle (m.row x).body).getD .skip

def shapeOf (m : Machine standard) (x : Nat) : Shape :=
  m.shape (m.backing (m.row x).body) (m.armOf x)

/-- The walks go into the row's interior. -/
def enters (m : Machine standard) (x : Nat) : Prop := (closing 0 (m.armOf x)).isSome

/-! ## The recursion -/

/-- What the rows write. -/
def text (m : Machine standard) : Forest Unit → List UInt8
  | .nil => []
  | .node x _ kids rest => (m.shapeOf x).bytes (m.text kids) ++ m.text rest

/-- The table of bodies, in the order the bodies are opened. -/
def bodies (m : Machine standard) : Forest Unit → List Nat
  | .nil => []
  | .node x _ kids rest => (m.shapeOf x).bodies (m.text kids) (m.bodies kids) ++ m.bodies rest

/-- The first body over the cap, in the order the bodies are closed. -/
def overCap (m : Machine standard) : Forest Unit → Option SaveFault
  | .nil => none
  | .node x _ kids rest =>
    ((m.shapeOf x).overCap (m.text kids) (m.overCap kids)).or (m.overCap rest)

/-- Every row that the walks reach has an arm, inside its zone. -/
def Armed (m : Machine standard) : Forest Unit → Prop
  | .nil => True
  | .node x _ kids rest =>
    ((m.settle (m.row x).body).isSome ∧ m.Inside (m.backing (m.row x).body) (m.armOf x)) ∧
      (m.enters x → m.Armed kids) ∧ m.Armed rest

/-- A riding row stands behind the row in front, where that one rides too. -/
def Abut (m : Machine standard) : Option Nat → Forest Unit → Prop
  | _, .nil => True
  | last, .node x _ kids rest =>
    (∀ prev, last = some prev → (m.row prev).body.rides = true → (m.row x).body.rides = true →
      (m.row x).body.start = some (m.row prev).body.stop ∧
        m.backing (m.row x).body = m.backing (m.row prev).body) ∧
      (m.enters x → m.Abut none kids) ∧ m.Abut (some x) rest

attribute [grind =] text bodies overCap Armed Abut

/-! ## What both walks make of an arm -/

section Arms

variable {m : Machine standard} {zone : List UInt8} {arm : Arm}

/-- What the size walk makes of an arm, against its shape. -/
inductive Sizes (m : Machine standard) (arm : Arm) : Shape → Prop where
  | leaf {text : List UInt8} : (∀ slot, closing slot arm = none) →
      m.leafSize arm = text.length → Sizes m arm (.leaf text)
  | len {pos srcLen : Nat} {tag delim : List UInt8} :
      (∀ slot, ∃ close, closing slot arm = some close ∧ ∀ (bodies : List Nat) (acc : Nat),
        closeFrame bodies acc close =
          if PayloadLen.max < acc then .error (.bodyOverCap pos)
          else .ok (tag.length + (if acc = srcLen then delim.length else encodedLen32 acc) + acc,
            bodies.set slot acc)) →
      Sizes m arm (.len pos tag delim srcLen)

theorem sizes (h : m.Inside zone arm) : Sizes m arm (m.shape zone arm) := by
  have hspan : ∀ {zone : List UInt8} {tagAt tagEnd prefixEnd srcLen : Nat},
      tagEnd ≤ prefixEnd → prefixEnd ≤ zone.length → ∀ (bodies : List Nat) (slot acc : Nat),
      closeFrame bodies acc (.re (prefixEnd - tagEnd) srcLen tagAt (tagEnd - tagAt) slot) =
        if PayloadLen.max < acc then .error (.bodyOverCap tagAt)
        else .ok ((slice zone tagAt tagEnd).length +
          (if acc = srcLen then (slice zone tagEnd prefixEnd).length else encodedLen32 acc) + acc,
            bodies.set slot acc) := by
    intro zone tagAt tagEnd prefixEnd srcLen hle hin bodies slot acc
    rw [slice_length hin, slice_length (Nat.le_trans hle hin)]
    rfl
  cases arm with
  | skip => exact .leaf (fun _ => rfl) rfl
  | clean pos stop => exact .leaf (fun _ => rfl) (slice_length h.2).symm
  | reValue tagAt tagEnd value =>
    refine .leaf (fun _ => rfl) ?_
    rw [List.length_append, slice_length h.2, value.bytes_length]
    rfl
  | newValue head value =>
    refine .leaf (fun _ => rfl) ?_
    rw [List.length_append, emit64_length, value.bytes_length]
    rfl
  | reBody tagAt tagEnd prefixEnd srcLen value =>
    obtain ⟨-, hle, hin, hlen⟩ := h
    refine .leaf (fun _ => rfl) ?_
    rw [List.length_append, List.length_append, slice_length (Nat.le_trans hle hin),
      prefixed_length hin, ← hlen]
    rfl
  | newBody head value =>
    refine .leaf (fun _ => rfl) ?_
    have hlen : m.spanLen value = _ := h
    rw [List.length_append, List.length_append, emit64_length, emit64_length, ← hlen]
    rfl
  | reBodyAlias tagAt tagEnd prefixEnd srcLen pos len =>
    obtain ⟨-, hle, hin, hsrc⟩ := h
    refine .leaf (fun _ => rfl) ?_
    rw [List.length_append, List.length_append, slice_length (Nat.le_trans hle hin),
      prefixed_length hin, slice_length hsrc, Nat.add_sub_cancel_left]
    rfl
  | newBodyAlias head pos len =>
    refine .leaf (fun _ => rfl) ?_
    rw [List.length_append, List.length_append, emit64_length, emit64_length, slice_length h,
      Nat.add_sub_cancel_left]
    rfl
  | imported value => exact .leaf (fun _ => rfl) h
  | spine tagAt tagEnd prefixEnd srcLen =>
    exact .len fun slot => ⟨_, rfl, fun bodies acc => hspan h.2.1 h.2.2 bodies slot acc⟩
  | importSpine tagAt tagEnd prefixEnd srcLen value =>
    exact .len fun slot => ⟨_, rfl, fun bodies acc => hspan h.2.1 h.2.2 bodies slot acc⟩
  | newSpine head pos =>
    refine .len fun slot => ⟨_, rfl, fun bodies acc => ?_⟩
    have hdelim : (if acc = 0 then (emit64 0).length else encodedLen32 acc) = encodedLen32 acc := by
      split
      · next hz => rw [hz]; rfl
      · rfl
    rw [hdelim, emit64_length]
    rfl

/-- What the emit walk writes of an arm, against its shape. -/
inductive Emits (m : Machine standard) (zone : List UInt8) (arm : Arm) : Shape → Prop where
  | leaf {text : List UInt8} : (∀ len e, m.emitOpening zone len e arm = none) →
      (∀ e : Emit, e.Writes (m.emitLeaf zone e arm) text) → Emits m zone arm (.leaf text)
  | len {pos srcLen : Nat} {tag delim : List UInt8} :
      (∀ (len : Nat) (e : Emit), ∃ e', m.emitOpening zone len e arm = some e' ∧
        e.Writes e' (tag ++ if len = srcLen then delim else emit64 len)) →
      Emits m zone arm (.len pos tag delim srcLen)

theorem emits (h : m.Inside zone arm) : Emits m zone arm (m.shape zone arm) := by
  cases arm with
  | skip => exact .leaf (fun _ _ => rfl) fun e => .refl e
  | clean pos stop => exact .leaf (fun _ _ => rfl) fun e => e.writes_verbatimIn _ h.1
  | reValue tagAt tagEnd value =>
    exact .leaf (fun _ _ => rfl) fun e =>
      (e.writes_verbatimIn _ h.1).trans (Emit.writes_bytes _ _)
  | newValue head value =>
    exact .leaf (fun _ _ => rfl) fun e => (e.writes_varint head).trans (Emit.writes_bytes _ _)
  | reBody tagAt tagEnd prefixEnd srcLen value =>
    exact .leaf (fun _ _ => rfl) fun e => ((e.writes_verbatimIn _ h.1).trans
      (Emit.writes_lenPrefix _ _ h.2.1 srcLen _)).trans (Emit.writes_bytes _ _)
  | newBody head value =>
    exact .leaf (fun _ _ => rfl) fun e => ((e.writes_varint head).trans
      (Emit.writes_varint _ _)).trans (Emit.writes_bytes _ _)
  | reBodyAlias tagAt tagEnd prefixEnd srcLen pos len =>
    exact .leaf (fun _ _ => rfl) fun e => ((e.writes_verbatimIn _ h.1).trans
      (Emit.writes_lenPrefix _ _ h.2.1 srcLen _)).trans
        (Emit.writes_verbatimIn _ _ (Nat.le_add_right pos len))
  | newBodyAlias head pos len =>
    exact .leaf (fun _ _ => rfl) fun e => ((e.writes_varint head).trans
      (Emit.writes_varint _ _)).trans (Emit.writes_verbatimIn _ _ (Nat.le_add_right pos len))
  | imported value => exact .leaf (fun _ _ => rfl) fun e => e.writes_bytes _
  | spine tagAt tagEnd prefixEnd srcLen | importSpine tagAt tagEnd prefixEnd srcLen value =>
    exact .len fun len e => ⟨_, rfl, (e.writes_verbatimIn _ h.1).trans
      (Emit.writes_lenPrefix _ _ h.2.1 srcLen len)⟩
  | newSpine head pos =>
    refine .len fun len e => ⟨_, rfl, ?_⟩
    have hdelim : (if len = 0 then emit64 0 else emit64 len) = emit64 len := by
      split
      · next hz => rw [hz]
      · rfl
    rw [hdelim]
    exact (e.writes_varint head).trans (Emit.writes_varint _ _)

/-- A row that joins a run is copied as it stands. -/
theorem rides_settle {r : Row} (hr : r.rides = true) (hs : (m.settle r).isSome) :
    ∃ start, r.start = some start ∧ m.settle r = some (.clean start r.stop) := by
  simp only [Row.rides, Bool.and_eq_true, decide_eq_true_eq, Bool.not_eq_true'] at hr
  obtain ⟨hedit, hdirty⟩ := hr
  cases hstart : r.start with
  | none =>
    cases standard <;>
      simp [settle, settleTolerant, settleCanonical, hedit, hstart] at hs
  | some start =>
    refine ⟨start, rfl, ?_⟩
    cases standard <;>
      simp [settle, settleTolerant, settleCanonical, hedit, hdirty, hstart]

end Arms

/-! ## The pending run -/

section Runs

variable {m : Machine standard} {last : Option Nat} {run : Option (Nat × Nat)} {x : Nat}

/-- The pending run ends with the row in front of the position. -/
structure Runs (m : Machine standard) (last : Option Nat) (run : Option (Nat × Nat)) : Prop where
  last : ∀ start prev, run = some (start, prev) → last = some prev
  rides : ∀ start prev, run = some (start, prev) → (m.row prev).body.rides = true
  ordered : ∀ start prev, run = some (start, prev) → start ≤ (m.row prev).body.stop
  within : ∀ start prev, run = some (start, prev) →
    (m.row prev).body.stop ≤ (m.backing (m.row prev).body).length

theorem runs_none (last : Option Nat) : m.Runs last none := ⟨nofun, nofun, nofun, nofun⟩

/-- The bytes of the pending run. -/
def runText (m : Machine standard) (run : Option (Nat × Nat)) : List UInt8 :=
  run.elim [] fun p => slice (m.backing (m.row p.2).body) p.1 (m.row p.2).body.stop

theorem counted_eq (h : m.Runs last run) (acc : Nat) :
    m.counted acc run = acc + (m.runText run).length := by
  rcases run with _ | ⟨start, prev⟩
  · rfl
  · show acc + _ = acc + (slice _ _ _).length
    rw [slice_length (h.within start prev rfl)]

theorem endRun_writes (h : m.Runs last run) (e : Emit) :
    e.Writes (m.endRun e run) (m.runText run) := by
  rcases run with _ | ⟨start, prev⟩
  · exact .refl e
  · exact e.writes_verbatimIn _ (h.ordered start prev rfl)

/-- A riding row joins the run, and its bytes the run's. -/
theorem joined_runs (h : m.Runs last run) {start : Nat} (hr : (m.row x).body.rides = true)
    (hstart : (m.row x).body.start = some start) (hle : start ≤ (m.row x).body.stop)
    (hin : (m.row x).body.stop ≤ (m.backing (m.row x).body).length)
    (hab : ∀ prev, last = some prev → (m.row prev).body.rides = true →
      (m.row x).body.rides = true → (m.row x).body.start = some (m.row prev).body.stop ∧
        m.backing (m.row x).body = m.backing (m.row prev).body) :
    m.Runs (some x) (joined run start x) ∧
      m.runText (joined run start x) =
        m.runText run ++ slice (m.backing (m.row x).body) start (m.row x).body.stop := by
  have hfront : run.elim start Prod.fst ≤ start := by
    rcases run with _ | ⟨first, prev⟩
    · exact Nat.le_refl _
    · obtain ⟨hs, -⟩ := hab prev (h.last first prev rfl) (h.rides first prev rfl) hr
      rw [hstart] at hs
      have := h.ordered first prev rfl
      cases hs
      exact this
  refine ⟨⟨?_, ?_, ?_, ?_⟩, ?_⟩
  · rintro _ _ ⟨⟩
    rfl
  · rintro _ _ ⟨⟩
    exact hr
  · rintro _ _ ⟨⟩
    exact Nat.le_trans hfront hle
  · rintro _ _ ⟨⟩
    exact hin
  · rcases run with _ | ⟨first, prev⟩
    · rfl
    · obtain ⟨hs, hb⟩ := hab prev (h.last first prev rfl) (h.rides first prev rfl) hr
      rw [hstart] at hs
      cases hs
      show slice _ first _ = slice _ first _ ++ _
      rw [← hb]
      exact (slice_append hfront hle).symm

/-- The arm that a row settles to. -/
theorem armOf_eq (h : (m.settle (m.row x).body).isSome) :
    m.settle (m.row x).body = some (m.armOf x) := by
  obtain ⟨arm, harm⟩ := Option.isSome_iff_exists.mp h
  unfold armOf
  rw [harm]
  rfl

/-- A riding row prolongs the run by what it writes. -/
theorem Runs.rode (h : m.Runs last run) (hr : (m.row x).body.rides = true)
    (hsome : (m.settle (m.row x).body).isSome)
    (hinside : m.Inside (m.backing (m.row x).body) (m.armOf x))
    (hab : ∀ prev, last = some prev → (m.row prev).body.rides = true →
      (m.row x).body.rides = true → (m.row x).body.start = some (m.row prev).body.stop ∧
        m.backing (m.row x).body = m.backing (m.row prev).body) :
    ∃ start text, (m.row x).body.start = some start ∧ m.shapeOf x = .leaf text ∧
      m.Runs (some x) (joined run start x) ∧
        m.runText (joined run start x) = m.runText run ++ text := by
  obtain ⟨start, hstart, hclean⟩ := rides_settle hr hsome
  have harm : m.armOf x = .clean start (m.row x).body.stop :=
    Option.some.inj ((armOf_eq hsome).symm.trans hclean)
  rw [harm] at hinside
  obtain ⟨hj, htext⟩ := joined_runs h hr hstart hinside.1 hinside.2 hab
  refine ⟨start, _, hstart, ?_, hj, htext⟩
  unfold shapeOf
  rw [harm]
  rfl

/-- The walks go into a row that writes a container. -/
theorem Sizes.enters {pos srcLen : Nat} {tag delim : List UInt8}
    (h : Sizes m (m.armOf x) (.len pos tag delim srcLen)) : m.enters x := by
  cases h with
  | len hclose =>
    obtain ⟨close, hc, -⟩ := hclose 0
    unfold Machine.enters
    rw [hc]
    rfl

end Runs

/-! ## The size walk -/

/-- What the size walk has counted, and a pending run. -/
structure Counted where
  acc : Nat
  bodies : List Nat
  run : Option (Nat × Nat)

/-- The close of the row's frame, where the walk goes into the row. -/
def closeOf (m : Machine standard) (x slot : Nat) : Option Close :=
  (m.settle (m.row x).body).bind (closing slot)

/-- What the size walk does at a row, and behind its interior. -/
def sizing (m : Machine standard) : Visit Counted (Saved (Nat × List Nat)) where
  meet x s :=
    if (m.row x).body.rides then
      match (m.row x).body.start with
      | none => .halted .absent
      | some start => .passed ⟨s.acc, s.bodies, joined s.run start x⟩
    else
      match m.settle (m.row x).body with
      | none => .halted .absent
      | some arm =>
        match closing s.bodies.length arm with
        | some _ => .entered ⟨0, s.bodies ++ [0], none⟩
        | none => .passed ⟨m.counted s.acc s.run + m.leafSize arm, s.bodies, none⟩
  leave x s s' :=
    match m.closeOf x s.bodies.length with
    | none => .error .panicked
    | some close =>
      match closeFrame s'.bodies (m.counted s'.acc s'.run) close with
      | .error fault => .error (.refused fault)
      | .ok (closed, bodies) => .ok ⟨m.counted s.acc s.run + closed, bodies, none⟩

/-- The frame that the walk pushes at a row. -/
def sizePush (m : Machine standard) (spine : List SizeFrame) (x : Nat) (s : Counted) :
    List SizeFrame :=
  ((m.closeOf x s.bodies.length).map fun close =>
    ⟨(m.row x).next, m.counted s.acc s.run, close⟩).toList ++ spine

section Size

variable {m : Machine standard} {t : Forest Unit} {last : Option Nat} {x : Nat}

theorem row_links {x : Nat} {parent next kid : Option Nat} {u : Unit}
    (h : (links m.rows)[x]? = some ⟨parent, next, kid, u⟩) :
    (m.row x).parent = parent ∧ (m.row x).next = next ∧ (m.row x).kid = kid := by
  obtain ⟨c, hc, hp, hn, hk⟩ := cell_of_links h
  rw [m.row_eq hc]
  exact ⟨hp, hn, hk⟩

/-- The size walk enters the rows whose arm closes a frame. -/
theorem sizing_entered {s inner : Counted} (h : m.sizing.meet x s = .entered inner) :
    (m.row x).body.rides = false ∧ inner = ⟨0, s.bodies ++ [0], none⟩ ∧
      ∃ arm close, m.settle (m.row x).body = some arm ∧
        closing s.bodies.length arm = some close := by
  unfold sizing at h
  dsimp only at h
  cases hr : (m.row x).body.rides with
  | true =>
    rw [hr, if_pos rfl] at h
    cases hs : (m.row x).body.start <;> rw [hs] at h <;> cases h
  | false =>
    rw [hr, if_neg Bool.false_ne_true] at h
    cases hs : m.settle (m.row x).body with
    | none => rw [hs] at h; cases h
    | some arm =>
      rw [hs] at h
      dsimp only at h
      cases hc : closing s.bodies.length arm with
      | none => rw [hc] at h; cases h
      | some close =>
        rw [hc] at h
        cases h
        exact ⟨rfl, rfl, arm, close, rfl, hc⟩

/-- The turns of the size walk are its visit's. -/
theorem size_follows (m : Machine standard) :
    Follows (links m.rows) m.sizeTurn m.sizing
      (fun spine cur s => ⟨cur, spine, s.acc, s.bodies, s.run⟩) m.sizePush
      fun _ _ => True := by
  have hpush : ∀ {x : Nat} {s inner : Counted} (spine : List SizeFrame),
      m.sizing.meet x s = .entered inner → ∃ close, m.closeOf x s.bodies.length = some close ∧
        m.sizePush spine x s = ⟨(m.row x).next, m.counted s.acc s.run, close⟩ :: spine := by
    intro x s inner spine h
    obtain ⟨-, -, arm, close, hs, hc⟩ := sizing_entered h
    have hclose : m.closeOf x s.bodies.length = some close := by
      unfold closeOf
      rw [hs]
      exact hc
    refine ⟨close, hclose, ?_⟩
    unfold sizePush
    rw [hclose]
    rfl
  refine ⟨fun _ _ _ => trivial, ?_, ?_, ?_, ?_, ?_⟩
  · intro spine parent next kid a x s r _ hcell h
    obtain ⟨-, hn, -⟩ := row_links hcell
    unfold sizing at h
    unfold sizeTurn
    dsimp only at h ⊢
    split at h
    · next hr =>
      rw [if_pos hr]
      cases hs : (m.row x).body.start <;> rw [hs] at h <;> cases h
      rfl
    · next hr =>
      rw [if_neg hr]
      cases hs : m.settle (m.row x).body with
      | none => rw [hs] at h; cases h; rfl
      | some arm =>
        rw [hs] at h
        dsimp only at h
        cases hc : closing s.bodies.length arm <;> rw [hc] at h <;> cases h
  · intro spine parent next kid a x s s' _ hcell h
    obtain ⟨-, hn, -⟩ := row_links hcell
    unfold sizing at h
    unfold sizeTurn
    dsimp only at h ⊢
    split at h
    · next hr =>
      rw [if_pos hr]
      cases hs : (m.row x).body.start <;> rw [hs] at h <;> cases h
      rw [hn]
    · next hr =>
      rw [if_neg hr]
      cases hs : m.settle (m.row x).body with
      | none => rw [hs] at h; cases h
      | some arm =>
        rw [hs] at h
        dsimp only at h ⊢
        cases hc : closing s.bodies.length arm <;> rw [hc] at h <;> cases h
        rw [hn]
  · intro spine parent next kid a x s s' _ hcell h
    obtain ⟨-, -, hk⟩ := row_links hcell
    obtain ⟨close', hclose', hspine⟩ := hpush spine h
    obtain ⟨hr, rfl, arm, close, hs, hc⟩ := sizing_entered h
    have he : close' = close := by
      unfold closeOf at hclose'
      rw [hs] at hclose'
      exact Option.some.inj (hclose'.symm.trans hc)
    rw [hspine, he]
    simp only [sizeTurn, hr, Bool.false_eq_true, if_false, hs, hc, hk]
  · intro spine parent next kid a x s inner s' r _ _ h hl
    obtain ⟨close, hclose, hspine⟩ := hpush spine h
    rw [hspine]
    unfold sizing at hl
    unfold sizeTurn
    dsimp only at hl ⊢
    rw [hclose] at hl
    dsimp only at hl
    cases hf : closeFrame s'.bodies (m.counted s'.acc s'.run) close with
    | error fault => rw [hf] at hl; cases hl; rfl
    | ok p => rw [hf] at hl; cases hl
  · intro spine parent next kid a x s inner s' behind _ hcell h hl
    obtain ⟨-, hn, -⟩ := row_links hcell
    obtain ⟨close, hclose, hspine⟩ := hpush spine h
    rw [hspine]
    unfold sizing at hl
    unfold sizeTurn
    dsimp only at hl ⊢
    rw [hclose] at hl
    dsimp only at hl
    cases hf : closeFrame s'.bodies (m.counted s'.acc s'.run) close with
    | error fault => rw [hf] at hl; cases hl
    | ok p =>
      rw [hf] at hl
      cases hl
      rw [hn]

/-- The bytes a state has counted. -/
def weight (m : Machine standard) (s : Counted) : Nat := m.counted s.acc s.run

/-- What the size walk comes to past rows of the length and the bodies, unless one is over the
cap. -/
structure Sized (m : Machine standard) (s : Counted) (len : Nat) (bodies : List Nat)
    (cut : Option SaveFault) (r : Except (Saved (Nat × List Nat)) Counted) : Prop where
  passes : cut = none → ∃ s' last, r = .ok s' ∧ m.Runs last s'.run ∧
    m.weight s' = m.weight s + len ∧ s'.bodies = s.bodies ++ bodies
  refuses : ∀ fault, cut = some fault → r = .error (.refused fault)

/-- Rows past a row that weighs so much. -/
theorem Sized.behind {s s' : Counted} {len len' : Nat} {bodies bodies' : List Nat}
    {cut : Option SaveFault} {r : Except (Saved (Nat × List Nat)) Counted}
    (h : m.Sized s' len' bodies' cut r) (hw : m.weight s' = m.weight s + len)
    (hb : s'.bodies = s.bodies ++ bodies) :
    m.Sized s (len + len') (bodies ++ bodies') cut r := by
  refine ⟨fun hcut => ?_, h.refuses⟩
  obtain ⟨s₂, last, hr, hruns, hw', hb'⟩ := h.passes hcut
  refine ⟨s₂, last, hr, hruns, ?_, ?_⟩
  · rw [hw', hw, Nat.add_assoc]
  · rw [hb', hb, List.append_assoc]

section Rows

variable {u : Unit} {kids rest : Forest Unit} {s s' : Counted} {text : List UInt8}

/-- Behind a row that is passed. -/
theorem sized_leaf (hshape : m.shapeOf x = .leaf text)
    (hmeet : m.sizing.meet x s = .passed s') (hb : s'.bodies = s.bodies)
    (hw : m.weight s' = m.weight s + text.length)
    (hrest : m.Sized s' (m.text rest).length (m.bodies rest) (m.overCap rest)
      (m.sizing.fold rest s')) :
    m.Sized s (m.text (.node x u kids rest)).length (m.bodies (.node x u kids rest))
      (m.overCap (.node x u kids rest)) (m.sizing.fold (.node x u kids rest) s) := by
  rw [Machine.text, Machine.bodies, Machine.overCap, List.length_append, hshape]
  unfold Visit.fold
  rw [hmeet]
  exact hrest.behind hw (hb.trans (List.append_nil _).symm)

/-- Behind a container: its interior, its own body, and the rows past it. -/
theorem sized_len {pos srcLen : Nat} {tag delim : List UInt8}
    (hshape : m.shapeOf x = .len pos tag delim srcLen) (hr : (m.row x).body.rides = false)
    (harm : m.settle (m.row x).body = some (m.armOf x))
    (hsizes : Sizes m (m.armOf x) (.len pos tag delim srcLen))
    (hkids : m.Sized ⟨0, s.bodies ++ [0], none⟩ (m.text kids).length (m.bodies kids)
      (m.overCap kids) (m.sizing.fold kids ⟨0, s.bodies ++ [0], none⟩))
    (hrest : ∀ acc bodies, m.Sized ⟨acc, bodies, none⟩ (m.text rest).length (m.bodies rest)
      (m.overCap rest) (m.sizing.fold rest ⟨acc, bodies, none⟩)) :
    m.Sized s (m.text (.node x u kids rest)).length (m.bodies (.node x u kids rest))
      (m.overCap (.node x u kids rest)) (m.sizing.fold (.node x u kids rest) s) := by
  obtain ⟨close, hc, hframe⟩ : ∃ close, closing s.bodies.length (m.armOf x) = some close ∧
      ∀ (bodies : List Nat) (acc : Nat), closeFrame bodies acc close =
        if PayloadLen.max < acc then .error (.bodyOverCap pos)
        else .ok (tag.length + (if acc = srcLen then delim.length else encodedLen32 acc) + acc,
          bodies.set s.bodies.length acc) := by
    cases hsizes with
    | len hclose => exact hclose _
  have hmeet : m.sizing.meet x s = .entered ⟨0, s.bodies ++ [0], none⟩ := by
    simp only [sizing, hr, Bool.false_eq_true, if_false, harm, hc]
  have hcloseOf : m.closeOf x s.bodies.length = some close := by
    unfold closeOf
    rw [harm]
    exact hc
  rw [Machine.text, Machine.bodies, Machine.overCap, List.length_append, hshape]
  unfold Visit.fold
  rw [hmeet]
  dsimp only [Shape.overCap, Shape.bodies]
  cases hcut : m.overCap kids with
  | some fault =>
    rw [hkids.refuses fault hcut]
    exact ⟨fun h => (by cases h), fun _ h => (by cases h; rfl)⟩
  | none =>
    obtain ⟨s', last', hrun, hruns', hw, hb⟩ := hkids.passes hcut
    have hw : m.counted s'.acc s'.run = (m.text kids).length := hw.trans (Nat.zero_add _)
    have hleave : m.sizing.leave x s s' =
        if PayloadLen.max < (m.text kids).length then .error (.refused (.bodyOverCap pos))
        else
          .ok ⟨m.counted s.acc s.run +
            ((Shape.len pos tag delim srcLen).bytes (m.text kids)).length,
            s'.bodies.set s.bodies.length (m.text kids).length, none⟩ := by
      by_cases hmax : PayloadLen.max < (m.text kids).length
      · simp only [sizing, hcloseOf, hframe, hw, if_pos hmax]
      · simp only [sizing, hcloseOf, hframe, hw, if_neg hmax, Shape.len_length]
    rw [hrun]
    dsimp only
    rw [hleave]
    by_cases hmax : PayloadLen.max < (m.text kids).length
    · rw [if_pos hmax, if_pos hmax]
      exact ⟨fun h => (by cases h), fun _ h => (by cases h; rfl)⟩
    · rw [if_neg hmax, if_neg hmax]
      refine (hrest _ _).behind rfl ?_
      show s'.bodies.set s.bodies.length _ = _
      rw [hb, List.append_assoc, List.set_append_right _ _ (Nat.le_refl _), Nat.sub_self]
      rfl

end Rows

/-- The size walk over a layer comes to what the recursion weighs. -/
theorem size_fold (hin : m.Armed t) (hab : m.Abut last t) (s : Counted)
    (hruns : m.Runs last s.run) :
    m.Sized s (m.text t).length (m.bodies t) (m.overCap t) (m.sizing.fold t s) := by
  induction t generalizing last s with
  | nil =>
    refine ⟨fun _ => ⟨s, last, rfl, hruns, rfl, (List.append_nil _).symm⟩, fun _ h => ?_⟩
    cases h
  | node x u kids rest ihk ihr =>
    obtain ⟨⟨hsome, hinside⟩, hinkids, hinrest⟩ := hin
    obtain ⟨habx, habkids, habrest⟩ := hab
    cases hrides : (m.row x).body.rides with
    | true =>
      obtain ⟨start, text, hstart, hshape, hj, htext⟩ := hruns.rode hrides hsome hinside habx
      have hmeet : m.sizing.meet x s = .passed ⟨s.acc, s.bodies, joined s.run start x⟩ := by
        simp only [sizing, hrides, if_true, hstart]
      refine sized_leaf hshape hmeet rfl ?_ (ihr hinrest habrest _ hj)
      show m.counted s.acc _ = m.counted s.acc _ + _
      rw [counted_eq hj, counted_eq hruns, htext, List.length_append, Nat.add_assoc]
    | false =>
      have harm := armOf_eq hsome
      have hsizes : Sizes m (m.armOf x) (m.shapeOf x) := sizes hinside
      cases hshape : m.shapeOf x with
      | leaf text =>
        rw [hshape] at hsizes
        obtain ⟨hclose, hlen⟩ := hsizes
        have hmeet : m.sizing.meet x s =
            .passed ⟨m.counted s.acc s.run + m.leafSize (m.armOf x), s.bodies, none⟩ := by
          simp only [sizing, hrides, Bool.false_eq_true, if_false, harm, hclose]
        refine sized_leaf hshape hmeet rfl ?_ (ihr hinrest habrest _ (runs_none (some x)))
        show m.counted s.acc s.run + m.leafSize (m.armOf x) = m.counted s.acc s.run + text.length
        rw [hlen]
      | len pos tag delim srcLen =>
        rw [hshape] at hsizes
        exact sized_len hshape hrides harm hsizes
          (ihk (hinkids hsizes.enters) (habkids hsizes.enters) _ (runs_none none))
          fun acc bodies => ihr hinrest habrest ⟨acc, bodies, none⟩ (runs_none (some x))
      | group front back =>
        rw [hshape] at hsizes
        cases hsizes

/-- The sizes of what the save writes. -/
theorem sizePass_eq (h : Laid (links m.rows) none m.top t) (hnodup : t.ids.Nodup)
    (hin : m.Armed t) (hab : m.Abut none t) :
    m.sizePass = (m.overCap t).elim
      (if m.cap < (m.text t).length then .refused (.docOverCap (m.text t).length)
        else .saved ((m.text t).length, m.bodies t)) .refused := by
  have hfold := size_fold hin hab ⟨0, [], none⟩ (runs_none none)
  have hlen := h.size_le hnodup
  rw [links, List.length_map] at hlen
  have hfuel : 2 * t.size < m.walkFuel := by
    unfold walkFuel
    omega
  have hrun := (size_follows m).run h [] trivial
    (fun s => if m.cap < m.weight s then .refused (.docOverCap (m.weight s))
      else .saved (m.weight s, s.bodies)) (fun _ => rfl) hfuel ⟨0, [], none⟩
  unfold sizePass
  rw [hrun]
  cases hcut : m.overCap t with
  | some fault =>
    rw [hfold.refuses fault hcut]
    rfl
  | none =>
    obtain ⟨s', last', hr, -, hw, hb⟩ := hfold.passes hcut
    have hw : m.weight s' = (m.text t).length := hw.trans (Nat.zero_add _)
    have hb : s'.bodies = m.bodies t := hb
    rw [hr]
    dsimp only [Option.getD]
    rw [hw, hb]
    rfl

end Size

/-! ## The emit walk -/

/-- What the emit walk has written, and a pending run. -/
structure Emitted where
  cursor : Nat
  emit : Emit
  run : Option (Nat × Nat)

/-- What the emit walk does at a row, and behind its interior. -/
def emitting (m : Machine standard) (table : List Nat) : Visit Emitted (Saved Emit) where
  meet x s :=
    if (m.row x).body.rides then
      match (m.row x).body.start with
      | none => .halted .absent
      | some start => .passed ⟨s.cursor, s.emit, joined s.run start x⟩
    else
      match m.settle (m.row x).body with
      | none => .halted .absent
      | some arm =>
        match m.emitOpening (m.backing (m.row x).body) (table.getD s.cursor 0)
            (m.endRun s.emit s.run) arm with
        | some emit => .entered ⟨s.cursor + 1, emit, none⟩
        | none =>
          .passed ⟨s.cursor,
            m.emitLeaf (m.backing (m.row x).body) (m.endRun s.emit s.run) arm, none⟩
  leave _ _ s' := .ok ⟨s'.cursor, m.endRun s'.emit s'.run, none⟩

section Emitting

variable {m : Machine standard} {t : Forest Unit} {last : Option Nat} {table : List Nat}

/-- The turns of the emit walk are its visit's, out of a container by its own links. -/
theorem emit_follows (m : Machine standard) (table : List Nat) :
    Follows (links m.rows) (m.emitTurn table) (m.emitting table)
      (fun context cur s => ⟨context, cur, s.cursor, s.emit, s.run⟩) (fun _ x _ => some x)
      fun context parent => context = parent := by
  refine ⟨fun _ _ _ => rfl, ?_, ?_, ?_, ?_, ?_⟩
  · intro context parent next kid a x s r _ _ h
    unfold emitting at h
    unfold emitTurn
    dsimp only at h ⊢
    split at h
    · next hr =>
      rw [if_pos hr]
      cases hs : (m.row x).body.start <;> rw [hs] at h <;> cases h
      rfl
    · next hr =>
      rw [if_neg hr]
      cases hs : m.settle (m.row x).body with
      | none => rw [hs] at h; cases h; rfl
      | some arm =>
        rw [hs] at h
        dsimp only at h
        cases ho : m.emitOpening (m.backing (m.row x).body) (table.getD s.cursor 0)
          (m.endRun s.emit s.run) arm <;> rw [ho] at h <;> cases h
  · intro context parent next kid a x s s' _ hcell h
    obtain ⟨-, hn, -⟩ := row_links hcell
    unfold emitting at h
    unfold emitTurn
    dsimp only at h ⊢
    split at h
    · next hr =>
      rw [if_pos hr]
      cases hs : (m.row x).body.start <;> rw [hs] at h <;> cases h
      rw [hn]
    · next hr =>
      rw [if_neg hr]
      cases hs : m.settle (m.row x).body with
      | none => rw [hs] at h; cases h
      | some arm =>
        rw [hs] at h
        dsimp only at h ⊢
        cases ho : m.emitOpening (m.backing (m.row x).body) (table.getD s.cursor 0)
          (m.endRun s.emit s.run) arm <;> rw [ho] at h <;> cases h
        rw [hn]
  · intro context parent next kid a x s s' _ hcell h
    obtain ⟨-, -, hk⟩ := row_links hcell
    unfold emitting at h
    unfold emitTurn
    dsimp only at h ⊢
    split at h
    · cases hs : (m.row x).body.start <;> rw [hs] at h <;> cases h
    · next hr =>
      rw [if_neg hr]
      cases hs : m.settle (m.row x).body with
      | none => rw [hs] at h; cases h
      | some arm =>
        rw [hs] at h
        dsimp only at h ⊢
        cases ho : m.emitOpening (m.backing (m.row x).body) (table.getD s.cursor 0)
          (m.endRun s.emit s.run) arm <;> rw [ho] at h <;> cases h
        rw [hk]
  · intro context parent next kid a x s inner s' r _ _ _ hl
    cases hl
  · intro context parent next kid a x s inner s' behind hfit hcell _ hl
    obtain ⟨hp, hn, -⟩ := row_links hcell
    cases hl
    unfold emitTurn
    dsimp only
    rw [hp, hn, hfit]

/-- What the emit walk comes to past rows that write the piece and take so many places. -/
def Written (m : Machine standard) (s : Emitted) (piece : List UInt8) (places : Nat)
    (r : Except (Saved Emit) Emitted) : Prop :=
  ∃ s' last, r = .ok s' ∧ m.Runs last s'.run ∧ s'.emit.Ordered ∧
    (m.endRun s'.emit s'.run).text = (m.endRun s.emit s.run).text ++ piece ∧
    s'.cursor = s.cursor + places

theorem Written.behind {s s' : Emitted} {piece piece' : List UInt8} {places places' : Nat}
    {r : Except (Saved Emit) Emitted} (h : m.Written s' piece' places' r)
    (ht : (m.endRun s'.emit s'.run).text = (m.endRun s.emit s.run).text ++ piece)
    (hc : s'.cursor = s.cursor + places) :
    m.Written s (piece ++ piece') (places + places') r := by
  obtain ⟨s₂, last, hr, hruns, ho, ht', hc'⟩ := h
  refine ⟨s₂, last, hr, hruns, ho, ?_, ?_⟩
  · rw [ht', ht, List.append_assoc]
  · rw [hc', hc, Nat.add_assoc]

section Rows

variable {x : Nat} {u : Unit} {kids rest : Forest Unit} {s s' : Emitted} {text : List UInt8}

/-- Behind a row that is passed. -/
theorem written_leaf (hshape : m.shapeOf x = .leaf text)
    (hmeet : (m.emitting table).meet x s = .passed s') (hc : s'.cursor = s.cursor)
    (ht : (m.endRun s'.emit s'.run).text = (m.endRun s.emit s.run).text ++ text)
    (hrest : m.Written s' (m.text rest) (m.bodies rest).length ((m.emitting table).fold rest s')) :
    m.Written s (m.text (.node x u kids rest)) (m.bodies (.node x u kids rest)).length
      ((m.emitting table).fold (.node x u kids rest) s) := by
  rw [Machine.text, Machine.bodies, List.length_append, hshape]
  unfold Visit.fold
  rw [hmeet]
  exact hrest.behind ht (hc.trans (Nat.add_zero _).symm)

/-- Behind a container, whose body is the table's at the cursor: its tag and prefix, its interior,
and the rows past it. -/
theorem written_len {pos srcLen : Nat} {tag delim : List UInt8}
    (hshape : m.shapeOf x = .len pos tag delim srcLen) (hr : (m.row x).body.rides = false)
    (harm : m.settle (m.row x).body = some (m.armOf x))
    (hemits : Emits m (m.backing (m.row x).body) (m.armOf x) (.len pos tag delim srcLen))
    (hget : table.getD s.cursor 0 = (m.text kids).length) (hruns : m.Runs last s.run)
    (ho : s.emit.Ordered)
    (hkids : ∀ emit : Emit, emit.Ordered → m.Written ⟨s.cursor + 1, emit, none⟩ (m.text kids)
      (m.bodies kids).length ((m.emitting table).fold kids ⟨s.cursor + 1, emit, none⟩))
    (hrest : ∀ emit : Emit, emit.Ordered →
      m.Written ⟨s.cursor + 1 + (m.bodies kids).length, emit, none⟩ (m.text rest)
        (m.bodies rest).length
        ((m.emitting table).fold rest ⟨s.cursor + 1 + (m.bodies kids).length, emit, none⟩)) :
    m.Written s (m.text (.node x u kids rest)) (m.bodies (.node x u kids rest)).length
      ((m.emitting table).fold (.node x u kids rest) s) := by
  have hend := endRun_writes hruns s.emit
  obtain ⟨e, he, hw⟩ : ∃ e, m.emitOpening (m.backing (m.row x).body) (m.text kids).length
      (m.endRun s.emit s.run) (m.armOf x) = some e ∧ (m.endRun s.emit s.run).Writes e
        (tag ++ if (m.text kids).length = srcLen then delim else emit64 (m.text kids).length) := by
    cases hemits with
    | len hopening => exact hopening _ _
  have hmeet : (m.emitting table).meet x s = .entered ⟨s.cursor + 1, e, none⟩ := by
    simp only [emitting, hr, Bool.false_eq_true, if_false, harm, hget, he]
  rw [Machine.text, Machine.bodies, List.length_append, hshape]
  unfold Visit.fold
  rw [hmeet]
  obtain ⟨s', last', hrun, hruns', ho', ht', hc'⟩ := hkids e (hw.ordered (hend.ordered ho))
  have ht' : (m.endRun s'.emit s'.run).text = e.text ++ m.text kids := ht'
  have hc' : s'.cursor = s.cursor + 1 + (m.bodies kids).length := hc'
  have hbehind := hrest (m.endRun s'.emit s'.run) ((endRun_writes hruns' s'.emit).ordered ho')
  rw [← hc'] at hbehind
  dsimp only [Shape.bodies]
  rw [hrun]
  refine hbehind.behind ?_ ?_
  · show (m.endRun s'.emit s'.run).text = (m.endRun s.emit s.run).text ++
      (Shape.len pos tag delim srcLen).bytes (m.text kids)
    rw [ht', hw.text (hend.ordered ho), List.append_assoc]
    rfl
  · show s'.cursor = s.cursor + ((m.text kids).length :: m.bodies kids).length
    rw [hc', List.length_cons]
    omega

end Rows

/-- The emit walk over a layer writes what the recursion does, where the table holds the bodies
of the layer from the cursor on. -/
theorem emit_fold (hin : m.Armed t) (hab : m.Abut last t) (s : Emitted)
    (hruns : m.Runs last s.run) (ho : s.emit.Ordered) (front back : List Nat)
    (hcursor : s.cursor = front.length) :
    m.Written s (m.text t) (m.bodies t).length
      ((m.emitting (front ++ m.bodies t ++ back)).fold t s) := by
  induction t generalizing last s front back with
  | nil => exact ⟨s, last, rfl, hruns, ho, (List.append_nil _).symm, rfl⟩
  | node x u kids rest ihk ihr =>
    obtain ⟨⟨hsome, hinside⟩, hinkids, hinrest⟩ := hin
    obtain ⟨habx, habkids, habrest⟩ := hab
    have hend := endRun_writes hruns s.emit
    have hleaf : ∀ text, m.shapeOf x = .leaf text →
        m.bodies (.node x u kids rest) = m.bodies rest := by
      intro text hshape
      rw [Machine.bodies, hshape]
      rfl
    cases hrides : (m.row x).body.rides with
    | true =>
      obtain ⟨start, text, hstart, hshape, hj, htext⟩ := hruns.rode hrides hsome hinside habx
      have hmeet : ∀ table, (m.emitting table).meet x s =
          .passed ⟨s.cursor, s.emit, joined s.run start x⟩ := by
        intro table
        simp only [emitting, hrides, if_true, hstart]
      refine written_leaf hshape (hmeet _) rfl ?_ ?_
      · show (m.endRun s.emit _).text = _
        rw [(endRun_writes hj s.emit).text ho, hend.text ho, htext, List.append_assoc]
      · rw [hleaf text hshape]
        exact ihr hinrest habrest ⟨s.cursor, s.emit, joined s.run start x⟩ hj ho front back hcursor
    | false =>
      have harm := armOf_eq hsome
      have hsizes : Sizes m (m.armOf x) (m.shapeOf x) := sizes hinside
      have hemits : Emits m (m.backing (m.row x).body) (m.armOf x) (m.shapeOf x) := emits hinside
      cases hshape : m.shapeOf x with
      | leaf text =>
        rw [hshape] at hemits
        obtain ⟨hopening, hwrites⟩ := hemits
        have hmeet : ∀ table, (m.emitting table).meet x s =
            .passed ⟨s.cursor, m.emitLeaf (m.backing (m.row x).body) (m.endRun s.emit s.run)
              (m.armOf x), none⟩ := by
          intro table
          simp only [emitting, hrides, Bool.false_eq_true, if_false, harm, hopening]
        have hw := hwrites (m.endRun s.emit s.run)
        refine written_leaf hshape (hmeet _) rfl (hw.text (hend.ordered ho)) ?_
        rw [hleaf text hshape]
        exact ihr hinrest habrest ⟨s.cursor, _, none⟩ (runs_none (some x))
          (hw.ordered (hend.ordered ho)) front back hcursor
      | len pos tag delim srcLen =>
        rw [hshape] at hsizes hemits
        -- the table from the interior's place on, and from the next row's
        have htable : front ++ m.bodies (.node x u kids rest) ++ back =
            front ++ [(m.text kids).length] ++ m.bodies kids ++ (m.bodies rest ++ back) := by
          rw [Machine.bodies, hshape]
          simp only [Shape.bodies, List.append_assoc, List.cons_append, List.nil_append]
        have hplace : s.cursor + 1 + (m.bodies kids).length =
            (front ++ [(m.text kids).length] ++ m.bodies kids).length := by
          rw [hcursor, List.length_append, List.length_append, List.length_singleton]
        rw [htable]
        refine written_len hshape hrides harm hemits ?_ hruns ho (fun emit hemit => ?_)
          fun emit hemit => ?_
        · rw [hcursor, List.getD_eq_getElem?_getD, List.append_assoc, List.append_assoc,
            List.getElem?_append_right (Nat.le_refl _), Nat.sub_self]
          rfl
        · exact ihk (hinkids hsizes.enters) (habkids hsizes.enters) _ (runs_none none) hemit
            (front ++ [(m.text kids).length]) (m.bodies rest ++ back)
            (by rw [hcursor, List.length_append]; rfl)
        · have h := ihr hinrest habrest ⟨_, emit, none⟩ (runs_none (some x)) hemit
            (front ++ [(m.text kids).length] ++ m.bodies kids) back hplace
          rwa [List.append_assoc _ (m.bodies rest)] at h
      | group front back =>
        rw [hshape] at hsizes
        cases hsizes

/-- What the save writes. -/
theorem emitPass_eq (h : Laid (links m.rows) none m.top t) (hnodup : t.ids.Nodup)
    (hin : m.Armed t) (hab : m.Abut none t) :
    ∃ emit, m.emitPass (m.bodies t) = .saved emit ∧ emit.pieces.flatten = m.text t := by
  have hlen := h.size_le hnodup
  rw [links, List.length_map] at hlen
  have hstart : (⟨[], none⟩ : Emit).Ordered := Emit.ordered_of_none rfl
  obtain ⟨s', last', hr, -, -, ht, -⟩ := emit_fold hin hab ⟨0, ⟨[], none⟩, none⟩
    (runs_none none) hstart [] [] rfl
  have hfuel : 2 * t.size < m.walkFuel := by
    unfold walkFuel
    omega
  have hrun := (emit_follows m (m.bodies t)).run h none rfl
    (fun s => .saved (m.endRun s.emit s.run).flush) (fun _ => rfl) hfuel ⟨0, ⟨[], none⟩, none⟩
  rw [List.nil_append, List.append_nil] at hr
  refine ⟨(m.endRun s'.emit s'.run).flush, ?_, ht⟩
  unfold emitPass
  rw [hrun, hr]
  rfl

end Emitting

end Machine

/-! ## The faces -/

namespace Saved

variable {α β : Type}

def map (f : α → β) : Saved α → Saved β
  | saved a => saved (f a)
  | refused fault => refused fault
  | absent => absent
  | panicked => panicked

/-- What is delivered: nothing of a save that fails. -/
def bytes : Saved (List UInt8) → List UInt8
  | saved text => text
  | _ => []

end Saved

namespace Machine

variable {standard : Standard} {m : Machine standard} {t : Forest Unit} {r : Saved (List UInt8)}

/-- Every face of a save tells the same of it. -/
structure Faces (m : Machine standard) (r : Saved (List UInt8)) : Prop where
  save : m.save = r
  into : ∀ out, m.saveInto out = (out ++ r.bytes, r.map fun _ => ())
  sink : m.saveSink.1.flatten = r.bytes
  slices : [] ∉ m.saveSink.1
  sinks : m.saveSink.2 = r.map fun _ => ()
  len : m.saveLen = r.map List.length

theorem handed_flatten (pieces : List (List UInt8)) : (handed pieces).flatten = pieces.flatten := by
  induction pieces with
  | nil => rfl
  | cons piece pieces ih =>
    unfold handed at ih ⊢
    rw [List.filter_cons, List.flatten_cons, ← ih]
    by_cases hp : piece = []
    · rw [hp]
      rfl
    · rw [if_pos (decide_eq_true hp), List.flatten_cons]

theorem nil_not_handed (pieces : List (List UInt8)) : [] ∉ handed pieces := by
  intro h
  have hne := (List.mem_filter.mp h).2
  exact absurd rfl (of_decide_eq_true hne)

theorem faces_clean (h : m.clean = true) : m.Faces (.saved m.source) := by
  refine ⟨?_, fun out => ?_, ?_, ?_, ?_, ?_⟩
  · unfold save saveInto
    rw [if_pos h]
    rfl
  · unfold saveInto
    rw [if_pos h]
    rfl
  · unfold saveSink
    rw [if_pos h]
    exact (handed_flatten _).trans (List.append_nil _)
  · unfold saveSink
    rw [if_pos h]
    exact nil_not_handed _
  · unfold saveSink
    rw [if_pos h]
    rfl
  · unfold saveLen
    rw [if_pos h]
    rfl

theorem faces_dirty (h : m.clean = false) (hw : m.written.map List.flatten = r)
    (hs : m.sizePass.map Prod.fst = r.map List.length) : m.Faces r := by
  have hnot : ¬ m.clean = true := Bool.eq_false_iff.mp h
  subst hw
  refine ⟨?_, fun out => ?_, ?_, ?_, ?_, ?_⟩
  · unfold save saveInto
    rw [if_neg hnot]
    cases m.written <;> rfl
  · unfold saveInto
    rw [if_neg hnot]
    cases m.written <;> simp [Saved.map, Saved.bytes]
  · unfold saveSink
    rw [if_neg hnot]
    cases m.written with
    | saved pieces => exact handed_flatten pieces
    | refused | absent | panicked => rfl
  · unfold saveSink
    rw [if_neg hnot]
    cases m.written with
    | saved pieces => exact nil_not_handed pieces
    | refused | absent | panicked => exact List.not_mem_nil
  · unfold saveSink
    rw [if_neg hnot]
    cases m.written <;> rfl
  · unfold saveLen
    rw [if_neg hnot, ← hs]
    cases m.sizePass <;> rfl

/-- What a save of rows comes to: their text, unless a body or the whole is over its cap. -/
def publishes (m : Machine standard) (t : Forest Unit) : Saved (List UInt8) :=
  (m.overCap t).elim
    (if m.cap < (m.text t).length then .refused (.docOverCap (m.text t).length)
      else .saved (m.text t)) .refused

/-- The faces of a machine that holds dirt. -/
theorem faces_walks (hd : m.clean = false) (h : Laid (links m.rows) none m.top t)
    (hnodup : t.ids.Nodup) (hin : m.Armed t) (hab : m.Abut none t) :
    m.Faces (m.publishes t) := by
  obtain ⟨emit, hemit, hflat⟩ := emitPass_eq h hnodup hin hab
  have hsize := sizePass_eq h hnodup hin hab
  unfold publishes
  refine faces_dirty hd ?_ ?_
  · unfold written
    rw [hsize]
    cases m.overCap t with
    | some fault => rfl
    | none =>
      dsimp only [Option.elim]
      by_cases hcap : m.cap < (m.text t).length
      · rw [if_pos hcap, if_pos hcap]
        rfl
      · rw [if_neg hcap, if_neg hcap]
        dsimp only
        rw [hemit]
        dsimp only
        rw [hflat, if_pos rfl]
        exact congrArg Saved.saved hflat
  · rw [hsize]
    cases m.overCap t with
    | some fault => rfl
    | none =>
      dsimp only [Option.elim]
      split <;> rfl

end Machine

end ProtobufEdit.Revise
