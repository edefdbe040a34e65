import ProtobufEdit.Cursor.Groupless
import ProtobufEdit.Loop
import ProtobufEdit.Path.Live
import ProtobufEdit.TwoPass

/-!
# The walk of a two-pass job

What the group converter and the groupless rewriter share of their walks: the stack of
committed layers, the refusals, and what a run of the walk over a layer's remaining bytes comes
to (`Runs`).
-/

namespace ProtobufEdit.TwoPass

open Wire ProtobufEdit.Path Cursor.Groupless Loop Emission

/-! ## Refusals -/

/-- A job refusal: where, the promises crossed to reach it (outermost first), and which
contract broke. -/
structure Fault (φ : Type) where
  pos : Nat
  trail : List Crossing
  kind : φ
  deriving DecidableEq, Repr

/-- How a walk ends. -/
inductive Outcome (φ τ σ : Type) where
  | done (stats : τ) (sink : σ)
  | refused (fault : Fault φ)
  | panic
  | undefined
  deriving DecidableEq, Repr

section Refusals

variable {φ τ σ : Type}

/-- The pass's refusal channel; where it is uninhabited the fault sites are unchecked. -/
def Sink.refuse (S : Sink σ) (fault : Fault φ) : Outcome φ τ σ :=
  if S.carries then .refused fault else .undefined

/-- An event that failed. Ascents alone report a length, and their arm reads it. -/
def lapse : Trap → Outcome φ τ σ
  | .outgrown _ | .panic => .panic
  | .undefined => .undefined

def Outcome.Done : Outcome φ τ σ → Prop
  | .done _ _ => True
  | _ => False

@[simp] theorem not_done_refuse (S : Sink σ) (fault : Fault φ) :
    ¬(S.refuse fault : Outcome φ τ σ).Done := by
  unfold Sink.refuse
  split <;> exact id

@[simp] theorem not_done_lapse (trap : Trap) : ¬(lapse trap : Outcome φ τ σ).Done := by
  cases trap <;> exact id

end Refusals

/-- Whether debug assertions are compiled in. -/
inductive Build where
  | debug
  | release
  deriving DecidableEq, Repr

/-- How a job ends: its receipt, or its refusal, with what the caller is left with. -/
inductive Job (φ τ α : Type) where
  | ok (stats : τ) (left : α)
  | err (fault : Fault φ) (left : α)
  | panic
  | undefined
  deriving DecidableEq, Repr

/-! ## The stack of layers -/

/-- One committed LEN layer; `head` to `payloadEnd` are the opening record's geometry. -/
structure Layer (κ : Type) where
  cursor : Cursor
  base : Nat
  crossing : Option Crossing
  head : Nat
  tagEnd : Nat
  payloadStart : Nat
  payloadEnd : Nat
  remaining : Nat
  kind : κ
  deriving DecidableEq, Repr

/-- A walk's state; the layers under the current one stand innermost first. -/
structure Walk (κ τ σ : Type) where
  layer : Layer κ
  below : List (Layer κ)
  matcher : Matcher
  stats : τ
  sink : σ

section Walks

variable {κ φ τ σ : Type}

def trail (layers : List (Layer κ)) : List Crossing := (layers.reverse).filterMap Layer.crossing

namespace Walk

def trail (w : Walk κ τ σ) : List Crossing := TwoPass.trail (w.layer :: w.below)

/-- Where the current layer's cursor stands in the whole input. -/
def head (w : Walk κ τ σ) : Nat := w.layer.base + w.layer.cursor.pos

/-- The current layer's cursor moved on. -/
def moved (w : Walk κ τ σ) (cursor : Cursor) : Walk κ τ σ :=
  { w with layer := { w.layer with cursor } }

/-- One event of the consumer, and on to the next turn. -/
def event (w : Walk κ τ σ) (f : σ → Except Trap σ) : Turn (Walk κ τ σ) (Outcome φ τ σ) :=
  match f w.sink with
  | .ok sink => .next { w with sink }
  | .error trap => .halt (lapse trap)

/-- A layer pushed over a payload, behind the matcher's committed descent. -/
def enter (w : Walk κ τ σ) (field : FieldNumber) (head tagEnd payloadStart payloadEnd : Nat)
    (payload : List UInt8) (kind : κ) : Turn (Walk κ τ σ) (Outcome φ τ σ) :=
  match within payload with
  | none => .halt .panic
  | some cursor => .next { w with
      layer := ⟨cursor, payloadStart, some ⟨field, head⟩, head, tagEnd, payloadStart, payloadEnd,
        w.layer.remaining - 1, kind⟩
      below := w.layer :: w.below
      matcher := w.matcher.commitDescent }

end Walk

/-! ## Every turn lowers what is left -/

/-- What a layer still has to read, its own end counted in. -/
def Layer.left (layer : Layer κ) : Nat := 2 * (layer.cursor.data.length - layer.cursor.pos) + 1

def Walk.left (w : Walk κ τ σ) : Nat := ((w.layer :: w.below).map Layer.left).sum

def payloadLeft : Cursor.Value → Nat
  | .len payload => 2 * payload.length + 1
  | _ => 0

/-- A record is longer than what a layer over its payload has to read. -/
theorem left_of_step {standard : Standard} {w : Walk κ τ σ} {entry : Entry} {cursor : Cursor}
    (h : step standard w.layer.cursor = (some (.ok entry), cursor)) :
    (w.moved cursor).left + payloadLeft entry.value < w.left := by
  obtain ⟨r, rest, hfirst, rfl, rfl⟩ := step_ok h
  obtain ⟨he, hlaw⟩ := Cursor.first_iff.mp hfirst
  have hlen := Cursor.length_of_drop_eq he
  have htag := hlaw.isTag.admits.isWord.length_pos
  have hbody : payloadLeft r.payload.value < 2 * r.bytes.length := by
    simp only [Cursor.Record.bytes, List.length_append]
    cases hp : r.payload with
    | len word payload =>
      have hpayload := hlaw.payload
      rw [hp] at hpayload
      have hword := hpayload.1.isWord.length_pos
      simp only [Cursor.Payload.value, payloadLeft, Cursor.Payload.bytes, List.length_append]
      omega
    | varint _ | i64 _ | i32 _ =>
      simp only [Cursor.Payload.value, payloadLeft]
      omega
  simp only [Walk.left, Walk.moved, Layer.left, Cursor.past, List.map_cons, List.sum_cons]
  omega

theorem left_of_enter {w w' : Walk κ τ σ} {field : FieldNumber}
    {head tagEnd payloadStart payloadEnd : Nat} {payload : List UInt8} {kind : κ}
    (h : (w.enter field head tagEnd payloadStart payloadEnd payload kind :
      Turn _ (Outcome φ τ σ)) = .next w') :
    w'.left = w.left + (2 * payload.length + 1) := by
  unfold Walk.enter at h
  split at h
  · cases h
  · next cursor hwithin =>
    cases h
    simp only [within, Option.ite_none_right_eq_some, Option.some.injEq] at hwithin
    obtain ⟨-, rfl⟩ := hwithin
    simp only [Walk.left, Layer.left, List.map_cons, List.sum_cons]
    omega

theorem left_of_sent {w w' : Walk κ τ σ} {f : σ → Except Trap σ}
    (h : (w.event f : Turn _ (Outcome φ τ σ)) = .next w') : w'.left = w.left := by
  unfold Walk.event at h
  split at h <;> cases h
  rfl

/-! ## What a run over a layer comes to -/

/-- `w` further on in its layer, with other counts and another consumer. -/
def Walk.onward (w : Walk κ τ σ) (cursor : Cursor) (staged : List State) (stats : τ) (sink : σ) :
    Walk κ τ σ :=
  ⟨{ w.layer with cursor }, w.below, w.matcher.restage staged, stats, sink⟩

/-- The layer over the payload of the LEN record `w` stands at. -/
def Walk.opening (w : Walk κ τ σ) (r : Cursor.Record) (word payload : List UInt8) (kind : κ) :
    Layer κ :=
  let tagEnd := w.head + r.tag.length
  let payloadStart := tagEnd + word.length
  ⟨⟨payload, 0, 0, 0⟩, payloadStart, some ⟨r.field, w.head⟩, w.head, tagEnd, payloadStart,
    payloadStart + payload.length, w.layer.remaining - 1, kind⟩

/-- That layer pushed, the record passed in the layer under it. -/
def Walk.inside (w : Walk κ τ σ) (r : Cursor.Record) (live : List State) (layer : Layer κ)
    (stats : τ) (sink : σ) : Walk κ τ σ :=
  ⟨layer, { w.layer with cursor := w.layer.cursor.past r } :: w.below, w.matcher.opened live,
    stats, sink⟩

theorem enter_eq {w : Walk κ τ σ} {paths : Paths} {chain : List FieldNumber} {live : List State}
    {r : Cursor.Record} {word payload : List UInt8} (hat : At paths chain w.matcher live)
    (hfit : payload.length ≤ PayloadLen.max) (kind : κ) (stats : τ) (sink : σ) :
    (({ w.moved (w.layer.cursor.past r) with
        matcher := (w.matcher.probeRoutes r.field).2, stats, sink } : Walk κ τ σ).enter r.field
          w.head (w.head + r.tag.length) (w.head + r.tag.length + word.length)
          (w.head + r.tag.length + word.length + payload.length) payload kind :
        Turn _ (Outcome φ τ σ)) =
      .next (w.inside r (descend paths live r.field) (w.opening r word payload kind) stats
        sink) := by
  simp only [Walk.enter, within, hfit, if_true, hat.commitDescent r.field]
  rfl

abbrev Machine (κ φ τ σ : Type) := Walk κ τ σ → Turn (Walk κ τ σ) (Outcome φ τ σ)

/-- The walk halts short of its end. -/
def Fails (turn : Machine κ φ τ σ) (w : Walk κ τ σ) : Prop :=
  ∃ o : Outcome φ τ σ, Yields turn w o ∧ ¬o.Done

/-- From `a` the walk reaches the end of `w`'s layer, or fails, as the consumer's events do. -/
def Runs (turn : Machine κ φ τ σ) (a w : Walk κ τ σ) : Except Trap (σ × τ) → Prop
  | .ok (sink, stats) => ∃ cursor staged, cursor.data.drop cursor.pos = [] ∧
      Steps turn a (w.onward cursor staged stats sink)
  | .error _ => Fails turn a

section Runs

variable {turn : Machine κ φ τ σ} {a b w : Walk κ τ σ} {r : Except Trap (σ × τ)}

theorem Fails.of_steps (h : Steps turn a b) (hf : Fails turn b) : Fails turn a := by
  obtain ⟨o, hy, hd⟩ := hf
  exact ⟨o, h.yields hy, hd⟩

theorem Fails.of_halt {o : Outcome φ τ σ} (h : turn a = .halt o) (hd : ¬o.Done) : Fails turn a :=
  ⟨o, .halt h, hd⟩

theorem Runs.of_steps (h : Steps turn a b) (hr : Runs turn b w r) : Runs turn a w r := by
  cases r with
  | ok p =>
    obtain ⟨cursor, staged, hend, hsteps⟩ := hr
    exact ⟨cursor, staged, hend, h.trans hsteps⟩
  | error trap => exact Fails.of_steps h hr

end Runs

/-! ## A walk that follows a document -/

variable {ι : Type} (S : Sink σ) (note : ι → τ → τ) (down : τ → τ) (turn : Machine κ φ τ σ)

/-- A consumer that walks into every container. -/
def Sink.Walks (S : Sink σ) : Prop :=
  ∀ head tagEnd payloadStart payloadEnd s s',
    S.descend head tagEnd payloadStart payloadEnd s ≠ .ok (.skip, s')

/-- The walk over the current layer sends the document's events; where there is no document a
walk that enters everything fails. -/
def Follows (w : Walk κ τ σ) : Option (Doc UInt8 ι) → Prop
  | some d => Runs turn w w (feed S note down d w.head (w.sink, w.stats))
  | none => S.Walks → Fails turn w

section Follows

variable {S note down turn} {w child : Walk κ τ σ} {cursor : Cursor}
  {inner rest : Option (Doc UInt8 ι)}

theorem follows_end (h : w.layer.cursor.data.drop w.layer.cursor.pos = []) :
    Follows S note down turn w (some .nil) :=
  ⟨w.layer.cursor, w.matcher.staged, h, Steps.refl _⟩

theorem follows_halt {o : Outcome φ τ σ} (h : turn w = .halt o) (hd : ¬o.Done) :
    Follows S note down turn w none :=
  fun _ => Fails.of_halt h hd

/-- A record whose edit is one event. -/
theorem follows_event {staged : List State} {stats : τ} {f : σ → Except Trap σ}
    {node : Doc UInt8 ι → Doc UInt8 ι}
    (hturn : turn w = (w.onward cursor staged stats w.sink).event f)
    (hnode : ∀ d, feed S note down (node d) w.head (w.sink, w.stats) =
      f w.sink >>= fun s => feed S note down d (w.moved cursor).head (s, stats))
    (hrest : ∀ s, Follows S note down turn (w.onward cursor staged stats s) rest) :
    Follows S note down turn w (rest.map node) := by
  have hevent : turn w = match f w.sink with
      | .ok sink => .next (w.onward cursor staged stats sink)
      | .error trap => .halt (lapse trap) := hturn
  cases hf : f w.sink with
  | error trap =>
    rw [hf] at hevent
    have hfails := Fails.of_halt hevent (not_done_lapse trap)
    cases rest with
    | none => exact fun _ => hfails
    | some d =>
      simp only [Option.map_some, Follows, hnode, hf]
      exact hfails
  | ok s =>
    rw [hf] at hevent
    cases rest with
    | none => exact fun hwalks => (hrest s hwalks).of_steps (Steps.single hevent)
    | some d =>
      simp only [Option.map_some, Follows, hnode, hf]
      exact Runs.of_steps (Steps.single hevent) (hrest s)

/-- A container entered: its interior followed, left through `leave`, and the rest followed. -/
theorem follows_within (leave : σ × τ → Except Trap (σ × τ))
    (hinner : Follows S note down turn child inner)
    (hleave : ∀ last staged stats s s' stats', last.data.drop last.pos = [] →
      leave (s, stats) = .ok (s', stats') →
      turn (child.onward last staged stats s) = .next (w.onward cursor staged stats' s'))
    (hfail : ∀ last staged stats s trap, last.data.drop last.pos = [] →
      leave (s, stats) = .error trap → Fails turn (child.onward last staged stats s))
    (hrest : ∀ staged stats s, Follows S note down turn (w.onward cursor staged stats s) rest) :
    (∀ i d, inner = some i → rest = some d → Runs turn child w
      (feed S note down i child.head (child.sink, child.stats) >>= fun p =>
        leave p >>= feed S note down d (w.moved cursor).head)) ∧
    (inner = none ∨ rest = none → S.Walks → Fails turn child) := by
  cases inner with
  | none => exact ⟨fun i d hi => (by cases hi), fun _ => hinner⟩
  | some i =>
    simp only [Follows] at hinner
    cases hfeed : feed S note down i child.head (child.sink, child.stats) with
    | error trap =>
      rw [hfeed] at hinner
      refine ⟨?_, fun _ _ => hinner⟩
      rintro _ d ⟨⟩ -
      rw [hfeed]
      exact hinner
    | ok p =>
      obtain ⟨s, stats⟩ := p
      rw [hfeed] at hinner
      obtain ⟨last, staged, hend, hsteps⟩ := hinner
      cases hl : leave (s, stats) with
      | error trap =>
        have hfails := Fails.of_steps hsteps (hfail last staged stats s trap hend hl)
        refine ⟨?_, fun _ _ => hfails⟩
        rintro _ d ⟨⟩ -
        simp only [hfeed, bind, Except.bind, hl]
        exact hfails
      | ok p =>
        obtain ⟨s', stats'⟩ := p
        have hback := hsteps.trans (Steps.single (hleave last staged stats s s' stats' hend hl))
        constructor
        · rintro _ d ⟨⟩ rfl
          simp only [hfeed, bind, Except.bind, hl]
          exact Runs.of_steps hback (hrest staged stats' s')
        · rintro (⟨⟨⟩⟩ | rfl) hwalks
          exact (hrest staged stats' s' hwalks).of_steps hback

/-- One whose leaving counts nothing. -/
theorem follows_nested (leave : σ → Except Trap σ)
    (hinner : Follows S note down turn child inner)
    (hleave : ∀ last staged stats s, last.data.drop last.pos = [] →
      match leave s with
      | .ok s' => turn (child.onward last staged stats s) = .next (w.onward cursor staged stats s')
      | .error _ => Fails turn (child.onward last staged stats s))
    (hrest : ∀ staged stats s, Follows S note down turn (w.onward cursor staged stats s) rest) :
    (∀ i d, inner = some i → rest = some d → Runs turn child w
      (feed S note down i child.head (child.sink, child.stats) >>= fun p =>
        leave p.1 >>= fun s => feed S note down d (w.moved cursor).head (s, p.2))) ∧
    (inner = none ∨ rest = none → S.Walks → Fails turn child) := by
  have hwithin := follows_within (fun p => leave p.1 >>= fun s => pure (s, p.2)) hinner ?_ ?_ hrest
  · simpa only [bind_assoc, pure_bind] using hwithin
  · intro last staged stats s s' stats' hend hl
    have hturn := hleave last staged stats s hend
    cases hs : leave s with
    | error trap => simp [hs, bind, Except.bind] at hl
    | ok s'' =>
      rw [hs] at hturn
      simp only [hs, bind, Except.bind, pure, Except.pure, Except.ok.injEq, Prod.mk.injEq] at hl
      obtain ⟨rfl, rfl⟩ := hl
      exact hturn
  · intro last staged stats s trap hend hl
    have hturn := hleave last staged stats s hend
    cases hs : leave s with
    | error trap => rwa [hs] at hturn
    | ok s'' => simp [hs, bind, Except.bind, pure, Except.pure] at hl

end Follows

end Walks

end ProtobufEdit.TwoPass
