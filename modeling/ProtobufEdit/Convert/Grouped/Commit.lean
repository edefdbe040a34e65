import ProtobufEdit.Convert.Grouped

/-!
# What the converter commits

`commit` is what a committed interior becomes under the program. The walk of the interior
sends its consumer the events of that document, or fails where there is none.
-/

namespace ProtobufEdit.Convert.Grouped

open Wire ProtobufEdit.Path Cursor Cursor.Groupless Loop Emission TwoPass Wire.Grouped

/-- The authored framing of a converted record. -/
def opener (field : FieldNumber) : Authored UInt8 := authoredWord (headWord field .group)

def closer (field : FieldNumber) : Authored UInt8 := authoredWord (groupEndWord field)

/-- What the paths make of a field behind a chain: some path ends there. -/
def designates (paths : Paths) (chain : List FieldNumber) (field : FieldNumber) : Bool :=
  !(paths.hits .target chain field).isEmpty

/-- What a committed interior becomes; `none` where the walk of it refuses. -/
def commit (standard : Standard) (paths : Paths) (remaining : Nat) (chain : List FieldNumber)
    (bytes : List UInt8) : Option (Doc UInt8 Unit) :=
  if bytes = [] then some .nil
  else
    match _hf : first standard bytes with
    | none => none
    | some (r, rest) =>
      match _hp : r.payload with
      | .len word payload =>
        if !designates paths chain r.field && !paths.routes chain r.field then
          (commit standard paths remaining chain rest).map (.copy r.bytes)
        else
          match remaining with
          | 0 => none
          | below + 1 => do
            let inner ← commit standard paths below (chain ++ [r.field]) payload
            let behind ← commit standard paths (below + 1) chain rest
            if designates paths chain r.field then
              some (.frame () (r.tag ++ word) (opener r.field) inner (closer r.field) behind)
            else some (.cross r.tag word inner behind)
      | _ =>
        if designates paths chain r.field then none
        else (commit standard paths remaining chain rest).map (.copy r.bytes)
termination_by bytes.length
decreasing_by
  all_goals
    first
      | exact first_rest_lt _hf
      | exact first_payload_lt _hf _hp

theorem commit_source {standard : Standard} {paths : Paths} {remaining : Nat}
    {chain : List FieldNumber} {bytes : List UInt8} {d : Doc UInt8 Unit}
    (h : commit standard paths remaining chain bytes = some d) : d.source = bytes := by
  fun_induction commit standard paths remaining chain bytes generalizing d with
  | case1 => cases h; rfl
  | case2 | case4 | case6 => cases h
  | case3 remaining chain bytes hne r rest hfirst word payload hp hunmet ih
    | case7 remaining chain bytes hne r rest hfirst hplain hscalar ih =>
    obtain ⟨e, he, rfl⟩ := Option.map_eq_some_iff.mp h
    rw [Doc.source, ih he, (first_iff.mp hfirst).1]
  | case5 chain bytes hne r rest hfirst word payload hp hmet below ihi ihr =>
    obtain ⟨inner, hinner, h⟩ := Option.bind_eq_some_iff.mp h
    obtain ⟨behind, hbehind, h⟩ := Option.bind_eq_some_iff.mp h
    rw [(first_iff.mp hfirst).1, ← ihr hbehind, Record.bytes, hp, Payload.bytes, ← ihi hinner]
    split at h <;> cases h <;> simp [Doc.source]

/-- The counts of the walk. -/
def noteConverted (_ : Unit) (t : Stats) : Stats := { t with converted := t.converted + 1 }

def noteDescended (t : Stats) : Stats := { t with descended := t.descended + 1 }

section Follow

variable {σ : Type} {S : Sink σ} {standard : Standard} {paths : Paths} {chain : List FieldNumber}
  {w : State σ} {live : List Path.State} {r : Record} {bytes rest : List UInt8} {remaining : Nat}

theorem isSome_firstTarget {m : Matcher} (h : At paths chain m live) (f : FieldNumber) :
    (m.firstTarget f).isSome = designates paths chain f := by
  rw [h.firstTarget, designates]
  cases paths.hits .target chain f <;> rfl

theorem turn_end (h : w.layer.cursor.data.drop w.layer.cursor.pos = []) :
    turn S standard w = exhausted S w := by
  simp only [turn, step_end h]

theorem turn_record
    (h : first standard (w.layer.cursor.data.drop w.layer.cursor.pos) = some (r, rest)) :
    turn S standard w = deliver S w (w.layer.cursor.past r) ⟨r.field, r.payload.value⟩ := by
  simp only [turn, (step_record h).1]

theorem turn_refuses (hne : w.layer.cursor.data.drop w.layer.cursor.pos ≠ [])
    (h : first standard (w.layer.cursor.data.drop w.layer.cursor.pos) = none) :
    ∃ o, turn S standard w = .halt o ∧ ¬o.Done := by
  obtain ⟨fault, c', hstep⟩ := step_refuses hne h
  refine ⟨_, ?_, not_done_refuse S ⟨w.layer.base + fault.pos, w.trail, .wire (breach fault.kind)⟩⟩
  simp only [turn, hstep]

theorem head_past : (w.moved (w.layer.cursor.past r)).head = w.head + r.bytes.length :=
  (Nat.add_assoc _ _ _).symm

theorem deliver_scalar (hscalar : ∀ word payload, r.payload ≠ .len word payload) :
    deliver S w (w.layer.cursor.past r) ⟨r.field, r.payload.value⟩ =
      match w.matcher.firstTarget r.field with
      | some path => .halt (S.refuse ⟨w.head, w.trail, .kindMismatch path⟩)
      | none => (w.moved (w.layer.cursor.past r)).event
          (S.verbatim w.head (w.head + r.bytes.length)) := by
  cases hp : r.payload with
  | len word payload => exact absurd hp (hscalar word payload)
  | varint _ | i64 _ | i32 _ =>
    rw [← head_past]
    rfl

/-- The walk with a record's probe made. -/
def probed (w : State σ) (r : Record) : State σ :=
  { w.moved (w.layer.cursor.past r) with matcher := (w.matcher.probeRoutes r.field).2 }

theorem deliver_len {word payload : List UInt8} (hat : At paths chain w.matcher live)
    (hp : r.payload = .len word payload) :
    deliver S w (w.layer.cursor.past r) ⟨r.field, r.payload.value⟩ =
      let tagEnd := w.head + r.tag.length
      let payloadStart := tagEnd + word.length
      let stop := payloadStart + payload.length
      if !designates paths chain r.field && !paths.routes chain r.field then
        (probed w r).event (S.verbatim w.head stop)
      else if w.layer.remaining = 0 then .halt (S.refuse ⟨w.head, w.trail, .wire .depth⟩)
      else if designates paths chain r.field then
        match S.frameEnter (opener r.field) w.sink with
        | .error trap => .halt (lapse trap)
        | .ok sink =>
          { probed w r with stats := noteConverted () w.stats, sink }.enter r.field w.head tagEnd
            payloadStart stop payload .convert
      else
        match S.descend w.head tagEnd payloadStart stop w.sink with
        | .error trap => .halt (lapse trap)
        | .ok (.skip, sink) => { probed w r with sink }.event (S.verbatim w.head stop)
        | .ok (.walk, sink) =>
          { probed w r with stats := noteDescended w.stats, sink }.enter r.field w.head tagEnd
            payloadStart stop payload .cross := by
  have hlen : r.bytes.length = r.tag.length + word.length + payload.length := by
    simp [Record.bytes, hp, Payload.bytes, Nat.add_assoc]
  have hstop : (w.moved (w.layer.cursor.past r)).head =
      w.head + r.tag.length + word.length + payload.length := by
    rw [head_past, hlen]
    omega
  simp only [deliver, hp, Payload.value, hstop, isSome_firstTarget hat, Nat.add_sub_cancel]
  rw [← hat.routes]
  rfl

theorem exhausted_convert {v : State σ} {layer : Layer LayerKind} {below : List (Layer LayerKind)}
    {crossing : Crossing} (hbelow : v.below = layer :: below) (hkind : v.layer.kind = .convert)
    (hcrossing : v.layer.crossing = some crossing) :
    exhausted S v = { v with layer, below, matcher := v.matcher.exit }.event
      (S.frameExit (closer crossing.field)) := by
  simp only [exhausted, hbelow, hkind, hcrossing]
  rfl

theorem exhausted_cross {v : State σ} {layer : Layer LayerKind} {below : List (Layer LayerKind)}
    {sink : σ} (hbelow : v.below = layer :: below) (hkind : v.layer.kind = .cross)
    (h : S.ascend v.layer.head v.layer.tagEnd v.layer.payloadStart v.layer.payloadEnd v.sink =
      .ok sink) :
    exhausted S v = .next { v with layer, below, matcher := v.matcher.exit, sink } := by
  simp only [exhausted, hbelow, hkind, h]

theorem exhausted_over {v : State σ} {layer : Layer LayerKind} {below : List (Layer LayerKind)}
    {trap : Trap} (hbelow : v.below = layer :: below) (hkind : v.layer.kind = .cross)
    (h : S.ascend v.layer.head v.layer.tagEnd v.layer.payloadStart v.layer.payloadEnd v.sink =
      .error trap) :
    ∃ o, exhausted S v = .halt o ∧ ¬o.Done := by
  simp only [exhausted, hbelow, hkind, h]
  cases trap with
  | outgrown len => exact ⟨_, rfl, not_done_refuse S _⟩
  | panic | undefined => exact ⟨_, rfl, not_done_lapse _⟩

/-- A record copied whole. -/
theorem follows_copy {staged : List Path.State} {stop : Nat} {rest : Option (Doc UInt8 Unit)}
    (hstop : w.head + r.bytes.length = stop)
    (hturn : turn S standard w =
      (w.onward (w.layer.cursor.past r) staged w.stats w.sink).event (S.verbatim w.head stop))
    (hrest : ∀ s, Follows S noteConverted noteDescended (turn S standard)
      (w.onward (w.layer.cursor.past r) staged w.stats s) rest) :
    Follows S noteConverted noteDescended (turn S standard) w (rest.map (.copy r.bytes)) := by
  refine follows_event hturn (fun d => ?_) hrest
  simp only [feed, head_past, hstop]

/-- What the walk of a record's interior and of the records behind it must be. -/
structure Nested (S : Sink σ) (standard : Standard) (paths : Paths) (chain : List FieldNumber)
    (w : State σ) (live : List Path.State) (r : Record) (payload : List UInt8) (below : Nat)
    (inner rest : Option (Doc UInt8 Unit)) : Prop where
  inner : ∀ {v : State σ}, v.layer.cursor.data.drop v.layer.cursor.pos = payload →
    At paths (chain ++ [r.field]) v.matcher (descend paths live r.field) →
    v.layer.remaining = below →
    Follows S noteConverted noteDescended (turn S standard) v inner
  rest : ∀ staged stats s, Follows S noteConverted noteDescended (turn S standard)
    (w.onward (w.layer.cursor.past r) staged stats s) rest

/-- A record re-framed. -/
theorem follows_convert {word payload : List UInt8} {below : Nat}
    {inner rest : Option (Doc UInt8 Unit)} (hat : At paths chain w.matcher live)
    (hp : r.payload = .len word payload)
    (hturn : turn S standard w = deliver S w (w.layer.cursor.past r) ⟨r.field, r.payload.value⟩)
    (hremaining : w.layer.remaining = below + 1) (hfit : payload.length ≤ PayloadLen.max)
    (hdes : designates paths chain r.field = true)
    (h : Nested S standard paths chain w live r payload below inner rest) :
    (∀ i d, inner = some i → rest = some d → i.source = payload →
      Follows S noteConverted noteDescended (turn S standard) w
        (some (.frame () (r.tag ++ word) (opener r.field) i (closer r.field) d))) ∧
    (inner = none ∨ rest = none → S.Walks → Fails (turn S standard) w) := by
  rw [deliver_len hat hp] at hturn
  simp only [hdes, Bool.not_true, Bool.false_and, Bool.false_eq_true, if_false, hremaining,
    Nat.add_one_ne_zero, if_true] at hturn
  cases hopen : S.frameEnter (opener r.field) w.sink with
  | error trap =>
    rw [hopen] at hturn
    have hfails := Fails.of_halt hturn (not_done_lapse trap)
    refine ⟨fun i d _ _ _ => ?_, fun _ _ => hfails⟩
    simp only [Follows, feed, hopen]
    exact hfails
  | ok sink =>
    rw [hopen] at hturn
    simp only [probed] at hturn
    rw [enter_eq hat hfit] at hturn
    set child := w.inside r (descend paths live r.field) (w.opening r word payload .convert)
      (noteConverted () w.stats) sink with hchild
    have hinner := h.inner (v := child) rfl (hat.opened r.field)
      (by simp only [hchild, Walk.inside, Walk.opening, hremaining, Nat.add_sub_cancel])
    have hnested := follows_nested (S.frameExit (closer r.field)) hinner ?_ h.rest
    · refine ⟨fun i d hi hd hsource => ?_, fun hnone hwalks =>
        Fails.of_steps (Steps.single hturn) (hnested.2 hnone hwalks)⟩
      have hruns := Runs.of_steps (Steps.single hturn) (hnested.1 i d hi hd)
      have hover : w.head + (r.tag ++ word).length = child.head := by
        rw [List.length_append, ← Nat.add_assoc]
        rfl
      have hstop : child.head + i.source.length = (w.moved (w.layer.cursor.past r)).head := by
        rw [head_past, ← hover, hsource, Record.bytes, hp, Payload.bytes]
        simp only [List.length_append, Nat.add_assoc]
      simp only [Follows, feed, hopen, hover, hstop]
      exact hruns
    · intro last staged stats s hend
      have hexit := (@turn_end _ S standard (child.onward last staged stats s) hend).trans
        (exhausted_convert rfl rfl rfl)
      have hback : (child.onward last staged stats s).matcher.exit = w.matcher.restage staged :=
        hat.exit_opened _ _
      rw [hback, Walk.event] at hexit
      cases hl : S.frameExit (closer r.field) s with
      | error trap =>
        simp only [Walk.onward, hl] at hexit
        exact Fails.of_halt hexit (not_done_lapse trap)
      | ok s' =>
        simp only [Walk.onward, hl] at hexit
        exact hexit

/-- A record crossed. -/
theorem follows_cross {word payload : List UInt8} {below : Nat}
    {inner rest : Option (Doc UInt8 Unit)} (hat : At paths chain w.matcher live)
    (hp : r.payload = .len word payload)
    (hturn : turn S standard w = deliver S w (w.layer.cursor.past r) ⟨r.field, r.payload.value⟩)
    (hremaining : w.layer.remaining = below + 1) (hfit : payload.length ≤ PayloadLen.max)
    (hdes : designates paths chain r.field = false) (hroutes : paths.routes chain r.field = true)
    (h : Nested S standard paths chain w live r payload below inner rest) :
    (∀ i d, inner = some i → rest = some d → i.source = payload →
      Follows S noteConverted noteDescended (turn S standard) w
        (some (.cross r.tag word i d))) ∧
    (inner = none ∨ rest = none → S.Walks → Fails (turn S standard) w) := by
  rw [deliver_len hat hp] at hturn
  simp only [hdes, hroutes, Bool.not_true, Bool.and_false, Bool.false_eq_true, if_false,
    hremaining, Nat.add_one_ne_zero] at hturn
  set tagEnd := w.head + r.tag.length with htagEnd
  set payloadStart := tagEnd + word.length with hpayloadStart
  set stop := payloadStart + payload.length with hstop
  have hend : (w.moved (w.layer.cursor.past r)).head = stop := by
    rw [head_past, Record.bytes, hp, Payload.bytes]
    simp only [hstop, hpayloadStart, htagEnd, List.length_append, Nat.add_assoc]
  cases hdescend : S.descend w.head tagEnd payloadStart stop w.sink with
  | error trap =>
    rw [hdescend] at hturn
    have hfails := Fails.of_halt hturn (not_done_lapse trap)
    refine ⟨fun i d _ _ hsource => ?_, fun _ _ => hfails⟩
    simp only [Follows, feed, hsource, ← htagEnd, ← hpayloadStart, ← hstop, hdescend]
    exact hfails
  | ok p =>
    obtain ⟨answer, sink⟩ := p
    rw [hdescend] at hturn
    cases answer with
    | skip =>
      refine ⟨?_, fun _ hwalks => absurd hdescend (hwalks _ _ _ _ _ _)⟩
      rintro i d - rfl hsource
      refine @follows_event _ _ _ _ _ S noteConverted noteDescended _ w (w.layer.cursor.past r)
        (some d) (w.matcher.probeRoutes r.field).2.staged w.stats
        (fun _ => S.verbatim w.head stop sink) (.cross r.tag word i) hturn (fun d => ?_)
        (h.rest _ _)
      · simp only [feed, hsource, ← htagEnd, ← hpayloadStart, ← hstop, hdescend, hend]
        rfl
    | walk =>
      simp only [probed] at hturn
      rw [enter_eq hat hfit] at hturn
      set child := w.inside r (descend paths live r.field) (w.opening r word payload .cross)
        (noteDescended w.stats) sink with hchild
      have hinner := h.inner (v := child) rfl (hat.opened r.field)
        (by simp only [hchild, Walk.inside, Walk.opening, hremaining, Nat.add_sub_cancel])
      have hnested := follows_nested (S.ascend w.head tagEnd payloadStart stop) hinner ?_ h.rest
      · refine ⟨fun i d hi hd hsource => ?_, fun hnone hwalks =>
          Fails.of_steps (Steps.single hturn) (hnested.2 hnone hwalks)⟩
        have hruns := Runs.of_steps (Steps.single hturn) (hnested.1 i d hi hd)
        simp only [Follows, feed, hsource, ← htagEnd, ← hpayloadStart, ← hstop, hdescend]
        rw [hend] at hruns
        exact hruns
      · intro last staged stats s hend
        have hturn' := @turn_end _ S standard (child.onward last staged stats s) hend
        cases hl : S.ascend w.head tagEnd payloadStart stop s with
        | error trap =>
          obtain ⟨o, ho, hd⟩ := @exhausted_over _ S (child.onward last staged stats s) _ _ _ rfl rfl hl
          exact Fails.of_halt (hturn'.trans ho) hd
        | ok s' =>
          have hexit := @exhausted_cross _ S (child.onward last staged stats s) _ _ _ rfl rfl hl
          rw [show (child.onward last staged stats s).matcher.exit = w.matcher.restage staged from
            hat.exit_opened _ _] at hexit
          exact hturn'.trans hexit

/-- The walk of a committed interior sends the events of what is committed. -/
theorem walk_commit (hbytes : w.layer.cursor.data.drop w.layer.cursor.pos = bytes)
    (hat : At paths chain w.matcher live) (hremaining : w.layer.remaining = remaining)
    (hfit : bytes.length ≤ PayloadLen.max) :
    Follows S noteConverted noteDescended (turn S standard) w
      (commit standard paths remaining chain bytes) := by
  fun_induction commit standard paths remaining chain bytes generalizing w live with
  | case1 => exact follows_end hbytes
  | case2 remaining chain bytes hne hfirst =>
    obtain ⟨o, ho, hd⟩ := turn_refuses (hbytes ▸ hne) (hbytes ▸ hfirst)
    exact follows_halt ho hd
  | case3 remaining chain bytes hne r rest hfirst word payload hp hunmet ih =>
    subst hbytes
    have hturn := (@turn_record _ S _ _ _ _ hfirst).trans (deliver_len hat hp)
    simp only [hunmet, if_true] at hturn
    refine follows_copy ?_ hturn fun s => ?_
    · simp only [Record.bytes, hp, Payload.bytes, List.length_append, Nat.add_assoc]
    · exact ih (step_record hfirst).2 (hat.restage _) hremaining
        (by have := first_rest_lt hfirst; omega)
  | case4 chain bytes hne r rest hfirst word payload hp hmet =>
    subst hbytes
    have hturn := (@turn_record _ S _ _ _ _ hfirst).trans (deliver_len hat hp)
    simp only [hmet, hremaining, if_true] at hturn
    exact follows_halt hturn (not_done_refuse _ _)
  | case5 chain bytes hne r rest hfirst word payload hp hmet below ihi ihr =>
    subst hbytes
    have hturn := @turn_record _ S _ _ _ _ hfirst
    have hlt := first_payload_lt hfirst hp
    have hnested : Nested S standard paths chain w live r payload below
        (commit standard paths below (chain ++ [r.field]) payload)
        (commit standard paths (below + 1) chain rest) :=
      ⟨fun hpayload hat' hbelow => ihi hpayload hat' hbelow (by omega),
        fun staged stats s => ihr (step_record hfirst).2 (hat.restage _) hremaining
          (by have := first_rest_lt hfirst; omega)⟩
    -- either way in, the record's document needs its interior's and the rest's
    have hpick : ∀ (node : Doc UInt8 Unit → Doc UInt8 Unit → Doc UInt8 Unit),
        (∀ i d, commit standard paths below (chain ++ [r.field]) payload = some i →
          commit standard paths (below + 1) chain rest = some d → i.source = payload →
          Follows S noteConverted noteDescended (turn S standard) w (some (node i d))) ∧
        (commit standard paths below (chain ++ [r.field]) payload = none ∨
          commit standard paths (below + 1) chain rest = none → S.Walks →
          Fails (turn S standard) w) →
        Follows S noteConverted noteDescended (turn S standard) w
          ((commit standard paths below (chain ++ [r.field]) payload).bind fun i =>
            (commit standard paths (below + 1) chain rest).bind fun d => some (node i d)) := by
      rintro node ⟨hsome, hnone⟩
      cases hi : commit standard paths below (chain ++ [r.field]) payload with
      | none => exact hnone (.inl hi)
      | some i =>
        cases hd : commit standard paths (below + 1) chain rest with
        | none => exact hnone (.inr hd)
        | some d => exact hsome i d hi hd (commit_source hi)
    cases hdes : designates paths chain r.field with
    | true =>
      simp only [if_true]
      exact hpick _ (follows_convert hat hp hturn hremaining (by omega) hdes hnested)
    | false =>
      have hroutes : paths.routes chain r.field = true := by simpa [hdes] using hmet
      simp only [Bool.false_eq_true, if_false]
      exact hpick _ (follows_cross hat hp hturn hremaining (by omega) hdes hroutes hnested)
  | case6 remaining chain bytes hne r rest hfirst hdes hscalar =>
    subst hbytes
    have hturn := (@turn_record _ S _ _ _ _ hfirst).trans
      (deliver_scalar fun word payload hp => hscalar word payload hp)
    obtain ⟨path, hpath⟩ := Option.isSome_iff_exists.mp
      ((isSome_firstTarget hat r.field).trans hdes)
    rw [hpath] at hturn
    exact follows_halt hturn (not_done_refuse _ _)
  | case7 remaining chain bytes hne r rest hfirst hplain hscalar ih =>
    subst hbytes
    have hturn := (@turn_record _ S _ _ _ _ hfirst).trans
      (deliver_scalar fun word payload hp => hscalar word payload hp)
    rw [Option.not_isSome_iff_eq_none.mp fun hs =>
      hplain ((isSome_firstTarget hat r.field).symm.trans hs)] at hturn
    refine follows_copy rfl hturn fun s => ?_
    exact ih (step_record hfirst).2 (hat.restage _) hremaining
      (by have := first_rest_lt hfirst; omega)

end Follow

/-! ## Whole walks -/

section Whole

variable {σ : Type} {S : Sink σ} {standard : Standard}

theorem left_of_event {w w' : State σ} {f : σ → Except Trap σ}
    (h : (w.event f : Turned σ) = .next w') : w'.left = w.left := by
  unfold Walk.event at h
  split at h <;> cases h
  rfl

theorem deliver_lowers {w w' : State σ} {cursor : Cursor} {entry : Entry}
    (hleft : (w.moved cursor).left + payloadLeft entry.value < w.left)
    (h : deliver S w cursor entry = .next w') : w'.left < w.left := by
  unfold deliver at h
  split at h
  case h_4 payload hvalue =>
    rw [hvalue, payloadLeft] at hleft
    simp only at h
    have hhere : ∀ matcher stats sink,
        ({ w.moved cursor with matcher, stats, sink } : State σ).left = (w.moved cursor).left :=
      fun _ _ _ => rfl
    split at h
    · exact (left_of_event h).trans_lt (by rw [hhere]; omega)
    split at h
    · cases h
    split at h
    · split at h
      · cases h
      · exact (left_of_enter h).trans_lt (by rw [hhere]; omega)
    · split at h
      · cases h
      · exact (left_of_event h).trans_lt (by rw [hhere]; omega)
      · exact (left_of_enter h).trans_lt (by rw [hhere]; omega)
  all_goals
    simp only at h
    split at h
    · cases h
    · exact (left_of_event h).trans_lt (by omega)

theorem turn_lowers {w w' : State σ} (h : turn S standard w = .next w') : w'.left < w.left := by
  unfold turn at h
  split at h
  · unfold exhausted at h
    have hpop : ∀ (layer : Layer LayerKind) (below : List (Layer LayerKind)) (m : Matcher) (s : σ),
        w.below = layer :: below → ({ w with
          layer, below, matcher := m, sink := s } : State σ).left < w.left := by
      rintro layer below m s hbelow
      simp only [Walk.left, hbelow, Layer.left, List.map_cons, List.sum_cons]
      omega
    split at h
    · cases h
    · next layer below hbelow =>
      simp only at h
      split at h
      · split at h <;> cases h
        exact hpop _ _ _ _ hbelow
      · split at h
        · cases h
        · exact (left_of_event h).trans_lt (hpop _ _ _ _ hbelow)
  · cases h
  · next entry cursor hstep => exact deliver_lowers (left_of_step hstep) h

variable {program : Program} {limit : DepthLimit} {input : List UInt8} {sink sink' : σ}
  {d : Doc UInt8 Unit}

/-- The walk's fuel covers its measure. -/
theorem walk_of_yields {root : Cursor} {o : Outcome FaultKind Stats σ} (hroot : Cursor.over input = some root)
    (h : Yields (turn S standard) (start program limit root sink) o) :
    walk S standard program limit input sink = o := by
  have hfuel : (start program limit root sink).left < 2 * input.length + 2 := by
    simp only [Cursor.over, Option.ite_none_left_eq_some, Option.some.injEq] at hroot
    obtain ⟨-, rfl⟩ := hroot
    simp [Walk.left, Layer.left, start]
  have hrun := run_eq_of_yields (fun _ => True) Walk.left
    (fun _ _ _ h => ⟨trivial, turn_lowers h⟩) trivial hfuel h
  simp only [walk, hroot, hrun, Option.getD_some]

theorem over_ok (hfit : input.length ≤ PayloadLen.max) : Cursor.over input = some ⟨input, 0, 0, 0⟩ :=
  if_neg (Nat.not_lt.mpr hfit)

theorem walk_oversize (h : PayloadLen.max < input.length) :
    walk S standard program limit input sink = S.refuse ⟨0, [], .oversize⟩ := by
  simp only [walk, Cursor.over, h, if_true]

/-- From the start the walk follows what the whole input becomes. -/
theorem start_follows (hfit : input.length ≤ PayloadLen.max) :
    Follows S noteConverted noteDescended (turn S standard)
      (start program limit ⟨input, 0, 0, 0⟩ sink)
      (commit standard program.provider limit.asInner [] input) :=
  walk_commit rfl (at_new _) rfl hfit

theorem walk_done {stats : Stats} (hfit : input.length ≤ PayloadLen.max)
    (hd : commit standard program.provider limit.asInner [] input = some d)
    (hfeed : feed S noteConverted noteDescended d 0 (sink, ⟨0, 0⟩) = .ok (sink', stats)) :
    walk S standard program limit input sink = .done stats sink' := by
  have hfollows := @start_follows _ S standard program limit input sink hfit
  rw [hd] at hfollows
  simp only [Follows, show (start program limit ⟨input, 0, 0, 0⟩ sink).head = 0 from rfl] at hfollows
  rw [show feed S noteConverted noteDescended d 0
    ((start program limit ⟨input, 0, 0, 0⟩ sink).sink,
      (start program limit ⟨input, 0, 0, 0⟩ sink).stats) = _ from hfeed] at hfollows
  obtain ⟨cursor, staged, hend, hsteps⟩ := hfollows
  refine walk_of_yields (over_ok hfit) (hsteps.yields (.halt ?_))
  rw [turn_end hend]
  rfl

theorem walk_fails (hfit : input.length ≤ PayloadLen.max)
    (h : Fails (turn S standard) (start program limit ⟨input, 0, 0, 0⟩ sink)) :
    ¬(walk S standard program limit input sink).Done := by
  obtain ⟨o, hy, hd⟩ := h
  rwa [walk_of_yields (over_ok hfit) hy]

end Whole

end ProtobufEdit.Convert.Grouped
