import ProtobufEdit.Inplace.Groupless.Edits

/-!
# The judge walk

The walk of a layer plans exactly the writes of the edits the rules command of it, or refuses
where there are none.
-/

namespace ProtobufEdit.Inplace.Groupless

open Wire Wire.Groupless Varint Base128 ProtobufEdit.Path Cursor Cursor.Groupless Loop

variable {standard : Standard} {set : RuleSet} {chain : List FieldNumber}
  {live : List Path.State} {w : Walk} {r : Record} {bytes rest : List UInt8} {remaining : Nat}
  {a : Action}

/-! ## One record -/

theorem judgeReplacement_spec (rule : Nat) (bytes : List UInt8) {met : Nat} (hmet : 0 < met) :
    (∃ r', bytes.length = met ∧ first standard bytes = some (r', []) ∧
        judgeReplacement standard rule bytes met = some (.ok ())) ∨
      (bytes.length = met → ∀ r', first standard bytes ≠ some (r', [])) ∧
        ∃ kind, judgeReplacement standard rule bytes met = some (.error kind) := by
  unfold judgeReplacement
  by_cases hlen : bytes.length = met
  · simp only [hlen, ne_eq, not_true_eq_false, if_false, true_implies]
    cases hf : first standard bytes with
    | none =>
      have hne : bytes ≠ [] := by
        rintro rfl
        exact absurd hmet (by simp [← hlen])
      obtain ⟨fault, c', hs⟩ := @step_refuses standard ⟨bytes, 0, 0, 0⟩ hne hf
      rw [hs]
      exact .inr ⟨fun r' => nofun, _, rfl⟩
    | some p =>
      obtain ⟨r', rest⟩ := p
      have hs := (@step_record standard ⟨bytes, 0, 0, 0⟩ r' rest hf).1
      obtain ⟨hbytes, -⟩ := first_iff.mp hf
      rw [hs]
      have hpos : (Cursor.past ⟨bytes, 0, 0, 0⟩ r').pos = r'.bytes.length := Nat.zero_add _
      simp only [hpos]
      have hsum : r'.bytes.length + rest.length = met := by
        rw [← hlen, hbytes, List.length_append]
      by_cases hrest : rest = []
      · subst hrest
        exact .inl ⟨r', trivial, rfl, if_pos hsum⟩
      · have hpos := List.length_pos_of_ne_nil hrest
        rw [if_neg (by omega)]
        refine .inr ⟨fun r'' e => ?_, _, rfl⟩
        cases e
        exact hrest rfl
  · simp only [ne_eq, hlen, not_false_eq_true, if_true]
    exact .inr ⟨nofun, _, rfl⟩

/-- An action is judged as it fits the record, and plans its own write. -/
theorem judge_spec (hr : r.Lawful standard) (rule : Nat) (a : Action) (head : Nat) :
    (∃ out, become standard r a = some out ∧
        judgeAction standard (judgeReplacement standard rule) rule a head r.tag.length
          (head + r.bytes.length) r.payload.value = some (.ok (planned head r a))) ∨
      become standard r a = none ∧ ∃ kind,
        judgeAction standard (judgeReplacement standard rule) rule a head r.tag.length
          (head + r.bytes.length) r.payload.value = some (.error kind) := by
  cases a with
  | replaceRecord new =>
    rw [judgeAction_replace]
    simp only [become]
    rcases @judgeReplacement_spec standard rule new _ hr.length_pos with
      ⟨r', hlen, hfirst, hok⟩ | ⟨hno, kind, herror⟩
    · rw [hok, if_pos hlen, hfirst]
      exact .inl ⟨_, rfl, rfl⟩
    · rw [herror]
      refine .inr ⟨?_, kind, rfl⟩
      split_ifs with hlen
      · split
        · next hfirst => exact absurd hfirst (hno hlen _)
        · rfl
      · rfl
  | _ =>
    rw [become_recast (by intro _ e; cases e)]
    exact judgeAction_spec rule (by intro _ e; cases e) head

/-! ## One turn -/

/-- The walk stands before a layer's remaining bytes, behind a chain. -/
structure Stands (set : RuleSet) (chain : List FieldNumber) (live : List Path.State)
    (remaining : Nat) (bytes : List UInt8) (w : Walk) : Prop where
  data : w.layer.cursor.data.drop w.layer.cursor.pos = bytes
  paths : At set.provider chain w.matcher live
  remaining : w.layer.remaining = remaining
  fits : bytes.length ≤ PayloadLen.max

/-- The walk behind a record, and what it planned over it. -/
def Walk.past (w : Walk) (r : Record) (staged : List Path.State) (command : Option Action) : Walk :=
  { w.moved (w.layer.cursor.past r) with
    matcher := w.matcher.restage staged
    writes := w.writes ++ (command.map (planned w.head r)).toList
    stats := command.toList.foldl Stats.note w.stats }

/-- What a delivered record's turn comes to. -/
inductive Delivers (standard : Standard) (set : RuleSet) (chain : List FieldNumber) (w : Walk)
    (r : Record) : Turned → Prop where
  | conflict (pos : Nat) (kind : FaultKind) : commanded set chain r.field = none →
      Delivers standard set chain w r (refuse pos kind)
  | unfit {command : Option Action} (pos : Nat) (kind : FaultKind) :
      commanded set chain r.field = some command → outcome standard r command = none →
      Delivers standard set chain w r (refuse pos kind)
  | passes {command : Option Action} {out : List Record} (staged : List Path.State) :
      commanded set chain r.field = some command → outcome standard r command = some out →
      entered set chain r command = none →
      Delivers standard set chain w r (.next (w.past r staged command))
  | enters {command : Option Action} {out : List Record} {word payload : List UInt8}
      {renumbered : Option FieldNumber} : commanded set chain r.field = some command →
      outcome standard r command = some out →
      entered set chain r command = some (word, payload, renumbered) →
      Delivers standard set chain w r
        (descend (w.past r (w.matcher.probeRoutes r.field).2.staged command) w.head
          (w.head + (r.tag ++ word).length) payload)

theorem head_past : (w.moved (w.layer.cursor.past r)).head = w.head + r.bytes.length :=
  (Nat.add_assoc _ _ _).symm

/-- A rule judged over a lawful record. -/
theorem judged_spec {v : Walk} (hr : r.Lawful standard) {rule : Nat} (ha : action set rule = some a)
    (head : Nat) (go : Action → Walk → Turned) :
    (∃ out, become standard r a = some out ∧
        judged standard set v rule head r.tag.length (head + r.bytes.length) r.payload.value go =
          go a (v.plan (planned head r a) a)) ∨
      become standard r a = none ∧ ∃ kind,
        judged standard set v rule head r.tag.length (head + r.bytes.length) r.payload.value go =
          refuse head kind := by
  unfold judged
  rw [ha]
  rcases judge_spec hr rule a head with ⟨out, hout, hok⟩ | ⟨hnone, kind, herror⟩
  · exact .inl ⟨out, hout, by simp only [hok]⟩
  · exact .inr ⟨hnone, kind, by simp only [herror]⟩

theorem past_none (w : Walk) (r : Record) (staged : List Path.State) : w.past r staged none =
    { w.moved (w.layer.cursor.past r) with matcher := w.matcher.restage staged } := by
  simp only [Walk.past, Option.map_none, Option.toList_none, List.append_nil, List.foldl_nil]
  rfl

theorem deliver_scalar (hscalar : ∀ word payload, r.payload ≠ .len word payload) :
    deliver standard set w (w.layer.cursor.past r) ⟨r.field, r.payload.value⟩ =
      match w.matcher.probeTarget r.field with
      | .none => .next (w.past r w.matcher.staged none)
      | .conflict first second => refuse w.head (.conflict first second)
      | .one rule => judged standard set (w.moved (w.layer.cursor.past r)) rule w.head r.tag.length
          (w.head + r.bytes.length) r.payload.value fun _ w => .next w := by
  rw [past_none, ← head_past]
  cases hp : r.payload with
  | len word payload => exact absurd hp (hscalar word payload)
  | varint _ | i64 _ | i32 _ => rfl

/-- The walk with a record's probe made. -/
def Walk.probed (w : Walk) (r : Record) : Walk :=
  { w.moved (w.layer.cursor.past r) with matcher := (w.matcher.probeRoutes r.field).2 }

theorem deliver_len {word payload : List UInt8} (hp : r.payload = .len word payload) :
    deliver standard set w (w.layer.cursor.past r) ⟨r.field, r.payload.value⟩ =
      let stop := w.head + r.bytes.length
      let payloadStart := w.head + (r.tag ++ word).length
      let routed := (w.matcher.probeRoutes r.field).1
      match w.matcher.probeTarget r.field with
      | .none =>
        if routed then descend (w.probed r) w.head payloadStart payload else .next (w.probed r)
      | .conflict first second => refuse w.head (.conflict first second)
      | .one rule => judged standard set (w.probed r) rule w.head r.tag.length stop r.payload.value
          fun a v => match a with
            | .renumber _ => if routed then descend v w.head payloadStart payload else .next v
            | _ => .next v := by
  have hstart : w.head + r.bytes.length - payload.length = w.head + (r.tag ++ word).length := by
    rw [Record.bytes, hp, Payload.bytes]
    simp only [List.length_append]
    omega
  simp only [← hstart, ← head_past]
  unfold deliver Matcher.probe
  rw [hp]
  cases w.matcher.probeTarget r.field <;> rfl

theorem probed_eq (w : Walk) (r : Record) :
    w.probed r = w.past r (w.matcher.probeRoutes r.field).2.staged none := (past_none _ _ _).symm

/-- A record's turn goes on behind it, enters it or refuses, as commanded. -/
theorem delivers (hat : At set.provider chain w.matcher live) (hr : r.Lawful standard) :
    Delivers standard set chain w r
      (deliver standard set w (w.layer.cursor.past r) ⟨r.field, r.payload.value⟩) := by
  by_cases hlen : ∃ word payload, r.payload = .len word payload
  · obtain ⟨word, payload, hp⟩ := hlen
    rw [deliver_len hp]
    simp only [hat.routes]
    have hidle : entered set chain r none =
        if set.provider.routes chain r.field then some (word, payload, none) else none := by
      simp only [entered, hp]
    have hrenumber : ∀ f, entered set chain r (some (.renumber f)) =
        if set.provider.routes chain r.field then some (word, payload, some f) else none := by
      intro f
      simp only [entered, hp]
    rcases probe_commanded hat r.field with
      ⟨hprobe, hc⟩ | ⟨rule, a, hprobe, ha, hc⟩ | ⟨i, j, hprobe, hc⟩
    · simp only [hprobe, probed_eq]
      split
      · next hroute => exact .enters hc rfl (hidle.trans (if_pos hroute))
      · next hroute => exact .passes _ hc rfl (hidle.trans (if_neg hroute))
    · simp only [hprobe]
      rcases judged_spec (v := w.probed r) hr ha w.head _ with ⟨out, hout, hj⟩ | ⟨hnone, kind, hj⟩
      · rw [hj]
        cases a with
        | renumber f =>
          simp only
          split
          · next hroute => exact .enters hc hout ((hrenumber f).trans (if_pos hroute))
          · next hroute =>
            exact .passes (w.matcher.probeRoutes r.field).2.staged hc hout
              ((hrenumber f).trans (if_neg hroute))
        | _ =>
          exact .passes (w.matcher.probeRoutes r.field).2.staged hc hout
            (by simp only [entered, hp])
      · rw [hj]
        exact .unfit _ _ hc hnone
    · simp only [hprobe]
      exact .conflict _ _ hc
  · have hscalar : ∀ word payload, r.payload ≠ .len word payload := fun _ _ e => hlen ⟨_, _, e⟩
    have hentered : ∀ command, entered set chain r command = none := by
      intro command
      unfold entered
      split <;> first | exact absurd ‹_› (hscalar _ _) | rfl
    rw [deliver_scalar hscalar]
    rcases probe_commanded hat r.field with
      ⟨hprobe, hc⟩ | ⟨rule, a, hprobe, ha, hc⟩ | ⟨i, j, hprobe, hc⟩
    · simp only [hprobe]
      exact .passes _ hc rfl (hentered _)
    · simp only [hprobe]
      rcases judged_spec (v := w.moved (w.layer.cursor.past r)) hr ha w.head _ with
        ⟨out, hout, hj⟩ | ⟨hnone, kind, hj⟩
      · rw [hj]
        exact .passes w.matcher.staged hc hout (hentered _)
      · rw [hj]
        exact .unfit _ _ hc hnone
    · simp only [hprobe]
      exact .conflict _ _ hc

theorem turn_end (h : w.layer.cursor.data.drop w.layer.cursor.pos = []) :
    turn standard set w =
      match w.below with
      | [] => .halt (some (.ok (w.writes, w.stats)))
      | layer :: below => .next { w with layer, below, matcher := w.matcher.exit } := by
  cases hb : w.below <;> simp only [turn, step_end h, hb]

theorem turn_record
    (h : first standard (w.layer.cursor.data.drop w.layer.cursor.pos) = some (r, rest)) :
    turn standard set w =
      deliver standard set w (w.layer.cursor.past r) ⟨r.field, r.payload.value⟩ := by
  simp only [turn, (step_record h).1]

theorem turn_refuses (hne : w.layer.cursor.data.drop w.layer.cursor.pos ≠ [])
    (h : first standard (w.layer.cursor.data.drop w.layer.cursor.pos) = none) :
    ∃ pos kind, turn standard set w = refuse pos kind := by
  obtain ⟨fault, c', hstep⟩ := step_refuses hne h
  exact ⟨w.layer.base + fault.pos, .wire (breach fault.kind), by simp only [turn, hstep]⟩

/-! ## A layer -/

/-- The walk behind a layer's edits. -/
def Walk.behind (w : Walk) (cursor : Cursor) (staged : List Path.State) (t : Edits) : Walk :=
  { w.moved cursor with
    matcher := w.matcher.restage staged
    writes := w.writes ++ t.writes w.head
    stats := t.actions.foldl Stats.note w.stats }

/-- What the walk of a layer's remaining bytes comes to, in as many turns as bytes at most: the
writes of its edits, or a refusal where it has none. -/
inductive Goes (standard : Standard) (set : RuleSet) (w : Walk) (bytes : List UInt8) :
    Option Edits → Prop where
  | settles {t : Edits} {n : Nat} (cursor : Cursor) (staged : List Path.State) :
      Takes (turn standard set) n w (w.behind cursor staged t) → n ≤ bytes.length →
      cursor.data.drop cursor.pos = [] → Goes standard set w bytes (some t)
  | refuses {n : Nat} {v : Walk} {pos : Nat} {kind : FaultKind} :
      Takes (turn standard set) n w v → turn standard set v = refuse pos kind →
      n ≤ bytes.length → Goes standard set w bytes none

theorem Goes.halts {pos : Nat} {kind : FaultKind} (h : turn standard set w = refuse pos kind) :
    Goes standard set w bytes none :=
  .refuses (.refl w) h (Nat.zero_le _)

/-- A layer goes as what is behind its first record goes. -/
theorem Goes.record {staged : List Path.State} {command : Option Action} {o : Option Edits}
    (became : List Record) (hr : r.Lawful standard)
    (hturn : turn standard set w = .next (w.past r staged command))
    (h : Goes standard set (w.past r staged command) rest o) :
    Goes standard set w (r.bytes ++ rest) (o.map (.record r command became)) := by
  have hpos := hr.length_pos
  cases h with
  | settles cursor staged' hsteps hn hend =>
    have hsame : ∀ t : Edits, w.behind cursor staged' (.record r command became t) =
        (w.past r staged command).behind cursor staged' t := by
      intro t
      have hhead : (w.past r staged command).head = w.head + r.bytes.length := head_past
      simp only [Walk.behind, Edits.writes, Edits.actions, List.foldl_append, ← List.append_assoc,
        hhead]
      rfl
    rw [← hsame] at hsteps
    refine .settles cursor staged' (.head hturn hsteps) ?_ hend
    rw [List.length_append]
    omega
  | refuses hsteps hhalt hn =>
    refine .refuses (.head hturn hsteps) hhalt ?_
    rw [List.length_append]
    omega

/-- The walk inside a crossed record. -/
def Walk.inside (w : Walk) (r : Record) (live : List Path.State) (command : Option Action)
    (word payload : List UInt8) : Walk :=
  let past := w.past r [] command
  { past with
    matcher := w.matcher.opened live
    layer := ⟨⟨payload, 0, 0, 0⟩, w.head + (r.tag ++ word).length, w.layer.remaining - 1⟩
    below := past.layer :: w.below }

/-- The walk behind a crossed record. -/
def Walk.across (w : Walk) (r : Record) (staged : List Path.State) (command : Option Action)
    (word : List UInt8) (interior : Edits) : Walk :=
  let past := w.past r staged command
  { past with
    writes := past.writes ++ interior.writes (w.head + (r.tag ++ word).length)
    stats := interior.actions.foldl Stats.note past.stats }

theorem descend_inside {command : Option Action} {word payload : List UInt8} {below : Nat}
    (hat : At set.provider chain w.matcher live) (hremaining : w.layer.remaining = below + 1)
    (hfit : payload.length ≤ PayloadLen.max) :
    descend (w.past r (w.matcher.probeRoutes r.field).2.staged command) w.head
        (w.head + (r.tag ++ word).length) payload =
      .next (w.inside r (Path.descend set.provider live r.field) command word payload) := by
  have hopened : (w.matcher.restage (w.matcher.probeRoutes r.field).2.staged).commitDescent =
      w.matcher.opened (Path.descend set.provider live r.field) := hat.commitDescent r.field
  have hleft : (w.past r (w.matcher.probeRoutes r.field).2.staged command).layer.remaining =
      w.layer.remaining := rfl
  unfold descend
  rw [hleft, if_neg (by omega), within, if_pos hfit]
  simp only [Walk.inside, ← hopened]
  rfl

/-- A crossed interior is left where it was entered. -/
theorem turn_across (standard : Standard) (hat : At set.provider chain w.matcher live)
    (r : Record) (live' : List Path.State) (command : Option Action) (word payload : List UInt8)
    {cursor : Cursor} (hend : cursor.data.drop cursor.pos = []) (staged : List Path.State)
    (t : Edits) :
    turn standard set ((w.inside r live' command word payload).behind cursor staged t) =
      .next (w.across r staged command word t) := by
  rw [turn_end (w := (w.inside r live' command word payload).behind cursor staged t) hend]
  have hexit : ((w.matcher.opened live').restage staged).exit = w.matcher.restage staged :=
    hat.exit_opened live' staged
  simp only [Walk.behind, Walk.inside, Walk.across, Walk.past, hexit]
  rfl

/-- A layer goes into its first record, and on behind it. -/
theorem Goes.crossed {word payload : List UInt8} {renumbered : Option FieldNumber} {below : Nat}
    {i o : Option Edits} (became : Edits → List Record) (hr : r.Lawful standard)
    (hp : r.payload = .len word payload) (hat : At set.provider chain w.matcher live)
    (hremaining : w.layer.remaining = below + 1) (hfit : payload.length ≤ PayloadLen.max)
    (hturn : turn standard set w = descend
      (w.past r (w.matcher.probeRoutes r.field).2.staged (renumbered.map .renumber)) w.head
      (w.head + (r.tag ++ word).length) payload)
    (hi : Goes standard set (w.inside r (Path.descend set.provider live r.field)
      (renumbered.map .renumber) word payload) payload i)
    (hsource : ∀ t ∈ i, t.source = payload)
    (ho : ∀ staged, ∀ t ∈ i, Goes standard set
      (w.across r staged (renumbered.map .renumber) word t) rest o) :
    Goes standard set w (r.bytes ++ rest) (i.bind fun interior => o.map fun behind =>
      .crossed r.field r.tag word renumbered (became interior) interior behind) := by
  have hlen : r.bytes.length = r.tag.length + (word.length + payload.length) := by
    simp [Record.bytes, hp, Payload.bytes]
  have htag := hr.isTag.admits.isWord.length_pos
  have hword : 0 < word.length := by
    have hlaw := hr.payload
    rw [hp] at hlaw
    exact hlaw.1.isWord.length_pos
  rw [descend_inside hat hremaining hfit] at hturn
  cases hi with
  | refuses hsteps hhalt hn =>
    refine .refuses (.head hturn hsteps) hhalt ?_
    rw [List.length_append]
    omega
  | settles cursor staged hsteps hn hend =>
    rename_i t n
    have hexit := turn_across standard hat r (Path.descend set.provider live r.field)
      (renumbered.map .renumber) word payload
      hend staged t
    have hcross := hsteps.trans (.head hexit (.refl _))
    cases ho staged t rfl with
    | refuses hsteps' hhalt hn' =>
      refine .refuses (.head hturn (hcross.trans hsteps')) hhalt ?_
      rw [List.length_append]
      omega
    | settles cursor' staged' hsteps' hn' hend' =>
      rename_i behind n'
      have hsame :
          (w.across r staged (renumbered.map .renumber) word t).behind cursor' staged' behind =
          w.behind cursor' staged'
            (.crossed r.field r.tag word renumbered (became t) t behind) := by
        have hmet : (⟨r.field, r.tag, .len word t.source⟩ : Record) = r := by
          rw [hsource t rfl, ← hp]
        have hhead : (w.across r staged (renumbered.map .renumber) word t).head =
            w.head + r.bytes.length := head_past
        simp only [Walk.behind, Edits.writes, Edits.actions, List.foldl_append, hhead, hmet,
          ← List.append_assoc]
        simp only [Walk.across, Walk.past, Option.map_map]
        rfl
      rw [hsame] at hsteps'
      refine .settles cursor' staged' (.head hturn (hcross.trans hsteps')) ?_ hend'
      rw [List.length_append]
      omega

/-! ### The walk goes as the edits are commanded -/

section Inversion

variable {T : Turned} {command : Option Action} {out : List Record}

theorem Delivers.refused (h : Delivers standard set chain w r T)
    (hno : ∀ command, commanded set chain r.field = some command →
      outcome standard r command = none) : ∃ pos kind, T = refuse pos kind := by
  cases h with
  | conflict pos kind | unfit pos kind => exact ⟨pos, kind, rfl⟩
  | passes staged hc ho | enters hc ho =>
    rw [hno _ hc] at ho
    cases ho

theorem Delivers.passed (h : Delivers standard set chain w r T)
    (hc : commanded set chain r.field = some command) (ho : outcome standard r command = some out)
    (he : entered set chain r command = none) :
    ∃ staged, T = .next (w.past r staged command) := by
  cases h with
  | conflict pos kind hc' => rw [hc] at hc'; cases hc'
  | unfit pos kind hc' ho' => rw [hc] at hc'; cases hc'; rw [ho] at ho'; cases ho'
  | passes staged hc' => rw [hc] at hc'; cases hc'; exact ⟨staged, rfl⟩
  | enters hc' ho' he' => rw [hc] at hc'; cases hc'; rw [he] at he'; cases he'

theorem Delivers.entering {word payload : List UInt8} {renumbered : Option FieldNumber}
    (h : Delivers standard set chain w r T) (hc : commanded set chain r.field = some command)
    (ho : outcome standard r command = some out)
    (he : entered set chain r command = some (word, payload, renumbered)) :
    T = descend (w.past r (w.matcher.probeRoutes r.field).2.staged command) w.head
      (w.head + (r.tag ++ word).length) payload := by
  cases h with
  | conflict pos kind hc' => rw [hc] at hc'; cases hc'
  | unfit pos kind hc' ho' => rw [hc] at hc'; cases hc'; rw [ho] at ho'; cases ho'
  | passes staged hc' ho' he' => rw [hc] at hc'; cases hc'; rw [he] at he'; cases he'
  | enters hc' ho' he' => rw [hc] at hc'; cases hc'; rw [he] at he'; cases he'; rfl

end Inversion

theorem Stands.turns (h : Stands set chain live remaining bytes w)
    (hfirst : first standard bytes = some (r, rest)) :
    Delivers standard set chain w r (turn standard set w) := by
  rw [turn_record (h.data.symm ▸ hfirst)]
  exact delivers h.paths (first_iff.mp hfirst).2

theorem Stands.past (h : Stands set chain live remaining bytes w)
    (hfirst : first standard bytes = some (r, rest)) (staged : List Path.State)
    (command : Option Action) :
    Stands set chain live remaining rest (w.past r staged command) :=
  ⟨(step_record (h.data.symm ▸ hfirst)).2, h.paths.restage staged, h.remaining,
    (Nat.le_of_lt (first_rest_lt hfirst)).trans h.fits⟩

theorem Stands.inside {below : Nat} {word payload : List UInt8}
    (h : Stands set chain live (below + 1) bytes w) (command : Option Action)
    (hle : payload.length ≤ bytes.length) :
    Stands set (chain ++ [r.field]) (Path.descend set.provider live r.field) below payload
      (w.inside r (Path.descend set.provider live r.field) command word payload) :=
  ⟨rfl, h.paths.opened r.field, by simp [Walk.inside, h.remaining], hle.trans h.fits⟩

/-- The walk of a layer's remaining bytes plans the edits commanded of them. -/
theorem walk_revise (standard : Standard) (h : Stands set chain live remaining bytes w) :
    Goes standard set w bytes (revise standard set remaining chain bytes) := by
  fun_induction revise standard set remaining chain bytes generalizing w live with
  | case1 remaining chain =>
    have hself : w.behind w.layer.cursor w.matcher.staged .nil = w := by
      simp only [Walk.behind, Edits.writes, List.append_nil, restage_self]
      rfl
    refine .settles w.layer.cursor w.matcher.staged ?_ (Nat.zero_le _) h.data
    rw [hself]
    exact .refl w
  | case2 remaining chain bytes hne hfirst =>
    obtain ⟨pos, kind, hturn⟩ := turn_refuses (h.data.symm ▸ hne) (h.data.symm ▸ hfirst)
    exact .halts hturn
  | case3 remaining chain bytes hne r rest hfirst hcommand =>
    obtain ⟨pos, kind, hturn⟩ := (h.turns hfirst).refused fun command hc => by
      rw [hcommand] at hc
      cases hc
    exact .halts hturn
  | case4 remaining chain bytes hne r rest hfirst command hcommand hentered ih =>
    cases ho : outcome standard r command with
    | none =>
      obtain ⟨pos, kind, hturn⟩ := (h.turns hfirst).refused fun command' hc => by
        rw [hcommand] at hc
        cases hc
        exact ho
      exact .halts hturn
    | some became =>
      obtain ⟨staged, hturn⟩ := (h.turns hfirst).passed hcommand ho hentered
      obtain ⟨hbytes, hr⟩ := first_iff.mp hfirst
      have hgoes := Goes.record became hr hturn (ih (h.past hfirst staged command))
      rw [← hbytes] at hgoes
      cases hb : revise standard set remaining chain rest <;> rw [hb] at hgoes <;> exact hgoes
  | case5 chain bytes hne r rest hfirst command hcommand word payload renumbered hentered =>
    cases ho : outcome standard r command with
    | none =>
      obtain ⟨pos, kind, hturn⟩ := (h.turns hfirst).refused fun command' hc => by
        rw [hcommand] at hc
        cases hc
        exact ho
      exact .halts hturn
    | some became =>
      have hturn := (h.turns hfirst).entering hcommand ho hentered
      have hleft :
          (w.past r (w.matcher.probeRoutes r.field).2.staged command).layer.remaining = 0 :=
        h.remaining
      rw [descend, if_pos hleft] at hturn
      exact .halts hturn
  | case6 chain bytes hne r rest hfirst command hcommand word payload renumbered hentered below
    ihi ihr =>
    obtain ⟨hp, rfl, -⟩ := entered_some _ _ hentered
    obtain ⟨hbytes, hr⟩ := first_iff.mp hfirst
    have hmet : (⟨r.field, r.tag, .len word payload⟩ : Record) = r := by rw [← hp]
    cases ho : outcome standard r (renumbered.map .renumber) with
    | none =>
      obtain ⟨pos, kind, hturn⟩ := (h.turns hfirst).refused fun command hc => by
        rw [hcommand] at hc
        cases hc
        exact ho
      -- a crossing that fits with one payload fits with every other
      have hno : ∀ new, outcome standard ⟨r.field, r.tag, .len word new⟩
          (renumbered.map .renumber) = none := by
        intro new
        refine Option.eq_none_iff_forall_ne_some.mpr fun became hbecame => ?_
        obtain ⟨_, _, -, -, hevery⟩ := Edits.outcome_crossed hbecame
        have hsome := hevery payload
        rw [hmet, ho] at hsome
        cases hsome
      have hrevise : (do
          let interior ← revise standard set below (chain ++ [r.field]) payload
          let became ← outcome standard ⟨r.field, r.tag, .len word interior.output⟩
            (renumbered.map .renumber)
          let behind ← revise standard set (below + 1) chain rest
          some (Edits.crossed r.field r.tag word renumbered became interior behind)) = none := by
        cases revise standard set below (chain ++ [r.field]) payload with
        | none => rfl
        | some interior =>
          rw [Option.bind_eq_bind, Option.bind_some, hno]
          rfl
      rw [hrevise]
      exact .halts hturn
    | some became =>
      have hturn := (h.turns hfirst).entering hcommand ho hentered
      rw [← hmet] at ho
      obtain ⟨field', tag', -, -, hevery⟩ := Edits.outcome_crossed ho
      have hle : payload.length ≤ bytes.length := Nat.le_of_lt (first_payload_lt hfirst hp)
      have hgoes := Goes.crossed (fun interior => [⟨field', tag', .len word interior.output⟩]) hr hp
        h.paths h.remaining (hle.trans h.fits) hturn (ihi (h.inside _ hle))
        (fun t ht => (revise_spec ht).1)
        (fun staged t _ => ihr (show Stands set chain live (below + 1) rest _ from
          have hpast := h.past hfirst staged (renumbered.map .renumber)
          ⟨hpast.data, hpast.paths, hpast.remaining, hpast.fits⟩))
      rw [← hbytes] at hgoes
      simp only [hevery]
      cases hi : revise standard set below (chain ++ [r.field]) payload with
      | none => rw [hi] at hgoes; exact hgoes
      | some interior =>
        rw [hi] at hgoes
        cases hb : revise standard set (below + 1) chain rest <;> rw [hb] at hgoes <;> exact hgoes

/-! ## The job -/

section Job

variable (standard : Standard) (set : RuleSet) (limit : DepthLimit) (buf : List UInt8)

/-- The walk of a buffer plans the edits commanded of it, or refuses. -/
theorem walk_spec (hfit : buf.length ≤ PayloadLen.max) :
    match revise standard set limit.asInner [] buf with
    | some t => walk standard set limit buf =
        some (.ok (t.writes 0, t.actions.foldl Stats.note .zero))
    | none => ∃ fault, walk standard set limit buf = some (.error fault) := by
  have hover : Cursor.over buf = some ⟨buf, 0, 0, 0⟩ := if_neg (Nat.not_lt.mpr hfit)
  have hstands : Stands set [] (heads set.provider) limit.asInner buf
      (start set limit ⟨buf, 0, 0, 0⟩) := ⟨rfl, at_new set.provider, rfl, hfit⟩
  have hgoes := walk_revise standard hstands
  unfold walk
  rw [hover]
  cases hr : revise standard set limit.asInner [] buf with
  | none =>
    rw [hr] at hgoes
    cases hgoes with
    | refuses hsteps hhalt hn =>
      have hrun := hsteps.halts hhalt (show _ < buf.length + 2 by omega)
      exact ⟨_, congrArg (Option.getD · none) hrun⟩
  | some t =>
    rw [hr] at hgoes
    cases hgoes with
    | settles cursor staged hsteps hn hend =>
      have hhalt : turn standard set ((start set limit ⟨buf, 0, 0, 0⟩).behind cursor staged t) =
          .halt (some (.ok _)) := turn_end hend
      have hrun := hsteps.halts hhalt (show _ < buf.length + 2 by omega)
      exact congrArg (Option.getD · none) hrun

end Job

/-- A layer parsed, before the job and behind it: every record is as it was met, or as
commanded. -/
structure Reparsed (standard : Standard) (l : Edits) : Prop where
  met : records standard l.source = some (l.nodes.map Node.met)
  became : records standard l.output = some (l.nodes.flatMap Node.became)
  exact : ∀ n ∈ l.nodes, n.Exact standard

/-- A job done: the edits the rules command, the writes planned for them, and the buffer left. -/
structure Exact (standard : Standard) (set : RuleSet) (limit : DepthLimit) (buf out : List UInt8)
    (stats : Stats) (writes : List Write) (t : Edits) : Prop where
  commanded : revise standard set limit.asInner [] buf = some t
  planned : walk standard set limit buf = some (.ok (writes, stats))
  receipt : stats = t.actions.foldl Stats.note .zero
  apart : writes.Pairwise (Clear standard)
  inside : ∀ w ∈ writes, w.stop standard ≤ buf.length
  length : out.length = buf.length
  frame : ∀ i, (∀ w ∈ writes, i < w.pos ∨ w.stop standard ≤ i) → out[i]? = buf[i]?
  source : t.source = buf
  output : t.output = out
  reparses : ∀ l ∈ t :: t.interiors, Reparsed standard l

theorem Edits.Sound.reparsed {standard : Standard} {l : Edits} (h : l.Sound standard)
    (hle : l.source.length ≤ PayloadLen.max) : Reparsed standard l := by
  have hexact := (h.keeps hle).2
  refine ⟨?_, ?_, hexact⟩
  · rw [l.source_nodes]
    refine records_of_lawful fun r hr => ?_
    obtain ⟨n, hn, rfl⟩ := List.mem_map.mp hr
    exact (hexact n hn).met
  · rw [l.output_nodes]
    refine records_of_lawful fun r hr => ?_
    obtain ⟨n, hn, hr⟩ := List.mem_flatMap.mp hr
    exact (hexact n hn).lawful r hr

/-- In-place editing is exact and atomic: a job is refused where the buffer is over the cap or the
rules command no edits of it, and leaves the buffer as it was; any other lands the commanded
edits, and nothing else. A tombstone fills every extent that holds its filler's tag and a byte. -/
theorem apply_exact (standard : Standard) (set : RuleSet) (limit : DepthLimit) (buf : List UInt8) :
    ((PayloadLen.max < buf.length ∨ revise standard set limit.asInner [] buf = none) ∧
        (∃ fault, applyStandard standard set limit buf = some (.error fault, buf)) ∨
      buf.length ≤ PayloadLen.max ∧
        ∃ out stats writes t, applyStandard standard set limit buf = some (.ok stats, out) ∧
          Exact standard set limit buf out stats writes t) ∧
    ∀ field extent, fillerNeed field ≤ extent → extent ≤ PayloadLen.max →
      ∃ rs, fill standard extent field = rs.flatMap Record.bytes ∧
        Filled standard field extent rs := by
  refine ⟨?_, fun field extent hneed hle =>
    ⟨_, fill_eq standard extent field, fillers_filled standard hneed hle⟩⟩
  by_cases hfit : buf.length ≤ PayloadLen.max
  · have hwalk := walk_spec standard set limit buf hfit
    cases hr : revise standard set limit.asInner [] buf with
    | none =>
      rw [hr] at hwalk
      obtain ⟨fault, hwalk⟩ := hwalk
      exact .inl ⟨.inr rfl, fault, by simp only [applyStandard, hwalk]⟩
    | some t =>
      rw [hr] at hwalk
      obtain ⟨hsource, hsound⟩ := revise_spec hr
      have hle : t.source.length ≤ PayloadLen.max := hsource.symm ▸ hfit
      obtain ⟨hcommit, hapart⟩ := hsound.commits hle [] []
      simp only [List.nil_append, List.append_nil, hsource, List.length_nil] at hcommit hapart
      obtain ⟨hlen, hframe⟩ := commit_frame hcommit
      have happly : applyStandard standard set limit buf =
          some (.ok (t.actions.foldl Stats.note .zero), t.output) := by
        simp only [applyStandard, hwalk, hcommit]
        rfl
      refine .inr ⟨hfit, t.output, _, _, t, happly, ⟨hr, hwalk, rfl, hapart.pairwise,
        fun w hw => (hapart.inside w hw).2, hlen, hframe, hsource, rfl, ?_⟩⟩
      refine List.forall_mem_cons.mpr ⟨hsound.reparsed hle, fun l hl => ?_⟩
      obtain ⟨hs, hl'⟩ := hsound.interior l hl
      exact hs.reparsed (hl'.trans hle)
  · have hlong := Nat.lt_of_not_le hfit
    have hover : Cursor.over buf = none := if_pos hlong
    exact .inl ⟨.inl hlong, ⟨0, .oversize⟩, by simp only [applyStandard, walk, hover]⟩

end ProtobufEdit.Inplace.Groupless
