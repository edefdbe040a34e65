import ProtobufEdit.Path.Language
import ProtobufEdit.Select.Grouped.Tree

/-!
# The selector walks the committed document

`Stands` is the walk between two records; `walk_tree` follows it over a tree, one case per
shape. The pulls from the root deliver exactly what the tree's paths select.
-/

namespace ProtobufEdit.Select.Grouped

open Wire Wire.Grouped ProtobufEdit.Path Cursor Cursor.Grouped Loop

/-! ## A refused head -/

section Refusal

variable {standard : Standard} {s : Scope} {c : Cursor} {offset : Nat} {b : WireBreach}

/-- A refusal is the cursor's, or a group past the budget. -/
theorem step_refused (ho : c.opens.head?.map Prod.fst = s.opened)
    (h : refusal standard s (c.data.drop c.pos) = some (offset, b)) :
    (∃ fault c', step standard c = (some (.error fault), c') ∧ fault.pos = c.pos + offset ∧
      breach fault.kind = b) ∨
    ∃ field tag rest, c.data.drop c.pos = tag ++ rest ∧
      IsTag standard field RecordKind.group.low3 tag ∧ s.room = 0 ∧ offset = 0 ∧ b = .depth := by
  unfold refusal at h
  split at h
  case isTrue hnil =>
    left
    unfold step
    rw [if_pos (List.drop_eq_nil_iff.mp hnil)]
    cases hopens : c.opens with
    | nil =>
      rw [hopens] at ho
      rw [← ho] at h
      cases h
    | cons o opens =>
      rw [hopens] at ho
      rw [← ho] at h
      cases h
      exact ⟨_, _, rfl, rfl, rfl⟩
  case isFalse hne =>
    have hin : ¬ c.data.length ≤ c.pos := fun hle => hne (List.drop_eq_nil_iff.mpr hle)
    have hshift := @readHead_drop standard c.data c.pos
    split at h
    case h_1 off fault hhead =>
      cases h
      left
      rw [hhead] at hshift
      unfold step
      rw [if_neg hin, hshift]
      exact ⟨_, _, rfl, rfl, rfl⟩
    case h_2 field code tagW hhead =>
      rw [hhead] at hshift
      have hbody : ∀ kind : Groupless.RecordKind, code = kind.low3 →
          refusal.body tagW (readBody standard ((c.data.drop c.pos).drop tagW) 0 field kind) =
            some (offset, b) →
          ∃ fault c', step standard c = (some (.error fault), c') ∧ fault.pos = c.pos + offset ∧
            breach fault.kind = b := by
        intro kind hk hr
        rw [step_arm hin (hk ▸ hshift), readBody_drop, ← List.drop_drop]
        cases hb : readBody standard ((c.data.drop c.pos).drop tagW) 0 field kind with
        | ok body => rw [hb] at hr; cases hr
        | error refused =>
          rw [hb] at hr
          cases hr
          exact ⟨_, _, rfl, Nat.add_assoc _ _ _, rfl⟩
      split at h
      case h_1 hc => exact .inl (hbody .varint (low3_of_classify hc) h)
      case h_2 hc => exact .inl (hbody .i64 (low3_of_classify hc) h)
      case h_3 hc => exact .inl (hbody .i32 (low3_of_classify hc) h)
      case h_4 hc => exact .inl (hbody .len (low3_of_classify hc) h)
      case h_5 hc =>
        split at h
        · cases h
          obtain ⟨tag, rest, he, ht, rfl⟩ := readHead_ok.mp hhead
          exact .inr ⟨field, tag, rest, he, low3_of_classify hc ▸ ht, ‹_›, rfl, rfl⟩
        · cases h
      case h_6 hc =>
        split at h
        · cases h
        · next hother =>
          cases h
          left
          unfold step
          rw [if_neg hin, hshift]
          simp only [shifted, id_eq, hc]
          rw [← ho] at hother
          cases hopens : c.opens with
          | nil => exact ⟨_, _, rfl, rfl, rfl⟩
          | cons o opens =>
            rw [hopens] at hother
            have hne' : o.1 ≠ field := fun e => hother (congrArg some e)
            simp only [if_neg hne']
            exact ⟨_, _, rfl, rfl, rfl⟩
      case h_7 hc =>
        cases h
        left
        unfold step
        rw [if_neg hin, hshift]
        simp only [shifted, id_eq, hc]
        exact ⟨_, _, rfl, rfl, rfl⟩

end Refusal

/-! ## Between two records -/

/-- The walk stands in a scope at `pos`, with `bytes` ahead in its window and nothing pending. -/
structure Stands (program : Program) (s : Scope) (crossed : List Crossing) (pos : Nat)
    (bytes : List UInt8) (live : List State) (layer : Layer) (below : List Layer) (m : Matches) :
    Prop where
  layers : m.layers = layer :: below
  crossed : trail (layer :: below) = crossed
  here : layer.base + layer.cursor.pos = pos
  ahead : layer.cursor.data.drop layer.cursor.pos = bytes
  bound : layer.cursor.limit = m.limit
  opened : layer.cursor.opens.head?.map Prod.fst = s.opened
  depth : layer.cursor.opens.length = layer.groupDepth
  room : layer.groupDepth + s.room = layer.remaining
  capped : layer.remaining ≤ m.limit.asInner
  drained : m.pending[m.nextHit]? = none
  calm : m.stalled = none
  live : Live program.provider m.matcher s.chain live
  source : ∃ behind, m.input.drop pos = bytes ++ behind
  sized : m.input.length ≤ PayloadLen.max

theorem trail_cons (layer : Layer) (below : List Layer) :
    trail (layer :: below) = trail below ++ layer.crossing.toList := by
  unfold trail
  rw [List.reverse_cons, List.filterMap_append]
  cases hc : layer.crossing <;> simp [hc]

/-- The walk further on in its layer. -/
def Matches.onward (m : Matches) (layer : Layer) (below : List Layer) (cursor : Cursor.Grouped.Cursor)
    (staged : List State) (pending : List Match) (nextHit : Nat) : Matches :=
  { m with
    layers := { layer with cursor } :: below
    matcher := m.matcher.restage staged
    pending, nextHit }

/-- The deliveries of some records. -/
def items (program : Program) (os : List Occurrence) : List Item :=
  (os.flatMap (matchesOf program)).map .ok

theorem items_append (program : Program) (os os' : List Occurrence) :
    items program (os ++ os') = items program os ++ items program os' := by
  simp only [items, List.flatMap_append, List.map_append]

section Standing

variable {program : Program} {standard : Standard} {s : Scope} {crossed : List Crossing}
  {pos : Nat} {bytes : List UInt8} {live : List State} {layer : Layer} {below : List Layer}
  {m : Matches}

/-- The read fold delivers the paths selecting the field. -/
theorem visit_eq {chain : List FieldNumber} (h : Live program.provider m.matcher chain live)
    (field : FieldNumber) : m.matcher.visitTargets field =
      (List.range program.paths.length).filter fun id =>
        Selects (program.paths.getD id []) (chain ++ [field]) := by
  rw [h.at.visitTargets, Paths.hits]
  have hcount : program.provider.count = program.paths.length := List.length_map _
  have hpath : ∀ id, program.provider.path id = program.paths.getD id [] := by
    intro id
    simp only [Paths.path, Program.provider, List.getD_eq_getElem?_getD, List.getElem?_map]
    cases program.paths[id]? <;> rfl
  simp only [hcount, hpath, @Paths.lane_of_unlaned program.provider rfl, true_and]

section Turns

variable (h : Stands program s crossed pos bytes live layer below m) {cursor : Cursor.Grouped.Cursor}
include h

theorem Stands.turn_end (hstep : step standard layer.cursor = (none, cursor)) :
    m.turn standard =
      if below = [] then .halt (.ok (none, { m with layers := { layer with cursor } :: below }))
      else .next { m with layers := below, matcher := m.matcher.exit } := by
  unfold Matches.turn
  simp only [h.drained, h.calm, h.layers, hstep]

theorem Stands.turn_fault {fault : Cursor.Grouped.Fault}
    (hstep : step standard layer.cursor = (some (.error fault), cursor)) :
    m.turn standard = .halt (.ok (some (.error
      ⟨layer.base + fault.pos, crossed, breach fault.kind⟩), { m with layers := [] })) := by
  unfold Matches.turn
  simp only [h.drained, h.calm, h.layers, hstep, Matches.refuse, ← h.crossed, trail_cons]

theorem Stands.turn_entry {entry : Entry}
    (hstep : step standard layer.cursor = (some (.ok entry), cursor)) :
    m.turn standard = m.deliver { layer with cursor } below pos entry := by
  unfold Matches.turn
  simp only [h.drained, h.calm, h.layers, hstep, h.here]

end Turns

/-- A fused iterator is spent. -/
theorem spent_of_fused (hl : m.layers = []) (hs : m.stalled = none)
    (hp : m.pending[m.nextHit]? = none) : Spent (Matches.turn standard) m := by
  unfold Spent Matches.turn
  rw [hp, hs, hl]

theorem turn_stalled {fault : Fault} (hp : m.pending[m.nextHit]? = none)
    (hs : m.stalled = some fault) : m.turn standard =
      .halt (.ok (some (.error fault), { m with stalled := none, layers := [] })) := by
  unfold Matches.turn
  rw [hp, hs]

/-- What is pending is drained. -/
theorem drain (m : Matches) (hn : m.nextHit ≤ m.pending.length) :
    Emits (Matches.turn standard) m ((m.pending.drop m.nextHit).map .ok)
      { m with nextHit := m.pending.length } := by
  induction hk : m.pending.length - m.nextHit generalizing m with
  | zero =>
    have he : m.nextHit = m.pending.length := by omega
    rw [he, List.drop_length, List.map_nil, ← he]
    exact .refl m
  | succ k ih =>
    have hlt : m.nextHit < m.pending.length := by omega
    rw [List.drop_eq_getElem_cons hlt, List.map_cons]
    refine .item ?_ (ih { m with nextHit := m.nextHit + 1 } hlt (by simp only; omega))
    unfold Matches.turn
    rw [List.getElem?_eq_getElem hlt]

/-! ## One record -/

section Deliveries

variable (h : Stands program s crossed pos bytes live layer below m)
include h

/-- What a record delivers to the paths that target it. -/
theorem Stands.fanOut (field : FieldNumber) (span : Span) (kind : MatchKind) :
    (m.matcher.visitTargets field).map (fun id => (⟨id, field, span, kind⟩ : Match)) =
      matchesOf program ⟨s.chain, field, span, kind⟩ := by
  rw [visit_eq h.live, matchesOf]

/-- The state behind a record passed in its layer. -/
theorem Stands.past {r : Record} {rest : List UInt8} (he : bytes = r.bytes ++ rest)
    (staged : List State) {pending : List Match} {nextHit : Nat}
    (hd : pending[nextHit]? = none) :
    Stands program s crossed (pos + r.bytes.length) rest live
      { layer with cursor := layer.cursor.past r } below
      (m.onward layer below (layer.cursor.past r) staged pending nextHit) where
  layers := rfl
  crossed := by rw [← h.crossed, trail_cons, trail_cons]
  here := by rw [← h.here]; exact (Nat.add_assoc _ _ _).symm
  ahead := drop_of_drop_eq (h.ahead.trans he)
  bound := h.bound
  opened := h.opened
  depth := h.depth
  room := h.room
  capped := h.capped
  drained := hd
  calm := h.calm
  live := h.live.restage staged
  source := by
    obtain ⟨behind, hb⟩ := h.source
    rw [he, List.append_assoc] at hb
    exact ⟨behind, drop_of_drop_eq hb⟩
  sized := h.sized

theorem Stands.span {r : Record} :
    walkSpan pos (layer.base + (layer.cursor.past r).pos) = ⟨pos, r.bytes.length⟩ := by
  rw [walkSpan, ← h.here]
  congr 1
  show layer.base + (layer.cursor.pos + r.bytes.length) - _ = _
  omega

/-- A record's fan-out, in the state the turn leaves. -/
theorem Stands.fanned {r : Record} {kind : MatchKind} (hk : kindOf r.payload.value = kind) :
    Matches.fanOut { m with
        layers := { layer with cursor := layer.cursor.past r } :: below
        pending := []
        nextHit := 0 } r.field (walkSpan pos (layer.base + (layer.cursor.past r).pos)) kind =
      m.onward layer below (layer.cursor.past r) m.matcher.staged
        (matchesOf program (.of s.chain pos r)) 0 := by
  subst hk
  rw [h.span, Occurrence.of, ← h.fanOut, Matches.fanOut, List.nil_append]
  rfl

/-- The turn over a LEN record, up to the route question. -/
theorem Stands.turn_len {r : Record} {rest word payload : List UInt8}
    (he : bytes = r.bytes ++ rest) (hlaw : r.Lawful standard)
    (hp : r.payload = .len word payload) :
    m.turn standard =
      (m.onward layer below (layer.cursor.past r) m.matcher.staged
        (matchesOf program (.of s.chain pos r)) 0).enterLen
          { layer with cursor := layer.cursor.past r } pos (pos + r.bytes.length) r.field
          payload := by
  have hstop : layer.base + (layer.cursor.past r).pos = pos + r.bytes.length := by
    rw [← h.here]
    exact (Nat.add_assoc _ _ _).symm
  rw [h.turn_entry (step_record (h.ahead.trans he) hlaw), hp]
  refine (congrArg (fun fanned : Matches => fanned.enterLen { layer with cursor := _ } pos _
    r.field payload) (h.fanned (congrArg (fun p => kindOf (Payload.value p)) hp))).trans ?_
  rw [hstop]

/-- The turn over a record whose payload, if it has one, stays closed. -/
theorem Stands.turn_leaf {r : Record} {rest : List UInt8} (he : bytes = r.bytes ++ rest)
    (hlaw : r.Lawful standard)
    (hclosed : interior r = none ∨ program.provider.routes s.chain r.field = false) :
    ∃ staged, m.turn standard = .next (m.onward layer below (layer.cursor.past r) staged
      (matchesOf program (.of s.chain pos r)) 0) := by
  cases hp : r.payload with
  | varint _ | i64 _ | i32 _ =>
    rw [h.turn_entry (step_record (h.ahead.trans he) hlaw), hp]
    exact ⟨_, congrArg Turn.next (h.fanned (congrArg (fun p => kindOf (Payload.value p)) hp))⟩
  | len word payload =>
    have hroute : program.provider.routes s.chain r.field = false := by
      refine hclosed.resolve_left ?_
      simp only [interior, hp]
      intro e
      cases e
    rw [← h.live.at.routes] at hroute
    refine ⟨(m.matcher.probeRoutes r.field).2.staged, ?_⟩
    rw [h.turn_len he hlaw hp]
    show (if (m.matcher.probeRoutes r.field).1 = false then _ else _) = _
    rw [if_pos hroute]
    rfl

/-- The layer over the payload of a LEN record. -/
def opening (layer : Layer) (limit : DepthLimit) (pos : Nat) (r : Record) (payload : List UInt8) :
    Layer :=
  ⟨⟨payload, [], 0, limit, 0, 0⟩, pos + (r.bytes.length - payload.length), some ⟨r.field, pos⟩,
    layer.remaining - layer.groupDepth - 1, 0⟩

/-- The walk with its layers and the matcher's descent committed. -/
def Matches.inside (m : Matches) (layers : List Layer) (opened : List State)
    (pending : List Match) (nextHit : Nat) : Matches :=
  { m with layers, matcher := m.matcher.opened opened, pending, nextHit }

/-- The turn over a LEN record that opens. -/
theorem Stands.turn_open {r : Record} {rest payload : List UInt8} (he : bytes = r.bytes ++ rest)
    (hlaw : r.Lawful standard) (hi : interior r = some payload)
    (hroutes : program.provider.routes s.chain r.field = true) (hroom : 0 < s.room) :
    m.turn standard = .next (m.inside
      (opening layer m.limit pos r payload ::
        { layer with cursor := layer.cursor.past r } :: below)
      (descend program.provider live r.field) (matchesOf program (.of s.chain pos r)) 0) := by
  obtain ⟨word, hp⟩ := interior_eq_some hi
  have hlt := payload_lt hlaw hi
  have hfit : payload.length ≤ PayloadLen.max := by
    obtain ⟨behind, hb⟩ := h.source
    have hlen := length_of_drop_eq hb
    rw [he, List.length_append] at hlen
    have := h.sized
    omega
  rw [← h.live.at.routes] at hroutes
  have hbudget : layer.groupDepth ≠ layer.remaining := by have := h.room; omega
  have hbase := Nat.add_sub_assoc hlt.le pos
  rw [h.turn_len he hlaw hp]
  have hcrosses : ((m.onward layer below (layer.cursor.past r) m.matcher.staged
      (matchesOf program (.of s.chain pos r)) 0).matcher.probeRoutes r.field).1 = true := hroutes
  simp only [Matches.enterLen, hcrosses, hbudget, Cursor.within, if_pos hfit, if_false,
    Bool.true_eq_false]
  simp only [Matches.inside, opening, ← hbase, ← h.live.at.commitDescent r.field]
  rfl

/-- The walk at the head of an opened payload. -/
theorem Stands.inside {r : Record} {rest payload : List UInt8} (he : bytes = r.bytes ++ rest)
    (hi : interior r = some payload) (hroom : 0 < s.room) {pending : List Match} {nextHit : Nat}
    (hd : pending[nextHit]? = none) :
    Stands program (s.enter r.field none) (crossed ++ [⟨r.field, pos⟩])
      (pos + (r.bytes.length - payload.length)) payload (descend program.provider live r.field)
      (opening layer m.limit pos r payload)
      ({ layer with cursor := layer.cursor.past r } :: below)
      (m.inside (opening layer m.limit pos r payload ::
        { layer with cursor := layer.cursor.past r } :: below)
        (descend program.provider live r.field) pending nextHit) where
  layers := rfl
  crossed := by rw [← h.crossed, trail_cons, trail_cons, trail_cons]; rfl
  here := rfl
  ahead := rfl
  bound := rfl
  opened := rfl
  depth := rfl
  room := by
    have := h.room
    show 0 + (s.room - 1) = layer.remaining - layer.groupDepth - 1
    omega
  capped := by
    have := h.capped
    show layer.remaining - layer.groupDepth - 1 ≤ m.limit.asInner
    omega
  drained := hd
  calm := h.calm
  live := h.live.enter r.field _
  source := by
    obtain ⟨behind, hb⟩ := h.source
    rw [he, List.append_assoc] at hb
    exact ⟨rest ++ behind, payload_at hi hb⟩
  sized := h.sized

/-- The turn at the end of an opened payload. -/
theorem Stands.turn_close {r : Record} {child : Layer} {inner : Scope}
    {crossed' : List Crossing} {pos' : Nat} {opened live' staged : List State}
    {pending pending' : List Match} {nextHit nextHit' : Nat}
    {cursor : Cursor.Grouped.Cursor}
    (hin : Stands program inner crossed' pos' [] live' { child with cursor }
      ({ layer with cursor := layer.cursor.past r } :: below)
      ((m.inside (child :: { layer with cursor := layer.cursor.past r } :: below) opened
        pending nextHit).onward child ({ layer with cursor := layer.cursor.past r } :: below)
          cursor staged pending' nextHit'))
    (hnone : inner.opened = none) :
    ((m.inside (child :: { layer with cursor := layer.cursor.past r } :: below) opened
        pending nextHit).onward child ({ layer with cursor := layer.cursor.past r } :: below)
          cursor staged pending' nextHit').turn standard =
      .next (m.onward layer below (layer.cursor.past r) staged pending' nextHit') := by
  have hopens : cursor.opens = [] := by
    have := hin.opened
    rw [hnone] at this
    exact List.head?_eq_none_iff.mp (Option.map_eq_none_iff.mp this)
  rw [hin.turn_end (step_end hin.ahead hopens), if_neg (List.cons_ne_nil _ _)]
  simp only [Matches.onward, Matches.inside, h.live.at.exit_opened opened staged]

/-! ### Groups -/

/-- The layer behind a group's start tag. -/
def entering (layer : Layer) (field : FieldNumber) (opener : List UInt8) : Layer :=
  { layer with
    cursor := layer.cursor.framed ((field, layer.cursor.pos) :: layer.cursor.opens) opener
    groupDepth := layer.groupDepth + 1 }

/-- The walk behind a group's start tag. -/
def Matches.grouped (m : Matches) (layer : Layer) (below : List Layer) (field : FieldNumber)
    (opener : List UInt8) (pos : Nat) (opened : List State) : Matches :=
  { m with
    layers := entering layer field opener :: below
    matcher := m.matcher.opened opened
    pending := []
    nextHit := 0
    groups := ⟨pos, pos + opener.length, m.groupIds.length⟩ :: m.groups
    groupIds := m.groupIds ++ m.matcher.visitTargets field }

theorem Stands.turn_enter {field : FieldNumber} {opener rest : List UInt8}
    (he : bytes = opener ++ rest) (ht : IsTag standard field RecordKind.group.low3 opener)
    (hroom : 0 < s.room) :
    m.turn standard = .next (m.grouped layer below field opener pos
      (descend program.provider live field)) := by
  have hbudget : layer.groupDepth ≠ layer.remaining := by have := h.room; omega
  have hopens : layer.cursor.opens.length < layer.cursor.limit.asInner := by
    have := h.room
    have := h.capped
    rw [h.depth, h.bound]
    omega
  have hstop : layer.base + (layer.cursor.pos + opener.length) = pos + opener.length := by
    rw [← h.here]
    exact (Nat.add_assoc _ _ _).symm
  rw [h.turn_entry (step_opener (h.ahead.trans he) ht hopens)]
  show (if layer.groupDepth = layer.remaining then _ else _) = _
  rw [if_neg hbudget]
  simp only [Matches.grouped, ← h.live.at.commitDescent field, ← hstop]
  rfl

theorem Stands.grouped (field : FieldNumber) {opener rest : List UInt8}
    (he : bytes = opener ++ rest) (hroom : 0 < s.room) :
    Stands program (s.enter field (some field)) crossed (pos + opener.length) rest
      (descend program.provider live field) (entering layer field opener) below
      (m.grouped layer below field opener pos (descend program.provider live field)) where
  layers := rfl
  crossed := by rw [← h.crossed, trail_cons, trail_cons]; rfl
  here := by rw [← h.here]; exact (Nat.add_assoc _ _ _).symm
  ahead := drop_of_drop_eq (h.ahead.trans he)
  bound := h.bound
  opened := rfl
  depth := congrArg Nat.succ h.depth
  room := by
    have := h.room
    show layer.groupDepth + 1 + (s.room - 1) = layer.remaining
    omega
  capped := h.capped
  drained := rfl
  calm := h.calm
  live := h.live.enter field _
  source := by
    obtain ⟨behind, hb⟩ := h.source
    rw [he, List.append_assoc] at hb
    exact ⟨behind, drop_of_drop_eq hb⟩
  sized := h.sized

/-- The turn at a group's end tag. -/
theorem Stands.turn_exit {field : FieldNumber} {opener interior closer rest : List UInt8}
    {inner : Scope} {crossed' : List Crossing} {live' opened staged : List State}
    {pending : List Match} {nextHit : Nat} {cursor : Cursor.Grouped.Cursor}
    (he : bytes = opener ++ (interior ++ (closer ++ rest)))
    (hin : Stands program inner crossed' (pos + opener.length + interior.length) (closer ++ rest)
      live' { entering layer field opener with cursor } below
      ((m.grouped layer below field opener pos opened).onward (entering layer field opener) below
        cursor staged pending nextHit))
    (hopens : cursor.opens = (field, layer.cursor.pos) :: layer.cursor.opens)
    (ht : IsTag standard field 4 closer) :
    ((m.grouped layer below field opener pos opened).onward (entering layer field opener) below
        cursor staged pending nextHit).turn standard =
      .next (m.onward layer below (cursor.framed layer.cursor.opens closer) staged
        (matchesOf program ⟨s.chain, field, ⟨pos, (opener ++ interior ++ closer).length⟩,
          .group interior⟩) 0) := by
  obtain ⟨behind, hb⟩ := h.source
  have hhere : layer.base + cursor.pos = pos + opener.length + interior.length := hin.here
  have hspan : walkSpan pos (layer.base + (cursor.pos + closer.length)) =
      ⟨pos, (opener ++ interior ++ closer).length⟩ := by
    rw [walkSpan, ← Nat.add_assoc, hhere]
    simp only [List.length_append, Span.mk.injEq, true_and]
    omega
  have hbody : m.input.drop (pos + opener.length) = interior ++ (closer ++ rest ++ behind) := by
    rw [he] at hb
    simp only [List.append_assoc] at hb
    rw [drop_of_drop_eq hb]
    simp only [List.append_assoc]
  have hslice : (m.input.drop (pos + opener.length)).take
      (pos + opener.length + interior.length - (pos + opener.length)) = interior := by
    rw [hbody, Nat.add_sub_cancel_left, List.take_left]
  have hinside : pos + opener.length + interior.length ≤ m.input.length := by
    have hlen := congrArg List.length hbody
    have hcloser := ht.admits.isWord.length_pos
    simp only [List.length_drop, List.length_append] at hlen
    omega
  rw [hin.turn_entry (step_closer hin.ahead ht hopens)]
  show (if m.groupIds.length < (m.groupIds ++ m.matcher.visitTargets field).length then
    if pos + opener.length ≤ _ ∧ _ ≤ m.input.length then _ else _ else _) = _
  rw [List.length_append, ← h.fanOut, ← hspan]
  split
  case isTrue =>
    rw [if_pos ⟨Nat.le_add_right _ _, hinside⟩]
    simp only [Matches.onward, Matches.grouped, entering, h.live.at.exit_opened opened staged,
      Cursor.Grouped.Cursor.framed, List.drop_left, List.take_left, hslice, List.nil_append]
  case isFalse hnone =>
    have hids : m.matcher.visitTargets field = [] := List.length_eq_zero_iff.mp (by omega)
    simp only [Matches.onward, Matches.grouped, entering, h.live.at.exit_opened opened staged,
      hids, List.append_nil, List.map_nil]

/-- The walk behind a group's end tag. -/
theorem Stands.ungrouped {field : FieldNumber} {opener interior closer rest : List UInt8}
    {inner : Scope} {crossed' : List Crossing} {live' opened staged : List State}
    {pending pending' : List Match} {nextHit nextHit' : Nat} {cursor : Cursor.Grouped.Cursor}
    (hin : Stands program inner crossed' (pos + opener.length + interior.length) (closer ++ rest)
      live' { entering layer field opener with cursor } below
      ((m.grouped layer below field opener pos opened).onward (entering layer field opener) below
        cursor staged pending nextHit))
    (hd : pending'[nextHit']? = none) :
    Stands program s crossed (pos + (opener ++ interior ++ closer).length) rest live
      { layer with cursor := cursor.framed layer.cursor.opens closer } below
      (m.onward layer below (cursor.framed layer.cursor.opens closer) staged pending'
        nextHit') where
  layers := rfl
  crossed := by rw [← h.crossed, trail_cons, trail_cons]
  here := by
    have hhere : layer.base + cursor.pos = pos + opener.length + interior.length := hin.here
    show layer.base + (cursor.pos + closer.length) = _
    simp only [List.length_append]
    omega
  ahead := drop_of_drop_eq hin.ahead
  bound := hin.bound
  opened := h.opened
  depth := h.depth
  room := h.room
  capped := h.capped
  drained := hd
  calm := h.calm
  live := h.live.restage staged
  source := by
    obtain ⟨behind, hb⟩ := hin.source
    rw [List.append_assoc] at hb
    have hrest : m.input.drop (pos + opener.length + interior.length + closer.length) =
        rest ++ behind := drop_of_drop_eq hb
    refine ⟨behind, ?_⟩
    show m.input.drop _ = _
    simpa only [List.length_append, Nat.add_assoc] using hrest
  sized := h.sized

end Deliveries

/-! ## A tree -/

/-- What the walk over a part of a document comes to: its deliveries, and either the refusal
that ends the iteration or the walk behind the part. -/
def Walked (program : Program) (standard : Standard) (s : Scope) (crossed : List Crossing)
    (pos : Nat) (more : List UInt8) (live : List State) (layer : Layer) (below : List Layer)
    (m : Matches) (os : List Occurrence) : Option Fault → Prop
  | some fault => ∃ m', Emits (Matches.turn standard) m (items program os ++ [.error fault]) m' ∧
      Spent (Matches.turn standard) m'
  | none => ∃ cursor staged pending nextHit, cursor.opens = layer.cursor.opens ∧
      Emits (Matches.turn standard) m (items program os)
        (m.onward layer below cursor staged pending nextHit) ∧
      Stands program s crossed pos more live { layer with cursor } below
        (m.onward layer below cursor staged pending nextHit)

variable {more : List UInt8} {os os' : List Occurrence}

/-- A part behind another of its layer. -/
theorem Walked.behind {cursor : Cursor.Grouped.Cursor} {staged : List State}
    {pending : List Match} {nextHit : Nat} {fault : Option Fault}
    (hfront : Emits (Matches.turn standard) m (items program os)
      (m.onward layer below cursor staged pending nextHit))
    (hopens : cursor.opens = layer.cursor.opens)
    (h : Walked program standard s crossed pos more live { layer with cursor } below
      (m.onward layer below cursor staged pending nextHit) os' fault) :
    Walked program standard s crossed pos more live layer below m (os ++ os') fault := by
  cases fault with
  | some fault =>
    obtain ⟨m', hemits, hspent⟩ := h
    refine ⟨m', ?_, hspent⟩
    rw [items_append, List.append_assoc]
    exact hfront.trans hemits
  | none =>
    obtain ⟨cursor', staged', pending', nextHit', hopens', hemits, hstands⟩ := h
    refine ⟨cursor', staged', pending', nextHit', hopens'.trans hopens, ?_, hstands⟩
    rw [items_append]
    exact hfront.trans hemits

/-- A refusal inside, wherever the walk stands there. -/
theorem Walked.refused {inside : Matches} {fault : Fault} {s' : Scope} {crossed' : List Crossing}
    {pos' : Nat} {more' : List UInt8} {live' : List State} {layer' : Layer} {below' : List Layer}
    (hfront : Emits (Matches.turn standard) m (items program os) inside)
    (h : Walked program standard s' crossed' pos' more' live' layer' below' inside os'
      (some fault)) :
    Walked program standard s crossed pos more live layer below m (os ++ os') (some fault) := by
  obtain ⟨m', hemits, hspent⟩ := h
  refine ⟨m', ?_, hspent⟩
  rw [items_append, List.append_assoc]
  exact hfront.trans hemits

/-- A turn's deliveries, drained. -/
theorem emits_of_turn {o : Occurrence} {m₁ : Matches} (e : m.turn standard = .next m₁)
    (hp : m₁.pending = matchesOf program o) (hn : m₁.nextHit = 0) :
    Emits (Matches.turn standard) m (items program [o])
      { m₁ with nextHit := m₁.pending.length } := by
  have hdrain := @drain standard m₁ (by omega)
  rw [hn, List.drop_zero, hp] at hdrain
  rw [items, List.flatMap_singleton, hp]
  exact .silent e hdrain

theorem Stands.onward_self (h : Stands program s crossed pos bytes live layer below m) :
    m.onward layer below layer.cursor m.matcher.staged m.pending m.nextHit = m := by
  rw [Matches.onward, restage_self, ← h.layers]

/-- A group past the budget refuses at its head, by the cursor's bound or by the walk's. -/
theorem Stands.walked_full (h : Stands program s crossed pos bytes live layer below m)
    {field : FieldNumber} {tag rest : List UInt8} (he : bytes = tag ++ rest)
    (ht : IsTag standard field RecordKind.group.low3 tag) (hroom : s.room = 0) {pos' : Nat} :
    Walked program standard s crossed pos' more live layer below m []
      (some ⟨pos, crossed, .depth⟩) := by
  by_cases hfull : layer.cursor.limit.asInner ≤ layer.cursor.opens.length
  · have hturn := h.turn_fault (step_opener_full (h.ahead.trans he) ht hfull)
    rw [h.here] at hturn
    exact ⟨_, .item hturn (.refl _), spent_of_fused rfl h.calm h.drained⟩
  · have hturn := h.turn_entry (step_opener (h.ahead.trans he) ht (Nat.lt_of_not_le hfull))
    have hbudget : layer.groupDepth = layer.remaining := by have := h.room; omega
    have hrefuse : m.turn standard =
        .halt (.ok (some (.error ⟨pos, crossed, .depth⟩),
          { m with layers := [], pending := [], nextHit := 0 })) := by
      rw [hturn, ← h.crossed]
      show (if layer.groupDepth = layer.remaining then _ else _) = _
      rw [if_pos hbudget]
      simp only [Matches.refuse, trail_cons]
    exact ⟨_, .item hrefuse (.refl _), spent_of_fused rfl h.calm rfl⟩

/-- A payload past the budget is delivered, and its refusal stalls behind the delivery. -/
theorem Stands.walked_deep (h : Stands program s crossed pos bytes live layer below m)
    {r : Record} {rest : List UInt8} (he : bytes = r.bytes ++ rest) (hr : r.Lawful standard)
    (hroutes : program.provider.routes s.chain r.field = true) (hroom : s.room = 0)
    (hsome : interior r ≠ none) {pos' : Nat} :
    Walked program standard s crossed pos' more live layer below m [.of s.chain pos r]
      (some ⟨pos, crossed, .depth⟩) := by
  obtain ⟨payload, hi⟩ := Option.ne_none_iff_exists'.mp hsome
  obtain ⟨word, hp⟩ := interior_eq_some hi
  have hbudget : layer.groupDepth = layer.remaining := by have := h.room; omega
  have hturn : m.turn standard = .next
      { m.onward layer below (layer.cursor.past r) (m.matcher.probeRoutes r.field).2.staged
          (matchesOf program (.of s.chain pos r)) 0 with
        stalled := some ⟨pos, crossed, .depth⟩ } := by
    rw [← h.live.at.routes] at hroutes
    rw [h.turn_len he hr hp, ← h.crossed]
    show (if (m.matcher.probeRoutes r.field).1 = false then _ else if _ then _ else _) = _
    rw [if_neg (by rw [hroutes]; decide), if_pos hbudget]
    simp only [Matches.onward, trail_cons]
    rfl
  have hdrained := List.getElem?_eq_none (le_refl
    (matchesOf program (.of s.chain pos r)).length)
  exact ⟨_, (emits_of_turn hturn rfl rfl).trans (.item (turn_stalled hdrained rfl) (.refl _)),
    spent_of_fused rfl rfl hdrained⟩

/-- A lawful tree is cut short by its fault. -/
theorem isSome_fault {tree : Tree} {s : Scope} (h : tree.Lawful program standard s)
    (crossed : List Crossing) (pos : Nat) : (tree.fault crossed pos).isSome = tree.cut := by
  induction tree generalizing s crossed pos with
  | nil => rfl
  | leaf r rest ih => exact ih h.2.2 _ _
  | node r inner rest _ ih => exact ih h.2.2.2.2.2.2 _ _
  | group field opener inner closer rest _ ih => exact ih h.2.2.2.2.2 _ _
  | refused offset b unread => rfl
  | deep r unread => rfl
  | sunk r inner unread ih => exact (ih h.2.2.2.2.2 _ _).trans h.2.2.2.2.1
  | torn field opener inner ih => exact (ih h.2.2.2 _ _).trans h.2.2.1

/-- The walk over a tree delivers what its paths select, up to the tree's refusal. -/
theorem walk_tree (tree : Tree) (hlaw : tree.Lawful program standard s)
    (hmore : tree.cut = true → more = []) (he : bytes = tree.bytes ++ more)
    (h : Stands program s crossed pos bytes live layer below m) :
    Walked program standard s crossed (pos + tree.bytes.length) more live layer below m
      (tree.completed s.chain pos) (tree.fault crossed pos) := by
  induction tree generalizing s crossed pos bytes more live layer below m with
  | nil =>
    obtain rfl : bytes = more := he
    refine ⟨layer.cursor, m.matcher.staged, m.pending, m.nextHit, rfl, ?_, ?_⟩
    · rw [h.onward_self]
      exact .refl m
    · rw [h.onward_self]
      exact h
  | leaf r rest ih =>
    obtain ⟨hr, hclosed, hrest⟩ := hlaw
    replace he : bytes = r.bytes ++ (rest.bytes ++ more) := he.trans (List.append_assoc _ _ _)
    obtain ⟨staged, hturn⟩ := h.turn_leaf he hr hclosed
    have hpast := h.past he staged (List.getElem?_eq_none (le_refl
      (matchesOf program (.of s.chain pos r)).length))
    have hwalk := ih hrest hmore rfl hpast
    rw [Nat.add_assoc, ← List.length_append] at hwalk
    exact Walked.behind (emits_of_turn hturn rfl rfl) rfl hwalk
  | node r inner rest ihi ihr =>
    obtain ⟨hr, hroutes, hroom, hi, hcut, hinner, hrest⟩ := hlaw
    replace he : bytes = r.bytes ++ (rest.bytes ++ more) := he.trans (List.append_assoc _ _ _)
    have hemits := emits_of_turn (h.turn_open he hr hi hroutes hroom) rfl rfl
    have hin := h.inside he hi hroom (List.getElem?_eq_none (le_refl
      (matchesOf program (.of s.chain pos r)).length))
    have hwalk := ihi hinner (fun _ => rfl) (List.append_nil _).symm hin
    have hnone : inner.fault (crossed ++ [⟨r.field, pos⟩])
        (pos + (r.bytes.length - inner.bytes.length)) = none :=
      Option.isNone_iff_eq_none.mp
        (Option.isSome_eq_false_iff.mp ((isSome_fault hinner _ _).trans hcut))
    rw [hnone] at hwalk
    obtain ⟨cursor, staged, pending, nextHit, -, hemitsIn, hend⟩ := hwalk
    have hfront := hemits.trans (hemitsIn.next (h.turn_close hend rfl))
    rw [← items_append] at hfront
    have hwalk := ihr hrest hmore rfl (h.past he staged hend.drained)
    rw [Nat.add_assoc, ← List.length_append] at hwalk
    exact Walked.behind hfront rfl hwalk
  | group field opener inner closer rest ihi ihr =>
    obtain ⟨ht, hroom, hcut, hinner, hc, hrest⟩ := hlaw
    replace he : bytes = opener ++ (inner.bytes ++ (closer ++ (rest.bytes ++ more))) := by
      rw [he]
      simp only [Tree.bytes, List.append_assoc]
    have hin := h.grouped field he hroom
    have hwalk := ihi hinner (fun hc => by rw [hcut] at hc; cases hc) rfl hin
    have hnone : inner.fault crossed (pos + opener.length) = none :=
      Option.isNone_iff_eq_none.mp
        (Option.isSome_eq_false_iff.mp ((isSome_fault hinner _ _).trans hcut))
    rw [hnone] at hwalk
    obtain ⟨cursor, staged, pending, nextHit, hopens, hemitsIn, hend⟩ := hwalk
    have hexit := emits_of_turn (h.turn_exit he hend hopens hc) rfl rfl
    have hfront := (Emits.silent (h.turn_enter he ht hroom) hemitsIn).trans hexit
    rw [← items_append] at hfront
    have hwalk := ihr hrest hmore rfl (h.ungrouped hend (List.getElem?_eq_none (le_refl
      (matchesOf program ⟨s.chain, field, ⟨pos, (opener ++ inner.bytes ++ closer).length⟩,
        .group inner.bytes⟩).length)))
    rw [Nat.add_assoc, ← List.length_append] at hwalk
    have hwhole := Walked.behind hfront rfl hwalk
    simp only [Tree.completed, List.append_cons _ _ (rest.completed _ _)]
    exact hwhole
  | refused offset b unread =>
    obtain rfl := hmore rfl
    obtain rfl : bytes = unread := he.trans (List.append_nil _)
    rcases step_refused h.opened (show refusal standard s _ = _ by rw [h.ahead]; exact hlaw) with
      ⟨fault, c', hstep, hpos, rfl⟩ | ⟨field, tag, rest, hhead, ht, hroom, rfl, rfl⟩
    · have hturn := h.turn_fault hstep
      rw [hpos, ← Nat.add_assoc, h.here] at hturn
      exact ⟨_, .item hturn (.refl _), spent_of_fused rfl h.calm h.drained⟩
    · exact h.walked_full (h.ahead ▸ hhead) ht hroom
  | deep r unread =>
    obtain ⟨hr, hroutes, hroom, hsome⟩ := hlaw
    obtain rfl := hmore rfl
    replace he : bytes = r.bytes ++ unread := he.trans (List.append_nil _)
    exact h.walked_deep he hr hroutes hroom hsome
  | sunk r inner unread ih =>
    obtain ⟨hr, hroutes, hroom, hi, hcut, hinner⟩ := hlaw
    obtain rfl := hmore rfl
    replace he : bytes = r.bytes ++ unread := he.trans (List.append_nil _)
    have hemits := emits_of_turn (h.turn_open he hr hi hroutes hroom) rfl rfl
    have hin := h.inside he hi hroom (List.getElem?_eq_none (le_refl
      (matchesOf program (.of s.chain pos r)).length))
    have hwalk := ih hinner (fun _ => rfl) (List.append_nil _).symm hin
    obtain ⟨fault, hfault⟩ := Option.isSome_iff_exists.mp ((isSome_fault hinner
      (crossed ++ [⟨r.field, pos⟩]) (pos + (r.bytes.length - inner.bytes.length))).trans hcut)
    rw [hfault] at hwalk
    rw [Tree.fault, hfault]
    exact Walked.refused hemits hwalk
  | torn field opener inner ih =>
    obtain ⟨ht, hroom, hcut, hinner⟩ := hlaw
    obtain rfl := hmore rfl
    replace he : bytes = opener ++ (inner.bytes ++ []) := he.trans (List.append_assoc _ _ _)
    have hwalk := ih hinner (fun _ => rfl) rfl (h.grouped field he hroom)
    obtain ⟨fault, hfault⟩ := Option.isSome_iff_exists.mp
      ((isSome_fault hinner crossed (pos + opener.length)).trans hcut)
    rw [hfault] at hwalk
    rw [Tree.fault, hfault]
    obtain ⟨m', hemits, hspent⟩ := hwalk
    exact ⟨m', .silent (h.turn_enter he ht hroom) hemits, hspent⟩

end Standing

end ProtobufEdit.Select.Grouped
