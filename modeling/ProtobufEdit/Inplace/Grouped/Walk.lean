import ProtobufEdit.Inplace.Grouped
import ProtobufEdit.Inplace.Grouped.Edits

/-!
# The grouped judge walk

The walk of a layer plans exactly the writes of edits the rules command of it, or refuses. A
group's end tag is found by the walk of its own interior, so the induction is on what is left of
the window.
-/

namespace ProtobufEdit.Inplace.Grouped

open Wire Wire.Grouped Varint Base128 ProtobufEdit.Path Cursor Cursor.Grouped Loop

variable {standard : Standard} {set : RuleSet} {limit : DepthLimit} {chain : List FieldNumber}
  {live : List Path.State} {w : Walk} {r : Record} {bytes rest : List UInt8} {room : Nat}
  {a : Action} {field : FieldNumber} {tag : List UInt8}

/-! ## Replacements -/

/-- The re-parse of a replacement only counts its groups. -/
theorem probe_plain (standard : Standard) (rule met budget : Nat) :
    Plain standard (probeTurn standard rule met budget) (fun c depth => (c, depth)) budget
      fun refusal => ∃ kind, refusal = some (.error kind) where
  value hdepth hs := by simp only [probeTurn, hs, if_neg (Nat.ne_of_gt hdepth)]
  enter hdepth hlt hs := by
    simp only [probeTurn, hs, if_neg (Nat.ne_of_lt hlt), if_neg (Nat.succ_ne_zero _)]
  full {c _ _} _ hs :=
    ⟨_, by simp only [probeTurn, hs, if_true], .replacementWire rule c.pos .depth, rfl⟩
  exit hdepth hs := by
    simp only [probeTurn, hs, Nat.add_sub_cancel, if_neg (Nat.ne_of_gt hdepth)]
  error {_ _ _ fault} hs :=
    ⟨_, by simp only [probeTurn, hs], .replacementWire rule fault.pos (breach fault.kind), rfl⟩

/-- Behind a whole record or group the re-parse ends: there, or out of shape. -/
theorem probe_settles {rule met budget : Nat} {c c' : Cursor} {depth : Nat} {entry : Entry}
    (hentry : (∃ v, entry.kind = .value v) ∧ depth = 0 ∨ entry.kind = .groupExit ∧ depth = 1)
    (hs : step standard c = (some (.ok entry), c')) :
    c'.pos = met ∧ probeTurn standard rule met budget (c, depth) = .halt (some (.ok ())) ∨
      ∃ kind, probeTurn standard rule met budget (c, depth) = .halt (some (.error kind)) := by
  obtain ⟨field, kind⟩ := entry
  have hturn : probeTurn standard rule met budget (c, depth) =
      if c'.pos = met then .halt (some (.ok ()))
      else .halt (some (.error (.replacementShape rule))) := by
    rcases hentry with ⟨⟨v, hk⟩, rfl⟩ | ⟨hk, rfl⟩
    · obtain rfl : kind = .value v := hk
      simp only [probeTurn, hs, if_true]
    · obtain rfl : kind = .groupExit := hk
      simp only [probeTurn, hs, Nat.sub_self, if_true]
  rw [hturn]
  split
  · next hpos => exact .inl ⟨hpos, rfl⟩
  · exact .inr ⟨_, rfl⟩

/-- A replacement is judged: it fits where it is to stand, or it is refused. -/
theorem judgeReplacement_spec (standard : Standard) (limit : DepthLimit) (budget rule : Nat)
    (bytes : List UInt8) {met : Nat} (hmet : 0 < met) :
    (∃ d, Candidate standard budget met bytes d ∧
        judgeReplacement standard limit budget rule bytes met = some (.ok ())) ∨
      ∃ kind, judgeReplacement standard limit budget rule bytes met = some (.error kind) := by
  unfold judgeReplacement
  by_cases hlen : bytes.length = met
  · simp only [hlen, ne_eq, not_true_eq_false, if_false]
    -- the loop's halt, once it is reached inside the fuel
    have hrun : ∀ {n : Nat} {s : Cursor × Nat} {verdict : Option (Except FaultKind Unit)},
        Takes (probeTurn standard rule met budget) n (⟨bytes, [], 0, limit, 0, 0⟩, 0) s →
        probeTurn standard rule met budget s = .halt verdict → n ≤ met →
        (run (probeTurn standard rule met budget) (met + 1)
          (⟨bytes, [], 0, limit, 0, 0⟩, 0)).getD none = verdict := fun hsteps hhalt hn =>
      congrArg (Option.getD · none) (hsteps.halts hhalt (Nat.lt_succ_of_le hn))
    set root : Cursor := ⟨bytes, [], 0, limit, 0, 0⟩ with hroot
    rcases step_stands standard root with
      ⟨hend, -⟩ | ⟨fault, c', hs⟩ | ⟨r, rest, he, hlaw⟩ | ⟨field, tag, rest, he, htag, hroom⟩ |
        ⟨_, _, _, _, _, _, _, ho⟩
    · have hnil : bytes.length = 0 := by
        rw [show bytes = [] from hend]
        rfl
      omega
    · exact .inr ⟨_, hrun (.refl _) (by simp only [probeTurn, hs]; rfl) (Nat.zero_le _)⟩
    · have hpast : (root.past r).pos = r.bytes.length := Nat.zero_add _
      rcases @probe_settles standard rule met budget root (root.past r) 0
          ⟨r.field, .value r.payload.value⟩ (.inl ⟨⟨_, rfl⟩, rfl⟩) (step_record he hlaw) with
        ⟨hpos, hok⟩ | ⟨kind, herror⟩
      · have hsplit : bytes = r.bytes ++ rest := he
        have hrest : rest = [] := by
          refine List.eq_nil_of_length_eq_zero ?_
          have := congrArg List.length hsplit
          rw [List.length_append] at this
          omega
        refine .inl ⟨.record r .nil, ⟨hlen, ?_, trivial, trivial, hlaw, trivial⟩,
          hrun (.refl _) hok (Nat.zero_le _)⟩
        rw [Doc.bytes, Doc.bytes, hsplit, hrest]
      · exact .inr ⟨kind, hrun (.refl _) herror (Nat.zero_le _)⟩
    · have hpos := htag.admits.isWord.length_pos
      have hsplit : bytes = tag ++ rest := he
      have hsize : met = tag.length + rest.length := by rw [← hlen, hsplit, List.length_append]
      have hs := step_opener he htag hroom
      rcases Nat.eq_zero_or_pos budget with hzero | hbudget
      · have hturn : probeTurn standard rule met budget (root, 0) =
            .halt (some (.error (.replacementWire rule root.pos .depth))) := by
          simp only [probeTurn, hs, if_pos hzero.symm]
        exact .inr ⟨_, hrun (.refl _) hturn (Nat.zero_le _)⟩
      · have hturn : probeTurn standard rule met budget (root, 0) =
            .next (root.framed ((field, root.pos) :: root.opens) tag, 1) := by
          simp only [probeTurn, hs, if_neg (Nat.ne_of_lt hbudget), Nat.zero_add,
            if_neg Nat.one_ne_zero]
        cases (probe_plain standard rule met budget).interior
            (c := root.framed ((field, root.pos) :: root.opens) tag) (drop_of_drop_eq he) rfl
            Nat.one_pos hbudget with
        | refuses s refusal n hsteps hhalt hrefused hn =>
          obtain ⟨kind, rfl⟩ := hrefused
          exact .inr ⟨kind, hrun (.head hturn hsteps) hhalt (by omega)⟩
        | closes inner closer behind c' n hrest hcloser hclosed hlawful hsteps hn hreach =>
          have hdrop := hreach.drop ((drop_of_drop_eq he).trans hrest)
          have hexit := step_closer hdrop hcloser hreach.opens
          have hin : rest.length = inner.bytes.length + (closer.length + behind.length) := by
            rw [hrest, List.length_append, List.length_append]
          have hat : c'.pos + closer.length =
              tag.length + inner.bytes.length + closer.length := by
            rw [hreach.pos]
            simp only [Cursor.framed, hroot]
            omega
          rcases @probe_settles standard rule met budget c' (c'.framed root.opens closer) 1
              ⟨field, .groupExit⟩ (.inr ⟨rfl, rfl⟩) hexit with ⟨hmeet, hok⟩ | ⟨kind, herror⟩
          · have hstop : c'.pos + closer.length = met := hmeet
            have hnil : behind = [] := List.eq_nil_of_length_eq_zero (by omega)
            refine .inl ⟨.group field tag inner closer .nil,
              ⟨hlen, ?_, trivial, ⟨hclosed, trivial⟩, hbudget, htag, hcloser, hlawful, trivial⟩,
              hrun (.head hturn hsteps) hok (by omega)⟩
            rw [Doc.bytes, Doc.bytes, List.append_nil, hsplit, hrest, hnil, List.append_nil,
              List.append_assoc]
          · exact .inr ⟨kind, hrun (.head hturn hsteps) herror (by omega)⟩
    · cases ho
  · simp only [ne_eq, hlen, not_false_eq_true, if_true]
    exact .inr ⟨_, rfl⟩

/-! ## Judgments -/

/-- An action over a lawful record is judged: its own write, or a refusal. -/
theorem judge_spec (limit : DepthLimit) (hr : r.Lawful standard) (room rule : Nat) (a : Action)
    (head : Nat) :
    (∃ d, Becomes standard room r (some a) d ∧
        judgeAction standard (judgeReplacement standard limit room rule) rule a head r.tag.length
          (head + r.bytes.length) r.payload.value = some (.ok (planned head r a))) ∨
      ∃ kind, judgeAction standard (judgeReplacement standard limit room rule) rule a head
        r.tag.length (head + r.bytes.length) r.payload.value = some (.error kind) := by
  by_cases ha : ∃ new, a = .replaceRecord new
  · obtain ⟨new, rfl⟩ := ha
    rw [judgeAction_replace]
    rcases judgeReplacement_spec standard limit room rule new hr.length_pos with
      ⟨d, hcandidate, hok⟩ | ⟨kind, herror⟩
    · exact .inl ⟨d, .replaced hcandidate, by rw [hok]; rfl⟩
    · exact .inr ⟨kind, by rw [herror]; rfl⟩
  · rcases @judgeAction_spec _ standard r a (judgeReplacement standard limit room rule) rule
        (fun new e => ha ⟨new, e⟩) head with ⟨out, hout, hok⟩ | ⟨-, kind, herror⟩
    · exact .inl ⟨_, .recast hout, hok⟩
    · exact .inr ⟨kind, herror⟩

/-- What an action that owns a group keeps until its exit. -/
def owning (rule head : Nat) (room : Nat) : Action → Option Owned
  | .tombstone field => some (.tombstone rule head field)
  | .replaceRecord bytes => some (.replace rule head bytes room)
  | _ => none

/-- An owned group is judged at its exit: its whole extent's write, or a refusal. -/
theorem judgeOwned_spec (standard : Standard) (limit : DepthLimit) {rule head extent : Nat}
    {owned : Owned} (hextent : 0 < extent) (ho : owning rule head room a = some owned) :
    (∃ d write, Supplants standard room extent a d ∧ ownedWrite extent head a = some write ∧
        judgeOwned standard limit owned (head + extent) = (head, a, some (.ok write))) ∨
      ∃ kind, judgeOwned standard limit owned (head + extent) = (head, a, some (.error kind)) := by
  have hstop : head + extent - head = extent := Nat.add_sub_cancel_left _ _
  cases a with
  | tombstone field =>
    cases ho
    simp only [judgeOwned, judgeTombstone, hstop]
    split
    · exact .inr ⟨_, rfl⟩
    · next hneed => exact .inl ⟨_, _, .tombstoned (Nat.le_of_not_lt hneed), rfl, rfl⟩
  | replaceRecord bytes =>
    cases ho
    simp only [judgeOwned, hstop]
    rcases judgeReplacement_spec standard limit room rule bytes hextent with
      ⟨d, hcandidate, hok⟩ | ⟨kind, herror⟩
    · exact .inl ⟨d, _, .replaced hcandidate, rfl, by rw [hok]; rfl⟩
    · exact .inr ⟨kind, by rw [herror]; rfl⟩
  | _ => cases ho

/-! ## Where the walk stands -/

/-- The walk stands before what is left of a layer's window, outside any owned group, behind a
chain, with `room` left in the layer's account; the group on top of the pending ones encloses
it. -/
structure Stands (set : RuleSet) (chain : List FieldNumber) (live : List Path.State) (room : Nat)
    (bytes : List UInt8) (w : Walk) : Prop where
  data : w.layer.cursor.data.drop w.layer.cursor.pos = bytes
  paths : At set.provider chain w.matcher live
  room : w.layer.groupDepth + room = w.layer.remaining
  suppress : w.suppress = 0
  owned : w.owned = none
  pending : ∀ pair ∈ w.pending.head?,
    pair.layer < w.layerCount ∨ pair.layer = w.layerCount ∧ pair.depth ≤ w.layer.groupDepth
  fits : bytes.length ≤ PayloadLen.max

/-- The walk behind some edits. -/
def Walk.behind (w : Walk) (cursor : Cursor) (staged : List Path.State) (t : Edits) : Walk :=
  { w.moved cursor with
    matcher := w.matcher.restage staged
    writes := w.writes ++ t.writes w.head
    stats := t.actions.foldl Stats.note w.stats }

theorem behind_nil (w : Walk) : w.behind w.layer.cursor w.matcher.staged .nil = w := by
  simp only [Walk.behind, Edits.writes, List.append_nil, restage_self]
  rfl

theorem behind_behind {t t' : Edits} {cursor cursor' : Cursor} {staged staged' : List Path.State}
    (h : Reaches w.layer.cursor t.met.bytes cursor) :
    (w.behind cursor staged t).behind cursor' staged' t' =
      w.behind cursor' staged' (t.append t') := by
  have hhead : (w.behind cursor staged t).head = w.head + t.met.bytes.length := by
    show w.layer.base + cursor.pos = w.layer.base + w.layer.cursor.pos + _
    rw [h.pos, Nat.add_assoc]
  simp only [Walk.behind, Edits.writes_append, Edits.actions_append, List.foldl_append,
    ← List.append_assoc] at hhead ⊢
  rw [hhead]
  rfl

theorem Stands.behind {t : Edits} {cursor : Cursor}
    (h : Stands set chain live room (t.met.bytes ++ rest) w)
    (hreach : Reaches w.layer.cursor t.met.bytes cursor) (staged : List Path.State) :
    Stands set chain live room rest (w.behind cursor staged t) := by
  have hfits := h.fits
  rw [List.length_append] at hfits
  exact ⟨hreach.drop h.data, h.paths.restage staged, h.room, h.suppress, h.owned, h.pending,
    by omega⟩

/-! ## What the walk comes to -/

/-- The walk gets past edits the rules command, to where `Stop` holds of what is left, or refuses:
in as many turns as bytes at most. -/
inductive Gone (standard : Standard) (set : RuleSet) (limit : DepthLimit) (w : Walk)
    (chain : List FieldNumber) (room : Nat) (bytes : List UInt8) (Stop : List UInt8 → Prop) :
    Prop where
  | settles (t : Edits) (rest : List UInt8) (cursor : Cursor) (staged : List Path.State) (n : Nat) :
      bytes = t.met.bytes ++ rest → Stop rest → t.Commanded set standard chain room →
      Takes (turn standard set limit) n w (w.behind cursor staged t) → n ≤ t.met.bytes.length →
      Reaches w.layer.cursor t.met.bytes cursor → Gone standard set limit w chain room bytes Stop
  | refuses (v : Walk) (fault : Inplace.Fault WireBreach) (n : Nat) :
      Takes (turn standard set limit) n w v →
      turn standard set limit v = .halt (some (.error fault)) → n ≤ bytes.length →
      Gone standard set limit w chain room bytes Stop

section Gone

variable {Stop Stop' : List UInt8 → Prop}

theorem Gone.halts {pos : Nat} {kind : FaultKind}
    (h : turn standard set limit w = refuse pos kind) :
    Gone standard set limit w chain room bytes Stop :=
  .refuses w _ 0 (.refl w) h (Nat.zero_le _)

theorem Gone.bind (h : Gone standard set limit w chain room bytes Stop)
    (k : ∀ (t : Edits) (rest : List UInt8) (cursor : Cursor) (staged : List Path.State),
      bytes = t.met.bytes ++ rest → Stop rest → Reaches w.layer.cursor t.met.bytes cursor →
      Gone standard set limit (w.behind cursor staged t) chain room rest Stop') :
    Gone standard set limit w chain room bytes Stop' := by
  cases h with
  | refuses v fault n hsteps hhalt hn => exact .refuses v fault n hsteps hhalt hn
  | settles t rest cursor staged n hsplit hstop hcommanded hsteps hn hreach =>
    have hlen : bytes.length = t.met.bytes.length + rest.length := by
      rw [hsplit, List.length_append]
    cases k t rest cursor staged hsplit hstop hreach with
    | refuses v fault n' hsteps' hhalt hn' =>
      exact .refuses v fault (n + n') (hsteps.trans hsteps') hhalt (by omega)
    | settles t' rest' cursor' staged' n' hsplit' hstop' hcommanded' hsteps' hn' hreach' =>
      have hmet : (t.append t').met.bytes = t.met.bytes ++ t'.met.bytes := by
        rw [Edits.met_append, Doc.bytes_append]
      rw [behind_behind hreach] at hsteps'
      refine .settles (t.append t') rest' cursor' staged' (n + n') ?_ hstop'
        (hcommanded.append hcommanded') (hsteps.trans hsteps') ?_ (hmet ▸ hreach.trans hreach')
      · rw [hsplit, hsplit', hmet, List.append_assoc]
      · rw [hmet, List.length_append]
        omega

end Gone

/-! ## One record -/

/-- The walk behind a record, and what it planned over it. -/
def Walk.past (w : Walk) (r : Record) (staged : List Path.State) (command : Option Action) : Walk :=
  { w.moved (w.layer.cursor.past r) with
    matcher := w.matcher.restage staged
    writes := w.writes ++ (command.map (planned w.head r)).toList
    stats := command.toList.foldl Stats.note w.stats }

/-- What a delivered record's turn comes to. -/
inductive Delivers (standard : Standard) (set : RuleSet) (limit : DepthLimit)
    (chain : List FieldNumber) (room : Nat) (w : Walk) (r : Record) : Turned → Prop where
  | refuses (pos : Nat) (kind : FaultKind) :
      Delivers standard set limit chain room w r (refuse pos kind)
  | passes {command : Option Action} {became : Doc} (staged : List Path.State) :
      commanded set chain r.field = some command → entered set chain r command = none →
      Becomes standard room r command became →
      Delivers standard set limit chain room w r (.next (w.past r staged command))
  | enters {word payload : List UInt8} {renumbered : Option FieldNumber} :
      r.payload = .len word payload →
      commanded set chain r.field = some (renumbered.map .renumber) →
      set.provider.routes chain r.field = true → Retags standard renumbered 2 r.tag →
      Delivers standard set limit chain room w r
        (descend limit
          (w.past r (w.matcher.probeRoutes r.field).2.staged (renumbered.map .renumber)) w.head
          (w.head + (r.tag ++ word).length) payload)

theorem head_past : (w.moved (w.layer.cursor.past r)).head = w.head + r.bytes.length :=
  (Nat.add_assoc _ _ _).symm

theorem past_none (w : Walk) (r : Record) (staged : List Path.State) : w.past r staged none =
    { w.moved (w.layer.cursor.past r) with matcher := w.matcher.restage staged } := by
  simp only [Walk.past, Option.map_none, Option.toList_none, List.append_nil, List.foldl_nil]
  rfl

/-- A rule judged over a lawful record. -/
theorem judged_spec {v : Walk} (hr : r.Lawful standard) {rule : Nat} (ha : action set rule = some a)
    (hroom : v.layer.groupDepth + room = v.layer.remaining) (head : Nat)
    (go : Action → Walk → Turned) :
    (∃ d, Becomes standard room r (some a) d ∧
        judged standard set limit v rule head r.tag.length (head + r.bytes.length) r.payload.value
          go = go a (v.plan (planned head r a) a)) ∨
      ∃ kind, judged standard set limit v rule head r.tag.length (head + r.bytes.length)
        r.payload.value go = refuse head kind := by
  have hbudget : v.layer.remaining - v.layer.groupDepth = room := by omega
  unfold judged
  rw [ha]
  simp only [hbudget]
  rcases judge_spec limit hr room rule a head with ⟨d, hd, hok⟩ | ⟨kind, herror⟩
  · exact .inl ⟨d, hd, by simp only [hok]⟩
  · exact .inr ⟨kind, by simp only [herror]⟩

/-- The walk with a record's probe made. -/
def Walk.probed (w : Walk) (r : Record) : Walk :=
  { w.moved (w.layer.cursor.past r) with matcher := (w.matcher.probeRoutes r.field).2 }

theorem probed_eq (w : Walk) (r : Record) :
    w.probed r = w.past r (w.matcher.probeRoutes r.field).2.staged none := (past_none _ _ _).symm

theorem deliver_len {word payload : List UInt8} (hp : r.payload = .len word payload) :
    deliver standard set limit w (w.layer.cursor.past r) ⟨r.field, .value r.payload.value⟩ =
      let stop := w.head + r.bytes.length
      let payloadStart := w.head + (r.tag ++ word).length
      let routed := (w.matcher.probeRoutes r.field).1
      match w.matcher.probeTarget r.field with
      | .none =>
        if routed then descend limit (w.probed r) w.head payloadStart payload
        else .next (w.probed r)
      | .conflict first second => refuse w.head (.conflict first second)
      | .one rule => judged standard set limit (w.probed r) rule w.head r.tag.length stop
          r.payload.value fun a v => match a with
            | .renumber _ => if routed then descend limit v w.head payloadStart payload else .next v
            | _ => .next v := by
  have hstart : w.head + r.bytes.length - payload.length = w.head + (r.tag ++ word).length := by
    rw [Record.bytes, hp, Payload.bytes]
    simp only [List.length_append]
    omega
  simp only [← hstart, ← head_past]
  unfold deliver Matcher.probe
  rw [hp]
  cases w.matcher.probeTarget r.field <;> rfl

theorem deliver_scalar (hscalar : ∀ word payload, r.payload ≠ .len word payload) :
    deliver standard set limit w (w.layer.cursor.past r) ⟨r.field, .value r.payload.value⟩ =
      match w.matcher.probeTarget r.field with
      | .none => .next (w.past r w.matcher.staged none)
      | .conflict first second => refuse w.head (.conflict first second)
      | .one rule => judged standard set limit (w.moved (w.layer.cursor.past r)) rule w.head
          r.tag.length (w.head + r.bytes.length) r.payload.value fun _ w => .next w := by
  rw [past_none, ← head_past]
  cases hp : r.payload with
  | len word payload => exact absurd hp (hscalar word payload)
  | varint _ | i64 _ | i32 _ => rfl

/-- A record's turn goes on behind it, enters it or refuses, as commanded. -/
theorem delivers (limit : DepthLimit) (h : Stands set chain live room bytes w)
    (hr : r.Lawful standard) :
    Delivers standard set limit chain room w r
      (deliver standard set limit w (w.layer.cursor.past r)
        ⟨r.field, .value r.payload.value⟩) := by
  have hat := h.paths
  by_cases hlen : ∃ word payload, r.payload = .len word payload
  · obtain ⟨word, payload, hp⟩ := hlen
    rw [deliver_len hp]
    simp only [hat.routes]
    have hidle : ¬ set.provider.routes chain r.field = true → entered set chain r none = none :=
      fun hroute => by simp only [entered, hp, if_neg hroute]
    rcases probe_commanded hat r.field with
      ⟨hprobe, hc⟩ | ⟨rule, a, hprobe, ha, hc⟩ | ⟨i, j, hprobe, hc⟩
    · simp only [hprobe, probed_eq]
      split
      · next hroute => exact @Delivers.enters _ _ _ _ _ _ _ word payload none hp hc hroute nofun
      · next hroute => exact .passes _ hc (hidle hroute) .kept
    · simp only [hprobe]
      rcases judged_spec (v := w.probed r) hr ha h.room w.head _ with ⟨d, hd, hj⟩ | ⟨kind, hj⟩
      · rw [hj]
        cases a with
        | renumber f =>
          simp only
          split
          · next hroute =>
            have hfits : Retags standard (some f) 2 r.tag := by
              cases hd with
              | recast hout =>
                simp only [recast] at hout
                split_ifs at hout with hfits
                intro new hnew
                cases hnew
                rw [hp] at hfits
                exact hfits
            exact @Delivers.enters _ _ _ _ _ _ _ word payload (some f) hp hc hroute hfits
          · next hroute =>
            exact .passes (w.matcher.probeRoutes r.field).2.staged hc
              (by simp only [entered, hp, if_neg hroute]) hd
        | _ =>
          exact .passes (w.matcher.probeRoutes r.field).2.staged hc
            (by simp only [entered, hp]) hd
      · rw [hj]
        exact .refuses _ _
    · simp only [hprobe]
      exact .refuses _ _
  · have hscalar : ∀ word payload, r.payload ≠ .len word payload := fun _ _ e => hlen ⟨_, _, e⟩
    have hentered : ∀ command, entered set chain r command = none := by
      intro command
      unfold entered
      split <;> first | exact absurd ‹_› (hscalar _ _) | rfl
    rw [deliver_scalar hscalar]
    rcases probe_commanded hat r.field with
      ⟨hprobe, hc⟩ | ⟨rule, a, hprobe, ha, hc⟩ | ⟨i, j, hprobe, hc⟩
    · simp only [hprobe]
      exact .passes _ hc (hentered _) .kept
    · simp only [hprobe]
      rcases judged_spec (v := w.moved (w.layer.cursor.past r)) hr ha h.room w.head _ with
        ⟨d, hd, hj⟩ | ⟨kind, hj⟩
      · rw [hj]
        exact .passes w.matcher.staged hc (hentered _) hd
      · rw [hj]
        exact .refuses _ _
    · simp only [hprobe]
      exact .refuses _ _

/-! ## Turns -/

theorem turn_error {c : Cursor} {fault : Cursor.Grouped.Fault}
    (hs : step standard w.layer.cursor = (some (.error fault), c)) :
    turn standard set limit w =
      refuse (w.layer.base + fault.pos) (.wire (breach fault.kind)) := by
  simp only [turn, hs]

theorem turn_step (set : RuleSet) (limit : DepthLimit) {c : Cursor} {entry : Entry}
    (hsuppress : w.suppress = 0)
    (hs : step standard w.layer.cursor = (some (.ok entry), c)) :
    turn standard set limit w = deliver standard set limit w c entry := by
  simp only [turn, hs, hsuppress, if_neg (Nat.lt_irrefl 0)]

theorem turn_end (hend : w.layer.cursor.data.drop w.layer.cursor.pos = [])
    (hopens : w.layer.cursor.opens = []) :
    turn standard set limit w =
      match w.below with
      | [] => .halt (some (.ok (w.writes, w.stats)))
      | layer :: below => .next { w with layer, below, matcher := w.matcher.exit } := by
  cases hb : w.below <;> simp only [turn, step_end hend hopens, hb]

/-- Where a layer's walk stops: at the end of its window, or before the end tag of the group it
started in. -/
inductive Ends (standard : Standard) : List (FieldNumber × Nat) → List UInt8 → Prop where
  | window : Ends standard [] []
  | closer {field : FieldNumber} {openedAt : Nat} {opens : List (FieldNumber × Nat)}
      {closer : List UInt8} (rest : List UInt8) : IsTag standard field 4 closer →
      Ends standard ((field, openedAt) :: opens) (closer ++ rest)

/-- Whatever is shorter is walked. -/
def Walks (standard : Standard) (set : RuleSet) (limit : DepthLimit) (len : Nat) : Prop :=
  ∀ {w : Walk} {chain : List FieldNumber} {live : List Path.State} {room : Nat}
    {bytes : List UInt8}, bytes.length < len → Stands set chain live room bytes w →
    Gone standard set limit w chain room bytes (Ends standard w.layer.cursor.opens)

/-! ## A record, crossed or not -/

theorem past_behind (w : Walk) (r : Record) (staged : List Path.State) (command : Option Action)
    (became : Doc) :
    w.past r staged command =
      w.behind (w.layer.cursor.past r) staged (.record r command became .nil) := by
  simp only [Walk.past, Walk.behind, Edits.writes, Edits.actions, List.append_nil]

/-- The walk inside a crossed record. -/
def Walk.inside (w : Walk) (limit : DepthLimit) (r : Record) (live : List Path.State)
    (command : Option Action) (word payload : List UInt8) : Walk :=
  let past := w.past r [] command
  { past with
    matcher := w.matcher.opened live
    layer := ⟨⟨payload, [], 0, limit, 0, 0⟩, w.head + (r.tag ++ word).length,
      w.layer.remaining - w.layer.groupDepth - 1, 0⟩
    below := past.layer :: w.below }

theorem descend_inside {command : Option Action} {word payload : List UInt8}
    (h : Stands set chain live room bytes w) (hroom : 0 < room)
    (hfit : payload.length ≤ PayloadLen.max) :
    descend limit (w.past r (w.matcher.probeRoutes r.field).2.staged command) w.head
        (w.head + (r.tag ++ word).length) payload =
      .next (w.inside limit r (Path.descend set.provider live r.field) command word payload) := by
  have hopened : (w.matcher.restage (w.matcher.probeRoutes r.field).2.staged).commitDescent =
      w.matcher.opened (Path.descend set.provider live r.field) := h.paths.commitDescent r.field
  have hopen : w.layer.groupDepth ≠ w.layer.remaining := by
    have := h.room
    omega
  have hleft : (w.past r (w.matcher.probeRoutes r.field).2.staged command).layer.groupDepth ≠
      (w.past r (w.matcher.probeRoutes r.field).2.staged command).layer.remaining := hopen
  unfold descend
  rw [if_neg hleft, Cursor.within, if_pos hfit]
  simp only [Walk.inside, ← hopened]
  rfl

theorem Stands.inside {payload : List UInt8} (h : Stands set chain live room bytes w)
    (limit : DepthLimit) (r : Record) (hroom : 0 < room) (hle : payload.length ≤ bytes.length)
    (command : Option Action) (word : List UInt8) :
    Stands set (chain ++ [r.field]) (Path.descend set.provider live r.field) (room - 1) payload
      (w.inside limit r (Path.descend set.provider live r.field) command word payload) := by
  have hleft := h.room
  refine ⟨rfl, h.paths.opened r.field, ?_, h.suppress, h.owned, ?_, hle.trans h.fits⟩
  · show 0 + (room - 1) = w.layer.remaining - w.layer.groupDepth - 1
    omega
  · intro pair hpair
    have hlt : pair.layer < w.layerCount + 1 := by
      rcases h.pending pair hpair with hlt | ⟨heq, -⟩ <;> omega
    exact .inl hlt

/-- A crossed interior is left where it was entered. -/
theorem turn_across (standard : Standard) (limit : DepthLimit)
    (hat : At set.provider chain w.matcher live) (field : FieldNumber)
    (tag word payload : List UInt8)
    (live' : List Path.State) (renumbered : Option FieldNumber) {cursor : Cursor}
    (hend : cursor.data.drop cursor.pos = []) (hopens : cursor.opens = [])
    (staged : List Path.State) (t : Edits) :
    let r : Record := ⟨field, tag, .len word payload⟩
    turn standard set limit
        ((w.inside limit r live' (renumbered.map .renumber) word payload).behind cursor staged t) =
      .next (w.behind (w.layer.cursor.past r) staged
        (.crossed field tag word renumbered t .nil)) := by
  intro r
  rw [turn_end (w := (w.inside limit r live' _ word payload).behind cursor staged t) hend hopens]
  have hexit : ((w.matcher.opened live').restage staged).exit = w.matcher.restage staged :=
    hat.exit_opened live' staged
  have hwrites : ((renumbered.map Action.renumber).map (planned w.head r)).toList =
      tagWrites renumbered 2 tag w.head := by
    cases renumbered <;> rfl
  simp only [Walk.behind, Walk.inside, Walk.past, hexit, hwrites, Edits.writes, Edits.actions,
    List.append_nil, List.foldl_append, ← List.append_assoc]
  rfl

/-- The walk gets past a record. -/
theorem Stands.record (h : Stands set chain live room (r.bytes ++ rest) w)
    (hr : r.Lawful standard)
    (hwalks : Walks standard set limit (r.bytes ++ rest).length) :
    Gone standard set limit w chain room (r.bytes ++ rest) (· = rest) := by
  have hpos := hr.length_pos
  have hturn := turn_step set limit h.suppress (step_record h.data hr)
  have hdelivers := delivers limit h hr
  rw [← hturn] at hdelivers
  generalize hT : turn standard set limit w = T at hdelivers
  cases hdelivers with
  | refuses pos kind => exact .halts hT
  | @passes command became staged hc he hb =>
    have hmet : (Edits.record r command became .nil).met.bytes = r.bytes := List.append_nil _
    rw [past_behind w r staged command became] at hT
    refine .settles (.record r command became .nil) rest (w.layer.cursor.past r) staged 1
      (by rw [hmet]) rfl ⟨hr, hc, he, hb, trivial⟩ (.head hT (.refl _)) ?_ (hmet ▸ .past _ r)
    rw [hmet]
    exact hpos
  | @enters word payload renumbered hp hc hroute hretags =>
    rcases Nat.eq_zero_or_pos room with rfl | hroom
    · -- no room left to descend
      have hfull : (w.past r (w.matcher.probeRoutes r.field).2.staged
          (renumbered.map .renumber)).layer.groupDepth =
          (w.past r (w.matcher.probeRoutes r.field).2.staged
            (renumbered.map .renumber)).layer.remaining := h.room
      rw [descend, if_pos hfull] at hT
      exact .halts hT
    · obtain ⟨field, tag, p⟩ := r
      obtain rfl : p = .len word payload := hp
      have htag : 0 < tag.length := hr.isTag.admits.isWord.length_pos
      have hword := hr.payload.1.isWord.length_pos
      have hsize : (Record.bytes ⟨field, tag, .len word payload⟩).length =
          tag.length + (word.length + payload.length) := by
        simp only [Record.bytes, Payload.bytes, List.length_append]
      have hle : payload.length ≤
          (Record.bytes ⟨field, tag, .len word payload⟩ ++ rest).length := by
        rw [List.length_append]
        omega
      have hin := h.inside limit ⟨field, tag, .len word payload⟩ hroom hle
        (renumbered.map .renumber) word
      rw [descend_inside h hroom (hle.trans h.fits)] at hT
      have hlt : payload.length <
          (Record.bytes ⟨field, tag, .len word payload⟩ ++ rest).length := by
        rw [List.length_append]
        omega
      cases hwalks hlt hin with
      | refuses v fault n hsteps hhalt hn =>
        exact .refuses v fault (n + 1) (.head hT hsteps) hhalt (by omega)
      | settles t behind cursor staged n hsplit hstop hcommanded hsteps hn hreach =>
        obtain rfl : behind = [] := by
          cases hstop with
          | window => rfl
        have hinterior : t.met.bytes = payload := by rw [hsplit, List.append_nil]
        have hmet : (Edits.crossed field tag word renumbered t .nil).met.bytes =
            Record.bytes ⟨field, tag, .len word payload⟩ := by
          simp only [Edits.met, Doc.bytes, hinterior, List.append_nil]
        have hdrop : cursor.data.drop cursor.pos = [] :=
          hreach.drop (hsplit ▸ (show List.drop 0 payload = payload from rfl))
        have hacross := turn_across standard limit h.paths field tag word payload
          (Path.descend set.provider live field) renumbered hdrop hreach.opens staged t
        refine .settles (.crossed field tag word renumbered t .nil) rest _ staged (n + 1 + 1)
          (by rw [hmet]) rfl ?_ (.head hT (hsteps.trans (.head hacross (.refl _)))) ?_
          (hmet ▸ .past _ _)
        · exact ⟨hroom, hinterior ▸ hr, hc, hroute, hretags, hcommanded, trivial⟩
        · rw [hmet, hsize]
          rw [hinterior] at hn
          omega

/-! ## A group -/

/-- The renumber staged at a group's start tag. -/
def Walk.pair (w : Walk) (rule : Nat) (tag : List UInt8) (new : FieldNumber) : PendingPair :=
  ⟨w.layerCount, w.layer.groupDepth + 1, rule, w.head, tag.length, tagWord new 3, new⟩

/-- The walk inside a group no action owns. -/
def Walk.inGroup (w : Walk) (cursor : Cursor) (live : List Path.State)
    (pairs : List PendingPair) : Walk :=
  { (w.moved cursor).opened with matcher := w.matcher.opened live, pending := pairs ++ w.pending }

/-- The walk inside a group its rule owns, `depth` groups in. -/
def Walk.inOwned (w : Walk) (staged : List Path.State) (owned : Owned) (cursor : Cursor)
    (depth : Nat) : Walk :=
  { w.moved cursor with
    matcher := w.matcher.restage staged, suppress := depth, owned := some owned }

/-- What a start tag's turn comes to. -/
inductive Enters (set : RuleSet) (standard : Standard) (chain : List FieldNumber)
    (live : List Path.State) (room : Nat) (w : Walk) (field : FieldNumber) (tag : List UInt8)
    (cursor : Cursor) : Turned → Prop where
  | refuses (pos : Nat) (kind : FaultKind) :
      Enters set standard chain live room w field tag cursor (refuse pos kind)
  | crosses (renumbered : Option FieldNumber) (rule : Nat) : 0 < room →
      commanded set chain field = some (renumbered.map .renumber) →
      Retags standard renumbered 3 tag →
      Enters set standard chain live room w field tag cursor
        (.next (w.inGroup cursor (Path.descend set.provider live field)
          (renumbered.map (w.pair rule tag)).toList))
  | owns (a : Action) (rule : Nat) (owned : Owned) (staged : List Path.State) : 0 < room →
      commanded set chain field = some (some a) → owning rule w.head room a = some owned →
      Enters set standard chain live room w field tag cursor
        (.next (w.inOwned staged owned cursor 1))

/-- A start tag's turn goes into the group, as commanded, or refuses. -/
theorem enters (standard : Standard) (limit : DepthLimit)
    (h : Stands set chain live room bytes w) (field : FieldNumber) (tag : List UInt8)
    (opens : List (FieldNumber × Nat)) :
    Enters set standard chain live room w field tag (w.layer.cursor.framed opens tag)
      (deliver standard set limit w (w.layer.cursor.framed opens tag) ⟨field, .groupEnter⟩) := by
  have hleft := h.room
  have hfull : w.layer.groupDepth = w.layer.remaining ↔ room = 0 := by omega
  have hopened : (w.matcher.probeRoutes field).2.commitDescent =
      w.matcher.opened (Path.descend set.provider live field) := h.paths.commitDescent field
  have hstaged : (w.matcher.probeRoutes field).2 =
      w.matcher.restage (w.matcher.probeRoutes field).2.staged := rfl
  -- the walk with its probe made
  obtain ⟨v, hv⟩ : ∃ v : Walk, v = { w.moved (w.layer.cursor.framed opens tag) with
      matcher := (w.matcher.probeRoutes field).2 } := ⟨_, rfl⟩
  have hgroups : v.layer.groupDepth = w.layer.groupDepth := by rw [hv]; rfl
  have haccount : v.layer.remaining = w.layer.remaining := by rw [hv]; rfl
  have hbudget : v.layer.remaining - v.layer.groupDepth = room := by omega
  have hdeliver {hits : Hits} (hprobe : w.matcher.probeTarget field = hits)
      (hsound : ∀ i j, hits ≠ .conflict i j) :
      deliver standard set limit w (w.layer.cursor.framed opens tag) ⟨field, .groupEnter⟩ =
        enterGroup standard set v hits w.head tag.length := by
    unfold deliver Matcher.probe
    rw [hprobe, hv]
    cases hits with
    | conflict i j => exact absurd rfl (hsound i j)
    | _ => rfl
  rcases probe_commanded h.paths field with
    ⟨hprobe, hc⟩ | ⟨rule, a, hprobe, ha, hc⟩ | ⟨i, j, hprobe, hc⟩
  · rw [hdeliver hprobe (by intro _ _ e; cases e)]
    simp only [enterGroup]
    split
    · exact .refuses _ _
    · next hroom =>
      have hpos : 0 < room := by omega
      have hcrosses : Enters set standard chain live room w field tag
          (w.layer.cursor.framed opens tag) _ := .crosses none 0 hpos hc nofun
      rw [hv, hopened]
      exact hcrosses
  · rw [hdeliver hprobe (by intro _ _ e; cases e)]
    simp only [enterGroup, ha]
    by_cases hroom : v.layer.groupDepth = v.layer.remaining
    · cases a with
      | renumber | tombstone | replaceRecord =>
        simp only [if_pos hroom]
        exact .refuses _ _
      | _ => exact .refuses _ _
    · have hpos : 0 < room := by omega
      cases a with
      | renumber new =>
        simp only [if_neg hroom]
        split
        · next hfits =>
          have hretags : Retags standard (some new) 3 tag := by
            intro new' hnew
            cases hnew
            exact hfits
          rw [hv, hopened]
          exact .crosses (some new) rule hpos hc hretags
        · exact .refuses _ _
      | tombstone new =>
        simp only [if_neg hroom]
        rw [hv]
        exact .owns _ rule _ (w.matcher.probeRoutes field).2.staged hpos hc rfl
      | replaceRecord new =>
        simp only [if_neg hroom, hbudget]
        rw [hv]
        exact .owns _ rule _ (w.matcher.probeRoutes field).2.staged hpos hc rfl
      | _ => exact .refuses _ _
  · unfold deliver Matcher.probe
    rw [hprobe]
    exact .refuses _ _

/-! ## Out of a group -/

theorem exitGroup_plain {v : Walk} (head tagW : Nat)
    (hno : ∀ pair ∈ v.pending.head?,
      ¬ (pair.layer = v.layerCount ∧ pair.depth = v.layer.groupDepth)) :
    exitGroup standard v head tagW =
      .next (Walk.closed { v with matcher := v.matcher.exit }) := by
  unfold exitGroup
  cases hp : v.pending with
  | nil => rfl
  | cons pair pending =>
    exact if_neg (hno pair (by rw [hp]; rfl))

theorem exitGroup_pair {v : Walk} {pair : PendingPair} {pending : List PendingPair}
    (head tagW : Nat) (hp : v.pending = pair :: pending) (hlayer : pair.layer = v.layerCount)
    (hdepth : pair.depth = v.layer.groupDepth) :
    exitGroup standard v head tagW =
      if widthFits standard (encodedLen32 (tagWord pair.field 4)) tagW then
        .next (Walk.closed { v with
          matcher := v.matcher.exit
          pending
          writes := v.writes ++ [.tag pair.startAt pair.startWidth pair.startWord,
            .tag head tagW (tagWord pair.field 4)]
          stats := v.stats.note (.renumber pair.field) })
      else refuse head (.tagWidth pair.rule (encodedLen32 (tagWord pair.field 4)) tagW) := by
  unfold exitGroup
  rw [hp]
  exact if_pos ⟨hlayer, hdepth⟩

/-- At an end tag the group's renumber is planned and the matcher leaves it, or the end tag does
not hold the new field's word. -/
theorem turn_exit {closer behind : List UInt8} {cursor : Cursor}
    {opens : List (FieldNumber × Nat)} {openedAt : Nat} {t : Edits}
    (limit : DepthLimit) (h : Stands set chain live room bytes w) (live' : List Path.State)
    (renumbered : Option FieldNumber) (rule : Nat) (staged : List Path.State)
    (hreach : Reaches (w.layer.cursor.framed ((field, openedAt) :: opens) tag) t.met.bytes cursor)
    (hdrop : cursor.data.drop cursor.pos = closer ++ behind)
    (hclose : IsTag standard field 4 closer) :
    let v := (w.inGroup (w.layer.cursor.framed ((field, openedAt) :: opens) tag) live'
      (renumbered.map (w.pair rule tag)).toList).behind cursor staged t
    Retags standard renumbered 4 closer ∧ turn standard set limit v =
        .next (w.behind (cursor.framed opens closer) staged
          (.group field tag renumbered t closer .nil)) ∨
      ∃ pos kind, turn standard set limit v = refuse pos kind := by
  intro v
  have hexit : ((w.matcher.opened live').restage staged).exit = w.matcher.restage staged :=
    h.paths.exit_opened live' staged
  have hinside : (w.inGroup (w.layer.cursor.framed ((field, openedAt) :: opens) tag) live'
      (renumbered.map (w.pair rule tag)).toList).head = w.head + tag.length :=
    (Nat.add_assoc _ _ _).symm
  have hhead : v.head = w.head + tag.length + t.met.bytes.length := by
    show w.layer.base + cursor.pos = w.layer.base + w.layer.cursor.pos + _ + _
    rw [hreach.pos]
    simp only [Cursor.framed]
    omega
  have hwrites : v.writes = w.writes ++ t.writes (w.head + tag.length) :=
    congrArg (fun head => w.writes ++ t.writes head) hinside
  have hturn : turn standard set limit v =
      exitGroup standard (v.moved (cursor.framed opens closer)) v.head closer.length :=
    turn_step (w := v) set limit h.suppress (step_closer hdrop hclose hreach.opens)
  rw [hturn]
  cases renumbered with
  | none =>
    refine .inl ⟨(by intro _ e; cases e), ?_⟩
    rw [exitGroup_plain]
    · show Turn.next { w.moved (cursor.framed opens closer) with
        matcher := ((w.matcher.opened live').restage staged).exit
        writes := v.writes
        stats := t.actions.foldl Stats.note w.stats } = _
      simp only [hexit, hwrites, Walk.behind, Edits.writes, Edits.actions, tagWrites,
        Option.map_none, Option.toList_none, List.append_nil]
    · -- the pending pair, if any, belongs to a group outside this one
      rintro pair hpair ⟨hlayer, hdepth⟩
      have hlayer : pair.layer = w.layerCount := hlayer
      have hdepth : pair.depth = w.layer.groupDepth + 1 := hdepth
      rcases h.pending pair hpair with hlt | ⟨-, hle⟩ <;> omega
  | some new =>
    have hpair := @exitGroup_pair standard (v.moved (cursor.framed opens closer))
      (w.pair rule tag new) w.pending v.head closer.length rfl rfl rfl
    rw [hpair]
    split
    · next hfits =>
      have hretags : Retags standard (some new) 4 closer := by
        intro new' hnew
        cases hnew
        exact hfits
      refine .inl ⟨hretags, ?_⟩
      show Turn.next { w.moved (cursor.framed opens closer) with
        matcher := ((w.matcher.opened live').restage staged).exit
        writes := v.writes ++ [Write.tag w.head tag.length (tagWord new 3),
          Write.tag v.head closer.length (tagWord new 4)]
        stats := (t.actions.foldl Stats.note w.stats).note (.renumber new) } = _
      simp only [hexit, hwrites, hhead, Walk.behind, Edits.writes, Edits.actions, tagWrites,
        Option.map_some, Option.toList_some, List.append_nil, List.foldl_append, List.append_assoc]
      rfl
    · exact .inr ⟨_, _, rfl⟩

theorem turn_suppressed {c : Cursor} {entry : Entry} (hsuppress : 0 < w.suppress)
    (hs : step standard w.layer.cursor = (some (.ok entry), c)) :
    turn standard set limit w = suppressed standard limit w c entry := by
  simp only [turn, hs, if_pos hsuppress]

section Closes

variable {v : Walk} {owned : Owned} {c : Cursor} {head : Nat} {action : Action}
  (hlast : w.suppress = 1) (howned : w.owned = some owned)
  (hv : v = { w.moved c with suppress := 0, owned := none })
include hlast howned hv

theorem suppressed_plans {write : Write}
    (hj : judgeOwned standard limit owned v.head = (head, action, some (.ok write))) :
    suppressed standard limit w c ⟨field, .groupExit⟩ = .next (v.plan write action) := by
  subst hv
  simp only [suppressed, hlast, howned, Nat.sub_self, if_true]
  rw [hj]

theorem suppressed_refuses {kind : FaultKind}
    (hj : judgeOwned standard limit owned v.head = (head, action, some (.error kind))) :
    suppressed standard limit w c ⟨field, .groupExit⟩ = refuse head kind := by
  subst hv
  simp only [suppressed, hlast, howned, Nat.sub_self, if_true]
  rw [hj]

end Closes

/-- An owned group's interior is walked for its pairing alone. -/
theorem suppress_plain (limit : DepthLimit) (h : Stands set chain live room bytes w)
    (staged : List Path.State)
    (owned : Owned) :
    Plain standard (turn standard set limit) (w.inOwned staged owned) room
      fun refusal => ∃ fault, refusal = some (.error fault) where
  value {c _ depth _ _} hdepth hs :=
    turn_suppressed (w := w.inOwned staged owned c depth) hdepth hs
  enter {c _ depth _} hdepth hlt hs := by
    have hroom : w.layer.groupDepth + depth ≠ w.layer.remaining := by
      have := h.room
      omega
    rw [turn_suppressed (w := w.inOwned staged owned c depth) hdepth hs]
    exact if_neg hroom
  full {c _ _} hbound hs := by
    refine ⟨_, ?_, ⟨(w.inOwned staged owned c room).head, .wire .depth⟩, rfl⟩
    rw [turn_suppressed (w := w.inOwned staged owned c room) hbound hs]
    exact if_pos h.room
  exit {c _ depth _} hdepth hs := by
    rw [turn_suppressed (w := w.inOwned staged owned c (depth + 1)) (Nat.succ_pos depth) hs]
    exact if_neg (Nat.ne_of_gt hdepth)
  error {c _ depth _} hs := ⟨_, turn_error (w := w.inOwned staged owned c depth) hs, _, rfl⟩

/-- At its exit an owned group's extent is written whole, or refused. -/
theorem turn_owned {closer behind : List UInt8} {cursor : Cursor}
    {opens : List (FieldNumber × Nat)} {openedAt rule : Nat} {inner : Doc} {owned : Owned}
    (limit : DepthLimit) (h : Stands set chain live room bytes w) (staged : List Path.State)
    (ho : owning rule w.head room a = some owned)
    (hreach : Reaches (w.layer.cursor.framed ((field, openedAt) :: opens) tag) inner.bytes cursor)
    (hdrop : cursor.data.drop cursor.pos = closer ++ behind)
    (hclose : IsTag standard field 4 closer) :
    let extent := tag.length + inner.bytes.length + closer.length
    (∃ d, Supplants standard room extent a d ∧
        turn standard set limit (w.inOwned staged owned cursor 1) =
          .next (w.behind (cursor.framed opens closer) staged
            (.owned field tag inner closer a d .nil))) ∨
      ∃ pos kind, turn standard set limit (w.inOwned staged owned cursor 1) = refuse pos kind := by
  intro extent
  have hs : step standard cursor = (some (.ok ⟨field, .groupExit⟩), cursor.framed opens closer) :=
    step_closer hdrop hclose hreach.opens
  have hstop : w.layer.base + (cursor.framed opens closer).pos = w.head + extent := by
    show w.layer.base + (cursor.pos + closer.length) = w.layer.base + w.layer.cursor.pos + _
    rw [hreach.pos]
    simp only [Cursor.framed, extent]
    omega
  have hpos := hclose.admits.isWord.length_pos
  -- the walk behind the end tag, the group given up
  obtain ⟨v, hv⟩ : ∃ v : Walk, v = { w.moved (cursor.framed opens closer) with
      matcher := w.matcher.restage staged, suppress := 0, owned := none } := ⟨_, rfl⟩
  have hhead : v.head = w.head + extent := by rw [hv, ← hstop]; rfl
  have hlast : v = { (w.inOwned staged owned cursor 1).moved (cursor.framed opens closer) with
      suppress := 0, owned := none } := hv
  rw [turn_suppressed (w := w.inOwned staged owned cursor 1) Nat.one_pos hs]
  rcases judgeOwned_spec standard limit (show 0 < extent by omega) ho with
    ⟨d, write, hd, hwrite, hok⟩ | ⟨kind, herror⟩
  · rw [← hhead] at hok
    refine .inl ⟨d, hd, (suppressed_plans rfl rfl hlast hok).trans ?_⟩
    rw [hv]
    simp only [Walk.plan, Walk.moved, Walk.behind, Edits.writes, Edits.actions, extent, hwrite,
      Option.toList_some, List.append_nil, h.suppress, h.owned]
    rfl
  · rw [← hhead] at herror
    exact .inr ⟨_, _, suppressed_refuses rfl rfl hlast herror⟩

theorem Stands.inGroup (h : Stands set chain live room (tag ++ rest) w) (hroom : 0 < room)
    (field : FieldNumber) (opens : List (FieldNumber × Nat)) (renumbered : Option FieldNumber)
    (rule : Nat) :
    Stands set (chain ++ [field]) (Path.descend set.provider live field) (room - 1) rest
      (w.inGroup (w.layer.cursor.framed opens tag) (Path.descend set.provider live field)
        (renumbered.map (w.pair rule tag)).toList) := by
  have hleft := h.room
  have hfits := h.fits
  rw [List.length_append] at hfits
  refine ⟨drop_of_drop_eq h.data, h.paths.opened field, ?_, h.suppress, h.owned, ?_, by omega⟩
  · show w.layer.groupDepth + 1 + (room - 1) = w.layer.remaining
    omega
  · intro pair hpair
    cases renumbered with
    | none =>
      have hdeeper : w.layer.groupDepth ≤ w.layer.groupDepth + 1 := Nat.le_succ _
      exact (h.pending pair hpair).imp_right fun hkey => ⟨hkey.1, hkey.2.trans hdeeper⟩
    | some new =>
      cases hpair
      exact .inr ⟨rfl, Nat.le_refl _⟩

/-- The walk gets past a group, whatever is commanded of it. -/
theorem Stands.group (h : Stands set chain live room (tag ++ rest) w)
    (htag : IsTag standard field 3 tag)
    (hopens : w.layer.cursor.opens.length < w.layer.cursor.limit.asInner)
    (hwalks : Walks standard set limit (tag ++ rest).length) :
    Gone standard set limit w chain room (tag ++ rest)
      fun behind => behind.length < (tag ++ rest).length := by
  have hpos := htag.admits.isWord.length_pos
  have hdata : w.layer.cursor.data.drop w.layer.cursor.pos = tag ++ rest := h.data
  have hlen : (tag ++ rest).length = tag.length + rest.length := List.length_append
  have hturn := turn_step set limit h.suppress (step_opener hdata htag hopens)
  have henters := enters standard limit h field tag
    ((field, w.layer.cursor.pos) :: w.layer.cursor.opens)
  rw [← hturn] at henters
  generalize hT : turn standard set limit w = T at henters
  cases henters with
  | refuses pos kind => exact .halts hT
  | crosses renumbered rule hroom hc hretags =>
    have hin := h.inGroup hroom field
      ((field, w.layer.cursor.pos) :: w.layer.cursor.opens) renumbered rule
    cases hwalks (show rest.length < (tag ++ rest).length by omega) hin with
    | refuses v fault n hsteps hhalt hn =>
      exact .refuses v fault (n + 1) (.head hT hsteps) hhalt (by omega)
    | settles t stop cursor staged n hsplit hstop hcommanded hsteps hn hreach =>
      cases hstop with
      | @closer _ _ _ closer behind hclose =>
        have hdrop := hreach.drop ((drop_of_drop_eq hdata).trans hsplit)
        have hsize : rest.length = t.met.bytes.length + (closer.length + behind.length) := by
          rw [hsplit, List.length_append, List.length_append]
        rcases turn_exit limit h (Path.descend set.provider live field) renumbered rule
            staged hreach hdrop hclose with ⟨hback, hexit⟩ | ⟨pos, kind, hexit⟩
        · have hmet : (Edits.group field tag renumbered t closer .nil).met.bytes =
              tag ++ t.met.bytes ++ closer := List.append_nil _
          refine .settles (.group field tag renumbered t closer .nil) behind _ staged (n + 1 + 1)
            ?_ ?_ ⟨hroom, htag, hclose, hc, hretags, hback, hcommanded, trivial⟩
            (.head hT (hsteps.trans (.head hexit (.refl _)))) ?_ (hmet ▸ hreach.group)
          · rw [hmet, hsplit]
            simp only [List.append_assoc]
          · omega
          · have hback := hclose.admits.isWord.length_pos
            rw [hmet]
            simp only [List.length_append]
            omega
        · exact .refuses _ _ (n + 1) (.head hT hsteps) hexit (by omega)
  | owns a rule owned staged hroom hc ho =>
    cases (suppress_plain limit h staged owned).interior
        (c := w.layer.cursor.framed ((field, w.layer.cursor.pos) :: w.layer.cursor.opens) tag)
        (drop_of_drop_eq hdata) rfl Nat.one_pos hroom with
    | refuses v refusal n hsteps hhalt hrefused hn =>
      obtain ⟨fault, rfl⟩ := hrefused
      exact .refuses v fault (n + 1) (.head hT hsteps) hhalt (by omega)
    | closes inner closer behind cursor n hsplit hclose hclosed hlawful hsteps hn hreach =>
      have hdrop := hreach.drop ((drop_of_drop_eq hdata).trans hsplit)
      have hsize : rest.length = inner.bytes.length + (closer.length + behind.length) := by
        rw [hsplit, List.length_append, List.length_append]
      rcases turn_owned limit h staged ho hreach hdrop hclose with
        ⟨d, hsupplants, hexit⟩ | ⟨pos, kind, hexit⟩
      · have hmet : (Edits.owned field tag inner closer a d .nil).met.bytes =
            tag ++ inner.bytes ++ closer := List.append_nil _
        refine .settles (.owned field tag inner closer a d .nil) behind _ staged (n + 1 + 1)
          ?_ ?_ ⟨hroom, htag, hclose, hclosed, hlawful, hc, hsupplants, trivial⟩
          (.head hT (hsteps.trans (.head hexit (.refl _)))) ?_ (hmet ▸ hreach.group)
        · rw [hmet, hsplit]
          simp only [List.append_assoc]
        · omega
        · have hback := hclose.admits.isWord.length_pos
          rw [hmet]
          simp only [List.length_append]
          omega
      · exact .refuses _ _ (n + 1) (.head hT hsteps) hexit (by omega)

/-! ## The walk -/

/-- The walk of what is left of a window plans edits the rules command of it, or refuses. -/
theorem walks (standard : Standard) (set : RuleSet) (limit : DepthLimit) (len : Nat) :
    Walks standard set limit len := by
  induction len with
  | zero => exact fun hlt => absurd hlt (Nat.not_lt_zero _)
  | succ len ih =>
    intro w chain live room bytes hlt h
    have hshorter : Walks standard set limit bytes.length := fun hlt' => ih (by omega)
    have hdata := h.data
    -- what is left behind the first record or group, walked in turn
    have hbehind : ∀ {Stop : List UInt8 → Prop}, (∀ rest, Stop rest → rest.length < bytes.length) →
        Gone standard set limit w chain room bytes Stop →
        Gone standard set limit w chain room bytes (Ends standard w.layer.cursor.opens) := by
      intro Stop hless hfirst
      refine hfirst.bind fun t rest cursor staged hsplit hstop hreach => ?_
      have hnext := (hsplit ▸ h).behind hreach staged
      have hgone := hshorter (hless rest hstop) hnext
      rw [show (w.behind cursor staged t).layer.cursor.opens = w.layer.cursor.opens from
        hreach.opens] at hgone
      exact hgone
    rcases step_stands standard w.layer.cursor with
      ⟨hend, ho⟩ | ⟨fault, c', hs⟩ | ⟨r, rest, he, hr⟩ | ⟨field, tag, rest, he, htag, hroom⟩ |
        ⟨field, openedAt, opens, tag, rest, he, htag, ho⟩
    · obtain rfl : bytes = [] := hdata.symm.trans hend
      rw [ho]
      refine .settles .nil [] w.layer.cursor w.matcher.staged 0 rfl .window trivial ?_
        (Nat.le_refl 0) (.nil _)
      rw [behind_nil]
      exact .refl w
    · exact .halts (turn_error hs)
    · obtain rfl : bytes = r.bytes ++ rest := hdata.symm.trans he
      have hpos := hr.length_pos
      refine hbehind (fun rest' e => ?_) (h.record hr hshorter)
      rw [e, List.length_append]
      omega
    · obtain rfl : bytes = tag ++ rest := hdata.symm.trans he
      exact hbehind (fun rest' hless => hless) (h.group htag hroom hshorter)
    · obtain rfl : bytes = tag ++ rest := hdata.symm.trans he
      rw [ho]
      refine .settles .nil (tag ++ rest) w.layer.cursor w.matcher.staged 0 rfl (.closer rest htag)
        trivial ?_ (Nat.le_refl 0) (.nil _)
      rw [behind_nil]
      exact .refl w

/-- The walk of a buffer plans edits the rules command of it, or refuses. -/
theorem walk_spec (standard : Standard) (set : RuleSet) (limit : DepthLimit) {buf : List UInt8}
    (hfit : buf.length ≤ PayloadLen.max) :
    (∃ t : Edits, t.met.bytes = buf ∧ t.Commanded set standard [] limit.asInner ∧
        walk standard set limit buf =
          some (.ok (t.writes 0, t.actions.foldl Stats.note .zero))) ∨
      ∃ fault, walk standard set limit buf = some (.error fault) := by
  set root : Cursor := ⟨buf, [], 0, limit, 0, 0⟩ with hroot
  have hover : Cursor.over buf limit = some root := if_neg (Nat.not_lt.mpr hfit)
  have hstands : Stands set [] (heads set.provider) limit.asInner buf (start set limit root) :=
    ⟨rfl, at_new set.provider, Nat.zero_add _, rfl, rfl, nofun, hfit⟩
  unfold walk
  rw [hover]
  cases walks standard set limit (buf.length + 1) (Nat.lt_succ_self _) hstands with
  | refuses v fault n hsteps hhalt hn =>
    have hrun := hsteps.halts hhalt (show n < buf.length + 2 by omega)
    exact .inr ⟨fault, congrArg (Option.getD · none) hrun⟩
  | settles t rest cursor staged n hsplit hstop hcommanded hsteps hn hreach =>
    obtain rfl : rest = [] := by
      cases hstop with
      | window => rfl
    rw [List.append_nil] at hsplit
    have hdrop : cursor.data.drop cursor.pos = [] :=
      hreach.drop (show buf.drop 0 = _ by rw [List.append_nil]; exact hsplit)
    have hhalt : turn standard set limit ((start set limit root).behind cursor staged t) =
        .halt (some (.ok _)) := turn_end hdrop hreach.opens
    have hrun := hsteps.halts hhalt (show n < buf.length + 2 by rw [hsplit]; omega)
    exact .inl ⟨t, hsplit.symm, hcommanded, congrArg (Option.getD · none) hrun⟩

/-! ## The job -/

/-- A job done: the edits the rules command, the writes planned for them, and the buffer left,
which the cursor recovers as the edited tree. -/
structure Exact (standard : Standard) (set : RuleSet) (limit : DepthLimit) (buf out : List UInt8)
    (stats : Stats) (writes : List Write) (t : Edits) : Prop where
  commanded : t.Commanded set standard [] limit.asInner
  planned : walk standard set limit buf = some (.ok (writes, stats))
  lands : writes = t.writes 0
  receipt : stats = t.actions.foldl Stats.note .zero
  apart : writes.Pairwise (Clear standard)
  inside : ∀ w ∈ writes, w.stop standard ≤ buf.length
  length : out.length = buf.length
  frame : ∀ i, (∀ w ∈ writes, i < w.pos ∨ w.stop standard ≤ i) → out[i]? = buf[i]?
  source : t.met.bytes = buf
  output : t.became.bytes = out
  lawful : t.met.Lawful standard limit.asInner ∧ t.became.Lawful standard limit.asInner
  recovered : Construct.Grouped.Recovers standard limit buf t.met.told
  reparses : Construct.Grouped.Recovers standard limit out t.became.told

/-- Grouped in-place editing keeps groups whole: a refused job leaves the buffer as it was, and
one that is not lands the commanded edits, and nothing else. -/
theorem apply_whole (standard : Standard) (set : RuleSet) (limit : DepthLimit) (buf : List UInt8) :
    (∃ fault, applyStandard standard set limit buf = some (.error fault, buf)) ∨
      ∃ out stats writes t, applyStandard standard set limit buf = some (.ok stats, out) ∧
        Exact standard set limit buf out stats writes t := by
  by_cases hfit : buf.length ≤ PayloadLen.max
  · rcases walk_spec standard set limit hfit with
      ⟨t, hsource, hcommanded, hwalk⟩ | ⟨fault, hwalk⟩
    · have hle : t.met.bytes.length ≤ PayloadLen.max := hsource.symm ▸ hfit
      have hpatches := hcommanded.patches hle
      obtain ⟨hmet, hout⟩ := hcommanded.lawful hle
      have hcommit := hpatches.commits [] []
      have hapart := hpatches.apart 0
      simp only [List.nil_append, List.append_nil, hsource, List.length_nil, Nat.zero_add]
        at hcommit hapart
      obtain ⟨hlen, hframe⟩ := commit_frame hcommit
      have happly : applyStandard standard set limit buf =
          some (.ok (t.actions.foldl Stats.note .zero), t.became.bytes) := by
        simp only [applyStandard, hwalk, hcommit]
        rfl
      exact .inr ⟨t.became.bytes, _, _, t, happly,
        ⟨hcommanded, hwalk, rfl, rfl, hapart.pairwise, fun w hw => (hapart.inside w hw).2, hlen,
          hframe, hsource, rfl, ⟨hmet, hout⟩, hsource ▸ hmet.recovers hle,
          hout.recovers (hlen.symm ▸ hfit)⟩⟩
    · exact .inl ⟨fault, by simp only [applyStandard, hwalk]⟩
  · have hover : Cursor.over buf limit = none := if_pos (Nat.lt_of_not_le hfit)
    exact .inl ⟨⟨0, .oversize⟩, by simp only [applyStandard, walk, hover]⟩

end ProtobufEdit.Inplace.Grouped
