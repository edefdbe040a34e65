import ProtobufEdit.Rewrite.Groupless

/-!
# What the rewriter commits

`verdict` is what the rules make of one record, and `commit` what they make of a committed
interior. The walk of the interior sends its consumer the events of that document, or fails
where there is none.
-/

namespace ProtobufEdit.Rewrite.Groupless

open Wire ProtobufEdit.Path Cursor Cursor.Groupless Loop Emission TwoPass Wire.Groupless

/-! ## The documents -/

/-- The edits a receipt counts. -/
inductive Mark where
  | deleted
  | replaced
  | normalized
  | inserted
  deriving DecidableEq, Repr

def note : Mark → InsertStats → InsertStats
  | .deleted, t => { t with deleted := t.deleted + 1 }
  | .replaced, t => { t with replaced := t.replaced + 1 }
  | .normalized, t => { t with normalized := t.normalized + 1 }
  | .inserted, t => { t with inserted := t.inserted + 1 }

def noteDescended (t : InsertStats) : InsertStats := { t with descended := t.descended + 1 }

/-- What the rules make of a record. -/
inductive Verdict where
  | refuse
  | keep
  | act (action : Action)
  | enter
  deriving DecidableEq, Repr

section Documents

variable {inserts : Bool} (set : Sets inserts)

/-- Two actions conflict; one owns its record; a gap anchor must be a container; and a
container is entered for a gap, or for a path that goes on through it. -/
def verdict (chain : List FieldNumber) (r : Record) : Verdict :=
  let gaps := set.provider.gapHits chain r.field
  match set.provider.hits .target chain r.field with
  | _ :: _ :: _ => .refuse
  | [rule] =>
    if r.payload.kind ≠ .len ∧ gaps ≠ [] then .refuse
    else (set.action rule).elim .refuse .act
  | [] =>
    if r.payload.kind = .len then
      if gaps ≠ [] ∨ set.provider.routes chain r.field = true then .enter else .keep
    else if gaps = [] then .keep
    else .refuse

variable {set} in
/-- Only containers are entered. -/
theorem kind_of_enter {chain : List FieldNumber} {r : Record}
    (h : verdict set chain r = .enter) : r.payload.kind = .len := by
  cases hhits : set.provider.hits .target chain r.field with
  | nil =>
    simp only [verdict, hhits] at h
    split_ifs at h with hkind
    exact hkind
  | cons rule rules =>
    cases rules with
    | cons other rules => simp [verdict, hhits] at h
    | nil =>
      simp only [verdict, hhits] at h
      split_ifs at h
      cases haction : set.action rule <;> simp [haction] at h

/-- A record re-emitted at minimal width. -/
def normal (r : Record) : Authored UInt8 :=
  authoredRecord (headWord r.field (Value.own r.payload.value).kind) (Value.own r.payload.value)

/-- A record its action owns; `none` where the kinds disagree. -/
def edit (r : Record) : Action → Option (Doc UInt8 Mark → Doc UInt8 Mark)
  | .delete => some (.drop .deleted r.bytes)
  | .replace value =>
    if agrees r.payload.value value then
      some (.replace .replaced r.tag r.payload.bytes value.authored)
    else none
  | .normalize => some (.author .normalized r.bytes (normal r))
  | .insert _ => none

/-- Inserted records, out of nothing. -/
def insertions : List InsertRule → Doc UInt8 Mark
  | [] => .nil
  | insert :: rest => .author .inserted [] (inserted insert) (insertions rest)

attribute [grind =] insertions

/-- The insertions a gap lane fires into a field behind a chain, in rule order. -/
def insertsAt (lane : Lane) (chain : List FieldNumber) (field : FieldNumber) : List InsertRule :=
  (set.provider.hits lane chain field).filterMap fun rule =>
    match set.action rule with
    | some (.insert insert) => some insert
    | _ => none

/-- An interior between what is inserted at its head and at its tail. -/
def fenced (heads tails : List InsertRule) (d : Doc UInt8 Mark) : Doc UInt8 Mark :=
  (insertions heads).append (d.append (insertions tails))

/-- What a committed interior becomes; `none` where the walk of it refuses. -/
def commit (standard : Standard) (remaining : Nat) (chain : List FieldNumber)
    (bytes : List UInt8) : Option (Doc UInt8 Mark) :=
  if bytes = [] then some .nil
  else
    match _hf : first standard bytes with
    | none => none
    | some (r, rest) =>
      match verdict set chain r with
      | .refuse => none
      | .keep => (commit standard remaining chain rest).map (.copy r.bytes)
      | .act action =>
        match edit r action with
        | none => none
        | some node => (commit standard remaining chain rest).map node
      | .enter =>
        match _hp : r.payload with
        | .len word payload =>
          match remaining with
          | 0 => none
          | below + 1 => do
            let inner ← commit standard below (chain ++ [r.field]) payload
            let behind ← commit standard (below + 1) chain rest
            some (.cross r.tag word (fenced (insertsAt set .head chain r.field)
              (insertsAt set .tail chain r.field) inner) behind)
        | _ => none
termination_by bytes.length
decreasing_by
  all_goals
    first
      | exact first_rest_lt _hf
      | exact first_payload_lt _hf _hp

/-- The whole document, between the root's insertions. -/
def rooted (d : Doc UInt8 Mark) : Doc UInt8 Mark :=
  fenced (set.rootInserts .headOf) (set.rootInserts .tailOf) d

end Documents

section Insertions

variable {inserts : List InsertRule} {heads tails : List InsertRule} {d : Doc UInt8 Mark}

theorem insertions_source : (insertions inserts).source = [] := by
  induction inserts with
  | nil => rfl
  | cons insert rest ih => rw [insertions, Doc.source, ih, List.nil_append]

theorem insertions_tagged : (insertions inserts).Tagged := by
  induction inserts with
  | nil => exact trivial
  | cons insert rest ih => exact ih

theorem fenced_source : (fenced heads tails d).source = d.source := by
  simp [fenced, insertions_source]

theorem fenced_tagged : (fenced heads tails d).Tagged ↔ d.Tagged := by
  simp [fenced, Doc.tagged_append, insertions_tagged]

/-- Insertions are the events their documents send. -/
theorem feed_insertions {σ : Type} {S : Sink σ} (pos : Nat) (st : σ × InsertStats) :
    feed S note noteDescended (insertions inserts) pos st = fireAll S inserts st := by
  induction inserts generalizing st with
  | nil => rfl
  | cons insert rest ih =>
    simp only [insertions, feed, fireAll, fireGap, bind_assoc, pure_bind, ih, List.length_nil,
      Nat.add_zero]
    rfl

theorem feed_fenced {σ : Type} {S : Sink σ} (pos : Nat) (st : σ × InsertStats) :
    feed S note noteDescended (fenced heads tails d) pos st =
      fireAll S heads st >>= fun st => feed S note noteDescended d pos st >>= fireAll S tails := by
  rw [fenced, feed_append, feed_insertions, insertions_source, List.length_nil, Nat.add_zero]
  congr 1
  funext st
  rw [feed_append]
  congr 1
  funext st
  rw [feed_insertions]

end Insertions

section Source

variable {inserts : Bool} {set : Sets inserts} {standard : Standard} {remaining : Nat}
  {chain : List FieldNumber} {bytes : List UInt8} {d rest : Doc UInt8 Mark} {r : Record}
  {action : Action} {node : Doc UInt8 Mark → Doc UInt8 Mark}

theorem edit_source (h : edit r action = some node) :
    (node rest).source = r.bytes ++ rest.source := by
  cases action with
  | delete => cases h; rfl
  | normalize => cases h; rfl
  | insert insert => cases h
  | replace value =>
    simp only [edit, Option.ite_none_right_eq_some, Option.some.injEq] at h
    obtain ⟨-, rfl⟩ := h
    simp [Doc.source, Record.bytes]

theorem edit_tagged (h : edit r action = some node) : (node rest).Tagged ↔ rest.Tagged := by
  cases action with
  | delete => cases h; rfl
  | normalize => cases h; rfl
  | insert insert => cases h
  | replace value =>
    simp only [edit, Option.ite_none_right_eq_some, Option.some.injEq] at h
    obtain ⟨-, rfl⟩ := h
    rfl

theorem commit_source (h : commit set standard remaining chain bytes = some d) :
    d.source = bytes := by
  fun_induction commit set standard remaining chain bytes generalizing d with
  | case1 => cases h; rfl
  | case2 | case3 | case5 | case7 | case9 => cases h
  | case4 remaining chain bytes hne r rest hfirst hverdict ih =>
    obtain ⟨e, he, rfl⟩ := Option.map_eq_some_iff.mp h
    rw [Doc.source, ih he, (first_iff.mp hfirst).1]
  | case6 remaining chain bytes hne r rest hfirst action hverdict node hedit ih =>
    obtain ⟨e, he, rfl⟩ := Option.map_eq_some_iff.mp h
    rw [edit_source hedit, ih he, (first_iff.mp hfirst).1]
  | case8 chain bytes hne r rest hfirst hverdict word payload hp below ihi ihr =>
    obtain ⟨inner, hinner, h⟩ := Option.bind_eq_some_iff.mp h
    obtain ⟨behind, hbehind, h⟩ := Option.bind_eq_some_iff.mp h
    cases h
    rw [Doc.source, fenced_source, (first_iff.mp hfirst).1, ← ihr hbehind, Record.bytes, hp,
      Payload.bytes, ← ihi hinner]
    simp

theorem commit_tagged (h : commit set standard remaining chain bytes = some d) : d.Tagged := by
  fun_induction commit set standard remaining chain bytes generalizing d with
  | case1 => cases h; exact trivial
  | case2 | case3 | case5 | case7 | case9 => cases h
  | case4 remaining chain bytes hne r rest hfirst hverdict ih =>
    obtain ⟨e, he, rfl⟩ := Option.map_eq_some_iff.mp h
    exact @ih e he
  | case6 remaining chain bytes hne r rest hfirst action hverdict node hedit ih =>
    obtain ⟨e, he, rfl⟩ := Option.map_eq_some_iff.mp h
    exact (edit_tagged hedit).mpr (ih he)
  | case8 chain bytes hne r rest hfirst hverdict word payload hp below ihi ihr =>
    obtain ⟨inner, hinner, h⟩ := Option.bind_eq_some_iff.mp h
    obtain ⟨behind, hbehind, h⟩ := Option.bind_eq_some_iff.mp h
    cases h
    have hlaw := (first_iff.mp hfirst).2
    have hword := hlaw.payload
    rw [hp] at hword
    exact ⟨List.length_pos_iff.mp hlaw.isTag.admits.isWord.length_pos,
      List.length_pos_iff.mp hword.1.isWord.length_pos, fenced_tagged.mpr (ihi hinner),
      ihr hbehind⟩

end Source

/-! ## The probes -/

section Probes

variable {inserts : Bool} {set : Sets inserts} {chain : List FieldNumber} {field : FieldNumber}

theorem hits_sub_gapHits {lane : Lane} (hlane : lane ≠ .target)
    (h : set.provider.hits lane chain field ≠ []) : set.provider.gapHits chain field ≠ [] := by
  obtain ⟨id, hid⟩ := List.exists_mem_of_ne_nil _ h
  simp only [Paths.hits, List.mem_filter, decide_eq_true_eq] at hid
  refine List.ne_nil_of_mem (a := id) ?_
  simp only [Paths.gapHits, List.mem_filter, decide_eq_true_eq]
  exact ⟨hid.1, hid.2.1 ▸ hlane, hid.2.2⟩

/-- A field's gaps are its head's and its tail's. -/
theorem gapHits_nil : set.provider.gapHits chain field = [] ↔
    set.provider.hits .head chain field = [] ∧ set.provider.hits .tail chain field = [] := by
  constructor
  · intro h
    by_contra hne
    rcases not_and_or.mp hne with hh | ht
    · exact hits_sub_gapHits (by decide) hh h
    · exact hits_sub_gapHits (by decide) ht h
  · rintro ⟨hh, ht⟩
    simp only [Paths.hits, Paths.gapHits, List.filter_eq_nil_iff, decide_eq_true_eq, not_and]
      at hh ht ⊢
    intro id hid hlane hsel
    cases hl : set.provider.lane id with
    | target => exact hlane hl
    | head => exact hh id hid hl hsel
    | tail => exact ht id hid hl hsel

/-- An unlaned set has no gap. -/
theorem gapHits_of_ungapped (h : set.provider.gapped = false) :
    set.provider.gapHits chain field = [] := by
  simp only [Paths.gapHits, List.filter_eq_nil_iff, List.mem_range, decide_eq_true_eq, not_and]
  intro id hid hlane
  obtain ⟨action, haction, hl⟩ := set.action_isSome hid
  rw [hl] at hlane
  obtain ⟨rule, hrule, rfl⟩ := Option.map_eq_some_iff.mp haction
  have hmem := List.mem_of_getElem? hrule
  have hinsert : rule.action.isInsert = true :=
    Bool.eq_true_of_not_eq_false fun hi => hlane (Action.lane_target.mpr hi)
  have hdoor := (set.shaped hmem).door hinsert
  have hany : (set.provider.entries.any fun e => e.2 ≠ .target) = true :=
    List.any_eq_true.mpr ⟨_, List.mem_map_of_mem hmem, by simpa using hlane⟩
  rw [Paths.gapped, hany, Bool.and_true] at h
  rw [show set.provider.laned = inserts from rfl, hdoor] at h
  cases h

/-- The hoisted gate is the provider's own. -/
theorem gapped_eq : gapped set = set.provider.gapped := by
  have hany : (Matcher.new set.provider).gapped = set.provider.gapped := (at_new set.provider).any
  rw [gapped, hany, Paths.gapped, ← Bool.and_assoc, show set.provider.laned = inserts from rfl,
    Bool.and_self]

variable {m : Matcher} {live : List Path.State}

/-- Behind the gate, a container is entered for its gaps. -/
theorem interior_eq (hat : At set.provider chain m live) :
    (gapped set && ((m.probeGaps field).1 || (m.probeGaps field).2)) =
      !(set.provider.gapHits chain field).isEmpty := by
  have hprobe := hat.probeGaps field
  rw [hprobe, gapped_eq]
  cases hg : set.provider.gapped with
  | false => rw [gapHits_of_ungapped hg]; rfl
  | true =>
    rw [Bool.true_and, Bool.eq_iff_iff]
    simp only [Bool.or_eq_true, Bool.not_eq_true', List.isEmpty_eq_false_iff]
    rw [Ne, Ne, Ne, gapHits_nil]
    exact (Decidable.not_and_iff_or_not (p := _ = _)).symm

/-- The gate in front of a scalar's gap question changes no answer. -/
theorem firstInteriorGap_eq (hat : At set.provider chain m live) :
    (if gapped set = true then m.firstInteriorGap field else none) =
      (set.provider.gapHits chain field).head? := by
  rw [hat.firstInteriorGap, gapped_eq]
  cases hg : set.provider.gapped with
  | false => rw [gapHits_of_ungapped hg]; rfl
  | true => rfl

/-- A hit of a lane quotes a rule whose action lands in it. -/
theorem action_of_hit {lane : Lane} {id : Nat} (h : id ∈ set.provider.hits lane chain field) :
    ∃ action, set.action id = some action ∧ action.lane = lane := by
  simp only [Paths.hits, List.mem_filter, List.mem_range, decide_eq_true_eq] at h
  obtain ⟨action, haction, hl⟩ := set.action_isSome h.1
  exact ⟨action, haction, hl.symm.trans h.2.1⟩

/-- Insertions own no record. -/
theorem owns_of_act {r : Record} {action : Action} (h : verdict set chain r = .act action) :
    action.isInsert = false := by
  cases hhits : set.provider.hits .target chain r.field with
  | nil =>
    simp only [verdict, hhits] at h
    split_ifs at h
  | cons rule rules =>
    cases rules with
    | cons other rules => simp [verdict, hhits] at h
    | nil =>
      obtain ⟨quoted, hquoted, hlane⟩ :=
        action_of_hit (hhits ▸ List.mem_cons_self : rule ∈ set.provider.hits .target chain r.field)
      simp only [verdict, hhits, hquoted, Option.elim_some] at h
      split_ifs at h
      cases h
      exact Action.lane_target.mp hlane

variable {σ : Type} {S : Sink σ}

theorem fireHits_eq {ids : List Nat} (st : σ × InsertStats)
    (h : ∀ id ∈ ids, ∃ insert, set.action id = some (.insert insert)) :
    fireHits set S ids st = fireAll S (ids.filterMap fun rule =>
      match set.action rule with
      | some (.insert insert) => some insert
      | _ => none) st := by
  induction ids generalizing st with
  | nil => rfl
  | cons id ids ih =>
    obtain ⟨hid, hids⟩ := List.forall_mem_cons.mp h
    obtain ⟨insert, hinsert⟩ := hid
    simp only [fireHits, hinsert, List.filterMap_cons, fireAll]
    congr 1
    funext st
    exact ih st hids

/-- A lane fires the insertions its rules hold, in rule order. -/
theorem fireLane_eq (hat : At set.provider chain m live) {lane : Lane} (hlane : lane ≠ .target)
    (st : σ × InsertStats) :
    fireLane set S m field lane st = fireAll S (insertsAt set lane chain field) st := by
  rw [fireLane, hat.visitGaps field hlane]
  refine fireHits_eq st fun id hid => ?_
  obtain ⟨action, haction, hl⟩ := action_of_hit hid
  cases action with
  | insert insert => exact ⟨insert, haction⟩
  | delete | replace _ | normalize => exact absurd hl.symm hlane

theorem insertsAt_nil {lane : Lane} (h : set.provider.hits lane chain field = []) :
    insertsAt set lane chain field = [] := by
  rw [insertsAt, h, List.filterMap_nil]

end Probes

/-! ## One turn, by its verdict -/

section Turns

variable {inserts : Bool} {set : Sets inserts} {σ : Type} {S : Sink σ} {standard : Standard}
  {chain : List FieldNumber} {w : State σ} {live : List Path.State} {r : Record}
  {rest : List UInt8}

theorem turn_end (h : w.layer.cursor.data.drop w.layer.cursor.pos = []) :
    turn set S standard w = exhausted set S w := by
  simp only [turn, step_end h]

theorem turn_record
    (h : first standard (w.layer.cursor.data.drop w.layer.cursor.pos) = some (r, rest)) :
    turn set S standard w =
      deliver set S w (w.layer.cursor.past r) ⟨r.field, r.payload.value⟩ := by
  simp only [turn, (step_record h).1]

theorem turn_refuses (hne : w.layer.cursor.data.drop w.layer.cursor.pos ≠ [])
    (h : first standard (w.layer.cursor.data.drop w.layer.cursor.pos) = none) :
    ∃ fault, turn set S standard w = .halt (S.refuse fault) := by
  obtain ⟨fault, c', hstep⟩ := step_refuses hne h
  refine ⟨⟨w.layer.base + fault.pos, w.trail, .wire (breach fault.kind)⟩, ?_⟩
  simp only [turn, hstep]

theorem head_past : (w.moved (w.layer.cursor.past r)).head = w.head + r.bytes.length :=
  (Nat.add_assoc _ _ _).symm

/-- The walk behind a record, with what its probe staged. -/
def behind (w : State σ) (r : Record) (staged : List Path.State) : State σ :=
  w.onward (w.layer.cursor.past r) staged w.stats w.sink

theorem head_behind (staged : List Path.State) :
    (behind w r staged).head = w.head + r.bytes.length := head_past

theorem deliver_scalar (hat : At set.provider chain w.matcher live)
    (hscalar : r.payload.kind ≠ .len) :
    deliver set S w (w.layer.cursor.past r) ⟨r.field, r.payload.value⟩ =
      match Hits.of (set.provider.hits .target chain r.field) with
      | .conflict first second => .halt (S.refuse ⟨w.head, w.trail, .conflict first second⟩)
      | hits =>
        match (set.provider.gapHits chain r.field).head? with
        | some rule => .halt (S.refuse ⟨w.head, w.trail, .kindMismatch rule⟩)
        | none =>
          match hits with
          | .one rule => act set S w (behind w r w.matcher.staged) ⟨r.field, r.payload.value⟩ rule
          | .none => (behind w r w.matcher.staged).event
              (S.verbatim w.head (w.head + r.bytes.length))
          | .conflict _ _ => .halt .panic := by
  rw [← hat.probeTarget, ← firstInteriorGap_eq hat, ← @head_past _ w r]
  cases hp : r.payload with
  | len word payload => rw [hp] at hscalar; exact absurd rfl hscalar
  | varint _ | i64 _ | i32 _ => rfl

theorem deliver_len {word payload : List UInt8} (hat : At set.provider chain w.matcher live)
    (hp : r.payload = .len word payload) :
    deliver set S w (w.layer.cursor.past r) ⟨r.field, r.payload.value⟩ =
      match Hits.of (set.provider.hits .target chain r.field) with
      | .conflict first second => .halt (S.refuse ⟨w.head, w.trail, .conflict first second⟩)
      | .one rule =>
        act set S w (behind w r (w.matcher.probeRoutes r.field).2.staged)
          ⟨r.field, r.payload.value⟩ rule
      | .none =>
        if !(set.provider.gapHits chain r.field).isEmpty || set.provider.routes chain r.field then
          cross set S w (behind w r (w.matcher.probeRoutes r.field).2.staged) r.field payload
            !(set.provider.gapHits chain r.field).isEmpty
        else
          (behind w r (w.matcher.probeRoutes r.field).2.staged).event
            (S.verbatim w.head (w.head + r.bytes.length)) := by
  have hprobed := hat.restage (w.matcher.probeRoutes r.field).2.staged
  rw [← hat.probeTarget, ← hat.routes, ← interior_eq hprobed, ← @head_past _ w r]
  cases hprobe : w.matcher.probeTarget r.field with
  | conflict _ _ => simp only [deliver, hp, Payload.value, Matcher.probe, hprobe]
  | none | one _ =>
    simp only [deliver, hp, Payload.value, Matcher.probe, hprobe]
    rfl

variable (hfirst : first standard (w.layer.cursor.data.drop w.layer.cursor.pos) = some (r, rest))
  (hat : At set.provider chain w.matcher live)

include hfirst hat

theorem turn_refuse (hverdict : verdict set chain r = .refuse) :
    ∃ fault, turn set S standard w = .halt (S.refuse fault) := by
  have hquoted : ∀ rule rules, set.provider.hits .target chain r.field = rule :: rules →
      set.action rule ≠ none := by
    intro rule rules h hnone
    obtain ⟨action, haction, -⟩ := action_of_hit (h ▸ List.mem_cons_self : rule ∈ _)
    rw [hnone] at haction
    cases haction
  rw [turn_record hfirst]
  by_cases hkind : r.payload.kind = .len
  · cases hp : r.payload with
    | varint _ | i64 _ | i32 _ => rw [hp] at hkind; cases hkind
    | len word payload =>
      rw [← hp, deliver_len hat hp]
      simp only [verdict, hkind, ne_eq, not_true_eq_false, false_and, if_false, if_true] at hverdict
      cases hhits : set.provider.hits .target chain r.field with
      | nil =>
        rw [hhits] at hverdict
        simp only at hverdict
        split_ifs at hverdict
      | cons rule rules =>
        cases rules with
        | cons other rules => exact ⟨_, rfl⟩
        | nil =>
          rw [hhits] at hverdict
          cases haction : set.action rule with
          | none => exact absurd haction (hquoted rule [] hhits)
          | some action => simp [haction] at hverdict
  · rw [deliver_scalar hat hkind]
    simp only [verdict, hkind, ne_eq, not_false_eq_true, true_and, if_false] at hverdict
    cases hhits : set.provider.hits .target chain r.field with
    | nil =>
      rw [hhits] at hverdict
      cases hgaps : set.provider.gapHits chain r.field with
      | nil => simp [hgaps] at hverdict
      | cons gap gaps => exact ⟨_, rfl⟩
    | cons rule rules =>
      cases rules with
      | cons other rules => exact ⟨_, rfl⟩
      | nil =>
        rw [hhits] at hverdict
        cases hgaps : set.provider.gapHits chain r.field with
        | cons gap gaps => exact ⟨_, rfl⟩
        | nil =>
          cases haction : set.action rule with
          | none => exact absurd haction (hquoted rule [] hhits)
          | some action => simp [haction, hgaps] at hverdict

theorem turn_keep (hverdict : verdict set chain r = .keep) : ∃ staged,
    turn set S standard w =
      (behind w r staged).event (S.verbatim w.head (w.head + r.bytes.length)) := by
  rw [turn_record hfirst]
  have hnone : set.provider.hits .target chain r.field = [] := by
    cases hhits : set.provider.hits .target chain r.field with
    | nil => rfl
    | cons rule rules =>
      cases rules with
      | cons other rules => simp [verdict, hhits] at hverdict
      | nil =>
        simp only [verdict, hhits] at hverdict
        split_ifs at hverdict
        cases haction : set.action rule <;> simp [haction] at hverdict
  by_cases hkind : r.payload.kind = .len
  · cases hp : r.payload with
    | varint _ | i64 _ | i32 _ => rw [hp] at hkind; cases hkind
    | len word payload =>
      refine ⟨(w.matcher.probeRoutes r.field).2.staged, ?_⟩
      rw [← hp, deliver_len hat hp, hnone]
      simp only [verdict, hnone, hkind, if_true] at hverdict
      split_ifs at hverdict with hin
      obtain ⟨hgaps, hroutes⟩ := not_or.mp hin
      simp [Hits.of, not_not.mp hgaps, Bool.eq_false_of_not_eq_true hroutes]
  · refine ⟨w.matcher.staged, ?_⟩
    rw [deliver_scalar hat hkind, hnone]
    simp only [verdict, hnone, hkind, if_false] at hverdict
    split_ifs at hverdict with hgaps
    rw [hgaps]
    rfl

theorem turn_act {action : Action} (hverdict : verdict set chain r = .act action) :
    ∃ staged rule, set.action rule = some action ∧
      turn set S standard w =
        act set S w (behind w r staged) ⟨r.field, r.payload.value⟩ rule := by
  rw [turn_record hfirst]
  cases hhits : set.provider.hits .target chain r.field with
  | nil =>
    simp only [verdict, hhits] at hverdict
    split_ifs at hverdict
  | cons rule rules =>
    cases rules with
    | cons other rules => simp [verdict, hhits] at hverdict
    | nil =>
      simp only [verdict, hhits] at hverdict
      split_ifs at hverdict with hgaps
      have haction : set.action rule = some action := by
        cases ha : set.action rule with
        | none => simp [ha] at hverdict
        | some other =>
          simp only [ha, Option.elim_some, Verdict.act.injEq] at hverdict
          rw [hverdict]
      by_cases hkind : r.payload.kind = .len
      · cases hp : r.payload with
        | varint _ | i64 _ | i32 _ => rw [hp] at hkind; cases hkind
        | len word payload =>
          refine ⟨(w.matcher.probeRoutes r.field).2.staged, rule, haction, ?_⟩
          rw [← hp, deliver_len hat hp, hhits]
          rfl
      · have hnone : set.provider.gapHits chain r.field = [] := by
          by_contra hne
          exact hgaps ⟨hkind, hne⟩
        refine ⟨w.matcher.staged, rule, haction, ?_⟩
        rw [deliver_scalar hat hkind, hhits, hnone]
        rfl

theorem turn_enter {word payload : List UInt8} (hp : r.payload = .len word payload)
    (hverdict : verdict set chain r = .enter) :
    turn set S standard w =
      cross set S w (behind w r (w.matcher.probeRoutes r.field).2.staged) r.field payload
        !(set.provider.gapHits chain r.field).isEmpty := by
  have hkind : r.payload.kind = .len := by rw [hp]; rfl
  rw [turn_record hfirst, deliver_len hat hp]
  cases hhits : set.provider.hits .target chain r.field with
  | nil =>
    simp only [verdict, hhits, hkind, if_true] at hverdict
    split_ifs at hverdict with hin
    have : (!(set.provider.gapHits chain r.field).isEmpty || set.provider.routes chain r.field) =
        true := by
      rcases hin with hgaps | hroutes
      · simp [hgaps]
      · simp [hroutes]
    simp only [Hits.of, this, if_true]
  | cons rule rules =>
    cases rules with
    | cons other rules => simp [verdict, hhits] at hverdict
    | nil =>
      simp only [verdict, hhits] at hverdict
      split_ifs at hverdict
      cases haction : set.action rule <;> simp [haction] at hverdict

end Turns

/-! ## The walk follows what is committed -/

section Follow

variable {inserts : Bool} {set : Sets inserts} {σ : Type} {S : Sink σ} {standard : Standard}
  {chain : List FieldNumber} {w : State σ} {live : List Path.State} {r : Record}
  {bytes rest : List UInt8} {remaining : Nat}

abbrev Followed (set : Sets inserts) (S : Sink σ) (standard : Standard) (w : State σ)
    (d : Option (Doc UInt8 Mark)) : Prop :=
  Follows S note noteDescended (turn set S standard) w d

/-- A container left: its tail gaps fire, and its ascent settles it. -/
def leave (S : Sink σ) (tails : List InsertRule) (head tagEnd payloadStart payloadEnd : Nat)
    (st : σ × InsertStats) : Except Trap (σ × InsertStats) := do
  let st ← fireAll S tails st
  let s ← S.ascend head tagEnd payloadStart payloadEnd st.1
  return (s, st.2)

/-- Gap lanes stand at the insert door alone. -/
theorem door_of_hits {lane : Lane} {field : FieldNumber} (hlane : lane ≠ .target)
    (h : set.provider.hits lane chain field ≠ []) : inserts = true := by
  by_contra hne
  have hunlaned : set.provider.laned = false := Bool.eq_false_of_not_eq_true hne
  exact hits_sub_gapHits hlane h (gapHits_of_ungapped (Bool.and_eq_false_iff.mpr (.inl hunlaned)))

/-- The pending flag and its gate lose no insertion. -/
theorem fireTails_eq {m : Matcher} {field : FieldNumber} (hat : At set.provider chain m live)
    (st : σ × InsertStats) :
    (if (inserts && !(set.provider.hits .tail chain field).isEmpty) = true then
      fireLane set S m field .tail st else .ok st) =
        fireAll S (insertsAt set .tail chain field) st := by
  by_cases hnil : set.provider.hits .tail chain field = []
  · rw [insertsAt_nil hnil]
    simp [hnil, fireAll]
  · rw [← fireLane_eq hat (by decide)]
    simp [hnil, door_of_hits (by decide) hnil]

theorem fireHeads_eq {m : Matcher} {field : FieldNumber} (hat : At set.provider chain m live)
    (st : σ × InsertStats) :
    (if (!(set.provider.gapHits chain field).isEmpty && (m.probeGaps field).1) = true then
      fireLane set S m field .head st else .ok st) =
        fireAll S (insertsAt set .head chain field) st := by
  rw [hat.probeGaps]
  by_cases hnil : set.provider.hits .head chain field = []
  · rw [insertsAt_nil hnil]
    simp [hnil, fireAll]
  · rw [← fireLane_eq hat (by decide)]
    simp [hnil, hits_sub_gapHits (by decide) hnil]

/-- The flag a crossed layer carries: whether its tail has insertions. -/
theorem tails_eq {m : Matcher} {field : FieldNumber} (hat : At set.provider chain m live) :
    (inserts && !(set.provider.gapHits chain field).isEmpty && (m.probeGaps field).2) =
      !(set.provider.hits .tail chain field).isEmpty := by
  rw [hat.probeGaps]
  by_cases hnil : set.provider.hits .tail chain field = []
  · simp [hnil]
  · simp [hnil, hits_sub_gapHits (by decide) hnil, door_of_hits (by decide) hnil]

section Leaving

variable {v : State σ} {layer : Layer Bool} {below : List (Layer Bool)} {crossing : Crossing}
  (hbelow : v.below = layer :: below) (hcrossing : v.layer.crossing = some crossing)
  (hkind : v.layer.kind = !(set.provider.hits .tail chain crossing.field).isEmpty)
  (hat : At set.provider chain v.matcher.exit live)

include hbelow hcrossing hkind hat

theorem exhausted_ok {sink : σ} {stats : InsertStats}
    (h : leave S (insertsAt set .tail chain crossing.field) v.layer.head v.layer.tagEnd
      v.layer.payloadStart v.layer.payloadEnd (v.sink, v.stats) = .ok (sink, stats)) :
    exhausted set S v = .next { v with layer, below, matcher := v.matcher.exit, sink, stats } := by
  simp only [exhausted, hbelow, hcrossing, hkind, fireTails_eq hat]
  simp only [leave, bind, Except.bind] at h
  cases hfired : fireAll S (insertsAt set .tail chain crossing.field) (v.sink, v.stats) with
  | error trap => rw [hfired] at h; cases h
  | ok st =>
    rw [hfired] at h
    simp only at h
    cases hascend : S.ascend v.layer.head v.layer.tagEnd v.layer.payloadStart v.layer.payloadEnd
      st.1 with
    | error trap => rw [hascend] at h; cases h
    | ok s =>
      rw [hascend] at h
      cases h
      simp only [hascend]

theorem exhausted_fails {trap : Trap}
    (h : leave S (insertsAt set .tail chain crossing.field) v.layer.head v.layer.tagEnd
      v.layer.payloadStart v.layer.payloadEnd (v.sink, v.stats) = .error trap) :
    ∃ o, exhausted set S v = .halt o ∧ ¬o.Done := by
  simp only [exhausted, hbelow, hcrossing, hkind, fireTails_eq hat]
  simp only [leave, bind, Except.bind] at h
  cases hfired : fireAll S (insertsAt set .tail chain crossing.field) (v.sink, v.stats) with
  | error trap => exact ⟨_, rfl, not_done_lapse _⟩
  | ok st =>
    rw [hfired] at h
    simp only at h
    cases hascend : S.ascend v.layer.head v.layer.tagEnd v.layer.payloadStart v.layer.payloadEnd
      st.1 with
    | ok s => rw [hascend] at h; cases h
    | error trap =>
      simp only [hascend]
      cases trap with
      | outgrown len => exact ⟨_, rfl, not_done_refuse S _⟩
      | panic | undefined => exact ⟨_, rfl, not_done_lapse _⟩

end Leaving

/-- An action of another kind refuses. -/
theorem act_refuses {action : Action} {here : State σ} {rule : Nat}
    (haction : set.action rule = some action) (howns : action.isInsert = false)
    (hedit : edit r action = none) :
    ∃ fault, act set S w here ⟨r.field, r.payload.value⟩ rule = .halt (S.refuse fault) := by
  simp only [act, haction]
  cases action with
  | delete | normalize => cases hedit
  | insert insert => cases howns
  | replace value =>
    simp only [edit, ite_eq_right_iff, reduceCtorEq, imp_false] at hedit
    simp only [hedit]
    exact ⟨_, rfl⟩

/-- An action's event. -/
theorem follows_act {action : Action} {staged : List Path.State} {rule : Nat}
    {rest : Option (Doc UInt8 Mark)} {node : Doc UInt8 Mark → Doc UInt8 Mark}
    (haction : set.action rule = some action) (hedit : edit r action = some node)
    (hturn : turn set S standard w =
      act set S w (behind w r staged) ⟨r.field, r.payload.value⟩ rule)
    (hrest : ∀ stats s,
      Followed set S standard (w.onward (w.layer.cursor.past r) staged stats s) rest) :
    Followed set S standard w (rest.map node) := by
  simp only [act, haction] at hturn
  cases action with
  | delete =>
    cases hedit
    refine follows_event hturn (fun d => ?_) fun s => hrest _ s
    simp only [feed, note, head_past]
  | normalize =>
    cases hedit
    refine follows_event hturn (fun d => ?_) fun s => hrest _ s
    simp only [feed, note, head_past, normal]
  | insert insert => cases hedit
  | replace value =>
    simp only [edit, Option.ite_none_right_eq_some, Option.some.injEq] at hedit
    obtain ⟨hagrees, rfl⟩ := hedit
    simp only [hagrees, if_true] at hturn
    refine follows_event hturn (fun d => ?_) fun s => hrest _ s
    simp only [feed, note, head_past, Record.bytes, List.length_append, Nat.add_assoc]
    rfl

/-- What the walk of a record's interior and of the records behind it must be. -/
structure Nested (set : Sets inserts) (S : Sink σ) (standard : Standard)
    (chain : List FieldNumber) (w : State σ) (live : List Path.State) (r : Record)
    (payload : List UInt8) (below : Nat) (inner rest : Option (Doc UInt8 Mark)) : Prop where
  inner : ∀ {v : State σ}, v.layer.cursor.data.drop v.layer.cursor.pos = payload →
    At set.provider (chain ++ [r.field]) v.matcher (descend set.provider live r.field) →
    v.layer.remaining = below → Followed set S standard v inner
  rest : ∀ staged stats s,
    Followed set S standard (w.onward (w.layer.cursor.past r) staged stats s) rest

/-- A container entered, between its insertions. -/
theorem follows_enter {word payload : List UInt8} {below : Nat}
    {inner rest : Option (Doc UInt8 Mark)} (hat : At set.provider chain w.matcher live)
    (hp : r.payload = .len word payload)
    (hturn : turn set S standard w =
      cross set S w (behind w r (w.matcher.probeRoutes r.field).2.staged) r.field payload
        !(set.provider.gapHits chain r.field).isEmpty)
    (hremaining : w.layer.remaining = below + 1) (hfit : payload.length ≤ PayloadLen.max)
    (h : Nested set S standard chain w live r payload below inner rest) :
    (∀ i d, inner = some i → rest = some d → i.source = payload →
      Followed set S standard w (some (.cross r.tag word
        (fenced (insertsAt set .head chain r.field) (insertsAt set .tail chain r.field) i) d))) ∧
    (inner = none ∨ rest = none → S.Walks → Fails (turn set S standard) w) := by
  set heads := insertsAt set .head chain r.field with hheads
  set tails := insertsAt set .tail chain r.field with htails
  set tagEnd := w.head + r.tag.length with htagEnd
  set payloadStart := tagEnd + word.length with hpayloadStart
  set stop := payloadStart + payload.length with hstop
  have hend : (w.moved (w.layer.cursor.past r)).head = stop := by
    rw [head_past, Record.bytes, hp, Payload.bytes]
    simp only [hstop, hpayloadStart, htagEnd, List.length_append, Nat.add_assoc]
  have hhead : (behind w r (w.matcher.probeRoutes r.field).2.staged).head = stop := hend
  have hprobed : At set.provider chain
      (behind w r (w.matcher.probeRoutes r.field).2.staged).matcher live := hat.restage _
  simp only [cross, hremaining, Nat.add_one_ne_zero, if_false, hhead, fireHeads_eq hprobed,
    tails_eq hprobed, ← hheads] at hturn
  rw [show stop - payload.length = payloadStart by omega,
    show w.head + (behind w r (w.matcher.probeRoutes r.field).2.staged).layer.cursor.tagWidth =
      tagEnd from rfl,
    show (behind w r (w.matcher.probeRoutes r.field).2.staged).sink = w.sink from rfl] at hturn
  cases hdescend : S.descend w.head tagEnd payloadStart stop w.sink with
  | error trap =>
    rw [hdescend] at hturn
    have hfails := Fails.of_halt hturn (not_done_lapse trap)
    refine ⟨fun i d _ _ hsource => ?_, fun _ _ => hfails⟩
    simp only [Followed, Follows, feed, fenced_source, hsource, ← htagEnd, ← hpayloadStart,
      ← hstop, hdescend]
    exact hfails
  | ok p =>
    obtain ⟨answer, sink⟩ := p
    rw [hdescend] at hturn
    cases answer with
    | skip =>
      refine ⟨?_, fun _ hwalks => absurd hdescend (hwalks _ _ _ _ _ _)⟩
      rintro i d - rfl hsource
      refine @follows_event _ _ _ _ _ S note noteDescended _ w (w.layer.cursor.past r)
        (some d) (w.matcher.probeRoutes r.field).2.staged w.stats
        (fun _ => S.verbatim w.head stop sink) (.cross r.tag word (fenced heads tails i)) hturn
        (fun d => ?_) (h.rest _ _)
      simp only [feed, fenced_source, hsource, ← htagEnd, ← hpayloadStart, ← hstop, hdescend, hend]
      rfl
    | walk =>
      simp only at hturn
      cases hfired : fireAll S heads (sink, noteDescended w.stats) with
      | error trap =>
        rw [show ({ w.stats with descended := w.stats.descended + 1 } : InsertStats) =
          noteDescended w.stats from rfl, hfired] at hturn
        have hfails := Fails.of_halt hturn (not_done_lapse trap)
        refine ⟨fun i d _ _ hsource => ?_, fun _ _ => hfails⟩
        simp only [Followed, Follows, feed, feed_fenced, fenced_source, hsource, ← htagEnd,
          ← hpayloadStart, ← hstop, hdescend, bind, Except.bind, hfired]
        exact hfails
      | ok st =>
        obtain ⟨sink', stats'⟩ := st
        rw [show ({ w.stats with descended := w.stats.descended + 1 } : InsertStats) =
          noteDescended w.stats from rfl, hfired] at hturn
        have henter := @enter_eq Bool FaultKind InsertStats σ w set.provider chain live r word
          payload hat hfit (!(set.provider.hits .tail chain r.field).isEmpty) stats' sink'
        have hstep := hturn.trans henter
        set child := w.inside r (descend set.provider live r.field)
          (w.opening r word payload (!(set.provider.hits .tail chain r.field).isEmpty))
          stats' sink' with hchild
        have hinner := h.inner (v := child) rfl (hat.opened r.field)
          (by simp only [hchild, Walk.inside, Walk.opening, hremaining, Nat.add_sub_cancel])
        have hexit : ∀ last staged stats s,
            (child.onward last staged stats s).matcher.exit = w.matcher.restage staged :=
          fun _ _ _ _ => hat.exit_opened _ _
        have hnested := follows_within (leave S tails w.head tagEnd payloadStart stop) hinner
          ?_ ?_ h.rest
        · refine ⟨fun i d hi hd hsource => ?_, fun hnone hwalks =>
            Fails.of_steps (Steps.single hstep) (hnested.2 hnone hwalks)⟩
          have hruns := Runs.of_steps (Steps.single hstep) (hnested.1 i d hi hd)
          simp only [Followed, Follows, feed, feed_fenced, fenced_source, hsource, ← htagEnd,
            ← hpayloadStart, ← hstop, hdescend]
          rw [hend] at hruns
          simp only [leave, bind_assoc, pure_bind] at hruns
          simp only [bind_assoc]
          simp only [bind, Except.bind, hfired] at hruns ⊢
          exact hruns
        · intro last staged stats s s' stats'' hlast hl
          rw [turn_end (w := child.onward last staged stats s) hlast,
            exhausted_ok (v := child.onward last staged stats s) rfl rfl rfl
              (by rw [hexit]; exact hat.restage staged) hl, hexit]
          rfl
        · intro last staged stats s trap hlast hl
          obtain ⟨o, ho, hd⟩ := exhausted_fails (v := child.onward last staged stats s) rfl rfl rfl
            (by rw [hexit]; exact hat.restage staged) hl
          exact Fails.of_halt ((turn_end (w := child.onward last staged stats s) hlast).trans ho) hd

/-- The walk of a committed interior sends the events of what is committed. -/
theorem walk_commit (hbytes : w.layer.cursor.data.drop w.layer.cursor.pos = bytes)
    (hat : At set.provider chain w.matcher live) (hremaining : w.layer.remaining = remaining)
    (hfit : bytes.length ≤ PayloadLen.max) :
    Followed set S standard w (commit set standard remaining chain bytes) := by
  fun_induction commit set standard remaining chain bytes generalizing w live with
  | case1 => exact follows_end hbytes
  | case2 remaining chain bytes hne hfirst =>
    obtain ⟨fault, hturn⟩ := turn_refuses (S := S) (hbytes ▸ hne) (hbytes ▸ hfirst)
    exact follows_halt hturn (not_done_refuse S fault)
  | case3 remaining chain bytes hne r rest hfirst hverdict =>
    subst hbytes
    obtain ⟨fault, hturn⟩ := turn_refuse (S := S) hfirst hat hverdict
    exact follows_halt hturn (not_done_refuse S fault)
  | case4 remaining chain bytes hne r rest hfirst hverdict ih =>
    subst hbytes
    obtain ⟨staged, hturn⟩ := turn_keep (S := S) hfirst hat hverdict
    refine follows_event hturn (fun d => ?_) fun s => ?_
    · simp only [feed, head_past]
    · exact ih (step_record hfirst).2 (hat.restage _) hremaining
        (by have := first_rest_lt hfirst; omega)
  | case5 remaining chain bytes hne r rest hfirst action hverdict hedit =>
    subst hbytes
    obtain ⟨staged, rule, haction, hturn⟩ := turn_act (S := S) hfirst hat hverdict
    obtain ⟨fault, hacted⟩ := act_refuses (S := S) haction (owns_of_act hverdict) hedit
    exact follows_halt (hturn.trans hacted) (not_done_refuse S fault)
  | case6 remaining chain bytes hne r rest hfirst action hverdict node hedit ih =>
    subst hbytes
    obtain ⟨staged, rule, haction, hturn⟩ := turn_act (S := S) hfirst hat hverdict
    exact follows_act haction hedit hturn fun stats s => ih (step_record hfirst).2
      (hat.restage staged) hremaining (by have := first_rest_lt hfirst; omega)
  | case7 chain bytes hne r rest hfirst hverdict word payload hp =>
    subst hbytes
    have hturn := turn_enter (S := S) hfirst hat hp hverdict
    simp only [cross, hremaining, if_true] at hturn
    exact follows_halt hturn (not_done_refuse _ _)
  | case8 chain bytes hne r rest hfirst hverdict word payload hp below ihi ihr =>
    subst hbytes
    have hturn := turn_enter (S := S) hfirst hat hp hverdict
    have hlt := first_payload_lt hfirst hp
    have hnested : Nested set S standard chain w live r payload below
        (commit set standard below (chain ++ [r.field]) payload)
        (commit set standard (below + 1) chain rest) :=
      ⟨fun hpayload hat' hbelow => ihi hpayload hat' hbelow (by omega),
        fun staged stats s => ihr (step_record hfirst).2 (hat.restage _) hremaining
          (by have := first_rest_lt hfirst; omega)⟩
    obtain ⟨hsome, hnone⟩ := follows_enter hat hp hturn hremaining (by omega) hnested
    cases hi : commit set standard below (chain ++ [r.field]) payload with
    | none => exact hnone (.inl hi)
    | some i =>
      cases hd : commit set standard (below + 1) chain rest with
      | none => exact hnone (.inr hd)
      | some d => exact hsome i d hi hd (commit_source hi)
  | case9 remaining chain bytes hne r rest hfirst hverdict hscalar =>
    have hkind := kind_of_enter hverdict
    cases hp : r.payload with
    | len word payload => exact absurd hp (hscalar word payload)
    | varint _ | i64 _ | i32 _ => rw [hp] at hkind; cases hkind

end Follow

end ProtobufEdit.Rewrite.Groupless
