import ProtobufEdit.Rewrite.Groupless.Commit

/-!
# The rewriter's two passes

Every turn lowers what is left to read, so the walk's fuel covers it; what the measuring pass
accepts the emit pass replays on either face, and the bytes are those of the recursive
transformer. A job succeeds exactly where the transformer's output stays in the LEN class.
-/

namespace ProtobufEdit.Rewrite.Groupless

open Wire ProtobufEdit.Path Cursor Cursor.Groupless Loop Emission TwoPass Wire.Groupless

/-! ## Whole walks -/

section Whole

variable {inserts : Bool} {set : Sets inserts} {σ : Type} {S : Sink σ} {standard : Standard}
  {limit : DepthLimit} {input : List UInt8} {sink sink' : σ} {d : Doc UInt8 Mark}

theorem act_lowers {w here w' : State σ} {entry : Entry} {rule : Nat}
    (h : act set S w here entry rule = .next w') : w'.left = here.left := by
  unfold act at h
  cases haction : set.action rule with
  | none => rw [haction] at h; cases h
  | some action =>
    rw [haction] at h
    cases action with
    | insert insert => cases h
    | delete => exact (left_of_sent h).trans rfl
    | normalize => exact (left_of_sent h).trans rfl
    | replace value =>
      simp only at h
      split_ifs at h
      exact (left_of_sent h).trans rfl

theorem cross_lowers {w here w' : State σ} {field : FieldNumber} {payload : List UInt8}
    {interior : Bool} (h : cross set S w here field payload interior = .next w') :
    w'.left ≤ here.left + (2 * payload.length + 1) := by
  unfold cross at h
  simp only at h
  by_cases hremaining : w.layer.remaining = 0
  · rw [if_pos hremaining] at h
    cases h
  rw [if_neg hremaining] at h
  cases hdescend : S.descend w.head (w.head + here.layer.cursor.tagWidth)
      (here.head - payload.length) here.head here.sink with
  | error trap => rw [hdescend] at h; cases h
  | ok p =>
    obtain ⟨answer, sink⟩ := p
    rw [hdescend] at h
    cases answer with
    | skip => exact (left_of_sent h).trans_le (Nat.le_add_right _ _)
    | walk =>
      simp only at h
      split at h
      · cases h
      · exact (left_of_enter h).le

theorem deliver_lowers {w w' : State σ} {cursor : Cursor} {entry : Entry}
    (hleft : (w.moved cursor).left + payloadLeft entry.value < w.left)
    (h : deliver set S w cursor entry = .next w') : w'.left < w.left := by
  have hhere : ∀ matcher, ({ w.moved cursor with matcher } : State σ).left =
      (w.moved cursor).left := fun _ => rfl
  unfold deliver at h
  cases hvalue : entry.value with
  | varint _ | i32 _ | i64 _ =>
    simp only [hvalue] at h
    cases hprobe : w.matcher.probeTarget entry.field with
    | conflict first second => rw [hprobe] at h; cases h
    | none | one rule =>
      rw [hprobe] at h
      simp only at h
      split at h
      · cases h
      · first
          | exact (act_lowers h).trans_lt (by omega)
          | exact (left_of_sent h).trans_lt (by omega)
  | len payload =>
    rw [hvalue, payloadLeft] at hleft
    simp only [hvalue] at h
    split at h
    · cases h
    · exact (act_lowers h).trans_lt (by rw [hhere]; omega)
    · split_ifs at h
      · exact (cross_lowers h).trans_lt (by rw [hhere]; omega)
      · exact (left_of_sent h).trans_lt (by rw [hhere]; omega)

theorem exhausted_lowers {w w' : State σ} (h : exhausted set S w = .next w') :
    w'.left < w.left := by
  unfold exhausted at h
  have hpop : ∀ (layer : Layer Bool) (below : List (Layer Bool)) (m : Matcher) (t : InsertStats)
      (s : σ), w.below = layer :: below → ({ w with
        layer, below, matcher := m, stats := t, sink := s } : State σ).left < w.left := by
    rintro layer below m t s hbelow
    simp only [Walk.left, hbelow, Layer.left, List.map_cons, List.sum_cons]
    omega
  cases hbelow : w.below with
  | nil =>
    rw [hbelow] at h
    simp only at h
    split at h <;> cases h
  | cons layer below =>
    rw [hbelow] at h
    simp only at h
    split at h
    · cases h
    · split at h
      · cases h
      · split at h <;> cases h
        exact hpop _ _ _ _ _ hbelow

theorem turn_lowers {w w' : State σ} (h : turn set S standard w = .next w') :
    w'.left < w.left := by
  unfold turn at h
  split at h
  · exact exhausted_lowers h
  · cases h
  · next entry cursor hstep => exact deliver_lowers (left_of_step hstep) h

/-- The walk's fuel covers its measure. -/
theorem walk_of_yields {root : Cursor} {st : σ × InsertStats}
    {o : Outcome FaultKind InsertStats σ} (hroot : Cursor.over input = some root)
    (hheads : fireAll S (set.rootInserts .headOf) (sink, .zero) = .ok st)
    (h : Yields (turn set S standard) (start set limit root st) o) :
    walk set S standard limit input sink = o := by
  have hfuel : (start set limit root st).left < 2 * input.length + 2 := by
    simp only [Cursor.over, Option.ite_none_left_eq_some, Option.some.injEq] at hroot
    obtain ⟨-, rfl⟩ := hroot
    simp [Walk.left, Layer.left, start]
  have hrun := run_eq_of_yields (fun _ => True) Walk.left
    (fun _ _ _ h => ⟨trivial, turn_lowers h⟩) trivial hfuel h
  simp only [walk, hroot, hheads, hrun, Option.getD_some]

theorem over_ok (hfit : input.length ≤ PayloadLen.max) :
    Cursor.over input = some ⟨input, 0, 0, 0⟩ :=
  if_neg (Nat.not_lt.mpr hfit)

theorem walk_oversize (h : PayloadLen.max < input.length) :
    walk set S standard limit input sink = S.refuse ⟨0, [], .oversize⟩ := by
  simp only [walk, Cursor.over, h, if_true]

/-- From the start the walk follows what the whole input becomes. -/
theorem start_follows (hfit : input.length ≤ PayloadLen.max) (st : σ × InsertStats) :
    Followed set S standard (start set limit ⟨input, 0, 0, 0⟩ st)
      (commit set standard limit.asInner [] input) :=
  walk_commit rfl (at_new _) rfl hfit

/-- The three parts of a whole document's events. -/
theorem feed_rooted {st st'' : σ × InsertStats}
    (h : feed S note noteDescended (rooted set d) 0 st = .ok st'') : ∃ st₁ st₂,
      fireAll S (set.rootInserts .headOf) st = .ok st₁ ∧
        feed S note noteDescended d 0 st₁ = .ok st₂ ∧
        fireAll S (set.rootInserts .tailOf) st₂ = .ok st'' := by
  rw [rooted, feed_fenced] at h
  simp only [bind, Except.bind] at h
  cases hheads : fireAll S (set.rootInserts .headOf) st with
  | error trap => rw [hheads] at h; cases h
  | ok st₁ =>
    rw [hheads] at h
    simp only at h
    cases hinner : feed S note noteDescended d 0 st₁ with
    | error trap => rw [hinner] at h; cases h
    | ok st₂ =>
      rw [hinner] at h
      exact ⟨st₁, st₂, rfl, hinner, h⟩

/-- A walk whose every event is taken is done, and leaves what the events left. -/
theorem walk_done {stats : InsertStats} (hfit : input.length ≤ PayloadLen.max)
    (hd : commit set standard limit.asInner [] input = some d)
    (hfeed : feed S note noteDescended (rooted set d) 0 (sink, .zero) = .ok (sink', stats)) :
    walk set S standard limit input sink = .done stats sink' := by
  obtain ⟨st, st', hheads, hinner, htails⟩ := feed_rooted hfeed
  have hfollows := @start_follows _ set σ S standard limit input hfit st
  rw [hd] at hfollows
  have hruns : Runs (turn set S standard) (start set limit ⟨input, 0, 0, 0⟩ st)
      (start set limit ⟨input, 0, 0, 0⟩ st) (feed S note noteDescended d 0 st) := hfollows
  rw [hinner] at hruns
  obtain ⟨cursor, staged, hend, hsteps⟩ := hruns
  refine walk_of_yields (over_ok hfit) hheads (hsteps.yields (.halt ?_))
  rw [turn_end hend]
  simp only [exhausted, Walk.onward, start, htails]

theorem walk_fails (hfit : input.length ≤ PayloadLen.max) {st : σ × InsertStats}
    (hheads : fireAll S (set.rootInserts .headOf) (sink, .zero) = .ok st)
    (h : Fails (turn set S standard) (start set limit ⟨input, 0, 0, 0⟩ st)) :
    ¬(walk set S standard limit input sink).Done := by
  obtain ⟨o, hy, hd⟩ := h
  rwa [walk_of_yields (over_ok hfit) hheads hy]

/-- Where an event is not taken, or no document is committed, the walk is not done. -/
theorem walk_not_done (hfit : input.length ≤ PayloadLen.max)
    (h : ∀ d, commit set standard limit.asInner [] input = some d →
      ∃ trap, feed S note noteDescended (rooted set d) 0 (sink, .zero) = .error trap)
    (hwalks : S.Walks) : ¬(walk set S standard limit input sink).Done := by
  cases hheads : fireAll S (set.rootInserts .headOf) (sink, .zero) with
  | error trap =>
    simp only [walk, over_ok hfit, hheads]
    exact not_done_lapse trap
  | ok st =>
    have hfollows := @start_follows _ set σ S standard limit input hfit st
    cases hd : commit set standard limit.asInner [] input with
    | none =>
      rw [hd] at hfollows
      exact walk_fails hfit hheads (hfollows hwalks)
    | some d =>
      obtain ⟨trap, htrap⟩ := h d hd
      rw [hd] at hfollows
      have hruns : Runs (turn set S standard) (start set limit ⟨input, 0, 0, 0⟩ st)
          (start set limit ⟨input, 0, 0, 0⟩ st) (feed S note noteDescended d 0 st) := hfollows
      rw [rooted, feed_fenced, hheads] at htrap
      cases hinner : feed S note noteDescended d 0 st with
      | error trap =>
        rw [hinner] at hruns
        exact walk_fails hfit hheads hruns
      | ok st' =>
        rw [hinner] at hruns
        obtain ⟨cursor, staged, hend, hsteps⟩ := hruns
        have htails : fireAll S (set.rootInserts .tailOf) st' = .error trap := by
          simpa [bind, Except.bind, hinner] using htrap
        refine walk_fails hfit hheads
          (Fails.of_steps hsteps (Fails.of_halt ?_ (not_done_lapse trap)))
        rw [turn_end hend]
        simp only [exhausted, Walk.onward, start, htails]

end Whole

/-! ## The recursive transformer -/

/-- A payload's canonical bytes. -/
def wire (value : Value) : List UInt8 := value.pieces.flatten

/-- An inserted record's bytes. -/
def insertedBytes (insert : InsertRule) : List UInt8 :=
  spell (headWord insert.field insert.value.kind) ++ wire insert.value

/-- What an action makes of its record. -/
def edited (r : Record) : Action → Option (List UInt8 × Mark)
  | .delete => some ([], .deleted)
  | .replace value =>
    if agrees r.payload.value value then some (r.tag ++ wire value, .replaced) else none
  | .normalize =>
    let value := Value.own r.payload.value
    some (spell (headWord r.field value.kind) ++ wire value, .normalized)
  | .insert _ => none

/-- The edits of an interior's insertions, and of what they stand around. -/
def fencedMarks (heads tails : List InsertRule) (marks : List Mark) : List Mark :=
  heads.map (fun _ => .inserted) ++ marks ++ tails.map fun _ => .inserted

def fencedBytes (heads tails : List InsertRule) (bytes : List UInt8) : List UInt8 :=
  (heads.map insertedBytes).flatten ++ bytes ++ (tails.map insertedBytes).flatten

/-- A committed interior transformed, with the edits made: owned records edited, entered
containers transformed between their insertions, behind their own prefix or a minimal one, the
others verbatim. `none` where the interior is unlawful, too deep, or its rules disagree. -/
def transform {inserts : Bool} (set : Sets inserts) (standard : Standard) (remaining : Nat)
    (chain : List FieldNumber) (bytes : List UInt8) : Option (List UInt8 × List Mark) :=
  if bytes = [] then some ([], [])
  else
    match _hf : first standard bytes with
    | none => none
    | some (r, rest) =>
      match verdict set chain r with
      | .refuse => none
      | .keep => (transform set standard remaining chain rest).map fun (out, marks) =>
          (r.bytes ++ out, marks)
      | .act action =>
        match edited r action with
        | none => none
        | some (record, mark) => (transform set standard remaining chain rest).map
            fun (out, marks) => (record ++ out, mark :: marks)
      | .enter =>
        match _hp : r.payload with
        | .len word payload =>
          match remaining with
          | 0 => none
          | below + 1 => do
            let heads := insertsAt set .head chain r.field
            let tails := insertsAt set .tail chain r.field
            let (inner, marks) ← transform set standard below (chain ++ [r.field]) payload
            let (out, others) ← transform set standard (below + 1) chain rest
            let interior := fencedBytes heads tails inner
            let lead := if interior.length = payload.length then word else spell interior.length
            some (r.tag ++ lead ++ interior ++ out, fencedMarks heads tails marks ++ others)
        | _ => none
termination_by bytes.length
decreasing_by
  all_goals
    first
      | exact first_rest_lt _hf
      | exact first_payload_lt _hf _hp

/-- The whole document, between the root's insertions. -/
def transformed {inserts : Bool} (set : Sets inserts) (standard : Standard) (limit : DepthLimit)
    (input : List UInt8) : Option (List UInt8 × List Mark) :=
  (transform set standard limit.asInner [] input).map fun (out, marks) =>
    (fencedBytes (set.rootInserts .headOf) (set.rootInserts .tailOf) out,
      fencedMarks (set.rootInserts .headOf) (set.rootInserts .tailOf) marks)

section Reference

variable {inserts : Bool} {set : Sets inserts} {standard : Standard} {remaining : Nat}
  {chain : List FieldNumber} {bytes rest : List UInt8} {r : Record} {d : Doc UInt8 Mark}
  {heads tails : List InsertRule}

theorem inserted_flatten (insert : InsertRule) :
    (inserted insert).pieces.flatten = insertedBytes insert := rfl

theorem insertions_render (l : List InsertRule) :
    (insertions l).render spell = (l.map insertedBytes).flatten := by
  induction l with
  | nil => rfl
  | cons insert rest ih =>
    rw [insertions, Doc.render, ih, List.map_cons, List.flatten_cons, inserted_flatten]

theorem insertions_marks (l : List InsertRule) :
    (insertions l).marks = l.map fun _ => .inserted := by
  induction l with
  | nil => rfl
  | cons insert rest ih => rw [insertions, Doc.marks, ih, List.map_cons]

theorem marks_append (d e : Doc UInt8 Mark) : (d.append e).marks = d.marks ++ e.marks := by
  induction d <;> simp [Doc.append, Doc.marks, *]

theorem fenced_render :
    (fenced heads tails d).render spell = fencedBytes heads tails (d.render spell) := by
  simp [fenced, fencedBytes, insertions_render]

theorem fenced_marks : (fenced heads tails d).marks = fencedMarks heads tails d.marks := by
  simp [fenced, fencedMarks, insertions_marks, marks_append]

/-- An owned record's document, rendered. -/
theorem edited_eq (action : Action) (d : Doc UInt8 Mark) :
    (edit r action).map (fun node => ((node d).render spell, (node d).marks)) =
      (edited r action).map fun (record, mark) => (record ++ d.render spell, mark :: d.marks) := by
  cases action with
  | delete => rfl
  | normalize => rfl
  | insert insert => rfl
  | replace value =>
    simp only [edit, edited]
    split <;> rfl

theorem transform_none (hne : bytes ≠ []) (h : first standard bytes = none) :
    transform set standard remaining chain bytes = none := by
  rw [transform, if_neg hne]
  split
  · rfl
  · next hf => rw [hf] at h; cases h

theorem ne_nil_of_first (h : first standard bytes = some (r, rest)) : bytes ≠ [] :=
  List.ne_nil_of_length_pos (Nat.zero_lt_of_lt (first_rest_lt h))

section Record

variable (hfirst : first standard bytes = some (r, rest))

include hfirst

theorem transform_keep (hverdict : verdict set chain r = .keep) :
    transform set standard remaining chain bytes =
      (transform set standard remaining chain rest).map fun (out, marks) =>
        (r.bytes ++ out, marks) := by
  rw [transform, if_neg (ne_nil_of_first hfirst)]
  split
  · next hf => rw [hf] at hfirst; cases hfirst
  · next hf =>
    rw [hf] at hfirst
    cases hfirst
    simp only [hverdict]

theorem transform_refuse (hverdict : verdict set chain r = .refuse) :
    transform set standard remaining chain bytes = none := by
  rw [transform, if_neg (ne_nil_of_first hfirst)]
  split
  · rfl
  · next hf =>
    rw [hf] at hfirst
    cases hfirst
    simp only [hverdict]

theorem transform_act {action : Action} (hverdict : verdict set chain r = .act action) :
    transform set standard remaining chain bytes =
      (edited r action).bind fun (record, mark) =>
        (transform set standard remaining chain rest).map fun (out, marks) =>
          (record ++ out, mark :: marks) := by
  rw [transform, if_neg (ne_nil_of_first hfirst)]
  split
  · next hf => rw [hf] at hfirst; cases hfirst
  · next hf =>
    rw [hf] at hfirst
    cases hfirst
    simp only [hverdict]
    cases edited r action <;> rfl

theorem transform_enter {word payload : List UInt8} (hp : r.payload = .len word payload)
    (hverdict : verdict set chain r = .enter) :
    transform set standard remaining chain bytes =
      (match remaining with
      | 0 => none
      | below + 1 => do
        let heads := insertsAt set .head chain r.field
        let tails := insertsAt set .tail chain r.field
        let (inner, marks) ← transform set standard below (chain ++ [r.field]) payload
        let (out, others) ← transform set standard (below + 1) chain rest
        let interior := fencedBytes heads tails inner
        let lead := if interior.length = payload.length then word else spell interior.length
        some (r.tag ++ lead ++ interior ++ out, fencedMarks heads tails marks ++ others)) := by
  rw [transform, if_neg (ne_nil_of_first hfirst)]
  split
  · next hf => rw [hf] at hfirst; cases hfirst
  · next hf =>
    rw [hf] at hfirst
    cases hfirst
    simp only [hverdict]
    split
    · next hp' =>
      rw [hp] at hp'
      cases hp'
      cases remaining <;> rfl
    · next hp' => exact absurd hp (hp' _ _)

end Record

/-- The transformer is what is committed, rendered. -/
theorem transform_eq : transform set standard remaining chain bytes =
    (commit set standard remaining chain bytes).map fun d => (d.render spell, d.marks) := by
  fun_induction commit set standard remaining chain bytes with
  | case1 => simp [transform, Doc.render, Doc.marks]
  | case2 remaining chain bytes hne hfirst => exact transform_none hne hfirst
  | case3 remaining chain bytes hne r rest hfirst hverdict =>
    exact transform_refuse hfirst hverdict
  | case4 remaining chain bytes hne r rest hfirst hverdict ih =>
    rw [transform_keep hfirst hverdict, ih, Option.map_map, Option.map_map]
    rfl
  | case5 remaining chain bytes hne r rest hfirst action hverdict hedit =>
    have hnone := edited_eq (r := r) action .nil
    rw [hedit, Option.map_none, eq_comm, Option.map_eq_none_iff] at hnone
    rw [transform_act hfirst hverdict, hnone, Option.bind_none, Option.map_none]
  | case6 remaining chain bytes hne r rest hfirst action hverdict node hedit ih =>
    rw [transform_act hfirst hverdict, ih]
    cases hd : commit set standard remaining chain rest with
    | none => simp
    | some d =>
      have hsome := edited_eq (r := r) action d
      rw [hedit, Option.map_some] at hsome
      simp only [Option.map_some, hsome]
      cases edited r action <;> rfl
  | case7 chain bytes hne r rest hfirst hverdict word payload hp =>
    rw [transform_enter hfirst hp hverdict, Option.map_none]
  | case8 chain bytes hne r rest hfirst hverdict word payload hp below ihi ihr =>
    rw [transform_enter hfirst hp hverdict]
    simp only [ihi, ihr]
    cases hi : commit set standard below (chain ++ [r.field]) payload with
    | none => rfl
    | some inner =>
      cases hd : commit set standard (below + 1) chain rest with
      | none => rfl
      | some behind =>
        simp only [Option.map_some, Option.bind_eq_bind, Option.bind_some, Doc.render, Doc.marks,
          fenced_render, fenced_marks, fenced_source, commit_source hi]
  | case9 remaining chain bytes hne r rest hfirst hverdict hscalar =>
    have hkind := kind_of_enter hverdict
    cases hp : r.payload with
    | len word payload => exact absurd hp (hscalar word payload)
    | varint _ | i64 _ | i32 _ => rw [hp] at hkind; cases hkind

theorem transformed_eq {limit : DepthLimit} {input : List UInt8} :
    transformed set standard limit input =
      (commit set standard limit.asInner [] input).map fun d =>
        ((rooted set d).render spell, (rooted set d).marks) := by
  simp only [transformed, transform_eq, Option.map_map, rooted, fenced_render, fenced_marks]
  rfl

end Reference

/-! ## The receipts -/

section Receipts

variable {inserts : Bool} {set : Sets inserts} {standard : Standard} {remaining : Nat}
  {chain : List FieldNumber} {bytes : List UInt8} {r : Record} {d rest : Doc UInt8 Mark}
  {heads tails : List InsertRule}

/-- How many edits of each kind. -/
def tallied (marks : List Mark) : Nat × Nat × Nat × Nat :=
  (marks.count .deleted, marks.count .replaced, marks.count .normalized, marks.count .inserted)

/-- The judgment tallies count the edits, whichever containers the pass walks. -/
theorem tally_judged (d : Doc UInt8 Mark) (all : Bool) :
    (d.tally note noteDescended all .zero).judged = tallied d.marks := by
  let next : Mark → Nat × Nat × Nat × Nat → Nat × Nat × Nat × Nat := fun mark n =>
    (n.1 + [mark].count .deleted, n.2.1 + [mark].count .replaced,
      n.2.2.1 + [mark].count .normalized, n.2.2.2 + [mark].count .inserted)
  have hnext : ∀ (marks : List Mark) (n : Nat × Nat × Nat × Nat),
      marks.foldl (fun n mark => next mark n) n =
        (n.1 + marks.count .deleted, n.2.1 + marks.count .replaced,
          n.2.2.1 + marks.count .normalized, n.2.2.2 + marks.count .inserted) := by
    intro marks
    induction marks with
    | nil => intro n; rfl
    | cons mark marks ih =>
      intro n
      rw [List.foldl_cons, ih]
      simp only [next, List.count_cons, List.count_nil]
      refine Prod.ext ?_ (Prod.ext ?_ (Prod.ext ?_ ?_)) <;> simp only <;> omega
  rw [@Doc.tally_marks _ _ _ d _ note noteDescended all InsertStats.judged next
    (fun mark t => by cases mark <;> rfl) (fun _ => rfl) .zero, hnext]
  simp [tallied, InsertStats.judged, InsertStats.zero]

theorem tally_descended (d : Doc UInt8 Mark) (all : Bool) :
    (d.tally note noteDescended all .zero).descended = d.crossings all := by
  have h := @Doc.tally_crossings _ _ _ d note noteDescended all InsertStats.descended
    (fun mark _ => by cases mark <;> rfl) (fun _ => rfl) .zero
  rw [h]
  exact Nat.zero_add _

theorem crossings_slots (d : Doc UInt8 Mark) : d.crossings true = (d.slots spell).length := by
  induction d with
  | nil => rfl
  | copy bytes rest ih | drop mark bytes rest ih | author mark old new rest ih
    | replace mark tag old new rest ih => exact ih
  | frame mark old opener inner closer rest ihi ihr =>
    simp only [Doc.crossings, Doc.slots, List.length_append, ihi, ihr]
  | cross tag word inner rest ihi ihr =>
    simp only [Doc.crossings, Doc.slots, List.length_append, List.length_cons, Bool.true_or,
      if_true, ihi, ihr]

/-- Every edit of a record takes one from the source, and every insertion is in the output. -/
structure Paid (d : Doc UInt8 Mark) : Prop where
  source : d.marks.count .deleted + d.marks.count .replaced + d.marks.count .normalized ≤
    d.source.length
  render : d.marks.count .inserted ≤ (d.render spell).length

theorem insertedBytes_pos (insert : InsertRule) : 0 < (insertedBytes insert).length := by
  have : 0 < (spell (headWord insert.field insert.value.kind)).length := by
    rw [spell_length, Varint.encodedLen32]
    omega
  rw [insertedBytes, List.length_append]
  omega

theorem length_le_inserted (l : List InsertRule) :
    l.length ≤ ((l.map insertedBytes).flatten).length := by
  induction l with
  | nil => exact Nat.le_refl _
  | cons insert rest ih =>
    have := insertedBytes_pos insert
    simp only [List.map_cons, List.flatten_cons, List.length_append, List.length_cons]
    omega

theorem count_fencedMarks (mark : Mark) (marks : List Mark) :
    (fencedMarks heads tails marks).count mark =
      (if mark = .inserted then heads.length + tails.length else 0) + marks.count mark := by
  cases mark <;> simp [fencedMarks, List.count_replicate, List.map_const']
  omega

theorem paid_fenced (heads tails : List InsertRule) (h : Paid d) :
    Paid (fenced heads tails d) := by
  have hheads := length_le_inserted heads
  have htails := length_le_inserted tails
  have hrender := h.render
  refine ⟨?_, ?_⟩
  · simpa [fenced_marks, count_fencedMarks, fenced_source] using h.source
  · simp only [fenced_marks, count_fencedMarks, fenced_render, fencedBytes, List.length_append,
      if_true]
    omega

theorem paid_edit {action : Action} {node : Doc UInt8 Mark → Doc UInt8 Mark}
    (hedit : edit r action = some node) (hpos : 0 < r.bytes.length) (h : Paid rest) :
    Paid (node rest) := by
  have hsource := h.source
  have hrender := h.render
  have hbytes : (node rest).source = r.bytes ++ rest.source := edit_source hedit
  cases action with
  | insert insert => cases hedit
  | delete =>
    cases hedit
    refine ⟨?_, ?_⟩ <;> simp [Doc.marks, Doc.source, Doc.render] <;> omega
  | normalize =>
    cases hedit
    refine ⟨?_, ?_⟩ <;> simp [Doc.marks, Doc.source, Doc.render] <;> omega
  | replace value =>
    simp only [edit, Option.ite_none_right_eq_some, Option.some.injEq] at hedit
    obtain ⟨-, rfl⟩ := hedit
    refine ⟨?_, ?_⟩
    · rw [hbytes]
      simp [Doc.marks]
      omega
    · simp [Doc.marks, Doc.render]
      omega

theorem paid_commit (h : commit set standard remaining chain bytes = some d) : Paid d := by
  fun_induction commit set standard remaining chain bytes generalizing d with
  | case1 => cases h; exact ⟨Nat.le_refl _, Nat.le_refl _⟩
  | case2 | case3 | case5 | case7 | case9 => cases h
  | case4 remaining chain bytes hne r rest hfirst hverdict ih =>
    obtain ⟨e, he, rfl⟩ := Option.map_eq_some_iff.mp h
    have hpaid := ih he
    have hsource := hpaid.source
    have hrender := hpaid.render
    refine ⟨?_, ?_⟩ <;> simp only [Doc.marks, Doc.source, Doc.render, List.length_append] <;> omega
  | case6 remaining chain bytes hne r rest hfirst action hverdict node hedit ih =>
    obtain ⟨e, he, rfl⟩ := Option.map_eq_some_iff.mp h
    exact paid_edit hedit (first_iff.mp hfirst).2.length_pos (ih he)
  | case8 chain bytes hne r rest hfirst hverdict word payload hp below ihi ihr =>
    obtain ⟨inner, hinner, h⟩ := Option.bind_eq_some_iff.mp h
    obtain ⟨behind, hbehind, h⟩ := Option.bind_eq_some_iff.mp h
    cases h
    have hi := paid_fenced (insertsAt set .head chain r.field) (insertsAt set .tail chain r.field)
      (ihi hinner)
    have hr := ihr hbehind
    have := hi.source
    have := hi.render
    have := hr.source
    have := hr.render
    refine ⟨?_, ?_⟩ <;>
      simp only [Doc.marks, Doc.source, Doc.render, List.count_append, List.length_append] <;> omega

/-- The insert-free door inserts nothing. -/
theorem insertsAt_free {lane : Lane} {field : FieldNumber} (hdoor : inserts = false)
    (hlane : lane ≠ .target) : insertsAt set lane chain field = [] := by
  refine insertsAt_nil (by_contra fun hne => ?_)
  rw [door_of_hits hlane hne] at hdoor
  cases hdoor

theorem commit_free (hdoor : inserts = false)
    (h : commit set standard remaining chain bytes = some d) : d.marks.count .inserted = 0 := by
  fun_induction commit set standard remaining chain bytes generalizing d with
  | case1 => cases h; rfl
  | case2 | case3 | case5 | case7 | case9 => cases h
  | case4 remaining chain bytes hne r rest hfirst hverdict ih =>
    obtain ⟨e, he, rfl⟩ := Option.map_eq_some_iff.mp h
    exact @ih e he
  | case6 remaining chain bytes hne r rest hfirst action hverdict node hedit ih =>
    obtain ⟨e, he, rfl⟩ := Option.map_eq_some_iff.mp h
    have hrest := ih he
    cases action with
    | insert insert => cases hedit
    | delete => cases hedit; simpa [Doc.marks] using hrest
    | normalize => cases hedit; simpa [Doc.marks] using hrest
    | replace value =>
      simp only [edit, Option.ite_none_right_eq_some, Option.some.injEq] at hedit
      obtain ⟨-, rfl⟩ := hedit
      simpa [Doc.marks] using hrest
  | case8 chain bytes hne r rest hfirst hverdict word payload hp below ihi ihr =>
    obtain ⟨inner, hinner, h⟩ := Option.bind_eq_some_iff.mp h
    obtain ⟨behind, hbehind, h⟩ := Option.bind_eq_some_iff.mp h
    cases h
    simp [Doc.marks, fenced_marks, count_fencedMarks, insertsAt_free hdoor, ihi hinner,
      ihr hbehind]

end Receipts

end ProtobufEdit.Rewrite.Groupless
