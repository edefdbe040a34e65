import Mathlib.Data.Nat.SuccPred
import ProtobufEdit.Convert.Grouped.Commit

/-!
# The converter's two passes

What the measuring pass accepts, the emit pass replays on either face, and the bytes are those
of the recursive transformer. The receipts agree exactly when no crossed container stands idle.
-/

namespace ProtobufEdit.Convert.Grouped

open Wire ProtobufEdit.Path Cursor Cursor.Groupless Loop Emission TwoPass Wire.Grouped

/-! ## The recursive transformer -/

/-- A committed interior transformed, with the number of records re-framed: designated records
between minimal tags, crossed ones behind their own prefix or a minimal one, the others
verbatim. `none` where the interior is unlawful or too deep. -/
def transform (standard : Standard) (paths : Paths) (remaining : Nat) (chain : List FieldNumber)
    (bytes : List UInt8) : Option (List UInt8 × Nat) :=
  if bytes = [] then some ([], 0)
  else
    match _hf : first standard bytes with
    | none => none
    | some (r, rest) =>
      match _hp : r.payload with
      | .len word payload =>
        if !designates paths chain r.field && !paths.routes chain r.field then
          (transform standard paths remaining chain rest).map fun (out, n) => (r.bytes ++ out, n)
        else
          match remaining with
          | 0 => none
          | below + 1 => do
            let (inner, n) ← transform standard paths below (chain ++ [r.field]) payload
            let (behind, k) ← transform standard paths (below + 1) chain rest
            if designates paths chain r.field then
              some (spell (headWord r.field .group) ++ inner ++ spell (groupEndWord r.field) ++
                behind, n + k + 1)
            else
              let lead := if inner.length = payload.length then word else spell inner.length
              some (r.tag ++ lead ++ inner ++ behind, n + k)
      | _ =>
        if designates paths chain r.field then none
        else (transform standard paths remaining chain rest).map fun (out, n) => (r.bytes ++ out, n)
termination_by bytes.length
decreasing_by
  all_goals
    first
      | exact first_rest_lt _hf
      | exact first_payload_lt _hf _hp

/-- Some record behind the committed interior's crossings is designated. -/
def converts (standard : Standard) (paths : Paths) (chain : List FieldNumber)
    (bytes : List UInt8) : Bool :=
  match _hf : first standard bytes with
  | none => false
  | some (r, rest) =>
    (match _hp : r.payload with
      | .len _ payload => designates paths chain r.field ||
          paths.routes chain r.field && converts standard paths (chain ++ [r.field]) payload
      | _ => false) || converts standard paths chain rest
termination_by bytes.length
decreasing_by
  all_goals
    first
      | exact first_rest_lt _hf
      | exact first_payload_lt _hf _hp

/-- Some record of a committed interior is crossed for nothing: routed, not designated, and
no designated record inside. -/
def crossesIdle (standard : Standard) (paths : Paths) (chain : List FieldNumber)
    (bytes : List UInt8) : Bool :=
  match _hf : first standard bytes with
  | none => false
  | some (r, rest) =>
    (match _hp : r.payload with
      | .len _ payload =>
        (designates paths chain r.field || paths.routes chain r.field) &&
          (!designates paths chain r.field &&
              !converts standard paths (chain ++ [r.field]) payload ||
            crossesIdle standard paths (chain ++ [r.field]) payload)
      | _ => false) || crossesIdle standard paths chain rest
termination_by bytes.length
decreasing_by
  all_goals
    first
      | exact first_rest_lt _hf
      | exact first_payload_lt _hf _hp

section Reference

variable {standard : Standard} {paths : Paths} {remaining : Nat} {chain : List FieldNumber}
  {bytes rest : List UInt8} {r : Record} {d : Doc UInt8 Unit}

theorem ne_nil_of_first (h : first standard bytes = some (r, rest)) : bytes ≠ [] := by
  rintro rfl
  rw [first_nil] at h
  cases h

theorem transform_record (h : first standard bytes = some (r, rest)) :
    transform standard paths remaining chain bytes =
      match r.payload with
      | .len word payload =>
        if !designates paths chain r.field && !paths.routes chain r.field then
          (transform standard paths remaining chain rest).map fun (out, n) => (r.bytes ++ out, n)
        else
          match remaining with
          | 0 => none
          | below + 1 => do
            let (inner, n) ← transform standard paths below (chain ++ [r.field]) payload
            let (behind, k) ← transform standard paths (below + 1) chain rest
            if designates paths chain r.field then
              some (spell (headWord r.field .group) ++ inner ++ spell (groupEndWord r.field) ++
                behind, n + k + 1)
            else
              let lead := if inner.length = payload.length then word else spell inner.length
              some (r.tag ++ lead ++ inner ++ behind, n + k)
      | _ =>
        if designates paths chain r.field then none
        else (transform standard paths remaining chain rest).map
          fun (out, n) => (r.bytes ++ out, n) := by
  rw [transform, if_neg (ne_nil_of_first h)]
  split
  · next hf => rw [hf] at h; cases h
  · next r' rest' hf =>
    rw [hf] at h
    cases h
    split <;> split <;> simp_all

theorem transform_none (hne : bytes ≠ []) (h : first standard bytes = none) :
    transform standard paths remaining chain bytes = none := by
  rw [transform, if_neg hne]
  split
  · rfl
  · next hf => rw [hf] at h; cases h

/-- The transformer is what is committed, rendered. -/
theorem transform_eq : transform standard paths remaining chain bytes =
    (commit standard paths remaining chain bytes).map fun d => (d.render spell, d.marks.length) := by
  fun_induction commit standard paths remaining chain bytes with
  | case1 => simp [transform, Doc.render, Doc.marks]
  | case2 remaining chain bytes hne hfirst => exact transform_none hne hfirst
  | case3 remaining chain bytes hne r rest hfirst word payload hp hunmet ih =>
    rw [transform_record hfirst]
    simp only [hp, hunmet, if_true, ih, Option.map_map]
    rfl
  | case4 chain bytes hne r rest hfirst word payload hp hmet =>
    rw [transform_record hfirst]
    simp only [hp, hmet, Bool.false_eq_true, if_false, Option.map_none]
  | case5 chain bytes hne r rest hfirst word payload hp hmet below ihi ihr =>
    rw [transform_record hfirst]
    simp only [hp, hmet, Bool.false_eq_true, if_false, ihi, ihr]
    cases hi : commit standard paths below (chain ++ [r.field]) payload with
    | none => rfl
    | some inner =>
      cases hd : commit standard paths (below + 1) chain rest with
      | none => rfl
      | some behind =>
        simp only [Option.map_some, Option.bind_eq_bind, Option.bind_some]
        split
        · simp [Doc.render, Doc.marks, opener, closer]
        · simp [Doc.render, Doc.marks, commit_source hi]
  | case6 remaining chain bytes hne r rest hfirst hdes hscalar =>
    rw [transform_record hfirst]
    split
    · next hp => exact absurd hp (hscalar _ _)
    · simp only [hdes, if_true, Option.map_none]
  | case7 remaining chain bytes hne r rest hfirst hplain hscalar ih =>
    rw [transform_record hfirst]
    split
    · next hp => exact absurd hp (hscalar _ _)
    · simp only [hplain, Bool.false_eq_true, if_false, ih, Option.map_map]
      rfl

theorem converts_record (h : first standard bytes = some (r, rest)) :
    converts standard paths chain bytes =
      ((match r.payload with
        | .len _ payload => designates paths chain r.field ||
            paths.routes chain r.field && converts standard paths (chain ++ [r.field]) payload
        | _ => false) || converts standard paths chain rest) := by
  rw [converts]
  split
  · next hf => rw [hf] at h; cases h
  · next hf =>
    rw [hf] at h
    cases h
    congr 1
    split <;> split <;> simp_all

theorem crossesIdle_record (h : first standard bytes = some (r, rest)) :
    crossesIdle standard paths chain bytes =
      ((match r.payload with
        | .len _ payload =>
          (designates paths chain r.field || paths.routes chain r.field) &&
            (!designates paths chain r.field &&
                !converts standard paths (chain ++ [r.field]) payload ||
              crossesIdle standard paths (chain ++ [r.field]) payload)
        | _ => false) || crossesIdle standard paths chain rest) := by
  rw [crossesIdle]
  split
  · next hf => rw [hf] at h; cases h
  · next hf =>
    rw [hf] at h
    cases h
    congr 1
    split <;> split <;> simp_all

theorem converts_nil : converts standard paths chain [] = false := by
  rw [converts]
  split
  · rfl
  · next hf => rw [first_nil] at hf; cases hf

theorem crossesIdle_nil : crossesIdle standard paths chain [] = false := by
  rw [crossesIdle]
  split
  · rfl
  · next hf => rw [first_nil] at hf; cases hf

/-- A document is dirty where a conversion lies inside, and idle where a crossing holds none. -/
theorem commit_facts (h : commit standard paths remaining chain bytes = some d) :
    d.Tagged ∧ d.dirty = converts standard paths chain bytes ∧
      d.idle = crossesIdle standard paths chain bytes := by
  fun_induction commit standard paths remaining chain bytes generalizing d with
  | case1 =>
    cases h
    exact ⟨trivial, converts_nil.symm, crossesIdle_nil.symm⟩
  | case2 | case4 | case6 => cases h
  | case3 remaining chain bytes hne r rest hfirst word payload hp hunmet ih =>
    obtain ⟨e, he, rfl⟩ := Option.map_eq_some_iff.mp h
    obtain ⟨ht, hdirty, hidle⟩ := ih he
    obtain ⟨hdes, hroutes⟩ := Bool.and_eq_true_iff.mp hunmet
    rw [Bool.not_eq_true'] at hdes hroutes
    refine ⟨ht, ?_, ?_⟩
    · simp only [Doc.dirty, converts_record hfirst, hp, hdes, hroutes, hdirty, Bool.false_and,
        Bool.false_or]
    · simp only [Doc.idle, crossesIdle_record hfirst, hp, hdes, hroutes, hidle, Bool.false_and,
        Bool.false_or]
  | case5 chain bytes hne r rest hfirst word payload hp hmet below ihi ihr =>
    obtain ⟨inner, hinner, h⟩ := Option.bind_eq_some_iff.mp h
    obtain ⟨behind, hbehind, h⟩ := Option.bind_eq_some_iff.mp h
    obtain ⟨hti, hdi, hii⟩ := ihi hinner
    obtain ⟨htr, hdr, hir⟩ := ihr hbehind
    have hlaw := (first_iff.mp hfirst).2
    have htag := hlaw.isTag.admits.isWord.length_pos
    have hword := hlaw.payload
    rw [hp] at hword
    have hpos := hword.1.isWord.length_pos
    split at h
    · next hdes =>
      cases h
      refine ⟨⟨hti, htr⟩, ?_, ?_⟩
      · simp only [Doc.dirty, converts_record hfirst, hp, hdes, Bool.true_or]
      · simp [Doc.idle, crossesIdle_record hfirst, hp, hdes, hii, hir]
    · next hdes =>
      cases h
      have hroutes : paths.routes chain r.field = true := by simpa [hdes] using hmet
      refine ⟨⟨List.length_pos_iff.mp htag, List.length_pos_iff.mp hpos, hti, htr⟩, ?_, ?_⟩
      · simp [Doc.dirty, converts_record hfirst, hp, hdes, hroutes, hdi, hdr]
      · simp [Doc.idle, crossesIdle_record hfirst, hp, hdes, hroutes, hdi, hii, hir]
  | case7 remaining chain bytes hne r rest hfirst hplain hscalar ih =>
    obtain ⟨e, he, rfl⟩ := Option.map_eq_some_iff.mp h
    obtain ⟨ht, hdirty, hidle⟩ := ih he
    refine ⟨ht, ?_, ?_⟩
    · rw [converts_record hfirst]
      split
      · next hp => exact absurd hp (hscalar _ _)
      · exact hdirty
    · rw [crossesIdle_record hfirst]
      split
      · next hp => exact absurd hp (hscalar _ _)
      · exact hidle

end Reference

/-! ## The passes -/

section Passes

variable {standard : Standard} {program : Program} {limit : DepthLimit} {input : List UInt8}
  {plan : Plan} {d : Doc UInt8 Unit}

/-- The measuring pass accepts, and seals the plan. -/
def Measured (standard : Standard) (program : Program) (limit : DepthLimit) (input : List UInt8)
    (plan : Plan) : Prop :=
  ∃ measure, walk Measure.sink standard program limit input .new = .done plan.stats measure ∧
    Plan.new input program limit plan.stats measure.slots measure.rootTotal = some plan

theorem measure_walks : Measure.sink.Walks := by
  rintro head tagEnd payloadStart payloadEnd s s' h
  simp only [Measure.sink_descend, Measure.descend] at h
  cases h

/-- An accepted walk of the measuring pass measures what is committed. -/
theorem measure_done {stats : Stats} {measure : Measure}
    (h : walk Measure.sink standard program limit input .new = .done stats measure) :
    input.length ≤ PayloadLen.max ∧
      ∃ d, commit standard program.provider limit.asInner [] input = some d ∧
        d.Fits spell PayloadLen.max ∧
        stats = d.tally noteConverted noteDescended true ⟨0, 0⟩ ∧
        measure = ⟨[⟨(d.render spell).length, 0, d.dirty⟩], slotsOf d⟩ := by
  have hfit : input.length ≤ PayloadLen.max := by
    by_contra hover
    rw [walk_oversize (Nat.lt_of_not_le hover)] at h
    have hrefuse := not_done_refuse Measure.sink
      (⟨0, [], .oversize⟩ : TwoPass.Fault FaultKind) (τ := Stats)
    rw [h] at hrefuse
    exact hrefuse trivial
  have hfollows := @start_follows _ Measure.sink standard program limit input .new hfit
  refine ⟨hfit, ?_⟩
  cases hd : commit standard program.provider limit.asInner [] input with
  | none =>
    rw [hd] at hfollows
    exact absurd (h ▸ trivial) (walk_fails hfit (hfollows measure_walks))
  | some d =>
    obtain rfl := commit_source hd
    obtain ⟨ht, -, -⟩ := commit_facts hd
    by_cases hfits : d.Fits spell PayloadLen.max
    · have hwalk := walk_done hfit hd (Measure.whole noteConverted noteDescended ht hfit hfits ⟨0, 0⟩)
      rw [hwalk] at h
      cases h
      exact ⟨d, rfl, hfits, rfl, rfl⟩
    · obtain ⟨len, hfeed⟩ := Measure.whole_over noteConverted noteDescended ht hfit hfits ⟨0, 0⟩
      rw [hd] at hfollows
      have hruns : Runs (turn Measure.sink standard)
          (start program limit ⟨d.source, 0, 0, 0⟩ .new) (start program limit ⟨d.source, 0, 0, 0⟩ .new)
          (feed Measure.sink noteConverted noteDescended d 0 (.new, ⟨0, 0⟩)) := hfollows
      rw [hfeed] at hruns
      exact absurd (h ▸ trivial) (walk_fails hfit hruns)

/-- A sealed plan is the document's. -/
theorem measured_iff : Measured standard program limit input plan ↔
    ∃ d, commit standard program.provider limit.asInner [] input = some d ∧
      input.length ≤ PayloadLen.max ∧ d.Fits spell PayloadLen.max ∧
      (d.render spell).length ≤ PayloadLen.max ∧
      plan = ⟨input, program, limit, d.tally noteConverted noteDescended true ⟨0, 0⟩, slotsOf d,
        (d.render spell).length⟩ := by
  constructor
  · rintro ⟨measure, hwalk, hplan⟩
    obtain ⟨hfit, d, hd, hfits, hstats, rfl⟩ := measure_done hwalk
    simp only [Plan.new, Measure.rootTotal, List.getLastD_cons, List.getLastD_nil,
      Option.ite_none_left_eq_some, Nat.not_lt, Option.some.injEq] at hplan
    obtain ⟨htotal, hplan⟩ := hplan
    exact ⟨d, hd, hfit, hfits, htotal, by rw [← hstats, hplan]⟩
  · rintro ⟨d, hd, hfit, hfits, htotal, rfl⟩
    obtain rfl := commit_source hd
    obtain ⟨ht, -, -⟩ := commit_facts hd
    refine ⟨_, walk_done hfit hd (Measure.whole noteConverted noteDescended ht hfit hfits ⟨0, 0⟩), ?_⟩
    simp only [Plan.new, Measure.rootTotal, List.getLastD_cons, List.getLastD_nil,
      Nat.not_lt.mpr htotal, if_false]

/-- The emit pass over a sealed plan: it reaches no refusal site, passes every pin, and its
pieces are the transformer's bytes. -/
theorem replay_whole (face : Face)
    (hd : commit standard program.provider limit.asInner [] input = some d)
    (hfit : input.length ≤ PayloadLen.max) (hfits : d.Fits spell PayloadLen.max) (t : Stats) :
    ∃ e e', Plan.replay standard ⟨input, program, limit, t, slotsOf d, (d.render spell).length⟩
          face = .done (d.tally noteConverted noteDescended false ⟨0, 0⟩) e ∧
      e.finish = .ok e' ∧ e'.pieces.flatten = d.render spell ∧
      e'.written = (d.render spell).length := by
  obtain rfl := commit_source hd
  obtain ⟨ht, -, -⟩ := commit_facts hd
  obtain ⟨e, e', hfeed, hfinish, hflat⟩ :=
    Emit.whole noteConverted noteDescended face ht hfit hfits ⟨0, 0⟩
  exact ⟨e, e', walk_done hfit hd hfeed, hfinish, hflat⟩

theorem tally_converted (d : Doc UInt8 Unit) (all : Bool) (t : Stats) :
    (d.tally noteConverted noteDescended all t).converted = t.converted + d.marks.length := by
  have h : (d.tally noteConverted noteDescended all t).converted =
      d.marks.foldl (fun n _ => n + 1) t.converted :=
    @Doc.tally_marks _ _ _ d _ noteConverted noteDescended all Stats.converted (fun _ n => n + 1)
      (fun _ _ => rfl) (fun _ => rfl) t
  rw [h, List.foldl_const]
  exact Nat.succ_iterate _ _

theorem tally_descended (d : Doc UInt8 Unit) (all : Bool) (t : Stats) :
    (d.tally noteConverted noteDescended all t).descended = t.descended + d.crossings all :=
  @Doc.tally_crossings _ _ _ d noteConverted noteDescended all Stats.descended (fun _ _ => rfl)
    (fun _ => rfl) t

/-- The receipts of the two passes agree exactly when no crossing stands idle. -/
theorem tally_eq_iff (d : Doc UInt8 Unit) (t : Stats) :
    d.tally noteConverted noteDescended false t = d.tally noteConverted noteDescended true t ↔
      d.idle = false := by
  rw [← Doc.crossings_eq]
  constructor
  · intro h
    have := congrArg Stats.descended h
    rw [tally_descended, tally_descended] at this
    omega
  · intro h
    have hc : ∀ a b : Stats, a.converted = b.converted → a.descended = b.descended → a = b := by
      rintro ⟨⟩ ⟨⟩ rfl rfl
      rfl
    exact hc _ _ (by rw [tally_converted, tally_converted])
      (by rw [tally_descended, tally_descended, h])

/-- Everything the passes' contract promises of a sealed plan: the emit pass reaches no refusal
site on either face, repeats the receipt, consumes every slot, closes its ledger and writes the
measured total; and no job panics. -/
structure PassesAgree (standard : Standard) (program : Program) (limit : DepthLimit)
    (input : List UInt8) (plan : Plan) : Prop where
  replay : ∀ face, ∃ e e', plan.replay standard face = .done plan.stats e ∧ e.finish = .ok e' ∧
    e'.cursor = e'.slots.claimed ∧ e'.ledger = [] ∧ e'.written = plan.total
  into : ∀ build out, ∃ left, runInto standard program limit input build out =
    .ok plan.stats left
  sink : ∀ build, ∃ left, runSink standard program limit input build = .ok plan.stats left

/-- A job behind a sealed plan, up to the receipts' assertion. -/
theorem job_eq {α : Type} (build : Build) (face : Face) (left : α) (into : List (List UInt8) → α)
    (hd : commit standard program.provider limit.asInner [] input = some d)
    (hfit : input.length ≤ PayloadLen.max) (hfits : d.Fits spell PayloadLen.max)
    (htotal : (d.render spell).length ≤ PayloadLen.max) :
    ∃ pieces : List (List UInt8), pieces.flatten = d.render spell ∧
      job standard program limit input build face left into =
        if build = .debug ∧ d.idle = true then .panic
        else .ok (d.tally noteConverted noteDescended true ⟨0, 0⟩) (into pieces) := by
  obtain rfl := commit_source hd
  obtain ⟨ht, -, -⟩ := commit_facts hd
  obtain ⟨e, e', hreplay, hfinish, hflat, -⟩ := replay_whole face hd hfit hfits
    (d.tally noteConverted noteDescended true ⟨0, 0⟩)
  have hwalk := walk_done hfit hd (Measure.whole noteConverted noteDescended ht hfit hfits ⟨0, 0⟩)
  refine ⟨e'.pieces, hflat, ?_⟩
  have hne : d.tally noteConverted noteDescended false ⟨0, 0⟩ ≠
      d.tally noteConverted noteDescended true ⟨0, 0⟩ ↔ d.idle = true := by
    rw [Ne, tally_eq_iff, Bool.not_eq_false]
  simp only [job, hwalk, Plan.new, Measure.rootTotal, List.getLastD_cons, List.getLastD_nil,
    Nat.not_lt.mpr htotal, if_false, hreplay, hne, hfinish]

/-- The two passes agree on a sealed plan exactly when every container crossed undesignated
holds a record that is converted. -/
theorem passes_agree_iff (h : Measured standard program limit input plan) :
    PassesAgree standard program limit input plan ↔
      crossesIdle standard program.provider [] input = false := by
  obtain ⟨d, hd, hfit, hfits, htotal, rfl⟩ := measured_iff.mp h
  rw [← (commit_facts hd).2.2]
  constructor
  · intro hagree
    obtain ⟨left, hjob⟩ := hagree.sink .debug
    obtain ⟨pieces, -, heq⟩ := job_eq .debug .sink ([] : List (List UInt8)) id hd hfit hfits htotal
    rw [runSink, heq] at hjob
    by_contra hidle
    rw [if_pos ⟨rfl, Bool.eq_true_of_not_eq_false hidle⟩] at hjob
    cases hjob
  · intro hidle
    have hnot : ∀ build : Build, ¬(build = .debug ∧ d.idle = true) := by simp [hidle]
    refine ⟨fun face => ?_, fun build out => ?_, fun build => ?_⟩
    · obtain ⟨e, e', hreplay, hfinish, -, hwritten⟩ := replay_whole face hd hfit hfits
        (d.tally noteConverted noteDescended true ⟨0, 0⟩)
      obtain ⟨hcursor, hledger, -⟩ := Emit.finish_pins hfinish
      rw [(tally_eq_iff d ⟨0, 0⟩).mpr hidle] at hreplay
      exact ⟨e, e', hreplay, hfinish, hcursor, hledger, hwritten⟩
    · obtain ⟨pieces, -, heq⟩ := job_eq build .buffer out (fun pieces => out ++ pieces.flatten) hd
        hfit hfits htotal
      exact ⟨_, heq.trans (if_neg (hnot build))⟩
    · obtain ⟨pieces, -, heq⟩ := job_eq build .sink ([] : List (List UInt8)) id hd hfit hfits htotal
      exact ⟨_, heq.trans (if_neg (hnot build))⟩

/-- A path of two fields, and a record of the first with none of the second inside. -/
theorem idle_crossing_panics :
    let f1 : FieldNumber := ⟨1, by decide, by decide⟩
    let f2 : FieldNumber := ⟨2, by decide, by decide⟩
    let program : Program := ⟨[[.field f1, .field f2]], by decide⟩
    let limit : DepthLimit := ⟨100, by decide, by decide⟩
    let input : List UInt8 := [0x0A, 0x02, 0x18, 0x01]
    let plan : Plan := ⟨input, program, limit, ⟨0, 1⟩, ⟨[0]⟩, 4⟩
    Measured .tolerant program limit input plan ∧
      runInto .tolerant program limit input .debug [] = .panic ∧
      ¬PassesAgree .tolerant program limit input plan := by
  intro f1 f2 program limit input plan
  have hpanic : runInto .tolerant program limit input .debug [] = .panic := by decide
  refine ⟨⟨⟨[⟨4, 0, false⟩], ⟨[0]⟩⟩, by decide, rfl⟩, hpanic, fun hagree => ?_⟩
  obtain ⟨left, hleft⟩ := hagree.into .debug []
  rw [hpanic] at hleft
  cases hleft

theorem passes_agree_pair :
    let f1 : FieldNumber := ⟨1, by decide, by decide⟩
    let f2 : FieldNumber := ⟨2, by decide, by decide⟩
    let program : Program := ⟨[[.field f1, .field f2]], by decide⟩
    let limit : DepthLimit := ⟨100, by decide, by decide⟩
    let input : List UInt8 := [0x0A, 0x02, 0x12, 0x00]
    PassesAgree .tolerant program limit input ⟨input, program, limit, ⟨1, 1⟩, ⟨[2147483650]⟩, 4⟩ ↔
      crossesIdle .tolerant program.provider [] input = false := by
  intro f1 f2 program limit input
  exact passes_agree_iff ⟨⟨[⟨4, 0, true⟩], ⟨[2147483650]⟩⟩, by decide, rfl⟩

/-- A sealed job appends the transformer's bytes and counts the records re-framed; the sink face
hands over the same bytes. Only the receipts' assertion fails a sealed job, in a debug build and
over a container crossed for no conversion. -/
theorem convert_computes_transform (h : Measured standard program limit input plan) :
    ∃ bytes n, transform standard program.provider limit.asInner [] input = some (bytes, n) ∧
      plan.stats.converted = n ∧
      (∀ build out, runInto standard program limit input build out =
        if build = .debug ∧ crossesIdle standard program.provider [] input = true then .panic
        else .ok plan.stats (out ++ bytes)) ∧
      ∀ build, ∃ slices : List (List UInt8), slices.flatten = bytes ∧
        runSink standard program limit input build =
          if build = .debug ∧ crossesIdle standard program.provider [] input = true then .panic
          else .ok plan.stats slices := by
  obtain ⟨d, hd, hfit, hfits, htotal, rfl⟩ := measured_iff.mp h
  rw [← (commit_facts hd).2.2]
  refine ⟨d.render spell, d.marks.length, by rw [transform_eq, hd, Option.map_some], ?_, ?_, ?_⟩
  · rw [tally_converted, Nat.zero_add]
  · intro build out
    obtain ⟨pieces, hflat, heq⟩ := job_eq build .buffer out (fun pieces => out ++ pieces.flatten)
      hd hfit hfits htotal
    rw [runInto, heq, hflat]
  · exact fun build =>
      job_eq build .sink ([] : List (List UInt8)) id hd hfit hfits htotal

theorem convert_computes_transform_pair :
    let f1 : FieldNumber := ⟨1, by decide, by decide⟩
    let f2 : FieldNumber := ⟨2, by decide, by decide⟩
    let program : Program := ⟨[[.field f1, .field f2]], by decide⟩
    let limit : DepthLimit := ⟨100, by decide, by decide⟩
    let input : List UInt8 := [0x0A, 0x02, 0x12, 0x00]
    ∃ bytes n, transform .tolerant program.provider 100 [] input = some (bytes, n) ∧
      1 = n ∧ runInto .tolerant program limit input .release [] = .ok ⟨1, 1⟩ bytes := by
  intro f1 f2 program limit input
  obtain ⟨bytes, n, ht, hn, hinto, -⟩ := @convert_computes_transform .tolerant program limit input
    ⟨input, program, limit, ⟨1, 1⟩, ⟨[2147483650]⟩, 4⟩
    ⟨⟨[⟨4, 0, true⟩], ⟨[2147483650]⟩⟩, by decide, rfl⟩
  exact ⟨bytes, n, ht, hn, (hinto .release []).trans (if_neg (by simp))⟩

end Passes

end ProtobufEdit.Convert.Grouped
