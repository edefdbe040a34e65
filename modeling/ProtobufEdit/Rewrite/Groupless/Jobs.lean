import ProtobufEdit.Rewrite.Groupless.Seam

/-!
# The rewriter's jobs

What the measuring pass accepts, the emit pass replays past every pin, on either face and in
either build: the job is the recursive transformer, and it succeeds exactly where the
transformer's output stays in the LEN class.
-/

namespace ProtobufEdit.Rewrite.Groupless

open Wire ProtobufEdit.Path Cursor Cursor.Groupless Loop Emission TwoPass Wire.Groupless

/-- The jobs that succeed, and what they come to: an input of the class, its rules agreeing, and
an output of the class. -/
structure Accepted {inserts : Bool} (set : Sets inserts) (standard : Standard)
    (limit : DepthLimit) (input bytes : List UInt8) (marks : List Mark) : Prop where
  fits : input.length ≤ PayloadLen.max
  becomes : transformed set standard limit input = some (bytes, marks)
  output : bytes.length ≤ PayloadLen.max

/-- A receipt counts the edits, one descent a container, and every count is a u32. -/
structure Counted (stats : InsertStats) (marks : List Mark) : Prop where
  judged : stats.judged = tallied marks
  deleted : stats.deleted < 2 ^ 32
  replaced : stats.replaced < 2 ^ 32
  normalized : stats.normalized < 2 ^ 32
  inserted : stats.inserted < 2 ^ 32
  descended : stats.descended < 2 ^ 32

section Passes

variable {inserts : Bool} {set : Sets inserts} {standard : Standard} {limit : DepthLimit}
  {input : List UInt8} {d : Doc UInt8 Mark}

theorem measure_walks : Measure.sink.Walks := by
  intro head tagEnd payloadStart payloadEnd s s' h
  simp only [Measure.sink_descend, Measure.descend] at h
  cases h

/-- An interior of a document whose whole stays in the class stays in it. -/
theorem fits_of_le (h : (d.render spell).length ≤ PayloadLen.max) :
    d.Fits spell PayloadLen.max := by
  induction d with
  | nil => exact trivial
  | copy bytes rest ih | drop mark bytes rest ih | author mark old new rest ih
    | replace mark tag old new rest ih =>
    simp only [Doc.render, List.length_append] at h
    exact ih (by omega)
  | frame mark old opener inner closer rest ihi ihr =>
    simp only [Doc.render, List.length_append] at h
    exact ⟨ihi (by omega), ihr (by omega)⟩
  | cross tag word inner rest ihi ihr =>
    simp only [Doc.render, List.length_append] at h
    exact ⟨ihi (by omega), by omega, ihr (by omega)⟩

theorem rooted_source (hd : commit set standard limit.asInner [] input = some d) :
    (rooted set d).source = input := by rw [rooted, fenced_source, commit_source hd]

theorem rooted_tagged (hd : commit set standard limit.asInner [] input = some d) :
    (rooted set d).Tagged := fenced_tagged.mpr (commit_tagged hd)

theorem transformed_some {bytes : List UInt8} {marks : List Mark} :
    transformed set standard limit input = some (bytes, marks) ↔
      ∃ d, commit set standard limit.asInner [] input = some d ∧
        (rooted set d).render spell = bytes ∧ (rooted set d).marks = marks := by
  rw [transformed_eq, Option.map_eq_some_iff]
  simp only [Prod.mk.injEq]

/-- An accepted walk of the measuring pass measures what is committed. -/
theorem measure_done {stats : InsertStats} {measure : Measure}
    (h : walk set Measure.sink standard limit input .new = .done stats measure) :
    input.length ≤ PayloadLen.max ∧
      ∃ d, commit set standard limit.asInner [] input = some d ∧
        stats = (rooted set d).tally note noteDescended true .zero ∧
        measure = ⟨[⟨((rooted set d).render spell).length, 0, (rooted set d).dirty⟩],
          slotsOf (rooted set d)⟩ := by
  have hfit : input.length ≤ PayloadLen.max := by
    by_contra hover
    rw [walk_oversize (Nat.lt_of_not_le hover)] at h
    have hrefuse := not_done_refuse Measure.sink
      (⟨0, [], .oversize⟩ : TwoPass.Fault FaultKind) (τ := InsertStats)
    rw [h] at hrefuse
    exact hrefuse trivial
  refine ⟨hfit, ?_⟩
  by_contra hne
  have hnot : ¬(walk set Measure.sink standard limit input .new).Done := by
    refine walk_not_done hfit (fun d hd => ?_) measure_walks
    have hlen : (rooted set d).source.length ≤ PayloadLen.max := by
      rw [rooted_source hd]
      exact hfit
    by_cases hfits : (rooted set d).Fits spell PayloadLen.max
    · have hfeed := Measure.whole note noteDescended (rooted_tagged hd) hlen hfits .zero
      rw [walk_done hfit hd hfeed] at h
      cases h
      exact absurd ⟨d, hd, rfl, rfl⟩ hne
    · obtain ⟨len, hfeed⟩ :=
        Measure.whole_over note noteDescended (rooted_tagged hd) hlen hfits .zero
      exact ⟨_, hfeed⟩
  rw [h] at hnot
  exact hnot trivial

theorem measure_whole (hfit : input.length ≤ PayloadLen.max)
    (hd : commit set standard limit.asInner [] input = some d)
    (htotal : ((rooted set d).render spell).length ≤ PayloadLen.max) :
    walk set Measure.sink standard limit input .new =
      .done ((rooted set d).tally note noteDescended true .zero)
        ⟨[⟨((rooted set d).render spell).length, 0, (rooted set d).dirty⟩],
          slotsOf (rooted set d)⟩ :=
  walk_done hfit hd (Measure.whole note noteDescended (rooted_tagged hd)
    (by rw [rooted_source hd]; exact hfit) (fits_of_le htotal) .zero)

/-- The emit pass over a sealed plan: it reaches no refusal site, passes every pin, and its
pieces are the transformer's bytes. -/
theorem replay_whole (face : Face) (hfit : input.length ≤ PayloadLen.max)
    (hd : commit set standard limit.asInner [] input = some d)
    (htotal : ((rooted set d).render spell).length ≤ PayloadLen.max) (t : InsertStats) :
    ∃ e e', Plan.replay standard ⟨input, set, limit, t, slotsOf (rooted set d),
          ((rooted set d).render spell).length⟩ face =
        .done ((rooted set d).tally note noteDescended false .zero) e ∧
      e.finish = .ok e' ∧ e'.pieces.flatten = (rooted set d).render spell := by
  obtain ⟨e, e', hfeed, hfinish, hflat, -⟩ := Emit.whole note noteDescended face
    (rooted_tagged hd) (by rw [rooted_source hd]; exact hfit) (fits_of_le htotal) .zero
  rw [rooted_source hd] at hfeed
  exact ⟨e, e', walk_done hfit hd hfeed, hfinish, hflat⟩

theorem counted_tally (hfit : input.length ≤ PayloadLen.max)
    (hd : commit set standard limit.asInner [] input = some d)
    (htotal : ((rooted set d).render spell).length ≤ PayloadLen.max) :
    Counted ((rooted set d).tally note noteDescended true .zero) (rooted set d).marks := by
  have hjudged := tally_judged (rooted set d) true
  have hpaid : Paid (rooted set d) := paid_fenced _ _ (paid_commit hd)
  have hsource := hpaid.source
  have hrender := hpaid.render
  have hdescended := tally_descended (rooted set d) true
  have hslots := @Doc.two_mul_slots _ _ spell _ (rooted_tagged hd)
  rw [crossings_slots] at hdescended
  rw [rooted_source hd] at hsource hslots
  simp only [InsertStats.judged, tallied, Prod.mk.injEq] at hjudged
  obtain ⟨hdel, hrep, hnorm, hins⟩ := hjudged
  have hmax : PayloadLen.max < 2 ^ 32 := by decide
  refine ⟨?_, ?_, ?_, ?_, ?_, ?_⟩
  · simp only [InsertStats.judged, tallied, hdel, hrep, hnorm, hins]
  all_goals omega

/-- A job whose output stays in the class. -/
theorem job_eq {α : Type} (build : Build) (face : Face) (left : α) (into : List (List UInt8) → α)
    (hfit : input.length ≤ PayloadLen.max)
    (hd : commit set standard limit.asInner [] input = some d)
    (htotal : ((rooted set d).render spell).length ≤ PayloadLen.max) :
    ∃ pieces : List (List UInt8), pieces.flatten = (rooted set d).render spell ∧
      job standard set limit input build face left into =
        .ok (receipt inserts ((rooted set d).tally note noteDescended true .zero))
          (into pieces) := by
  obtain ⟨e, e', hreplay, hfinish, hflat⟩ := replay_whole face hfit hd htotal
    ((rooted set d).tally note noteDescended true .zero)
  refine ⟨e'.pieces, hflat, ?_⟩
  have hsame : ¬(build = .debug ∧
      ((rooted set d).tally note noteDescended false .zero).judged ≠
        ((rooted set d).tally note noteDescended true .zero).judged) := by
    rw [tally_judged, tally_judged]
    exact fun h => h.2 rfl
  have hfree : ¬(build = .debug ∧ inserts = false ∧
      ((rooted set d).tally note noteDescended true .zero).inserted ≠ 0) := by
    rintro ⟨-, hdoor, hne⟩
    have hjudged := tally_judged (rooted set d) true
    simp only [InsertStats.judged, tallied, Prod.mk.injEq] at hjudged
    obtain ⟨-, -, -, hins⟩ := hjudged
    refine hne (hins.trans ?_)
    rw [rooted, fenced_marks, count_fencedMarks, commit_free hdoor hd]
    simp [Sets.rootInserts, hdoor]
  simp only [job, measure_whole hfit hd htotal, Plan.new, Measure.rootTotal, List.getLastD_cons,
    List.getLastD_nil, Nat.not_lt.mpr htotal, if_false, hreplay, if_neg hsame, hfinish,
    if_neg hfree]

/-- A job that succeeds has an output of the class. -/
theorem job_ok {α : Type} {build : Build} {face : Face} {left last : α}
    {into : List (List UInt8) → α} {stats : Receipt inserts}
    (h : job standard set limit input build face left into = .ok stats last) :
    input.length ≤ PayloadLen.max ∧ ∃ d, commit set standard limit.asInner [] input = some d ∧
      ((rooted set d).render spell).length ≤ PayloadLen.max := by
  unfold job at h
  cases hwalk : walk set Measure.sink standard limit input .new with
  | refused fault | panic | undefined => rw [hwalk] at h; cases h
  | done stats measure =>
    obtain ⟨hfit, d, hd, -, rfl⟩ := measure_done hwalk
    refine ⟨hfit, d, hd, ?_⟩
    by_contra hover
    rw [hwalk] at h
    simp only [Plan.new, Measure.rootTotal, List.getLastD_cons, List.getLastD_nil,
      Nat.lt_of_not_le hover, if_true] at h
    cases h

/-- A job is the recursive transformer, behind either door, under either standard, in either
build: where the transformer's output stays in the class it succeeds on both faces with those
bytes and their receipt, and it succeeds nowhere else. -/
theorem rewrite_computes_transform {inserts : Bool} (set : Sets inserts) (standard : Standard)
    (limit : DepthLimit) (input : List UInt8) :
    (∀ bytes marks, Accepted set standard limit input bytes marks →
      ∃ stats, Counted stats marks ∧
        (∀ build out, runInto standard set limit input build out =
          .ok (receipt inserts stats) (out ++ bytes)) ∧
        ∀ build, ∃ slices : List (List UInt8), slices.flatten = bytes ∧
          runSink standard set limit input build = .ok (receipt inserts stats) slices) ∧
    (∀ build out stats left, runInto standard set limit input build out = .ok stats left →
      ∃ bytes marks, Accepted set standard limit input bytes marks) ∧
    (∀ build stats slices, runSink standard set limit input build = .ok stats slices →
      ∃ bytes marks, Accepted set standard limit input bytes marks) := by
  have haccepted : ∀ {α : Type} {build : Build} {face : Face} {left last : α}
      {into : List (List UInt8) → α} {stats : Receipt inserts},
      job standard set limit input build face left into = .ok stats last →
      ∃ bytes marks, Accepted set standard limit input bytes marks := by
    intro α build face left last into stats h
    obtain ⟨hfit, d, hd, htotal⟩ := job_ok h
    exact ⟨_, _, hfit, transformed_some.mpr ⟨d, hd, rfl, rfl⟩, htotal⟩
  refine ⟨?_, fun build out stats left h => haccepted h, fun build stats slices h => haccepted h⟩
  rintro bytes marks ⟨hfit, hbecomes, htotal⟩
  obtain ⟨d, hd, rfl, rfl⟩ := transformed_some.mp hbecomes
  refine ⟨_, counted_tally hfit hd htotal, fun build out => ?_, fun build => ?_⟩
  · obtain ⟨pieces, hflat, hjob⟩ := job_eq build .buffer out (fun pieces => out ++ pieces.flatten)
      hfit hd htotal
    rw [runInto, hjob, hflat]
  · obtain ⟨pieces, hflat, hjob⟩ :=
      job_eq build .sink ([] : List (List UInt8)) id hfit hd htotal
    exact ⟨pieces, hflat, hjob⟩

end Passes

end ProtobufEdit.Rewrite.Groupless
