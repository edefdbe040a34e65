import ProtobufEdit.Convert.Grouped.Seam
import ProtobufEdit.TwoPass.Measured

/-!
# No conversion fails but by a refusal

From every reachable state of the measuring pass the next turn neither panics nor leaves a
table. A job so ends in its receipt, in a fault that leaves the caller what it had, or, in a
debug build over an idle crossing, in the receipts' assertion.
-/

namespace ProtobufEdit.Convert.Grouped

open Wire ProtobufEdit.Path Cursor Cursor.Groupless Loop Emission TwoPass Wire.Grouped

/-- Crossed layers hold a slot; converted ones do not. -/
def slotted : LayerKind → Bool
  | .cross => true
  | .convert => false

/-- What holds of every state of the measuring pass. -/
structure Sound (paths : Paths) (w : State Measure) : Prop where
  sane : w.Sane slotted 0
  seated : Seated paths w.below.length w.matcher

/-- A turn that keeps what holds, or ends the pass as it may end. -/
def Steady (paths : Paths) : Turned Measure → Prop
  | .next w => Sound paths w
  | .halt o => o.Safe

section Safety

variable {standard : Standard} {paths : Paths} {chain : List FieldNumber} {w : State Measure}
  {r : Record} {rest : List UInt8} {live : List Path.State}

theorem steady_copy (staged : List Path.State) {stop : Nat}
    (hfirst : first standard (w.layer.cursor.data.drop w.layer.cursor.pos) = some (r, rest))
    (h : Sound paths w) (hstop : stop = w.head + r.bytes.length) :
    Steady paths ((w.onward (w.layer.cursor.past r) staged w.stats w.sink).event
      (Measure.sink.verbatim w.head stop)) := by
  have hsane := h.sane.past hfirst staged w.stats
  obtain ⟨m', hbill, hstands, hslots⟩ := hsane.stands.clean
  have hverbatim : Measure.sink.verbatim w.head stop w.sink = .ok m' := by
    rw [hstop]
    simp only [Measure.sink_verbatim, Measure.verbatim, Nat.add_sub_cancel_left]
    exact hbill
  obtain ⟨w', hevent, hsane', hmatcher, hbelow, -⟩ :=
    hsane.event (φ := FaultKind) ⟨m', hverbatim, hstands, hslots⟩
  rw [hevent]
  exact ⟨hsane', by rw [hmatcher, hbelow]; exact h.seated.restage staged⟩

/-- A layer pushed over a LEN record, its frame standing. -/
theorem steady_enter {word payload : List UInt8} {kind : LayerKind} {stats : Stats} {m : Measure}
    (hfirst : first standard (w.layer.cursor.data.drop w.layer.cursor.pos) = some (r, rest))
    (h : Sound paths w) (hat : At paths chain w.matcher live) (hp : r.payload = .len word payload)
    (hstands : m.Stands slotted 0 (w.opening r word payload kind ::
      { w.layer with cursor := w.layer.cursor.past r } :: w.below))
    (hclaims : m.slots.slots.length ≤ w.sink.slots.slots.length + 1) :
    Steady paths (({ probed w r with stats, sink := m } : State Measure).enter r.field w.head
      (w.head + r.tag.length) (w.head + r.tag.length + word.length)
      (w.head + r.tag.length + word.length + payload.length) payload kind) := by
  have henter := @enter_eq LayerKind FaultKind Stats Measure w paths chain live r word payload hat
    (Walk.payload_le h.sane hfirst hp) kind stats m
  refine (congrArg (Steady paths) henter).mpr ⟨⟨hstands, ?_⟩, ?_⟩
  · have hwas := h.sane.claims
    have htag : 0 < r.tag.length := (first_iff.mp hfirst).2.isTag.admits.isWord.length_pos
    have hpos : (w.inside r (descend paths live r.field) (w.opening r word payload kind) stats
        m).head = w.head + r.tag.length + word.length + 0 := rfl
    rw [hpos]
    show m.slots.slots.length ≤ _
    omega
  · exact Seated.descended h.seated hat r.field (descend paths live r.field)

theorem steady_len {word payload : List UInt8}
    (hfirst : first standard (w.layer.cursor.data.drop w.layer.cursor.pos) = some (r, rest))
    (h : Sound paths w) (hat : At paths chain w.matcher live)
    (hp : r.payload = .len word payload) :
    Steady paths (deliver Measure.sink w (w.layer.cursor.past r) ⟨r.field, r.payload.value⟩) := by
  have hbytes : r.bytes.length = r.tag.length + (word.length + payload.length) := by
    simp only [Record.bytes, hp, Payload.bytes, List.length_append]
  have hsane := h.sane.past hfirst (w.matcher.probeRoutes r.field).2.staged w.stats
  rw [deliver_len hat hp]
  simp only
  split_ifs with hunmet hremaining hdes
  · exact steady_copy (w.matcher.probeRoutes r.field).2.staged hfirst h
      (by rw [hbytes]; omega)
  · exact trivial
  · obtain ⟨m', hopen, hstands, hslots⟩ := hsane.stands.frameEnter
      (w.opening r word payload .convert) (opener r.field)
      (Walk.opening_over hp _) rfl rfl
    have hentered : Measure.sink.frameEnter (opener r.field) w.sink = .ok m' := hopen
    rw [hentered]
    exact steady_enter hfirst h hat hp hstands (by rw [hslots]; exact Nat.le_succ _)
  · obtain ⟨m', hdescend, hstands, hslots⟩ := hsane.stands.descend
      (w.opening r word payload .cross) (Walk.opening_over hp _) rfl
      (by simp only [Walk.opening, hbytes]; omega) rfl
    have hdown : Measure.sink.descend w.head (w.head + r.tag.length)
        (w.head + r.tag.length + word.length)
        (w.head + r.tag.length + word.length + payload.length) w.sink = .ok (.walk, m') := hdescend
    rw [hdown]
    exact steady_enter hfirst h hat hp hstands (Nat.le_of_eq hslots)

theorem steady_exhausted (h : Sound paths w)
    (hend : w.layer.cursor.data.drop w.layer.cursor.pos = []) :
    Steady paths (exhausted Measure.sink w) := by
  unfold exhausted
  cases hbelow : w.below with
  | nil => exact trivial
  | cons layer below =>
    have hseated := h.seated
    rw [hbelow, List.length_cons] at hseated
    obtain ⟨hover, hhead⟩ := h.sane.exhausted rfl hbelow hend
    obtain ⟨crossing, hcrossing⟩ := Option.ne_none_iff_exists'.mp hover.crossing
    have hstands := h.sane.stands
    rw [hbelow] at hstands
    have hclaims := h.sane.claims
    rw [hhead] at hclaims
    cases hkind : w.layer.kind with
    | cross =>
      have hslotted : slotted w.layer.kind = true := by rw [hkind]; rfl
      have hcap := h.sane.claims.trans h.sane.head_le
      rcases hstands.ascend hend hslotted hcap with ⟨len, hout⟩ | ⟨m', hascend, hstands', hslots⟩
      · simp only [hkind, Measure.sink_ascend, hout]
        exact trivial
      · simp only [hkind, Measure.sink_ascend, hascend]
        refine ⟨⟨hstands', ?_⟩, hseated.exit⟩
        simp only [hslots]
        exact hclaims
    | convert =>
      have hslotted : slotted w.layer.kind = false := by rw [hkind]; rfl
      obtain ⟨m', hexit, hstands', hslots⟩ :=
        hstands.frameExit (closer crossing.field) hslotted
      have hleft : Measure.sink.frameExit (authoredWord (groupEndWord crossing.field)) w.sink =
          .ok m' := hexit
      simp only [hkind, hcrossing, Walk.event, hleft]
      refine ⟨⟨hstands', ?_⟩, hseated.exit⟩
      simp only [hslots]
      exact hclaims

/-- One turn of the measuring pass. -/
theorem turn_steady (h : Sound paths w) : Steady paths (turn Measure.sink standard w) := by
  obtain ⟨chain, live, hat⟩ := h.seated.at_
  by_cases hend : w.layer.cursor.data.drop w.layer.cursor.pos = []
  · rw [turn_end hend]
    exact steady_exhausted h hend
  cases hfirst : first standard (w.layer.cursor.data.drop w.layer.cursor.pos) with
  | none =>
    obtain ⟨fault, c', hstep⟩ := step_refuses hend hfirst
    simp only [turn, hstep]
    exact trivial
  | some p =>
    obtain ⟨r, rest⟩ := p
    rw [turn_record hfirst]
    cases hp : r.payload with
    | len word payload =>
      rw [← hp]
      exact steady_len hfirst h hat hp
    | varint word | i64 bits | i32 bits =>
      rw [← hp, deliver_scalar (by intro word payload e; rw [hp] at e; cases e)]
      split
      · exact trivial
      · exact steady_copy w.matcher.staged hfirst h rfl

variable {program : Program} {limit : DepthLimit} {input : List UInt8}

/-- The measuring pass ends in its tally or in a refusal. -/
theorem measure_safe : (walk Measure.sink standard program limit input .new).Safe := by
  by_cases hfit : input.length ≤ PayloadLen.max
  · have hsound : Sound program.provider (start program limit ⟨input, 0, 0, 0⟩ Measure.new) :=
      ⟨⟨.root rfl hfit (Nat.zero_le _) fun _ => rfl, Nat.zero_le _⟩, .root (at_new _)⟩
    have hfuel :
        (start program limit ⟨input, 0, 0, 0⟩ Measure.new).left < 2 * input.length + 2 := by
      simp [Walk.left, Layer.left, start]
    obtain ⟨o, hrun⟩ : ∃ o, run (turn Measure.sink standard) (2 * input.length + 2)
        (start program limit ⟨input, 0, 0, 0⟩ Measure.new) = some o :=
      run_of_measure (fun _ => True) Walk.left (fun _ _ _ h => ⟨trivial, turn_lowers h⟩) trivial
        hfuel
    have hyields := yields_of_run hrun
    rw [walk_of_yields (over_ok hfit) hyields]
    refine Yields.keeps (Sound program.provider) (fun s s' hs e => ?_) (fun s o hs e => ?_) hsound
      hyields
    · have hsteady := @turn_steady standard _ _ hs
      rwa [e] at hsteady
    · have hsteady := @turn_steady standard _ _ hs
      rwa [e] at hsteady
  · rw [walk_oversize (Nat.lt_of_not_le hfit)]
    exact trivial

/-- Every job is sealed, and then fails only by the receipts' assertion, in a debug build and over
a container crossed for no conversion; or it ends in a fault, the same on both faces and in both
builds, that leaves the caller's vector as it was and hands the sink nothing. -/
theorem convert_refuses_cleanly (standard : Standard) (program : Program) (limit : DepthLimit)
    (input : List UInt8) :
    (∃ plan, Measured standard program limit input plan ∧ ∀ build,
        if build = .debug ∧ crossesIdle standard program.provider [] input = true then
          (∀ out, runInto standard program limit input build out = .panic) ∧
            runSink standard program limit input build = .panic
        else
          (∀ out, ∃ left, runInto standard program limit input build out = .ok plan.stats left) ∧
            ∃ slices, runSink standard program limit input build = .ok plan.stats slices) ∨
      ∃ fault, (∀ build out, runInto standard program limit input build out = .err fault out) ∧
        ∀ build, runSink standard program limit input build = .err fault [] := by
  have hsafe := @measure_safe standard program limit input
  cases hwalk : walk Measure.sink standard program limit input .new with
  | panic | undefined =>
    rw [hwalk] at hsafe
    exact hsafe.elim
  | refused fault =>
    refine .inr ⟨fault, fun build out => ?_, fun build => ?_⟩
    · simp only [runInto, job, hwalk]
    · simp only [runSink, job, hwalk]
  | done stats measure =>
    obtain ⟨hfit, d, hd, hfits, hstats, rfl⟩ := measure_done hwalk
    by_cases htotal : (d.render spell).length ≤ PayloadLen.max
    · refine .inl ⟨_, measured_iff.mpr ⟨d, hd, hfit, hfits, htotal, rfl⟩, fun build => ?_⟩
      rw [← (commit_facts hd).2.2]
      have hinto := fun out => job_eq build .buffer out (fun pieces => out ++ pieces.flatten)
        hd hfit hfits htotal
      obtain ⟨slices, -, hsink⟩ :=
        job_eq build .sink ([] : List (List UInt8)) id hd hfit hfits htotal
      split
      · next hidle =>
        refine ⟨fun out => ?_, hsink.trans (if_pos hidle)⟩
        obtain ⟨pieces, -, hjob⟩ := hinto out
        exact hjob.trans (if_pos hidle)
      · next hidle =>
        refine ⟨fun out => ?_, slices, hsink.trans (if_neg hidle)⟩
        obtain ⟨pieces, -, hjob⟩ := hinto out
        exact ⟨_, hjob.trans (if_neg hidle)⟩
    · have hover := Nat.lt_of_not_le htotal
      refine .inr ⟨⟨0, [], .output (d.render spell).length⟩, fun build out => ?_, fun build => ?_⟩
      · simp only [runInto, job, hwalk, Plan.new, Measure.rootTotal, List.getLastD_cons,
          List.getLastD_nil, hover, if_true]
      · simp only [runSink, job, hwalk, Plan.new, Measure.rootTotal, List.getLastD_cons,
          List.getLastD_nil, hover, if_true]

end Safety

end ProtobufEdit.Convert.Grouped
