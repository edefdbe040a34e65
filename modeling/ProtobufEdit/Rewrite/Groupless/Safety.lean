import ProtobufEdit.Rewrite.Groupless.Jobs
import ProtobufEdit.TwoPass.Measured

/-!
# No job fails but by a refusal

From every reachable state of the measuring pass the next turn neither panics nor leaves a
table, so a job ends in its receipt, or in a fault that leaves the caller what it had. The code
counts in 32 bits: a turn fires no rule twice, so where the rules times the turns stay below
`2 ^ 32` no count overflows.
-/

namespace ProtobufEdit.Rewrite.Groupless

open Wire ProtobufEdit.Path Cursor Cursor.Groupless Loop Emission TwoPass Wire.Groupless

/-- What holds of every state of the measuring pass. -/
structure Sound {inserts : Bool} (set : Sets inserts) (w : State Measure) : Prop where
  sane : w.Sane (fun _ => true) 0
  seated : Seated set.provider w.below.length w.matcher

/-- What one turn adds to the counts, at most. -/
structure Adds {inserts : Bool} (set : Sets inserts) (t t' : InsertStats) : Prop where
  deleted : t'.deleted ≤ t.deleted + 1
  replaced : t'.replaced ≤ t.replaced + 1
  normalized : t'.normalized ≤ t.normalized + 1
  inserted : t'.inserted ≤ t.inserted + set.rules.length
  descended : t'.descended ≤ t.descended + 1

/-- A turn from some counts that keeps what holds, or ends the pass as it may end. -/
def Steady {inserts : Bool} (set : Sets inserts) (t : InsertStats) : Turned Measure → Prop
  | .next w => Sound set w ∧ Adds set t w.stats
  | .halt o => o.Safe

/-- The insertions some event of a walk fires: the root's on one side, or an anchor's. -/
def Firing {inserts : Bool} (set : Sets inserts) (fired : List InsertRule) : Prop :=
  (∃ gap, fired = set.rootInserts gap) ∨
    ∃ lane chain field, fired = insertsAt set lane chain field

theorem Firing.length_le {inserts : Bool} {set : Sets inserts} {fired : List InsertRule}
    (h : Firing set fired) : fired.length ≤ set.rules.length := by
  rcases h with ⟨gap, rfl⟩ | ⟨lane, chain, field, rfl⟩
  · unfold Sets.rootInserts
    split
    · exact List.length_filterMap_le _ _
    · exact Nat.zero_le _
  · have hcount : set.provider.count = set.rules.length := by simp [Paths.count, Sets.provider]
    have hhits : (set.provider.hits lane chain field).length ≤ set.provider.count :=
      (List.length_filter_le _ _).trans_eq List.length_range
    exact (List.length_filterMap_le _ _).trans (hhits.trans_eq hcount)

/-- The counts keep within 32 bits through whatever the next turn adds. -/
structure Roomy {inserts : Bool} (set : Sets inserts) (t : InsertStats) : Prop where
  deleted : t.deleted + 1 < 2 ^ 32
  replaced : t.replaced + 1 < 2 ^ 32
  normalized : t.normalized + 1 < 2 ^ 32
  inserted : ∀ fired, Firing set fired → t.inserted + fired.length < 2 ^ 32
  descended : t.descended + 1 < 2 ^ 32

section Safety

variable {inserts : Bool} {set : Sets inserts} {standard : Standard} {w : State Measure}
  {r : Record} {rest : List UInt8} {live : List Path.State} {chain : List FieldNumber}

/-- Insertions are billed wherever they fire. -/
theorem fireAll_ok {pending : Nat} {l : Layer Bool} {below : List (Layer Bool)}
    (l' : List InsertRule) {m : Measure} (t : InsertStats)
    (h : m.Stands (fun _ => true) pending (l :: below)) :
    ∃ m' t', fireAll Measure.sink l' (m, t) = .ok (m', t') ∧
      m'.Stands (fun _ => true) pending (l :: below) ∧ m'.slots = m.slots ∧
      t' = { t with inserted := t.inserted + l'.length } := by
  induction l' generalizing m t with
  | nil => exact ⟨m, t, rfl, h, rfl, rfl⟩
  | cons insert rest ih =>
    obtain ⟨m₁, hbill, hm₁, hslots, -⟩ :=
      h.edited (inserted insert).size pending
    obtain ⟨m₂, t₂, hfire, hm₂, hslots', ht₂⟩ := ih { t with inserted := t.inserted + 1 } hm₁
    refine ⟨m₂, t₂, ?_, hm₂, hslots'.trans hslots, ?_⟩
    swap
    · rw [ht₂, List.length_cons]
      simp only [Nat.add_assoc, Nat.add_comm 1]
    have hauthor : Measure.sink.author (inserted insert) m = .ok m₁ := hbill
    simp only [fireAll, fireGap, hauthor, bind, Except.bind, pure, Except.pure]
    exact hfire

theorem Adds.refl (set : Sets inserts) (t : InsertStats) : Adds set t t :=
  ⟨Nat.le_succ _, Nat.le_succ _, Nat.le_succ _, Nat.le_add_right _ _, Nat.le_succ _⟩

/-- Behind an event, with the counts it was given. -/
theorem steady_event {pending : Nat} {t : InsertStats} {f : Measure → Except Trap Measure}
    (hsane : w.Sane (fun _ => true) pending)
    (hseated : Seated set.provider w.below.length w.matcher) (hadds : Adds set t w.stats)
    (hf : ∃ m', f w.sink = .ok m' ∧ m'.Stands (fun _ => true) 0 (w.layer :: w.below) ∧
      m'.slots = w.sink.slots) :
    Steady set t (w.event f) := by
  obtain ⟨w', hevent, hsane', hmatcher, hbelow, hstats⟩ := hsane.event (φ := FaultKind) hf
  rw [hevent]
  exact ⟨⟨hsane', by rw [hmatcher, hbelow]; exact hseated⟩, by rw [hstats]; exact hadds⟩

section Turns

variable (hfirst : first standard (w.layer.cursor.data.drop w.layer.cursor.pos) = some (r, rest))
  (h : Sound set w)

include hfirst h

theorem behind_sane (staged : List Path.State) :
    (behind w r staged).Sane (fun _ => true) r.bytes.length ∧
      Seated set.provider (behind w r staged).below.length (behind w r staged).matcher :=
  ⟨h.sane.past hfirst staged w.stats, h.seated.restage staged⟩

theorem steady_keep {staged : List Path.State} :
    Steady set w.stats ((behind w r staged).event
      (Measure.sink.verbatim w.head (w.head + r.bytes.length))) := by
  obtain ⟨hsane, hseated⟩ := behind_sane hfirst h staged
  refine steady_event hsane hseated (.refl set _) ?_
  obtain ⟨m', hbill, hstands, hslots⟩ := hsane.stands.clean
  refine ⟨m', ?_, hstands, hslots⟩
  simp only [Measure.sink_verbatim, Measure.verbatim, Nat.add_sub_cancel_left]
  exact hbill

theorem steady_act {action : Action} {staged : List Path.State} {rule : Nat}
    (haction : set.action rule = some action) (howns : action.isInsert = false) :
    Steady set w.stats (act set Measure.sink w (behind w r staged) ⟨r.field, r.payload.value⟩ rule) := by
  obtain ⟨hsane, hseated⟩ := behind_sane hfirst h staged
  -- every action bills its own bytes, and dirties the layer
  have hbilled : ∀ (stats : InsertStats) (f : Measure → Except Trap Measure) (n : Nat),
      Adds set w.stats stats → (∀ m, f m = m.bill n true) →
      Steady set w.stats ({ behind w r staged with stats }.event f) := by
    intro stats f n hadds hf
    have hsane' : ({ behind w r staged with stats } : State Measure).Sane (fun _ => true)
        r.bytes.length := ⟨hsane.stands, hsane.claims⟩
    refine steady_event hsane' hseated hadds ?_
    obtain ⟨m', hbill, hstands, hslots, -⟩ := hsane.stands.edited n 0
    exact ⟨m', (hf _).trans hbill, hstands, hslots⟩
  simp only [act, haction]
  cases action with
  | insert insert => cases howns
  | delete =>
    exact hbilled _ _ 0 { Adds.refl set w.stats with deleted := le_rfl } fun _ => rfl
  | normalize =>
    exact hbilled _ _ _ { Adds.refl set w.stats with normalized := le_rfl } fun _ => rfl
  | replace value =>
    cases hagrees : agrees r.payload.value value with
    | false =>
      simp only [hagrees, Bool.false_eq_true, if_false]
      exact trivial
    | true =>
      simp only [hagrees, if_true]
      exact hbilled _ _ _ { Adds.refl set w.stats with replaced := le_rfl } fun _ => rfl

theorem steady_enter {word payload : List UInt8} (hat : At set.provider chain w.matcher live)
    (hp : r.payload = .len word payload) :
    Steady set w.stats (cross set Measure.sink w
      (behind w r (w.matcher.probeRoutes r.field).2.staged) r.field payload
      !(set.provider.gapHits chain r.field).isEmpty) := by
  obtain ⟨hsane, hseated⟩ := behind_sane hfirst h (w.matcher.probeRoutes r.field).2.staged
  have hprobed : At set.provider chain
      (behind w r (w.matcher.probeRoutes r.field).2.staged).matcher live := hat.restage _
  have hbytes : r.bytes.length = r.tag.length + (word.length + payload.length) := by
    simp only [Record.bytes, hp, Payload.bytes, List.length_append]
  have hstop : (behind w r (w.matcher.probeRoutes r.field).2.staged).head =
      w.head + r.tag.length + word.length + payload.length := by
    rw [head_behind, hbytes]
    omega
  simp only [cross, fireHeads_eq hprobed, tails_eq hprobed, hstop, Nat.add_sub_cancel]
  split
  · exact trivial
  set layer := w.opening r word payload (!(set.provider.hits .tail chain r.field).isEmpty)
    with hlayer
  obtain ⟨m', hdescend, hstands, hslots⟩ := hsane.stands.descend layer
    (Walk.opening_over hp _) rfl
    (by simp only [hlayer, Walk.opening, hbytes]; omega) rfl
  have hclaimed : m'.slots.slots.length = w.sink.slots.slots.length + 1 := hslots
  have hdown : Measure.sink.descend w.head (w.head + r.tag.length)
      (w.head + r.tag.length + word.length)
      (w.head + r.tag.length + word.length + payload.length) w.sink = .ok (.walk, m') := hdescend
  rw [show w.head + (behind w r (w.matcher.probeRoutes r.field).2.staged).layer.cursor.tagWidth =
      w.head + r.tag.length from rfl,
    show (behind w r (w.matcher.probeRoutes r.field).2.staged).sink = w.sink from rfl, hdown]
  simp only
  obtain ⟨m₂, t₂, hfire, hstands₂, hslots₂, ht₂⟩ :=
    fireAll_ok (insertsAt set .head chain r.field)
      { w.stats with descended := w.stats.descended + 1 } hstands
  rw [hfire]
  have henter := @enter_eq Bool FaultKind InsertStats Measure w set.provider chain live r word
    payload hat (Walk.payload_le h.sane hfirst hp)
    (!(set.provider.hits .tail chain r.field).isEmpty) t₂ m₂
  refine (congrArg (Steady set w.stats) henter).mpr ⟨⟨⟨hstands₂, ?_⟩, ?_⟩, ?_⟩
  · have hclaims := h.sane.claims
    have htag : 0 < r.tag.length := (first_iff.mp hfirst).2.isTag.admits.isWord.length_pos
    rw [show (w.inside r (descend set.provider live r.field) layer t₂ m₂).sink = m₂ from rfl,
      hslots₂, hclaimed]
    simp only [Walk.head, Walk.inside, Walk.opening] at hclaims ⊢
    omega
  · exact Seated.descended h.seated hat r.field (descend set.provider live r.field)
  · show Adds set w.stats t₂
    rw [ht₂]
    have hfired : Firing set (insertsAt set .head chain r.field) := .inr ⟨_, _, _, rfl⟩
    exact { Adds.refl set w.stats with
      inserted := Nat.add_le_add_left hfired.length_le _, descended := le_rfl }

end Turns

theorem steady_exhausted (h : Sound set w)
    (hend : w.layer.cursor.data.drop w.layer.cursor.pos = []) :
    Steady set w.stats (exhausted set Measure.sink w) := by
  unfold exhausted
  cases hbelow : w.below with
  | nil =>
    obtain ⟨m', t', hfire, -⟩ := fireAll_ok (set.rootInserts .tailOf) w.stats h.sane.stands
    simp only [hfire]
    exact trivial
  | cons layer below =>
    have hseated := h.seated
    rw [hbelow, List.length_cons] at hseated
    obtain ⟨hover, hhead⟩ := h.sane.exhausted rfl hbelow hend
    obtain ⟨crossing, hcrossing⟩ := Option.ne_none_iff_exists'.mp hover.crossing
    obtain ⟨chain, live, hat⟩ := hseated.exit.at_
    have hstands := h.sane.stands
    rw [hbelow] at hstands
    -- the pending insertions, then the ascent
    obtain ⟨m₁, t₁, hfired, hstands₁, hslots₁, hadds⟩ : ∃ m₁ t₁,
        (if (inserts && w.layer.kind) = true then
          fireLane set Measure.sink w.matcher.exit crossing.field .tail (w.sink, w.stats)
        else .ok (w.sink, w.stats)) = .ok (m₁, t₁) ∧
        m₁.Stands (fun _ => true) 0 (w.layer :: layer :: below) ∧ m₁.slots = w.sink.slots ∧
        Adds set w.stats t₁ := by
      split
      · rw [fireLane_eq hat (by decide)]
        obtain ⟨m₁, t₁, hfire, hstands₁, hslots₁, rfl⟩ :=
          fireAll_ok (insertsAt set .tail chain crossing.field) w.stats hstands
        have hfired : Firing set (insertsAt set .tail chain crossing.field) :=
          .inr ⟨_, _, _, rfl⟩
        exact ⟨m₁, _, hfire, hstands₁, hslots₁, { Adds.refl set w.stats with
          inserted := Nat.add_le_add_left hfired.length_le _ }⟩
      · exact ⟨_, _, rfl, hstands, rfl, .refl set _⟩
    simp only [hcrossing, hfired]
    have hclaims : m₁.slots.slots.length ≤ PayloadLen.max := by
      rw [hslots₁]
      exact h.sane.claims.trans h.sane.head_le
    rcases hstands₁.ascend hend rfl hclaims with ⟨len, hover⟩ | ⟨m₂, hascend, hstands₂, hslots₂⟩
    · simp only [Measure.sink_ascend, hover]
      exact trivial
    · simp only [Measure.sink_ascend, hascend]
      refine ⟨⟨⟨hstands₂, ?_⟩, hseated.exit⟩, hadds⟩
      have hclaims := h.sane.claims
      rw [hhead] at hclaims
      simp only [hslots₂, hslots₁]
      exact hclaims

/-- One turn of the measuring pass. -/
theorem turn_steady (h : Sound set w) :
    Steady set w.stats (turn set Measure.sink standard w) := by
  obtain ⟨chain, live, hat⟩ := h.seated.at_
  by_cases hend : w.layer.cursor.data.drop w.layer.cursor.pos = []
  · rw [turn_end hend]
    exact steady_exhausted h hend
  cases hfirst : first standard (w.layer.cursor.data.drop w.layer.cursor.pos) with
  | none =>
    obtain ⟨fault, hturn⟩ :
        ∃ fault, turn set Measure.sink standard w = .halt (Measure.sink.refuse fault) :=
      turn_refuses hend hfirst
    rw [hturn]
    exact trivial
  | some p =>
    obtain ⟨r, rest⟩ := p
    cases hverdict : verdict set chain r with
    | refuse =>
      obtain ⟨fault, hturn⟩ := turn_refuse (S := Measure.sink) hfirst hat hverdict
      rw [hturn]
      exact trivial
    | keep =>
      obtain ⟨staged, hturn⟩ := turn_keep (S := Measure.sink) hfirst hat hverdict
      rw [hturn]
      exact steady_keep hfirst h
    | act action =>
      obtain ⟨staged, rule, haction, hturn⟩ := turn_act (S := Measure.sink) hfirst hat hverdict
      rw [hturn]
      exact steady_act hfirst h haction (owns_of_act hverdict)
    | enter =>
      have hkind := kind_of_enter hverdict
      cases hp : r.payload with
      | varint _ | i64 _ | i32 _ => rw [hp] at hkind; cases hkind
      | len word payload =>
        rw [turn_enter (S := Measure.sink) hfirst hat hp hverdict]
        exact steady_enter hfirst h hat hp

/-- Before the first turn, the root's head insertions billed. -/
theorem sound_start (limit : DepthLimit) {input : List UInt8} {m : Measure} {t : InsertStats}
    (hfit : input.length ≤ PayloadLen.max)
    (hheads : fireAll Measure.sink (set.rootInserts .headOf) (.new, .zero) = .ok (m, t)) :
    Sound set (start set limit ⟨input, 0, 0, 0⟩ (m, t)) := by
  have hnew : Measure.new.Stands (fun _ => true) 0
      [(⟨⟨input, 0, 0, 0⟩, 0, none, 0, 0, 0, 0, limit.asInner, false⟩ : TwoPass.Layer Bool)] :=
    .root rfl hfit (Nat.zero_le _) fun _ => rfl
  obtain ⟨m', t', hfire, hstands, hslots, -⟩ := fireAll_ok (set.rootInserts .headOf) .zero hnew
  rw [hheads] at hfire
  cases hfire
  refine ⟨⟨hstands, ?_⟩, .root (at_new _)⟩
  simp only [start, hslots]
  exact Nat.zero_le _

variable {limit : DepthLimit} {input : List UInt8}

/-- The measuring pass ends in its tally or in a refusal. -/
theorem measure_safe : (walk set Measure.sink standard limit input .new).Safe := by
  by_cases hfit : input.length ≤ PayloadLen.max
  · have hnew : Measure.new.Stands (fun _ => true) 0
        [(⟨⟨input, 0, 0, 0⟩, 0, none, 0, 0, 0, 0, limit.asInner, false⟩ : TwoPass.Layer Bool)] :=
      .root rfl hfit (Nat.zero_le _) fun _ => rfl
    obtain ⟨m, t, hheads, -⟩ := fireAll_ok (set.rootInserts .headOf) .zero hnew
    have hsound := sound_start limit hfit hheads
    have hfuel : (start set limit ⟨input, 0, 0, 0⟩ (m, t)).left < 2 * input.length + 2 := by
      simp [Walk.left, Layer.left, start]
    obtain ⟨o, hrun⟩ : ∃ o, run (turn set Measure.sink standard) (2 * input.length + 2)
        (start set limit ⟨input, 0, 0, 0⟩ (m, t)) = some o :=
      run_of_measure (fun _ => True) Walk.left (fun _ _ _ h => ⟨trivial, turn_lowers h⟩) trivial
        hfuel
    have hyields := yields_of_run hrun
    rw [walk_of_yields (over_ok hfit) hheads hyields]
    refine Yields.keeps (Sound set) (fun s s' hs e => ?_) (fun s o hs e => ?_) hsound hyields
    · have hsteady : Steady set s.stats (turn set Measure.sink standard s) := turn_steady hs
      rw [e] at hsteady
      exact hsteady.1
    · have hsteady : Steady set s.stats (turn set Measure.sink standard s) := turn_steady hs
      rwa [e] at hsteady
  · rw [walk_oversize (Nat.lt_of_not_le hfit)]
    exact trivial

/-- What was counted, with all that the turns still to come could add. -/
structure Budget {inserts : Bool} (set : Sets inserts) (n : Nat) (w : State Measure) : Prop where
  deleted : w.stats.deleted + w.left ≤ n
  replaced : w.stats.replaced + w.left ≤ n
  normalized : w.stats.normalized + w.left ≤ n
  inserted : w.stats.inserted + set.rules.length * w.left ≤ set.rules.length * (n + 1)
  descended : w.stats.descended + w.left ≤ n

theorem Budget.turn {n : Nat} {w' : State Measure} (h : Budget set n w) (hs : Sound set w)
    (e : turn set Measure.sink standard w = .next w') : Budget set n w' := by
  have hsteady : Steady set w.stats (Groupless.turn set Measure.sink standard w) := turn_steady hs
  rw [e] at hsteady
  obtain ⟨-, hdeleted, hreplaced, hnormalized, hinserted, hdescended⟩ := hsteady
  have hlowers := turn_lowers e
  obtain ⟨h₁, h₂, h₃, h₄, h₅⟩ := h
  refine ⟨by omega, by omega, by omega, ?_, by omega⟩
  -- the turn's own insertions are paid for by what it lowers
  have hpaid : set.rules.length * w'.left + set.rules.length ≤ set.rules.length * w.left :=
    Nat.mul_le_mul_left _ hlowers
  omega

theorem Budget.roomy {n : Nat} (h : Budget set n w) (hn : n < 2 ^ 32)
    (hroom : set.rules.length * (n + 1) < 2 ^ 32) : Roomy set w.stats := by
  have hleft : 1 ≤ w.left := by
    simp only [Walk.left, Layer.left, List.map_cons, List.sum_cons]
    omega
  obtain ⟨h₁, h₂, h₃, h₄, h₅⟩ := h
  refine ⟨by omega, by omega, by omega, fun fired hfired => ?_, by omega⟩
  have hlength := hfired.length_le
  have hturn : set.rules.length * 1 ≤ set.rules.length * w.left := Nat.mul_le_mul_left _ hleft
  omega

theorem budget_start {m : Measure} {t : InsertStats} (hfit : input.length ≤ PayloadLen.max)
    (hheads : fireAll Measure.sink (set.rootInserts .headOf) (.new, .zero) = .ok (m, t)) :
    Budget set (2 * input.length + 1) (start set limit ⟨input, 0, 0, 0⟩ (m, t)) := by
  have hnew : Measure.new.Stands (fun _ => true) 0
      [(⟨⟨input, 0, 0, 0⟩, 0, none, 0, 0, 0, 0, limit.asInner, false⟩ : TwoPass.Layer Bool)] :=
    .root rfl hfit (Nat.zero_le _) fun _ => rfl
  obtain ⟨m', t', hfire, -, -, ht⟩ := fireAll_ok (set.rootInserts .headOf) .zero hnew
  rw [hheads] at hfire
  cases hfire
  have hleft : (start set limit ⟨input, 0, 0, 0⟩ (m, t)).left = 2 * input.length + 1 := by
    simp [Walk.left, Layer.left, start]
  have hfired : Firing set (set.rootInserts .headOf) := .inl ⟨_, rfl⟩
  have hlength := hfired.length_le
  have hinserted : t.inserted ≤ set.rules.length := by
    rw [ht]
    exact (Nat.zero_add _).trans_le hlength
  have hzero : t.deleted = 0 ∧ t.replaced = 0 ∧ t.normalized = 0 ∧ t.descended = 0 := by
    rw [ht]
    exact ⟨rfl, rfl, rfl, rfl⟩
  obtain ⟨h₁, h₂, h₃, h₄⟩ := hzero
  constructor <;> rw [hleft] <;> simp only [start]
  case inserted =>
    have hsucc : set.rules.length * (2 * input.length + 1 + 1) =
        set.rules.length * (2 * input.length + 1) + set.rules.length := Nat.mul_succ _ _
    omega
  all_goals omega

/-- In every state of the measuring pass the counts have room for the next turn. -/
theorem measure_roomy {root : Cursor} {st : Measure × InsertStats}
    (hroom : set.rules.length * (2 * input.length + 2) < 2 ^ 32)
    (hroot : Cursor.over input = some root)
    (hheads : fireAll Measure.sink (set.rootInserts .headOf) (.new, .zero) = .ok st)
    (hw : Steps (turn set Measure.sink standard) (start set limit root st) w) :
    Roomy set w.stats := by
  simp only [Cursor.over, Option.ite_none_left_eq_some, Option.some.injEq] at hroot
  obtain ⟨hfit, rfl⟩ := hroot
  have hfit : input.length ≤ 2147483647 := Nat.not_lt.mp hfit
  suffices hboth : Sound set w ∧ Budget set (2 * input.length + 1) w from
    hboth.2.roomy (by omega) hroom
  induction hw with
  | refl => exact ⟨sound_start limit hfit hheads, budget_start hfit hheads⟩
  | @tail w w' _ e ih =>
    have hsteady : Steady set w.stats (turn set Measure.sink standard w) := turn_steady ih.1
    rw [e] at hsteady
    exact ⟨hsteady.1, ih.2.turn ih.1 e⟩

/-- Where the rules times the turns stay below `2 ^ 32`, the measuring pass's counts never
overflow, and every job is accepted, or ends in a fault, the same on both faces and in both builds,
that leaves the caller's vector as it was and hands the sink nothing. -/
theorem rewrite_refuses_cleanly {inserts : Bool} (set : Sets inserts) (standard : Standard)
    (limit : DepthLimit) (input : List UInt8)
    (hroom : set.rules.length * (2 * input.length + 2) < 2 ^ 32) :
    (∀ root st w, Cursor.over input = some root →
      fireAll Measure.sink (set.rootInserts .headOf) (.new, .zero) = .ok st →
      Steps (turn set Measure.sink standard) (start set limit root st) w → Roomy set w.stats) ∧
    ((∃ bytes marks, Accepted set standard limit input bytes marks) ∨
      ∃ fault, (∀ build out, runInto standard set limit input build out = .err fault out) ∧
        ∀ build, runSink standard set limit input build = .err fault []) := by
  refine ⟨fun root st w hroot hheads hw => measure_roomy hroom hroot hheads hw, ?_⟩
  have hsafe := @measure_safe _ set standard limit input
  cases hwalk : walk set Measure.sink standard limit input .new with
  | panic | undefined =>
    rw [hwalk] at hsafe
    exact hsafe.elim
  | refused fault =>
    refine .inr ⟨fault, fun build out => ?_, fun build => ?_⟩
    · simp only [runInto, job, hwalk]
    · simp only [runSink, job, hwalk]
  | done stats measure =>
    obtain ⟨hfit, d, hd, -, rfl⟩ := measure_done hwalk
    by_cases htotal : ((rooted set d).render spell).length ≤ PayloadLen.max
    · exact .inl ⟨_, _, hfit, transformed_some.mpr ⟨d, hd, rfl, rfl⟩, htotal⟩
    · have hover := Nat.lt_of_not_le htotal
      refine .inr ⟨⟨0, [], .output ((rooted set d).render spell).length⟩, fun build out => ?_,
        fun build => ?_⟩
      · simp only [runInto, job, hwalk, Plan.new, Measure.rootTotal, List.getLastD_cons,
          List.getLastD_nil, hover, if_true]
      · simp only [runSink, job, hwalk, Plan.new, Measure.rootTotal, List.getLastD_cons,
          List.getLastD_nil, hover, if_true]

/-- A container and a varint inserted at its head. -/
theorem rewrite_refuses_cleanly_head :
    let set : Sets true := ⟨[⟨[.field ⟨1, by decide, by decide⟩],
      .insert ⟨.headOf, ⟨2, by decide, by decide⟩, .varint 0⟩⟩], by decide⟩
    let limit : DepthLimit := ⟨5, by decide, by decide⟩
    (∀ root st w, Cursor.over [0x0A, 0x00] = some root →
      fireAll Measure.sink (set.rootInserts .headOf) (.new, .zero) = .ok st →
      Steps (turn set Measure.sink .tolerant) (start set limit root st) w → Roomy set w.stats) ∧
    ((∃ bytes marks, Accepted set .tolerant limit [0x0A, 0x00] bytes marks) ∨
      ∃ fault, (∀ build out,
          runInto .tolerant set limit [0x0A, 0x00] build out = .err fault out) ∧
        ∀ build, runSink .tolerant set limit [0x0A, 0x00] build = .err fault []) :=
  rewrite_refuses_cleanly _ .tolerant _ _ (by decide)

end Safety

end ProtobufEdit.Rewrite.Groupless
