import ProtobufEdit.Splice.Sink

/-!
# The overlay mirrors the emission

`Mirrors` describes both back-ends by the open containers between them: what stands before each
prefix, the met prefix itself, and the interior so far. The buffer holds all of it; the overlay
holds it as instructions and a pending run, with a hole for a claimed prefix. Every event keeps the
two descriptions in step (`Agrees`), as long as the account stays inside the cap.
-/

namespace ProtobufEdit.Splice

open Wire Varint Base128 TwoPass

/-! ## Extents of the input -/

def extent (xs : List UInt8) (start stop : Nat) : List UInt8 := (xs.drop start).take (stop - start)

section Extents

variable {xs : List UInt8} {a b c : Nat}

@[simp] theorem extent_self : extent xs a a = [] := by simp [extent]

theorem extent_length (h : b ≤ xs.length) : (extent xs a b).length = b - a := by
  rw [extent, List.length_take, List.length_drop]
  omega

theorem extent_append (hab : a ≤ b) (hbc : b ≤ c) : extent xs a b ++ extent xs b c = extent xs a c := by
  unfold extent
  have hsplit : c - a = (b - a) + (c - b) := by omega
  have hdrop : xs.drop b = (xs.drop a).drop (b - a) := by
    rw [List.drop_drop, Nat.add_sub_cancel' hab]
  rw [hsplit, List.take_add, hdrop]

theorem extent_append_right {ys : List UInt8} (h : b ≤ xs.length) :
    extent (xs ++ ys) a b = extent xs a b := by
  unfold extent
  rw [List.drop_append, List.take_append]
  have hzero : b - a - (xs.drop a).length = 0 := by rw [List.length_drop]; omega
  rw [hzero, List.take_zero, List.append_nil]

theorem extent_of_drop {bytes rest : List UInt8} (h : xs.drop a = bytes ++ rest) :
    extent xs a (a + bytes.length) = bytes := by
  rw [extent, h, Nat.add_sub_cancel_left, List.take_left]

theorem slice_eq (hab : a ≤ b) (hb : b ≤ xs.length) : slice xs a b = some (extent xs a b) :=
  if_pos ⟨hab, hb⟩

end Extents

/-! ## The open containers -/

/-- An open container: what stands before its prefix in the enclosing interior, the met prefix and
the staged tail, and its plan state. -/
structure Nest where
  lead : List UInt8
  word : List UInt8
  tail : List UInt8
  total : Nat
  head : Nat
  tagEnd : Nat
  payloadStart : Nat
  tailAt : Nat

namespace Nest

def frame (op : Option Nat) (n : Nest) : Frame :=
  ⟨n.total, n.head, n.tagEnd, n.payloadStart, op, n.tailAt, n.tail.length⟩

/-- The bytes written: `body` inside the containers, which stand innermost first. -/
def written : List Nest → List UInt8 → List UInt8
  | [], body => body
  | n :: ns, body => written ns (n.lead ++ n.word ++ body)

def holes : List Nest → List Hole
  | [] => []
  | n :: ns =>
    ⟨(written ns n.lead).length, (written ns n.lead).length + n.word.length, n.tail.length⟩ :: holes ns

def tails : List Nest → List UInt8
  | [] => []
  | n :: ns => tails ns ++ n.tail

/-- `grow` bytes accounted into the innermost. -/
def bill (grow : Nat) : List Nest → List Nest
  | [] => []
  | n :: ns => { n with total := n.total + grow } :: ns

/-- Each interior's account is its length, the open child's tag not yet in it. -/
def Totals : List Nest → Nat → Prop
  | [], _ => True
  | n :: ns, len => n.total = len ∧
    ∃ rest, n.lead.length = rest + (n.tagEnd - n.head) ∧ Totals ns rest

/-- The container's framing stands in the input, its tail in the staging. -/
structure Stands (input staging : List UInt8) (n : Nest) : Prop where
  head_le : n.head ≤ n.tagEnd
  tagEnd_le : n.tagEnd ≤ n.payloadStart
  payloadStart_le : n.payloadStart ≤ input.length
  word : n.word = extent input n.tagEnd n.payloadStart
  tail_le : n.tailAt + n.tail.length ≤ staging.length
  tail : n.tail = extent staging n.tailAt (n.tailAt + n.tail.length)

variable {ns ms : List Nest} {n : Nest} {a b : List UInt8} {grow len : Nat}

theorem written_append : written ns (a ++ b) = written ns a ++ b := by
  induction ns generalizing a with
  | nil => rfl
  | cons n ns ih =>
    show written ns (n.lead ++ n.word ++ (a ++ b)) = _
    rw [← List.append_assoc]
    exact ih

theorem written_cons : written (n :: ns) a = written ns n.lead ++ n.word ++ a := by
  show written ns (n.lead ++ n.word ++ a) = _
  rw [List.append_assoc, written_append, List.append_assoc]

@[simp] theorem written_bill : written (bill grow ns) a = written ns a := by
  cases ns <;> rfl

@[simp] theorem holes_bill : holes (bill grow ns) = holes ns := by
  cases ns <;> rfl

@[simp] theorem tails_bill : tails (bill grow ns) = tails ns := by
  cases ns <;> rfl

theorem Totals.bill (h : Totals ns len) : Totals (bill grow ns) (len + grow) := by
  cases ns with
  | nil => trivial
  | cons n ns => exact ⟨by rw [← h.1], h.2⟩

theorem starts_bill : (bill grow ns).map payloadStart = ns.map payloadStart := by
  cases ns <;> rfl

theorem Stands.stage {input staging more : List UInt8} (h : n.Stands input staging) :
    n.Stands input (staging ++ more) := by
  refine ⟨h.head_le, h.tagEnd_le, h.payloadStart_le, h.word, ?_, ?_⟩
  · have := h.tail_le
    rw [List.length_append]
    omega
  · rw [extent_append_right h.tail_le]
    exact h.tail

theorem stands_bill {input staging : List UInt8} (h : ∀ n ∈ ns, n.Stands input staging) :
    ∀ n ∈ bill grow ns, n.Stands input staging := by
  cases ns with
  | nil => exact h
  | cons n ns =>
    intro m hm
    rcases List.mem_cons.mp hm with rfl | hm
    · have := h n List.mem_cons_self
      exact ⟨this.1, this.2, this.3, this.4, this.5, this.6⟩
    · exact h m (List.mem_cons_of_mem _ hm)

end Nest

/-! ## What the instructions spell -/

/-- The instructions spell the bytes, with no hole among them. -/
inductive Spells (input staging : List UInt8) : List Op → List UInt8 → Prop where
  | nil : Spells input staging [] []
  | cons {op : Op} {ops : List Op} {bytes rest : List UInt8} :
      op.window input staging = some bytes → Spells input staging ops rest →
      Spells input staging (op :: ops) (bytes ++ rest)

section Spells

variable {input staging more body bytes : List UInt8} {op : Op} {ops : List Op}

theorem window_stage (h : op.window input staging = some bytes) :
    op.window input (staging ++ more) = some bytes := by
  cases op with
  | src start stop => exact h
  | staged pos len =>
    have h' : slice staging pos (pos + len) = some bytes := h
    unfold slice at h'
    split at h'
    case isFalse => cases h'
    case isTrue hin =>
      cases h'
      show slice (staging ++ more) pos (pos + len) = _
      rw [slice_eq hin.1 (by rw [List.length_append]; omega), extent_append_right hin.2]
      rfl
  | word value => exact h
  | hole => cases h

theorem Spells.stage (h : Spells input staging ops body) :
    Spells input (staging ++ more) ops body := by
  induction h with
  | nil => exact .nil
  | cons hop _ ih => exact .cons (window_stage hop) ih

theorem Spells.append {ops' : List Op} {body' : List UInt8} (h : Spells input staging ops body)
    (h' : Spells input staging ops' body') :
    Spells input staging (ops ++ ops') (body ++ body') := by
  induction h with
  | nil => exact h'
  | cons hop _ ih => rw [List.append_assoc]; exact .cons hop ih

theorem Spells.single (h : op.window input staging = some bytes) :
    Spells input staging [op] bytes := by
  have := Spells.cons h (Spells.nil : Spells input staging [] [])
  rwa [List.append_nil] at this

theorem Spells.push (h : Spells input staging ops body)
    (hop : op.window input staging = some bytes) :
    Spells input staging (ops ++ [op]) (body ++ bytes) := h.append (.single hop)

/-! ## The claimed containers -/

/-- The instructions spell the claimed containers' leads around a hole each, and what the innermost
holds so far; `frames` are theirs, innermost first. -/
def Sealed (input staging : List UInt8) : List Nest → List Op → List UInt8 → List Frame → Prop
  | [], ops, body, frames => frames = [] ∧ Spells input staging ops body
  | n :: ns, ops, body, frames => ∃ outer inner frames',
      ops = outer ++ .hole :: inner ∧ frames = n.frame (some outer.length) :: frames' ∧
      Spells input staging inner body ∧ Sealed input staging ns outer n.lead frames'

variable {ns : List Nest} {n : Nest} {frames : List Frame}

theorem Sealed.stage (h : Sealed input staging ns ops body frames) :
    Sealed input (staging ++ more) ns ops body frames := by
  induction ns generalizing ops body frames with
  | nil => exact ⟨h.1, h.2.stage⟩
  | cons n ns ih =>
    obtain ⟨outer, inner, frames', hops, hframes, hinner, hrest⟩ := h
    exact ⟨outer, inner, frames', hops, hframes, hinner.stage, ih hrest⟩

theorem Sealed.push (h : Sealed input staging ns ops body frames)
    (hop : op.window input staging = some bytes) :
    Sealed input staging ns (ops ++ [op]) (body ++ bytes) frames := by
  cases ns with
  | nil => exact ⟨h.1, h.2.push hop⟩
  | cons n ns =>
    obtain ⟨outer, inner, frames', rfl, hframes, hinner, hrest⟩ := h
    exact ⟨outer, inner ++ [op], frames', by rw [List.append_assoc]; rfl, hframes,
      hinner.push hop, hrest⟩

theorem Sealed.length_eq (h : Sealed input staging ns ops body frames) :
    frames.length = ns.length := by
  induction ns generalizing ops body frames with
  | nil => rw [h.1]; rfl
  | cons n ns ih =>
    obtain ⟨outer, inner, frames', -, rfl, -, hrest⟩ := h
    rw [List.length_cons, List.length_cons, ih hrest]

/-- The innermost claimed container's hole is filled. -/
theorem Sealed.fill (h : Sealed input staging (n :: ns) ops body frames) :
    ∃ slot frames', frames = n.frame (some slot) :: frames' ∧
      ∀ (op : Op) (bytes : List UInt8), op.window input staging = some bytes →
        Sealed input staging ns (ops.set slot op) (n.lead ++ bytes ++ body) frames' := by
  obtain ⟨outer, inner, frames', rfl, rfl, hinner, hrest⟩ := h
  refine ⟨outer.length, frames', rfl, fun op bytes hop => ?_⟩
  have hset : (outer ++ Op.hole :: inner).set outer.length op = outer ++ [op] ++ inner := by
    rw [List.set_append_right _ _ le_rfl, Nat.sub_self, List.set_cons_zero, List.append_assoc]
    rfl
  rw [hset]
  have hpush := hrest.push hop
  cases ns with
  | nil => exact ⟨hpush.1, hpush.2.append hinner⟩
  | cons m ms =>
    obtain ⟨outer', inner', frames'', hops, hframes, hspells, hrest'⟩ := hpush
    exact ⟨outer', inner' ++ inner, frames'', by rw [hops, List.append_assoc]; rfl, hframes,
      hspells.append hinner, hrest'⟩

theorem Sealed.bill (grow : Nat) (h : Sealed input staging (n :: ns) ops body frames) :
    ∃ frame frames', frames = frame :: frames' ∧
      Sealed input staging (Nest.bill grow (n :: ns)) ops body
        ({ frame with total := frame.total + grow } :: frames') := by
  obtain ⟨outer, inner, frames', hops, rfl, hinner, hrest⟩ := h
  exact ⟨_, _, rfl, outer, inner, frames', hops, rfl, hinner, hrest⟩

/-! ## The clean containers and the pending run -/

/-- The pending run from `start` holds the clean containers' framing, which ends at `stop`. -/
def Rides (input settled : List UInt8) (start : Nat) : List Nest → Nat → List UInt8 → Prop
  | [], stop, body => start ≤ stop ∧ body = settled ++ extent input start stop
  | n :: ns, stop, body => n.payloadStart ≤ stop ∧ body = extent input n.payloadStart stop ∧
      Rides input settled start ns n.tagEnd n.lead

/-- The pending run behind the settled part of the innermost claimed interior. -/
def Pending (input settled : List UInt8) (run : Option (Nat × Nat)) (clean : List Nest)
    (here : Nat) (body : List UInt8) : Prop :=
  (∃ start stop, run = some (start, stop) ∧ stop ≤ input.length ∧
    Rides input settled start clean stop body ∧ (clean ≠ [] → stop = here)) ∨
  run = none ∧ clean = [] ∧ body = settled

variable {settled : List UInt8} {start stop stop' here : Nat} {run : Option (Nat × Nat)}
  {clean : List Nest}

theorem Rides.grow (h : Rides input settled start ns stop body) (hle : stop ≤ stop') :
    Rides input settled start ns stop' (body ++ extent input stop stop') := by
  cases ns with
  | nil => exact ⟨h.1.trans hle, by rw [h.2, List.append_assoc, extent_append h.1 hle]⟩
  | cons n ns => exact ⟨h.1.trans hle, by rw [h.2.1, extent_append h.1 hle], h.2.2⟩

/-- The outermost clean container's lead closes what the instructions hold. -/
theorem Rides.last (h : Rides input settled start (clean ++ [n]) stop body) :
    start ≤ n.tagEnd ∧ n.lead = settled ++ extent input start n.tagEnd ∧
      Rides input [] n.payloadStart clean stop body := by
  induction clean generalizing stop body with
  | nil => exact ⟨h.2.2.1, h.2.2.2, h.1, h.2.1⟩
  | cons m ms ih =>
    obtain ⟨hlead, hstart, hrest⟩ := ih h.2.2
    exact ⟨hlead, hstart, h.1, h.2.1, hrest⟩

theorem Rides.bill (grow : Nat) (h : Rides input settled start ns stop body) :
    Rides input settled start (Nest.bill grow ns) stop body := by
  cases ns <;> exact h

/-! ## The overlay's own events -/

variable {p : Plan} {claimed : List Nest}

/-- An overlay over the open containers: `clean` ones inside `claimed` ones, and the interior of the
innermost. -/
def Overlay (input : List UInt8) (p : Plan) (here : Nat) (clean claimed : List Nest)
    (body : List UInt8) : Prop :=
  ∃ settled frames, p.frames = (clean.map (Nest.frame none) ++ frames).reverse ∧
    Sealed input p.staging claimed p.ops settled frames ∧
    Pending input settled p.run clean here body

/-- What the overlay's inner events leave alone. -/
def Keeps (p p' : Plan) : Prop :=
  p'.input = p.input ∧ p'.staging = p.staging ∧ p'.total = p.total

theorem Keeps.trans {p' p'' : Plan} (h : Keeps p p') (h' : Keeps p' p'') : Keeps p p'' :=
  ⟨h'.1.trans h.1, h'.2.1.trans h.2.1, h'.2.2.trans h.2.2⟩

theorem src_window {a b : Nat} (hab : a ≤ b) (hb : b ≤ input.length) :
    (Op.src a b).window input staging = some (extent input a b) := slice_eq hab hb

/-- Claims take the clean containers' prefixes out of the run, outermost first. -/
theorem claims_overlay (here : Nat) (hframes : p.frames = (clean.map (Nest.frame none) ++ frames).reverse)
    (hsealed : Sealed input p.staging claimed p.ops settled frames)
    (hrun : p.run = some (start, stop)) (hstop : stop ≤ input.length)
    (hstands : ∀ n ∈ clean, n.Stands input p.staging)
    (h : Rides input settled start clean stop body) :
    ∃ settled' frames', Keeps p (Plan.claims frames.length clean.length p) ∧
      (Plan.claims frames.length clean.length p).frames = frames'.reverse ∧
      Sealed input p.staging (clean ++ claimed) (Plan.claims frames.length clean.length p).ops
        settled' frames' ∧
      Pending input settled' (Plan.claims frames.length clean.length p).run [] here body := by
  induction clean using List.reverseRecOn generalizing p claimed settled start frames with
  | nil =>
    exact ⟨settled, frames, ⟨rfl, rfl, rfl⟩, hframes, hsealed,
      .inl ⟨start, stop, hrun, hstop, h, fun hne => absurd rfl hne⟩⟩
  | append_singleton clean n ih =>
    obtain ⟨hstart, hlead, hrest⟩ := h.last
    have hn := hstands n (List.mem_append_right _ List.mem_cons_self)
    have hle : n.tagEnd ≤ input.length := hn.tagEnd_le.trans hn.payloadStart_le
    have hsplit : p.frames
        = frames.reverse ++ n.frame none :: (clean.map (Nest.frame none)).reverse := by
      rw [hframes]
      simp only [List.map_append, List.map_cons, List.map_nil, List.reverse_append,
        List.reverse_cons, List.reverse_nil, List.nil_append, List.cons_append]
    have hget : p.frames[frames.length]? = some (n.frame none) := by
      rw [hsplit, List.getElem?_append_right (by rw [List.length_reverse]), List.length_reverse,
        Nat.sub_self]
      rfl
    -- what the run holds before the prefix becomes an instruction of its own
    set ops := if start < n.tagEnd then p.ops ++ [.src start n.tagEnd] else p.ops with hops
    have hops' : Sealed input p.staging claimed ops n.lead frames := by
      rw [hops, hlead]
      split
      · exact hsealed.push (src_window hstart hle)
      · have : start = n.tagEnd := by omega
        rw [this, extent_self, List.append_nil]
        exact hsealed
    have hclaim : p.claim frames.length = { p with
        ops := ops ++ [.hole]
        frames := ((clean.map (Nest.frame none)) ++ n.frame (some ops.length) :: frames).reverse
        run := some (n.payloadStart, stop) } := by
      have hset : p.frames.set frames.length { n.frame none with op := some ops.length }
          = ((clean.map (Nest.frame none)) ++ n.frame (some ops.length) :: frames).reverse := by
        rw [hsplit, List.set_append_right _ _ (by rw [List.length_reverse]), List.length_reverse,
          Nat.sub_self, List.set_cons_zero]
        simp only [List.reverse_append, List.reverse_cons, List.append_assoc, List.cons_append,
          List.nil_append]
        rfl
      unfold Plan.claim
      rw [hget, hrun]
      show ({ p with
        ops := ops ++ [.hole]
        frames := p.frames.set frames.length { n.frame none with op := some ops.length }
        run := some (n.payloadStart, stop) } : Plan) = _
      rw [hset]
    have hstep : Plan.claims frames.length (clean ++ [n]).length p
        = Plan.claims (n.frame (some ops.length) :: frames).length clean.length
          (p.claim frames.length) := by
      rw [List.length_append]
      rfl
    rw [hstep, hclaim]
    have hsealed' : Sealed input p.staging (n :: claimed) (ops ++ [.hole]) []
        (n.frame (some ops.length) :: frames) := ⟨ops, [], frames, rfl, rfl, .nil, hops'⟩
    obtain ⟨settled', frames', hkeeps, hf, hs, hp⟩ := ih (p := { p with
        ops := ops ++ [.hole]
        frames := ((clean.map (Nest.frame none)) ++ n.frame (some ops.length) :: frames).reverse
        run := some (n.payloadStart, stop) }) rfl hsealed' rfl
      (fun m hm => hstands m (List.mem_append_left _ hm)) hrest
    refine ⟨settled', frames', ⟨hkeeps.1, hkeeps.2.1, hkeeps.2.2⟩, hf, ?_, hp⟩
    rw [List.append_assoc]
    exact hs

/-- Every open container stands claimed. -/
theorem materialize_overlay (h : Overlay input p here clean claimed body)
    (hclaimed : p.claimed = claimed.length) (hstands : ∀ n ∈ clean, n.Stands input p.staging)
    (here' : Nat) :
    Overlay input p.materialize here' [] (clean ++ claimed) body ∧
      p.materialize.claimed = (clean ++ claimed).length ∧ Keeps p p.materialize := by
  obtain ⟨settled, frames, hframes, hsealed, hpending⟩ := h
  have hlen : p.frames.length = clean.length + frames.length := by
    rw [hframes, List.length_reverse, List.length_append, List.length_map]
  have hcount : p.frames.length - p.claimed = clean.length := by
    rw [hlen, hclaimed, hsealed.length_eq, Nat.add_sub_cancel_right]
  have hall : p.frames.length = (clean ++ claimed).length := by
    rw [hlen, hsealed.length_eq, List.length_append]
  have hmat : p.materialize
      = { Plan.claims frames.length clean.length p with claimed := p.frames.length } := by
    unfold Plan.materialize
    rw [hcount, hclaimed, ← hsealed.length_eq]
  rw [hmat]
  rcases hpending with ⟨start, stop, hrun, hstop, hrides, -⟩ | ⟨hrun, rfl, rfl⟩
  · obtain ⟨settled', frames', hkeeps, hf, hs, hp⟩ :=
      claims_overlay here' hframes hsealed hrun hstop hstands hrides
    refine ⟨⟨settled', frames', hf, ?_, hp⟩, hall, hkeeps⟩
    show Sealed input (Plan.claims frames.length clean.length p).staging _ _ _ _
    rw [hkeeps.2.1]
    exact hs
  · exact ⟨⟨body, frames, hframes, hsealed, .inr ⟨hrun, rfl, rfl⟩⟩, hall, rfl, rfl, rfl⟩

/-- The pending run becomes an instruction. -/
theorem flush_sealed (hsealed : Sealed input p.staging claimed p.ops settled frames)
    (hpending : Pending input settled p.run [] here body) :
    Sealed input p.staging claimed p.flush.ops body frames ∧ p.flush.run = none ∧
      p.flush.frames = p.frames ∧ p.flush.claimed = p.claimed ∧ Keeps p p.flush := by
  unfold Plan.flush
  rcases hpending with ⟨start, stop, hrun, hstop, ⟨hle, rfl⟩, -⟩ | ⟨hrun, -, rfl⟩
  · rw [hrun]
    simp only
    split
    case isTrue =>
      exact ⟨hsealed.push (src_window hle hstop), rfl, rfl, rfl, rfl, rfl, rfl⟩
    case isFalse =>
      have : start = stop := by omega
      rw [this, extent_self, List.append_nil]
      exact ⟨hsealed, rfl, rfl, rfl, rfl, rfl, rfl⟩
  · rw [hrun]
    exact ⟨hsealed, hrun, rfl, rfl, rfl, rfl, rfl⟩

theorem flush_overlay (h : Overlay input p here [] claimed body) :
    ∃ frames, p.flush.frames = frames.reverse ∧
      Sealed input p.staging claimed p.flush.ops body frames ∧ p.flush.run = none ∧
      p.flush.claimed = p.claimed ∧ Keeps p p.flush := by
  obtain ⟨settled, frames, hframes, hsealed, hpending⟩ := h
  obtain ⟨hsealed', hrun, hframes', hclaimed, hkeeps⟩ := flush_sealed hsealed hpending
  exact ⟨frames, hframes'.trans hframes, hsealed', hrun, hclaimed, hkeeps⟩

/-- A ridden extent joins the pending run, or starts one. -/
theorem ride_overlay (h : Overlay input p start clean claimed body) (stop : Nat) :
    ∃ settled frames start',
      (p.ride start stop).frames = (clean.map (Nest.frame none) ++ frames).reverse ∧
      Sealed input p.staging claimed (p.ride start stop).ops settled frames ∧
      (p.ride start stop).run = some (start', stop) ∧
      (∀ stop', start ≤ stop' →
        Rides input settled start' clean stop' (body ++ extent input start stop')) ∧
      (p.ride start stop).claimed = p.claimed ∧ Keeps p (p.ride start stop) := by
  have hflush (hc : clean = []) : ∃ frames,
      ({ p.flush with run := some (start, stop) } : Plan).frames
        = (clean.map (Nest.frame none) ++ frames).reverse ∧
      Sealed input p.staging claimed p.flush.ops body frames ∧
      p.flush.claimed = p.claimed ∧ Keeps p p.flush := by
    subst hc
    obtain ⟨frames, hframes, hsealed, -, hclaimed, hkeeps⟩ := flush_overlay h
    exact ⟨frames, hframes, hsealed, hclaimed, hkeeps⟩
  obtain ⟨settled, frames, hframes, hsealed, hpending⟩ := h
  rcases hpending with ⟨start', last, hrun, hlast, hrides, hhere⟩ | ⟨hrun, rfl, rfl⟩
  · unfold Plan.ride
    rw [hrun]
    simp only
    by_cases hmeets : last = start
    · rw [if_pos hmeets]
      subst hmeets
      exact ⟨settled, frames, start', hframes, hsealed, rfl, fun _ => hrides.grow, rfl, rfl, rfl,
        rfl⟩
    · rw [if_neg hmeets]
      have hc : clean = [] := by
        by_contra hne
        exact hmeets (hhere hne)
      obtain ⟨frames', hframes', hsealed', hclaimed, hkeeps⟩ := hflush hc
      subst hc
      exact ⟨body, frames', start, hframes', hsealed', rfl,
        fun stop' hle' => ⟨hle', rfl⟩, hclaimed, hkeeps⟩
  · unfold Plan.ride
    rw [hrun]
    exact ⟨body, frames, start, hframes, hsealed, rfl, fun stop' hle' => ⟨hle', rfl⟩, rfl, rfl,
      rfl, rfl⟩

/-- An account goes to the innermost open container. -/
theorem account_overlay (grow : Nat) (h : Overlay input p here clean claimed body) :
    ∃ clean' claimed', clean' ++ claimed' = Nest.bill grow (clean ++ claimed) ∧
      claimed'.length = claimed.length ∧ (p.account grow).claimed = p.claimed ∧
      Overlay input (p.account grow) here clean' claimed' body ∧ Keeps p (p.account grow) := by
  obtain ⟨settled, frames, hframes, hsealed, hpending⟩ := h
  cases clean with
  | cons n ns =>
    have hlast : p.frames.getLast? = some (n.frame none) := by
      rw [hframes, List.getLast?_reverse]
      rfl
    have hinit : p.frames.dropLast = (ns.map (Nest.frame none) ++ frames).reverse := by
      rw [hframes, List.dropLast_reverse]
      rfl
    have haccount : p.account grow = { p with
        frames := ((Nest.bill grow (n :: ns)).map (Nest.frame none) ++ frames).reverse } := by
      unfold Plan.account
      rw [hlast]
      simp only [hinit]
      simp only [Nest.bill, List.map_cons, List.cons_append, List.reverse_cons]
      rfl
    refine ⟨Nest.bill grow (n :: ns), claimed, rfl, rfl, by rw [haccount], ?_, ?_⟩
    · rw [haccount]
      refine ⟨settled, frames, rfl, hsealed, ?_⟩
      rcases hpending with ⟨start, stop, hrun, hstop, hrides, hhere⟩ | ⟨-, hc, -⟩
      · exact .inl ⟨start, stop, hrun, hstop, hrides.bill grow, fun _ => hhere (by simp)⟩
      · cases hc
    · rw [haccount]
      exact ⟨rfl, rfl, rfl⟩
  | nil =>
    cases claimed with
    | nil =>
      have hempty : p.frames = [] := by
        rw [hframes, hsealed.1]
        rfl
      have haccount : p.account grow = p := by
        unfold Plan.account
        rw [hempty]
        rfl
      rw [haccount]
      exact ⟨[], [], rfl, rfl, rfl, ⟨settled, frames, hframes, hsealed, hpending⟩, rfl, rfl, rfl⟩
    | cons n ns =>
      obtain ⟨frame, frames', rfl, hsealed'⟩ := hsealed.bill grow
      have hlast : p.frames.getLast? = some frame := by
        rw [hframes, List.getLast?_reverse]
        rfl
      have hinit : p.frames.dropLast = frames'.reverse := by
        rw [hframes, List.dropLast_reverse]
        rfl
      have haccount : p.account grow = { p with
          frames := ({ frame with total := frame.total + grow } :: frames').reverse } := by
        unfold Plan.account
        rw [hlast]
        simp only [hinit]
        simp only [List.reverse_cons]
      refine ⟨[], Nest.bill grow (n :: ns), rfl, rfl, by rw [haccount], ?_, ?_⟩
      · rw [haccount]
        exact ⟨settled, _, rfl, hsealed', hpending⟩
      · rw [haccount]
        exact ⟨rfl, rfl, rfl⟩

end Spells

/-! ## The buffer's cap -/

/-- An event comes to `e` exactly where `e` stays inside the cap. -/
def Judges (d : Did Emit) (e : Emit) : Prop :=
  (e.rel ≤ PayloadLen.max → d = (.ok (), e)) ∧
    (PayloadLen.max < e.rel → ∃ len b, d = (.error (.outgrown len), b))

section Judges

variable {input before written tails pre word body staged : List UInt8} {holes : List Hole}

theorem Judges.andThen {d : Did Emit} {e e' : Emit} {f : Emit → Did Emit} (h : Judges d e)
    (hle : e.rel ≤ e'.rel) (hf : e.rel ≤ PayloadLen.max → Judges (f e) e') :
    Judges (d.andThen f) e' := by
  refine ⟨fun hin => ?_, fun hout => ?_⟩
  · rw [h.1 (hle.trans hin)]
    exact (hf (hle.trans hin)).1 hin
  · rcases Nat.lt_or_ge PayloadLen.max e.rel with hlt | hge
    · obtain ⟨len, b, hd⟩ := h.2 hlt
      rw [hd]
      exact ⟨len, b, rfl⟩
    · rw [h.1 hge]
      exact (hf hge).2 hout

theorem append_judges (bytes : List UInt8) :
    Judges ((Emit.wrote input before written holes tails).append bytes)
      (.wrote input before (written ++ bytes) holes tails) := by
  have hrel : (Emit.wrote input before written holes tails).rel = written.length := Emit.rel_wrote
  refine ⟨fun hin => ?_, fun hout => ?_⟩
  · rw [Emit.rel_wrote, List.length_append] at hin
    unfold Emit.append Emit.admitGrow
    rw [hrel, if_neg (by omega)]
    simp only [Emit.wrote, List.append_assoc]
  · rw [Emit.rel_wrote, List.length_append] at hout
    unfold Emit.append Emit.admitGrow
    rw [hrel, if_pos hout]
    exact ⟨_, _, rfl⟩

theorem verbatim_judges {start stop : Nat} (hle : start ≤ stop) (hin : stop ≤ input.length) :
    Judges ((Emit.wrote input before written holes tails).verbatim start stop)
      (.wrote input before (written ++ extent input start stop) holes tails) := by
  unfold Emit.verbatim
  rw [if_pos ⟨hle, hin⟩]
  exact append_judges _

theorem commit_judges {head tagEnd payloadStart : Nat} (tail : Option (List UInt8))
    (hhead : head ≤ tagEnd) (htag : tagEnd ≤ payloadStart) (hin : payloadStart ≤ input.length) :
    Judges ((Emit.wrote input before written holes tails).commit head tagEnd payloadStart tail)
      (.wrote input before (written ++ extent input head tagEnd ++ extent input tagEnd payloadStart)
        (⟨(written ++ extent input head tagEnd).length,
          (written ++ extent input head tagEnd ++ extent input tagEnd payloadStart).length,
          (tail.getD []).length⟩ :: holes) (tails ++ tail.getD [])) := by
  refine (verbatim_judges hhead (htag.trans hin)).andThen ?_ fun _ => ?_
  · simp only [Emit.rel_wrote, List.length_append]
    omega
  · refine (verbatim_judges htag hin).andThen ?_ fun hcap => ?_
    · simp only [Emit.rel_wrote]
      exact le_rfl
    · rw [Emit.rel_wrote] at hcap
      refine ⟨fun _ => ?_, fun hout => ?_⟩
      · simp only [Emit.rel_wrote]
        rfl
      · rw [Emit.rel_wrote] at hout
        omega

/-- The settle fails only where the settled emission passes the cap. -/
theorem settle_outgrown {oldLen tailLen : Nat} {trap : Trap} {b : Emit}
    (hcap : (pre ++ word ++ body).length ≤ PayloadLen.max)
    (h : (Emit.wrote input before (pre ++ word ++ body) holes tails).settle oldLen
      ⟨pre.length, pre.length + word.length, tailLen⟩ = (.error trap, b)) :
    PayloadLen.max < (pre ++ settledPrefix word oldLen body.length ++ body).length := by
  have hlen : (pre ++ word ++ body).length = pre.length + word.length + body.length := by
    simp only [List.length_append]
  have hnew : body.length < 2 ^ 32 := by rw [PayloadLen.max] at hcap; omega
  have hneed : encodedLen32 body.length = (minimal body.length).length := by
    rw [encodedLen32_eq hnew, minimal_length]
  unfold Emit.settle at h
  simp only [Emit.rel_wrote] at h
  rw [if_neg (by omega), hlen, Nat.add_sub_cancel_left] at h
  unfold settledPrefix
  split at h
  case isTrue => cases h
  case isFalse hne =>
    rw [if_neg hne]
    split at h
    case isTrue => cases h
    case isFalse =>
      split at h
      case isTrue hgrow =>
        split at h
        case h_1 trap' hadmit =>
          unfold Emit.admitGrow at hadmit
          split at hadmit
          case isTrue hover =>
            rw [Emit.rel_wrote, hlen] at hover
            simp only [List.length_append]
            omega
          case isFalse => cases hadmit
        case h_2 => cases h
      case isFalse => cases h

theorem land_fits (hcap : written.length + staged.length ≤ PayloadLen.max) :
    (Emit.wrote input before written holes (tails ++ staged)).land staged.length
      = (.ok (), .wrote input before (written ++ staged) holes tails) := by
  rcases (Emit.land_comes (by omega) : Emit.Comes before
    ((Emit.wrote input before written holes (tails ++ staged)).land staged.length) _)
    with ⟨hd, -⟩ | ⟨len, b, hd, -⟩
  · exact hd
  · exfalso
    unfold Emit.land at hd
    split at hd
    case isFalse => cases hd
    case isTrue =>
      split at hd
      case isTrue => cases hd
      case isFalse =>
        simp only at hd
        split at hd
        case h_1 trap hadmit =>
          unfold Emit.admitGrow at hadmit
          rw [Emit.rel_wrote, if_neg (by omega)] at hadmit
          cases hadmit
        case h_2 => cases hd

/-- A close fails exactly where the settled emission passes the cap, once the tail fits. -/
theorem close_judges {oldLen : Nat}
    (hcap : (pre ++ word ++ body).length + staged.length ≤ PayloadLen.max) :
    Judges
      ((Emit.wrote input before (pre ++ word ++ body)
        (⟨pre.length, pre.length + word.length, staged.length⟩ :: holes) (tails ++ staged)).close
          oldLen)
      (.wrote input before
        (pre ++ settledPrefix word oldLen (body ++ staged).length ++ (body ++ staged))
        holes tails) := by
  have hcomes := @Emit.close_comes input before tails pre word holes body staged oldLen (by omega)
  refine ⟨fun hin => ?_, fun hout => ?_⟩
  · rcases hcomes with ⟨hd, -⟩ | ⟨len, b, hd, -⟩
    · exact hd
    · exfalso
      have hland : (Emit.wrote input before (pre ++ word ++ body) holes (tails ++ staged)).land
          staged.length
          = (.ok (), .wrote input before (pre ++ word ++ (body ++ staged)) holes tails) := by
        rw [← List.append_assoc]
        exact land_fits hcap
      have hclose : (Emit.wrote input before (pre ++ word ++ body)
          (⟨pre.length, pre.length + word.length, staged.length⟩ :: holes)
          (tails ++ staged)).close oldLen
          = (Emit.wrote input before (pre ++ word ++ (body ++ staged)) holes tails).settle oldLen
            ⟨pre.length, pre.length + word.length, staged.length⟩ := by
        show ((Emit.wrote input before (pre ++ word ++ body) holes (tails ++ staged)).land
          staged.length).andThen _ = _
        rw [hland]
        rfl
      rw [hclose] at hd
      have hbig := settle_outgrown (by simp only [List.length_append] at hcap ⊢; omega) hd
      rw [Emit.rel_wrote] at hin
      omega
  · rcases hcomes with ⟨-, hin⟩ | ⟨len, b, hd, -⟩
    · omega
    · exact ⟨len, b, hd⟩

end Judges

/-! ## The two descriptions in step -/

/-- The buffer and the overlay hold the same open containers around the same interior. The account
is what the buffer holds and every tail still to come. -/
structure Mirrors (input before : List UInt8) (here : Nat) (ns : List Nest) (body : List UInt8)
    (e : Emit) (p : Plan) : Prop where
  emission : e = .wrote input before (Nest.written ns body) (Nest.holes ns) (Nest.tails ns)
  source : p.input = input
  overlay : ∃ clean claimed, clean ++ claimed = ns ∧ p.claimed = claimed.length ∧
    Overlay input p here clean claimed body
  stands : ∀ n ∈ ns, n.Stands input p.staging
  totals : Nest.Totals ns body.length
  total : p.total = (Nest.written ns body).length + (Nest.tails ns).length
  cap : p.total ≤ PayloadLen.max

/-- The back-ends are in step over containers that start at `starts`, with no tail to come where
`quiet`. -/
def Holds (input before : List UInt8) (quiet : Prop) (starts : List Nat) (here : Nat) (e : Emit)
    (p : Plan) : Prop :=
  ∃ ns body, Mirrors input before here ns body e p ∧ ns.map Nest.payloadStart = starts ∧
    (quiet → Nest.tails ns = [])

/-- An event succeeds on both and keeps them in step, or the overlay refuses it past the cap; where
no tail is to come the buffer refuses it too. -/
def Agrees (input before : List UInt8) (quiet : Prop) (starts : List Nat) (here : Nat)
    (d : Did Emit) (d' : Did Plan) : Prop :=
  (∃ e p, d = (.ok (), e) ∧ d' = (.ok (), p) ∧ Holds input before quiet starts here e p) ∨
    ∃ len p, d' = (.error (.outgrown len), p) ∧
      (quiet → ∃ len' b, d = (.error (.outgrown len'), b))

section Agrees

variable {input before : List UInt8} {quiet : Prop} {starts starts' : List Nat}
  {here here' : Nat} {d : Did Emit} {d' : Did Plan} {e e' : Emit} {p : Plan}
  {ns : List Nest} {body : List UInt8}

theorem Agrees.andThen {f : Emit → Did Emit} {f' : Plan → Did Plan}
    (h : Agrees input before quiet starts here d d')
    (hf : ∀ e p, Holds input before quiet starts here e p →
      Agrees input before quiet starts' here' (f e) (f' p)) :
    Agrees input before quiet starts' here' (d.andThen f) (d'.andThen f') := by
  rcases h with ⟨e, p, rfl, rfl, h⟩ | ⟨len, p, rfl, hq⟩
  · exact hf e p h
  · refine .inr ⟨len, p, rfl, fun hquiet => ?_⟩
    obtain ⟨len', b, rfl⟩ := hq hquiet
    exact ⟨len', b, rfl⟩

theorem Mirrors.rel (h : Mirrors input before here ns body e p) :
    p.total = e.rel + (Nest.tails ns).length := by
  rw [h.emission, Emit.rel_wrote, h.total]

/-- An event judged on the buffer, against what the overlay makes of it. -/
theorem Judges.agrees (hd : Judges d e')
    (h : (∃ p, d' = (.ok (), p) ∧ Holds input before quiet starts here e' p) ∨
      ∃ len p, d' = (.error (.outgrown len), p) ∧ (quiet → PayloadLen.max < e'.rel)) :
    Agrees input before quiet starts here d d' := by
  rcases h with ⟨p, rfl, ns, body, hm, hrest⟩ | ⟨len, p, rfl, hq⟩
  · have hrel := hm.rel
    have hcap := hm.cap
    exact .inl ⟨e', p, hd.1 (by omega), rfl, ns, body, hm, hrest⟩
  · exact .inr ⟨len, p, rfl, fun hquiet => hd.2 (hq hquiet)⟩

theorem admitGrow_andThen (p : Plan) (grow : Nat) (f : Plan → Did Plan) :
    (p.admitGrow grow).andThen f = if p.total + grow > PayloadLen.max then
      (.error (.outgrown (p.total + grow)), p) else f { p with total := p.total + grow } := by
  unfold Plan.admitGrow
  split <;> rfl

/-- An overlay whose last emission is still to be accounted. -/
structure Owes (input : List UInt8) (here grow : Nat) (ns : List Nest) (body : List UInt8)
    (p : Plan) : Prop where
  source : p.input = input
  overlay : ∃ clean claimed, clean ++ claimed = ns ∧ p.claimed = claimed.length ∧
    Overlay input p here clean claimed body
  stands : ∀ n ∈ ns, n.Stands input p.staging
  totals : ∃ rest, body.length = rest + grow ∧ Nest.Totals ns rest
  total : p.total = (Nest.written ns body).length + (Nest.tails ns).length
  cap : p.total ≤ PayloadLen.max

theorem Owes.holds {grow : Nat} (h : Owes input here grow ns body p)
    (hstarts : ns.map Nest.payloadStart = starts) (hquiet : quiet → Nest.tails ns = []) :
    Holds input before quiet starts here
      (.wrote input before (Nest.written ns body) (Nest.holes ns) (Nest.tails ns))
      (p.account grow) := by
  obtain ⟨clean, claimed, rfl, hclaimed, hover⟩ := h.overlay
  obtain ⟨rest, hrest, htotals⟩ := h.totals
  obtain ⟨clean', claimed', hns', hlen', hclaimed', hover', hkeeps⟩ := account_overlay grow hover
  refine ⟨Nest.bill grow (clean ++ claimed), body, ?_, ?_, ?_⟩
  · refine ⟨by simp only [Nest.written_bill, Nest.holes_bill, Nest.tails_bill],
      hkeeps.1.trans h.source, ⟨clean', claimed', hns', ?_, hover'⟩, ?_, ?_, ?_, ?_⟩
    · rw [hclaimed', hlen']
      exact hclaimed
    · rw [hkeeps.2.1]
      exact Nest.stands_bill h.stands
    · rw [hrest]
      exact htotals.bill
    · rw [hkeeps.2.2, Nest.written_bill, Nest.tails_bill]
      exact h.total
    · rw [hkeeps.2.2]
      exact h.cap
  · rw [Nest.starts_bill, hstarts]
  · rw [Nest.tails_bill]
    exact hquiet

theorem verbatim_agrees {start stop : Nat} (h : Holds input before quiet starts start e p)
    (hle : start ≤ stop) (hin : stop ≤ input.length) :
    Agrees input before quiet starts stop (e.verbatim start stop) (p.verbatim start stop) := by
  obtain ⟨ns, body, hm, hstarts, hquiet⟩ := h
  obtain rfl := hm.emission
  have hlen : (Nest.written ns (body ++ extent input start stop)).length
      = (Nest.written ns body).length + (stop - start) := by
    rw [Nest.written_append, List.length_append, extent_length hin]
  have htotal := hm.total
  refine (verbatim_judges hle hin).agrees ?_
  rw [← Nest.written_append]
  unfold Plan.verbatim
  rw [admitGrow_andThen]
  split
  case isTrue hover =>
    refine .inr ⟨_, _, rfl, fun hq => ?_⟩
    rw [hquiet hq, List.length_nil] at htotal
    rw [Emit.rel_wrote]
    omega
  case isFalse hfits =>
    refine .inl ⟨_, rfl, Owes.holds ?_ hstarts hquiet⟩
    obtain ⟨clean, claimed, hns, hclaimed, hover⟩ := hm.overlay
    have hover' : Overlay input { p with total := p.total + (stop - start) } start clean claimed
        body := hover
    obtain ⟨settled, frames, start', hframes, hsealed, hrun, hrides, hclaimed', hkeeps⟩ :=
      ride_overlay hover' stop
    have hridden : Overlay input (Plan.ride start stop { p with total := p.total + (stop - start) })
        stop clean claimed (body ++ extent input start stop) :=
      ⟨settled, frames, hframes, by rw [hkeeps.2.1]; exact hsealed,
        .inl ⟨start', stop, hrun, hin, hrides stop hle, fun _ => rfl⟩⟩
    refine ⟨hkeeps.1.trans hm.source, ⟨clean, claimed, hns, hclaimed'.trans hclaimed, hridden⟩, ?_,
      ⟨body.length, by rw [List.length_append, extent_length hin], hm.totals⟩, ?_, ?_⟩
    · rw [hkeeps.2.1]
      exact hm.stands
    · rw [hkeeps.2.2, hlen]
      show p.total + (stop - start) = _
      omega
    · rw [hkeeps.2.2]
      show p.total + (stop - start) ≤ _
      omega

/-- An authored emission; where the walk stands is free behind it. -/
theorem edit_agrees (h : Holds input before quiet starts here e p) (bytes : List UInt8)
    (here' : Nat) :
    Agrees input before quiet starts here' (e.append bytes) (p.edit bytes) := by
  obtain ⟨ns, body, hm, hstarts, hquiet⟩ := h
  obtain rfl := hm.emission
  have hlen : (Nest.written ns (body ++ bytes)).length
      = (Nest.written ns body).length + bytes.length := by
    rw [Nest.written_append, List.length_append]
  have htotal := hm.total
  refine (append_judges bytes).agrees ?_
  rw [← Nest.written_append]
  unfold Plan.edit
  rw [admitGrow_andThen]
  split
  case isTrue hover =>
    refine .inr ⟨_, _, rfl, fun hq => ?_⟩
    rw [hquiet hq, List.length_nil] at htotal
    rw [Emit.rel_wrote]
    omega
  case isFalse hfits =>
    refine .inl ⟨_, rfl, Owes.holds ?_ hstarts hquiet⟩
    obtain ⟨clean, claimed, rfl, hclaimed, hover⟩ := hm.overlay
    have hover' : Overlay input { p with total := p.total + bytes.length } here clean claimed
        body := hover
    obtain ⟨hmat, hmatclaimed, hmatkeeps⟩ := materialize_overlay hover' hclaimed
      (fun n hn => hm.stands n (List.mem_append_left _ hn)) here'
    obtain ⟨frames, hframes, hsealed, hrun, hflushclaimed, hflushkeeps⟩ := flush_overlay hmat
    have hk := hmatkeeps.trans hflushkeeps
    have hsame := hk.2.1
    set q := (Plan.materialize { p with total := p.total + bytes.length }).flush with hq
    have hstaged : (Op.staged q.staging.length bytes.length).window input (q.staging ++ bytes)
        = some bytes := by
      show slice (q.staging ++ bytes) q.staging.length (q.staging.length + bytes.length) = _
      rw [slice_eq (Nat.le_add_right _ _) (by rw [List.length_append]), extent_of_drop]
      rw [List.drop_left, List.append_nil]
    have hpushed : Overlay input { q with
        staging := q.staging ++ bytes
        ops := q.ops ++ [.staged q.staging.length bytes.length] } here' [] (clean ++ claimed)
        (body ++ bytes) := by
      refine ⟨body ++ bytes, frames, hframes, ?_, .inr ⟨hrun, rfl, rfl⟩⟩
      rw [hmatkeeps.2.1] at hsealed
      show Sealed input (q.staging ++ bytes) _ _ _ _
      rw [hsame] at hstaged ⊢
      exact hsealed.stage.push hstaged
    refine ⟨hk.1.trans hm.source, ⟨[], clean ++ claimed, rfl, hflushclaimed.trans hmatclaimed,
      hpushed⟩, ?_, ⟨body.length, List.length_append, hm.totals⟩, ?_, ?_⟩
    · intro n hn
      show n.Stands input (q.staging ++ bytes)
      rw [hsame]
      exact (hm.stands n hn).stage
    · show q.total = _
      rw [hk.2.2, hlen]
      show p.total + bytes.length = _
      omega
    · show q.total ≤ _
      rw [hk.2.2]
      show p.total + bytes.length ≤ _
      omega

/-- Every open container claimed, the two stay in step; where the walk stands is free then. -/
theorem Mirrors.materialize (h : Mirrors input before here ns body e p) (here' : Nat) :
    Mirrors input before here' ns body e p.materialize ∧ p.materialize.claimed = ns.length ∧
      Overlay input p.materialize here' [] ns body := by
  obtain ⟨clean, claimed, rfl, hclaimed, hover⟩ := h.overlay
  obtain ⟨hmat, hmatclaimed, hkeeps⟩ := materialize_overlay hover hclaimed
    (fun n hn => h.stands n (List.mem_append_left _ hn)) here'
  refine ⟨⟨h.emission, hkeeps.1.trans h.source, ⟨[], clean ++ claimed, rfl, hmatclaimed, hmat⟩, ?_,
    h.totals, ?_, ?_⟩, hmatclaimed, hmat⟩
  · rw [hkeeps.2.1]
    exact h.stands
  · rw [hkeeps.2.2]
    exact h.total
  · rw [hkeeps.2.2]
    exact h.cap

theorem dirty_holds (h : Holds input before quiet starts here e p) (here' : Nat) :
    Holds input before quiet starts here' e p.dirty := by
  obtain ⟨ns, body, hm, hrest⟩ := h
  exact ⟨ns, body, (hm.materialize here').1, hrest⟩

/-- What a commit comes to once both its accounts are taken and its tail is staged. -/
theorem opens_holds {head tagEnd payloadStart : Nat} {tail : List UInt8} {tailAt : Nat}
    {q : Plan} (more : List UInt8) (hm : Mirrors input before head ns body e p)
    (hstarts : ns.map Nest.payloadStart = starts) (hquiet : quiet → Nest.tails ns = [])
    (hhead : head ≤ tagEnd) (htag : tagEnd ≤ payloadStart) (hin : payloadStart ≤ input.length)
    (hq : q = { p with
      total := p.total + (payloadStart - head) + tail.length, staging := p.staging ++ more })
    (htail : tailAt + tail.length ≤ (p.staging ++ more).length)
    (hspell : tail = extent (p.staging ++ more) tailAt (tailAt + tail.length))
    (hcap : p.total + (payloadStart - head) + tail.length ≤ PayloadLen.max)
    (htailless : quiet → tail = []) :
    Holds input before quiet (payloadStart :: starts) payloadStart
      (.wrote input before
        (Nest.written ns body ++ extent input head tagEnd ++ extent input tagEnd payloadStart)
        (⟨(Nest.written ns body ++ extent input head tagEnd).length,
          (Nest.written ns body ++ extent input head tagEnd
            ++ extent input tagEnd payloadStart).length, tail.length⟩ :: Nest.holes ns)
        (Nest.tails ns ++ tail))
      { q.ride head payloadStart with
        frames := (q.ride head payloadStart).frames ++
          [⟨0, head, tagEnd, payloadStart, none, tailAt, tail.length⟩] } := by
  obtain ⟨clean, claimed, rfl, hclaimed, hover⟩ := hm.overlay
  set n : Nest := ⟨body ++ extent input head tagEnd, extent input tagEnd payloadStart, tail, 0, head,
    tagEnd, payloadStart, tailAt⟩ with hn
  have hoverq : Overlay input q head clean claimed body := by
    obtain ⟨settled, frames, hframes, hsealed, hpending⟩ := hover
    subst hq
    exact ⟨settled, frames, hframes, hsealed.stage, hpending⟩
  obtain ⟨settled, frames, start', hframes, hsealed, hrun, hrides, hclaimed', hkeeps⟩ :=
    ride_overlay hoverq payloadStart
  have hwritten : Nest.written (n :: (clean ++ claimed)) []
      = Nest.written (clean ++ claimed) body ++ extent input head tagEnd
        ++ extent input tagEnd payloadStart := by
    rw [Nest.written_cons, List.append_nil, Nest.written_append]
  have hlead : Nest.written (clean ++ claimed) n.lead
      = Nest.written (clean ++ claimed) body ++ extent input head tagEnd := Nest.written_append
  refine ⟨n :: (clean ++ claimed), [], ?_, ?_, ?_⟩
  · refine ⟨?_, ?_, ⟨n :: clean, claimed, rfl, ?_, ?_⟩, ?_, ?_, ?_, ?_⟩
    · rw [hwritten]
      simp only [Nest.holes, Nest.tails, hlead]
      simp only [hn, List.length_append]
    · rw [hkeeps.1, hq]
      exact hm.source
    · show (q.ride head payloadStart).claimed = _
      rw [hclaimed', hq]
      exact hclaimed
    · refine ⟨settled, frames, ?_, ?_, .inl ⟨start', payloadStart, hrun, hin, ?_, fun _ => rfl⟩⟩
      · show (q.ride head payloadStart).frames ++ _ = _
        rw [hframes, List.map_cons, List.cons_append, List.reverse_cons]
        rfl
      · show Sealed input (q.ride head payloadStart).staging _ _ _ _
        rw [hkeeps.2.1]
        exact hsealed
      · exact ⟨le_rfl, extent_self.symm, hrides tagEnd hhead⟩
    · intro m hmem
      show m.Stands input (q.ride head payloadStart).staging
      rw [hkeeps.2.1, hq]
      rcases List.mem_cons.mp hmem with rfl | hmem
      · exact ⟨hhead, htag, hin, rfl, htail, hspell⟩
      · exact (hm.stands m hmem).stage
    · exact ⟨rfl, body.length, by
        rw [hn, List.length_append, extent_length (htag.trans hin)], hm.totals⟩
    · show (q.ride head payloadStart).total = _
      rw [hkeeps.2.2, hwritten, hq, List.length_append, List.length_append,
        extent_length (htag.trans hin), extent_length hin]
      simp only [Nest.tails, List.length_append]
      have htotal := hm.total
      have htail' : n.tail.length = tail.length := rfl
      omega
    · show (q.ride head payloadStart).total ≤ _
      rw [hkeeps.2.2, hq]
      exact hcap
  · rw [List.map_cons, hstarts]
  · intro hqt
    simp only [Nest.tails]
    rw [hquiet hqt, hn]
    exact htailless hqt

theorem commit_agrees {head tagEnd payloadStart : Nat} {tail : Option (List UInt8)}
    (h : Holds input before quiet starts head e p) (hhead : head ≤ tagEnd)
    (htag : tagEnd ≤ payloadStart) (hin : payloadStart ≤ input.length)
    (htailless : quiet → tail.getD [] = []) :
    Agrees input before quiet (payloadStart :: starts) payloadStart
      (e.commit head tagEnd payloadStart tail) (p.commit head tagEnd payloadStart tail) := by
  obtain ⟨ns, body, hm, hstarts, hquiet⟩ := h
  obtain rfl := hm.emission
  have htotal := hm.total
  have hout : (Emit.wrote input before
      (Nest.written ns body ++ extent input head tagEnd ++ extent input tagEnd payloadStart)
      (⟨(Nest.written ns body ++ extent input head tagEnd).length,
        (Nest.written ns body ++ extent input head tagEnd
          ++ extent input tagEnd payloadStart).length, (tail.getD []).length⟩ :: Nest.holes ns)
      (Nest.tails ns ++ tail.getD [])).rel
      = (Nest.written ns body).length + (payloadStart - head) := by
    rw [Emit.rel_wrote, List.length_append, List.length_append, extent_length (htag.trans hin),
      extent_length hin]
    omega
  refine (commit_judges tail hhead htag hin).agrees ?_
  unfold Plan.commit
  rw [admitGrow_andThen]
  split
  case isTrue hover =>
    refine .inr ⟨_, _, rfl, fun hq => ?_⟩
    rw [hquiet hq, List.length_nil] at htotal
    rw [hout]
    omega
  case isFalse hfits =>
    cases tail with
    | none =>
      refine .inl ⟨_, rfl, ?_⟩
      exact opens_holds [] hm hstarts hquiet hhead htag hin
        (by rw [List.append_nil]; rfl) (Nat.zero_le _) (by simp) (by simpa using hfits)
        (fun _ => rfl)
    | some bytes =>
      simp only [Plan.stage]
      rw [admitGrow_andThen]
      split
      case isTrue hover =>
        refine .inr ⟨_, _, rfl, fun hq => ?_⟩
        have hnil : bytes = [] := htailless hq
        rw [hnil, List.length_nil] at hover
        exact absurd hover (by show ¬ p.total + (payloadStart - head) + 0 > _; omega)
      case isFalse hfits' =>
        refine .inl ⟨_, rfl, ?_⟩
        refine opens_holds bytes hm hstarts hquiet hhead htag hin rfl ?_ ?_
          (by simpa using hfits') htailless
        · rw [List.length_append]
          exact le_rfl
        · have hdrop : (p.staging ++ bytes).drop p.staging.length = bytes ++ [] := by
            rw [List.drop_left, List.append_nil]
          exact (extent_of_drop hdrop).symm

/-! ## The close -/

/-- The enclosing interior behind a container's close. -/
def Nest.closed (n : Nest) (oldLen : Nat) (body : List UInt8) : List UInt8 :=
  n.lead ++ settledPrefix n.word oldLen (body ++ n.tail).length ++ (body ++ n.tail)

theorem Mirrors.close_judges {n : Nest} (hm : Mirrors input before here (n :: ns) body e p)
    (oldLen : Nat) :
    Judges (e.close oldLen) (.wrote input before (Nest.written ns (n.closed oldLen body))
      (Nest.holes ns) (Nest.tails ns)) := by
  have htotal := hm.total
  have hcap := hm.cap
  rw [Nest.written_cons] at htotal
  simp only [Nest.tails, List.length_append] at htotal
  have hj := @Splice.close_judges input before (Nest.tails ns) (Nest.written ns n.lead) n.word body
    n.tail (Nest.holes ns) oldLen (by simp only [List.length_append]; omega)
  obtain rfl := hm.emission
  rw [Nest.written_cons, Nest.closed, Nest.written_append, Nest.written_append]
  exact hj

/-- A clean container closes: its record rides on, and its interior is the announced one. -/
theorem close_clean {n : Nest} {clean claimed : List Nest} {q : Plan}
    (hm : Mirrors input before here (n :: (clean ++ claimed)) body e p)
    (hclaimed : p.claimed = claimed.length)
    (hover : Overlay input p here (n :: clean) claimed body) (htail : n.tail = [])
    (hstarts : (clean ++ claimed).map Nest.payloadStart = starts)
    (hquiet : quiet → Nest.tails (clean ++ claimed) = [])
    (hq : q = { p with
      frames := p.frames.dropLast, claimed := min p.claimed p.frames.dropLast.length }) :
    Agrees input before quiet starts here (e.close (here - n.payloadStart))
      (.ok (), q.account (n.payloadStart - n.head + n.total)) := by
  have hn := hm.stands n List.mem_cons_self
  obtain ⟨settled, frames, hframes, hsealed, hpending⟩ := hover
  rcases hpending with ⟨start, stop, hrun, hstop, ⟨hstart, hbody, hrides⟩, hhere⟩ | ⟨-, hc, -⟩
  case inr => cases hc
  obtain rfl := hhere (List.cons_ne_nil _ _)
  have hlen : body.length = stop - n.payloadStart := by rw [hbody, extent_length hstop]
  have hinit : p.frames.dropLast = (clean.map (Nest.frame none) ++ frames).reverse := by
    rw [hframes, List.dropLast_reverse]
    rfl
  have hclosed : n.closed (stop - n.payloadStart) body = n.lead ++ extent input n.tagEnd stop := by
    rw [Nest.closed, htail, List.append_nil, settledPrefix, if_pos hlen, hn.word, hbody,
      List.append_assoc, extent_append hn.tagEnd_le hstart]
  obtain ⟨htotal, rest, hlead, htotals⟩ := hm.totals
  refine (hm.close_judges _).agrees (.inl ⟨_, rfl, Owes.holds ?_ hstarts hquiet⟩)
  rw [hclosed]
  refine ⟨by rw [hq]; exact hm.source, ⟨clean, claimed, rfl, ?_, settled, frames, ?_, ?_,
    .inl ⟨start, stop, ?_, hstop, hrides.grow (hn.tagEnd_le.trans hstart), fun _ => rfl⟩⟩, ?_,
    ⟨rest, ?_, htotals⟩, ?_, ?_⟩
  · rw [hq]
    show min p.claimed p.frames.dropLast.length = _
    rw [hinit, hclaimed, List.length_reverse, List.length_append, hsealed.length_eq]
    omega
  · rw [hq]
    exact hinit
  · rw [hq]
    exact hsealed
  · rw [hq]
    exact hrun
  · rw [hq]
    exact fun m hmem => hm.stands m (List.mem_cons_of_mem _ hmem)
  · have h1 := hn.head_le
    have h2 := hn.tagEnd_le
    rw [List.length_append, extent_length hstop]
    omega
  · have htot := hm.total
    have h2 := hn.tagEnd_le
    have hword : n.word.length = n.payloadStart - n.tagEnd := by
      rw [hn.word, extent_length hn.payloadStart_le]
    simp only [Nest.written_cons, Nest.tails, htail, List.length_append, List.length_nil] at htot
    rw [hq, Nest.written_append, List.length_append, extent_length hstop]
    show p.total = _
    omega
  · rw [hq]
    exact hm.cap

theorem Pending.behind {settled more : List UInt8} {run : Option (Nat × Nat)}
    (h : Pending input settled run [] here body) :
    Pending input (more ++ settled) run [] here (more ++ body) := by
  rcases h with ⟨start, stop, hrun, hstop, ⟨hle, rfl⟩, hhere⟩ | ⟨hrun, hc, rfl⟩
  · exact .inl ⟨start, stop, hrun, hstop, ⟨hle, (List.append_assoc _ _ _).symm⟩, hhere⟩
  · exact .inr ⟨hrun, hc, rfl⟩

/-- The tail of a claimed container, where it has one, becomes an instruction. -/
theorem tail_sealed {n : Nest} {slot : Nat} {frames : List Frame} {settled : List UInt8} {q : Plan}
    (hsealed : Sealed input q.staging (n :: ns) q.ops settled (n.frame (some slot) :: frames))
    (hpending : Pending input settled q.run [] here body) (hn : n.Stands input q.staging) :
    ∃ q' settled', q' = (if (n.frame (some slot)).tailLen > 0 then
        { q.flush with ops := q.flush.ops ++
          [.staged (n.frame (some slot)).tailAt (n.frame (some slot)).tailLen] } else q) ∧
      Sealed input q'.staging (n :: ns) q'.ops settled' (n.frame (some slot) :: frames) ∧
      Pending input settled' q'.run [] here (body ++ n.tail) ∧
      q'.frames = q.frames ∧ q'.claimed = q.claimed ∧ Keeps q q' := by
  by_cases htail : (n.frame (some slot)).tailLen > 0
  · rw [if_pos htail]
    obtain ⟨hsealed', hrun, hframes, hclaimed, hkeeps⟩ := flush_sealed hsealed hpending
    have hstaged : (Op.staged n.tailAt n.tail.length).window input q.staging = some n.tail := by
      show slice q.staging n.tailAt (n.tailAt + n.tail.length) = _
      rw [slice_eq (Nat.le_add_right _ _) hn.tail_le, ← hn.tail]
    refine ⟨_, body ++ n.tail, rfl, ?_, .inr ⟨hrun, rfl, rfl⟩, hframes, hclaimed, hkeeps⟩
    show Sealed input q.flush.staging _ _ _ _
    rw [hkeeps.2.1]
    exact hsealed'.push hstaged
  · rw [if_neg htail]
    have hnil : n.tail = [] := List.eq_nil_of_length_eq_zero (by
      have : (n.frame (some slot)).tailLen = n.tail.length := rfl
      omega)
    rw [hnil, List.append_nil]
    exact ⟨q, settled, rfl, hsealed, hpending, rfl, rfl, rfl, rfl, rfl⟩

/-- What the enclosing container holds once the slot is filled with a prefix of its own. -/
theorem Sealed.filled {n : Nest} {slot total : Nat} {frames : List Frame}
    {settled prefixed body' : List UInt8} {q : Plan} {op : Op}
    (h : Sealed input q.staging (n :: ns) q.ops settled (n.frame (some slot) :: frames))
    (hpending : Pending input settled q.run [] here body') (hm : Mirrors input before here (n :: ns)
      body e p) (hk : Keeps p q) (hframes : q.frames = frames.reverse)
    (hclaimed : q.claimed = ns.length) (hop : op.window input q.staging = some prefixed)
    (htotal : total = (Nest.written ns (n.lead ++ prefixed ++ body')).length +
      (Nest.tails ns).length) (hcap : total ≤ PayloadLen.max) :
    Owes input here (n.tagEnd - n.head + prefixed.length + body'.length) ns
      (n.lead ++ prefixed ++ body') { q with ops := q.ops.set slot op, total } := by
  obtain ⟨-, rest, hlead, htotals⟩ := hm.totals
  obtain ⟨slot', frames', hslot, hfill⟩ := h.fill
  obtain ⟨hframe, rfl⟩ := List.cons.inj hslot
  obtain rfl : slot = slot' := Option.some.inj (congrArg Frame.op hframe)
  refine ⟨hk.1.trans hm.source, ⟨[], ns, rfl, hclaimed, n.lead ++ prefixed ++ settled, frames,
    hframes, hfill op prefixed hop, hpending.behind⟩, ?_, ⟨rest, ?_, htotals⟩, htotal, hcap⟩
  · show ∀ m ∈ ns, m.Stands input q.staging
    rw [hk.2.1]
    exact fun m hmem => hm.stands m (List.mem_cons_of_mem _ hmem)
  · simp only [List.length_append]
    omega

/-- A claimed container closes: its tail, and its prefix into the slot. -/
theorem fill_agrees {n : Nest} {slot oldLen : Nat} {frames : List Frame} {settled : List UInt8}
    {q : Plan} (hm : Mirrors input before here (n :: ns) body e p)
    (hsealed : Sealed input q.staging (n :: ns) q.ops settled (n.frame (some slot) :: frames))
    (hpending : Pending input settled q.run [] here body) (hframes : q.frames = frames.reverse)
    (hclaimed : q.claimed = ns.length) (hkeeps : Keeps p q)
    (hstarts : ns.map Nest.payloadStart = starts)
    (hquiet : quiet → Nest.tails (n :: ns) = []) :
    Agrees input before quiet starts here (e.close oldLen)
      (q.fill oldLen (n.frame (some slot)) slot) := by
  have hn := hm.stands n List.mem_cons_self
  have hquiet' : quiet → Nest.tails ns = [] := fun hq => (List.append_eq_nil_iff.mp (hquiet hq)).1
  obtain ⟨q', settled', hq', hsealed', hpending', hframes', hclaimed', hkeeps'⟩ :=
    tail_sealed hsealed hpending (by rw [hkeeps.2.1]; exact hn)
  have hk := hkeeps.trans hkeeps'
  obtain ⟨htotal, -, -⟩ := hm.totals
  have hinterior : (if (n.frame (some slot)).tailLen > 0 then
      (n.frame (some slot)).total + (n.frame (some slot)).tailLen else (n.frame (some slot)).total)
      = (body ++ n.tail).length := by
    show (if n.tail.length > 0 then n.total + n.tail.length else n.total) = _
    rw [List.length_append, ← htotal]
    split <;> omega
  have hword : n.word.length = n.payloadStart - n.tagEnd := by
    rw [hn.word, extent_length hn.payloadStart_le]
  have htot := hm.total
  have hcap := hm.cap
  simp only [Nest.written_cons, Nest.tails, List.length_append] at htot
  have hsmall : (body ++ n.tail).length < 2 ^ 32 := by
    rw [List.length_append]
    rw [PayloadLen.max] at hcap
    omega
  have hfilled (op : Op) (bytes : List UInt8) (total : Nat)
      (hop : op.window input q'.staging = some bytes)
      (htotal' : total = (Nest.written ns (n.lead ++ bytes ++ (body ++ n.tail))).length
        + (Nest.tails ns).length) (hcap' : total ≤ PayloadLen.max) :
      Owes input here (n.tagEnd - n.head + bytes.length + (body ++ n.tail).length) ns
        (n.lead ++ bytes ++ (body ++ n.tail)) { q' with ops := q'.ops.set slot op, total } :=
    hsealed'.filled hpending' hm hk (hframes'.trans hframes) (hclaimed'.trans hclaimed) hop
      htotal' hcap'
  have hwritten (bytes : List UInt8) :
      (Nest.written ns (n.lead ++ bytes ++ (body ++ n.tail))).length
        = (Nest.written ns n.lead).length + bytes.length + (body ++ n.tail).length := by
    rw [List.append_assoc, Nest.written_append, List.length_append, List.length_append]
    omega
  have hj := hm.close_judges oldLen
  refine hj.agrees ?_
  unfold Plan.fill
  simp only
  rw [← hq', hinterior, Nat.mod_eq_of_lt hsmall]
  unfold Nest.closed settledPrefix
  split
  case isTrue hsame =>
    refine .inl ⟨_, rfl, ?_⟩
    have howes := hfilled (.src n.tagEnd n.payloadStart) n.word q'.total
      (by rw [hn.word]; exact src_window hn.tagEnd_le hn.payloadStart_le)
      (by rw [hk.2.2, hwritten, List.length_append]; omega) (by rw [hk.2.2]; exact hcap)
    rw [hword] at howes
    exact howes.holds hstarts hquiet'
  case isFalse hdiff =>
    have hneed : encodedLen32 (body ++ n.tail).length = (minimal (body ++ n.tail).length).length := by
      rw [encodedLen32_eq hsmall, minimal_length]
    have hspell : (Op.word (body ++ n.tail).length).window input q'.staging
        = some (minimal (body ++ n.tail).length) := by
      show some (emit64 _) = _
      rw [emit64_eq (Nat.lt_of_lt_of_le hsmall (by decide))]
    have hfilled' := hfilled (.word (body ++ n.tail).length) (minimal (body ++ n.tail).length)
    rw [hneed]
    have hmet : (n.frame (some slot)).payloadStart - (n.frame (some slot)).tagEnd = n.word.length :=
      hword.symm
    rw [hmet]
    have hbody : (body ++ n.tail).length = body.length + n.tail.length := List.length_append
    have hall := hwritten (minimal (body ++ n.tail).length)
    split
    case isTrue hgrow =>
      rw [admitGrow_andThen]
      split
      case isTrue hover =>
        refine .inr ⟨_, _, rfl, fun hq => ?_⟩
        have hq0 := hquiet hq
        have hnil : Nest.tails ns = [] := hquiet' hq
        have htl : n.tail = [] := (List.append_eq_nil_iff.mp hq0).2
        have hover' : q'.total + ((minimal (body ++ n.tail).length).length - n.word.length)
          > PayloadLen.max := hover
        rw [hk.2.2] at hover'
        rw [hnil, List.length_nil] at htot
        rw [Emit.rel_wrote, hall]
        omega
      case isFalse hfits =>
        have hfits' : ¬ q'.total + ((minimal (body ++ n.tail).length).length - n.word.length)
          > PayloadLen.max := hfits
        rw [hk.2.2] at hfits'
        refine .inl ⟨_, rfl, ?_⟩
        refine Owes.holds (hfilled' _ hspell ?_ ?_) hstarts hquiet'
        · show q'.total + ((minimal (body ++ n.tail).length).length - n.word.length) = _
          rw [hk.2.2, hall]
          omega
        · show q'.total + ((minimal (body ++ n.tail).length).length - n.word.length) ≤ _
          rw [hk.2.2]
          omega
    case isFalse hshrink =>
      refine .inl ⟨_, rfl, ?_⟩
      refine Owes.holds (hfilled' _ hspell ?_ ?_) hstarts hquiet'
      · show q'.total - (n.word.length - (minimal (body ++ n.tail).length).length) = _
        rw [hk.2.2, hall]
        omega
      · show q'.total - (n.word.length - (minimal (body ++ n.tail).length).length) ≤ _
        rw [hk.2.2]
        omega

theorem pop_claimed {n : Nest} (oldLen : Nat) (hm : Mirrors input before here (n :: ns) body e p)
    (hclaimed : p.claimed = (n :: ns).length) (hover : Overlay input p here [] (n :: ns) body)
    (hstarts : ns.map Nest.payloadStart = starts) (hquiet : quiet → Nest.tails (n :: ns) = []) :
    Agrees input before quiet starts here (e.close oldLen) (p.pop oldLen) := by
  obtain ⟨settled, frames, hframes, hsealed, hpending⟩ := hover
  obtain ⟨slot, frames', rfl, -⟩ := hsealed.fill
  have hlast : p.frames.getLast? = some (n.frame (some slot)) := by
    rw [hframes, List.getLast?_reverse]
    rfl
  have hinit : p.frames.dropLast = frames'.reverse := by
    rw [hframes, List.dropLast_reverse]
    rfl
  have hlen : frames'.length = ns.length := by
    have := hsealed.length_eq
    simpa using this
  unfold Plan.pop
  rw [hlast]
  refine fill_agrees hm hsealed hpending hinit ?_ ⟨rfl, rfl, rfl⟩ hstarts hquiet
  show min p.claimed p.frames.dropLast.length = _
  rw [hinit, hclaimed, List.length_reverse, hlen, List.length_cons]
  omega

/-- The innermost container closes. -/
theorem close_agrees {start : Nat} (h : Holds input before quiet (start :: starts) here e p) :
    Agrees input before quiet starts here (e.close (here - start)) (p.close (here - start)) := by
  obtain ⟨ns, body, hm, hstarts, hquiet⟩ := h
  cases ns with
  | nil => cases hstarts
  | cons n ns =>
    obtain ⟨rfl, hrest⟩ := List.cons.inj hstarts
    obtain ⟨clean, claimed, hns, hclaimed, hover⟩ := hm.overlay
    unfold Plan.close
    cases clean with
    | nil =>
      obtain rfl : claimed = n :: ns := hns
      have hlen : p.frames.length = p.claimed := by
        obtain ⟨settled, frames, hframes, hsealed, -⟩ := hover
        rw [hframes, hclaimed, List.length_reverse, List.map_nil, List.nil_append,
          hsealed.length_eq]
      have hpop := pop_claimed (here - n.payloadStart) hm hclaimed hover hrest hquiet
      split
      case h_1 => rw [if_neg (by omega)]; exact hpop
      case h_2 => exact hpop
    | cons m clean =>
      obtain ⟨rfl, rfl⟩ := List.cons.inj hns
      have hlast : p.frames.getLast? = some (m.frame none) := by
        obtain ⟨settled, frames, hframes, -, -⟩ := hover
        rw [hframes, List.getLast?_reverse]
        rfl
      have hlen : p.frames.length > p.claimed := by
        obtain ⟨settled, frames, hframes, hsealed, -⟩ := hover
        rw [hframes, hclaimed, ← hsealed.length_eq, List.length_reverse, List.length_append,
          List.length_map, List.length_cons]
        omega
      rw [hlast]
      simp only
      by_cases htail : (m.frame none).tailLen > 0
      · rw [if_pos ⟨hlen, htail⟩]
        obtain ⟨hm', hclaimed', hover'⟩ := hm.materialize here
        exact pop_claimed _ hm' hclaimed' hover' hrest hquiet
      · rw [if_neg fun hand => htail hand.2]
        have hnil : m.tail = [] := List.eq_nil_of_length_eq_zero (by
          have : (m.frame none).tailLen = m.tail.length := rfl
          omega)
        unfold Plan.pop
        rw [hlast]
        exact close_clean hm hclaimed hover hnil hrest
          (fun hq => (List.append_eq_nil_iff.mp (hquiet hq)).1) rfl

/-! ## The fold -/

theorem hand_spells {staging : List UInt8} {ops : List Op}
    (h : Spells input staging ops body) :
    ∃ windows, Plan.hand input staging ops = (true, windows) ∧ windows.flatten = body := by
  induction h with
  | nil => exact ⟨[], rfl, rfl⟩
  | @cons op ops bytes rest hop _ ih =>
    obtain ⟨windows, hhand, hflat⟩ := ih
    unfold Plan.hand
    rw [hop, hhand]
    refine ⟨_, rfl, ?_⟩
    split
    case isTrue hempty =>
      rw [List.isEmpty_iff.mp hempty, hflat]
      rfl
    case isFalse => rw [List.flatten_cons, hflat]

/-- With every container closed the fold hands over what the buffer holds, and nothing of it
panics. -/
theorem fold_holds (h : Holds input before quiet [] here e p) :
    ∃ windows, p.fold = (true, windows) ∧ e.out = before ++ windows.flatten := by
  obtain ⟨ns, body, hm, hstarts, -⟩ := h
  obtain rfl := List.map_eq_nil_iff.mp hstarts
  obtain ⟨clean, claimed, hns, -, settled, frames, -, hsealed, hpending⟩ := hm.overlay
  obtain ⟨rfl, rfl⟩ := List.append_eq_nil_iff.mp hns
  obtain ⟨windows, hhand, hflat⟩ := hand_spells hsealed.2
  have hrun : ∃ last, Plan.handRun input p.run = (true, last) ∧ (windows ++ last).flatten = body := by
    rcases hpending with ⟨start, stop, hrun, hstop, ⟨hle, rfl⟩, -⟩ | ⟨hrun, -, rfl⟩
    · rw [hrun]
      unfold Plan.handRun
      simp only
      split
      case isTrue =>
        rw [slice_eq hle hstop]
        refine ⟨[extent input start stop], rfl, ?_⟩
        rw [List.flatten_append, hflat]
        simp only [List.flatten_cons, List.flatten_nil, List.append_nil]
      case isFalse =>
        have : start = stop := by omega
        rw [this, extent_self]
        exact ⟨[], rfl, by rw [List.append_nil, List.append_nil, hflat]⟩
    · rw [hrun]
      exact ⟨[], rfl, by rw [List.append_nil, hflat]⟩
  obtain ⟨last, hlast, hbody⟩ := hrun
  refine ⟨windows ++ last, ?_, ?_⟩
  · unfold Plan.fold
    rw [hm.source, hhand]
    simp only
    rw [hlast]
    simp only [hbody]
    have htotal := hm.total
    simp only [Nest.written, Nest.tails, List.length_nil, Nat.add_zero] at htotal
    rw [htotal, beq_self_eq_true]
  · rw [hm.emission, hbody]
    rfl

/-! ## The slots -/

theorem unfilled_append (ops ops' : List Op) (index : Nat) :
    Plan.unfilled index (ops ++ ops')
      = Plan.unfilled index ops ++ Plan.unfilled (index + ops.length) ops' := by
  induction ops generalizing index with
  | nil => rfl
  | cons op ops ih =>
    have hindex : index + 1 + ops.length = index + (op :: ops).length := by
      rw [List.length_cons]; omega
    cases op <;> simp only [List.cons_append, Plan.unfilled, ih, hindex]

theorem unfilled_spells {staging : List UInt8} {ops : List Op} (h : Spells input staging ops body)
    (index : Nat) : Plan.unfilled index ops = [] := by
  induction h generalizing index with
  | nil => rfl
  | @cons op ops bytes rest hop _ ih =>
    cases op with
    | hole => cases hop
    | src => exact ih _
    | staged => exact ih _
    | word => exact ih _

theorem unfilled_sealed {staging : List UInt8} {ops : List Op} {frames : List Frame}
    (h : Sealed input staging ns ops body frames) :
    Plan.unfilled 0 ops = (frames.filterMap Frame.op).reverse := by
  induction ns generalizing ops body frames with
  | nil => rw [h.1, unfilled_spells h.2]; rfl
  | cons n ns ih =>
    obtain ⟨outer, inner, frames', rfl, rfl, hinner, hrest⟩ := h
    have hframe : (n.frame (some outer.length)).op = some outer.length := rfl
    rw [unfilled_append, ih hrest, List.filterMap_cons, hframe, List.reverse_cons]
    show _ ++ (0 + outer.length) :: Plan.unfilled (0 + outer.length + 1) inner = _
    rw [unfilled_spells hinner, Nat.zero_add]

/-- The unfilled slots are the open containers', each once. -/
theorem unfilled_holds (h : Holds input before quiet starts here e p) :
    Plan.unfilled 0 p.ops = p.frames.filterMap Frame.op := by
  obtain ⟨ns, body, hm, -, -⟩ := h
  obtain ⟨clean, claimed, -, -, settled, frames, hframes, hsealed, -⟩ := hm.overlay
  have hclean : (clean.map (Nest.frame none)).filterMap Frame.op = [] := by
    rw [List.filterMap_eq_nil_iff]
    intro frame hmem
    obtain ⟨n, -, rfl⟩ := List.mem_map.mp hmem
    rfl
  rw [unfilled_sealed hsealed, hframes, List.filterMap_reverse, List.filterMap_append, hclean,
    List.nil_append]

end Agrees

end ProtobufEdit.Splice
