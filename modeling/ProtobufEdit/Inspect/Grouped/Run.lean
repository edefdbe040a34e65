import ProtobufEdit.Inspect.Grouped.Tree

/-!
# The machine's tables are trees

A running machine is a zipper: the forest before every open container, innermost first, and the
forest before the cursor. Every turn keeps the zipper lying on the bytes, and a parse always
comes to a tree, whole or torn at its fault.
-/

namespace ProtobufEdit.Inspect.Grouped

open Wire Wire.Grouped Varint Base128 Cursor Loop

/-! ## Zippers -/

/-- An open container, and the records before it in its layer. -/
structure Level where
  before : Nodes
  met : Met
  absorbing : Bool

namespace Zipper

/-- How many rows stand before the innermost layer. -/
def height : List Level → Nat
  | [] => 0
  | lv :: lvs => height lvs + lv.before.size + 1

/-- The innermost container's row. -/
def container : List Level → Option Nat
  | [] => none
  | lv :: lvs => some (height lvs + lv.before.size)

/-- The rows before the innermost layer: an open container's is not sealed. -/
def above : List Level → List Row
  | [] => []
  | lv :: lvs =>
    above lvs ++ lv.before.rows (container lvs) (height lvs) ++ [lv.met.row (container lvs) 0]

def rows (lvs : List Level) (cur : Nodes) : List Row :=
  above lvs ++ cur.rows (container lvs) (height lvs)

/-- The innermost extent's end. -/
def zone (total : Nat) : List Level → Nat
  | [] => total
  | lv :: lvs => if lv.met.kind = .len then lv.met.stop else zone total lvs

/-- The innermost absorbing frame. -/
def absorber : List Level → Option Nat
  | [] => none
  | lv :: lvs => if lv.absorbing then some lvs.length else absorber lvs

def frameKind (lv : Level) : FrameKind := if lv.met.kind = .len then .len else .group

def frame (total : Nat) (lv : Level) (lvs : List Level) : Frame :=
  ⟨height lvs + lv.before.size, lv.met.field, zone total lvs, absorber lvs, frameKind lv⟩

/-- The machine's stack, outermost first. -/
def frames (total : Nat) : List Level → List Frame
  | [] => []
  | lv :: lvs => frames total lvs ++ [frame total lv lvs]

/-- Where the innermost layer starts. -/
def bodyStart : List Level → Nat
  | [] => 0
  | lv :: _ => lv.met.payloadStart

/-- An open container's head: a LEN inside its zone, or a group whose end tag is not met. -/
def Head (bytes : List UInt8) (zone : Nat) (lv : Level) : Prop :=
  lv.met.kind = .len ∧ IsRecord bytes lv.met ∧ lv.met.stop ≤ zone ∨
    Opens bytes lv.met ∧ lv.met.delimWidth = none ∧ lv.met.payloadLen = 0 ∧ lv.absorbing = false

/-- The layers around the innermost one. -/
def Outer (bytes : List UInt8) (limit : Nat) : List Level → Prop
  | [] => True
  | lv :: lvs =>
    Outer bytes limit lvs ∧
      Lies bytes (limit - lvs.length) (bodyStart lvs) lv.before lv.met.start ∧
      lvs.length < limit ∧ Head bytes (zone bytes.length lvs) lv

variable {bytes : List UInt8} {total limit : Nat} {lv : Level} {lvs inner outer : List Level}
  {cur kids : Nodes} {r : Met}

theorem above_length (lvs : List Level) : (above lvs).length = height lvs := by
  induction lvs with
  | nil => rfl
  | cons lv lvs ih =>
    rw [above, List.length_append, List.length_append, ih, Nodes.rows_length, height]
    rfl

theorem rows_length (lvs : List Level) (cur : Nodes) :
    (rows lvs cur).length = height lvs + cur.size := by
  rw [rows, List.length_append, above_length, Nodes.rows_length]

theorem rows_push (lvs : List Level) (cur : Nodes) (r : Met) :
    rows lvs (cur.append (.node r .nil .nil)) = rows lvs cur ++ [r.row (container lvs) 0] := by
  rw [rows, Nodes.rows_append, rows, List.append_assoc]
  rfl

theorem rows_enter (lvs : List Level) (cur : Nodes) (r : Met) (absorbing : Bool) :
    rows (⟨cur, r, absorbing⟩ :: lvs) .nil = rows lvs cur ++ [r.row (container lvs) 0] := by
  rw [rows, above, rows, Nodes.rows, List.append_nil]

theorem modify_middle (before behind : List Row) (r : Row) (f : Row → Row) :
    (before ++ r :: behind).modify before.length f = before ++ f r :: behind := by
  rw [List.modify_eq_take_cons_drop (by simp)]
  simp

/-- A container's terminal write folds its layer into the one around it. -/
theorem rows_fold (f : Row → Row) (lv : Level) (lvs : List Level) (cur : Nodes) (r : Met)
    (hf : f (lv.met.row (container lvs) 0) = r.row (container lvs) cur.size) :
    (rows (lv :: lvs) cur).modify (height lvs + lv.before.size) f =
      rows lvs (lv.before.append (.node r cur .nil)) := by
  have hlen : (above lvs ++ lv.before.rows (container lvs) (height lvs)).length =
      height lvs + lv.before.size := by
    rw [List.length_append, above_length, Nodes.rows_length]
  rw [rows, above, List.append_assoc (_ ++ _), List.singleton_append, ← hlen, modify_middle, hf,
    rows, Nodes.rows_append, Nodes.rows, Nodes.rows, List.append_nil, List.append_assoc]
  rfl

theorem frames_length (total : Nat) (lvs : List Level) : (frames total lvs).length = lvs.length := by
  induction lvs with
  | nil => rfl
  | cons lv lvs ih =>
    rw [frames, List.length_append, ih]
    rfl

theorem frames_append (total : Nat) (inner outer : List Level) :
    ∃ tail, frames total (inner ++ outer) = frames total outer ++ tail := by
  induction inner with
  | nil => exact ⟨[], (List.append_nil _).symm⟩
  | cons lv inner ih =>
    obtain ⟨tail, h⟩ := ih
    exact ⟨tail ++ [frame total lv (inner ++ outer)], by
      rw [List.cons_append, frames, h, List.append_assoc]⟩

theorem above_append (inner outer : List Level) :
    ∃ tail, above (inner ++ outer) = above outer ++ tail := by
  induction inner with
  | nil => exact ⟨[], (List.append_nil _).symm⟩
  | cons lv inner ih =>
    obtain ⟨tail, h⟩ := ih
    rw [List.cons_append, above, h]
    exact ⟨_, by rw [List.append_assoc, List.append_assoc]⟩

theorem frames_last (total : Nat) (lvs : List Level) :
    (frames total lvs).getLast?.map Frame.row = container lvs := by
  cases lvs with
  | nil => rfl
  | cons lv lvs =>
    rw [frames, List.getLast?_concat]
    rfl

theorem Outer.suffix (h : Outer bytes limit (inner ++ outer)) : Outer bytes limit outer := by
  induction inner with
  | nil => exact h
  | cons lv inner ih => exact ih h.1

/-- Zones nest. -/
theorem Outer.zone_le (h : Outer bytes limit (inner ++ outer)) :
    zone bytes.length (inner ++ outer) ≤ zone bytes.length outer := by
  induction inner with
  | nil => exact Nat.le_refl _
  | cons lv inner ih =>
    refine Nat.le_trans ?_ (ih h.1)
    show (if lv.met.kind = .len then lv.met.stop else zone bytes.length (inner ++ outer)) ≤ _
    rcases h.2.2.2 with ⟨hk, -, hstop⟩ | ⟨ho, -⟩
    · rw [if_pos hk]
      exact hstop
    · have hk : lv.met.kind ≠ .len := by rw [ho.1]; decide
      rw [if_neg hk]

theorem Outer.zone_total (h : Outer bytes limit lvs) : zone bytes.length lvs ≤ bytes.length := by
  have hle := @Outer.zone_le bytes limit lvs [] (by rwa [List.append_nil])
  rwa [List.append_nil] at hle

theorem Outer.absorbing (h : Outer bytes limit (lv :: lvs)) (ha : lv.absorbing = true) :
    lv.met.kind = .len ∧ IsRecord bytes lv.met ∧ lv.met.stop ≤ zone bytes.length lvs := by
  rcases h.2.2.2 with hlen | ⟨-, -, -, hb⟩
  · exact hlen
  · rw [ha] at hb
    cases hb

theorem absorber_some {idx : Nat} (h : absorber lvs = some idx) :
    ∃ inner lv outer, lvs = inner ++ lv :: outer ∧ lv.absorbing = true ∧ outer.length = idx := by
  induction lvs with
  | nil => cases h
  | cons lv lvs ih =>
    cases ha : lv.absorbing with
    | true =>
      rw [absorber, if_pos ha] at h
      cases h
      exact ⟨[], lv, lvs, rfl, ha, rfl⟩
    | false =>
      rw [absorber, ha] at h
      obtain ⟨inner, lv', outer, rfl, ha', hidx⟩ := ih h
      exact ⟨lv :: inner, lv', outer, rfl, ha', hidx⟩

end Zipper

/-! ## What a parse comes to -/

theorem Torn.le {bytes : List UInt8} {cut room start : Nat} {ns : Nodes}
    (h : Torn bytes cut room start ns) : start ≤ cut := by
  induction h with
  | whole h => exact h.le
  | @payload _ _ _ _ r h hr _ _ _ _ ih =>
    have := h.le
    have : r.start ≤ r.payloadStart := by
      unfold Met.payloadStart
      split <;> omega
    omega
  | @group _ _ _ _ r h _ _ _ hcut _ ih =>
    have := h.le
    have : r.start ≤ r.payloadStart := by
      unfold Met.payloadStart
      split <;> omega
    omega

/-- The tree of a parse: a forest of the bytes, torn where it was stopped. -/
def Tree.Spells (tree : Tree) (limit : Nat) : Prop :=
  ∃ ns : Nodes, tree.rows = ns.rows none 0 ∧
    Torn tree.input.bytes tree.indexedEnd limit 0 ns

section Clip

variable {bytes : List UInt8} {cut total limit : Nat} {lv : Level} {lvs : List Level} {cur : Nodes}

/-- The record a stopped parse leaves of an open container. -/
def Level.clipped (cut : Nat) (lv : Level) : Met :=
  if lv.met.kind = .len then lv.met
  else { lv.met with payloadLen := cut - (lv.met.start + lv.met.tagWidth) }

theorem clipFrame_fold (total cut : Nat) (lv : Level) (lvs : List Level) (cur : Nodes) :
    clipFrame cut (Zipper.frame total lv lvs) (Zipper.rows (lv :: lvs) cur) =
      Zipper.rows lvs (lv.before.append (.node (lv.clipped cut) cur .nil)) := by
  have hsize : (Zipper.rows (lv :: lvs) cur).length - 1 - (Zipper.height lvs + lv.before.size) =
      cur.size := by
    rw [Zipper.rows_length, Zipper.height]
    omega
  unfold clipFrame Zipper.frame Zipper.frameKind Level.clipped
  by_cases hk : lv.met.kind = .len
  · simp only [if_pos hk, sealDescendants, hsize]
    exact Zipper.rows_fold _ lv lvs cur lv.met rfl
  · simp only [if_neg hk, clipGroupRow, hsize]
    exact Zipper.rows_fold _ lv lvs cur _ rfl

theorem clipped_torn (ho : Zipper.Outer bytes limit (lv :: lvs))
    (h : Torn bytes cut (limit - (lv :: lvs).length) (Zipper.bodyStart (lv :: lvs)) cur)
    (hcut : cut ≤ Zipper.zone bytes.length (lv :: lvs)) :
    Torn bytes cut (limit - lvs.length) (Zipper.bodyStart lvs)
      (lv.before.append (.node (lv.clipped cut) cur .nil)) := by
  obtain ⟨-, hbefore, hlen, hhead⟩ := ho
  have hroom : limit - (lv :: lvs).length = limit - lvs.length - 1 := by
    rw [List.length_cons]
    omega
  have hle := h.le
  rw [hroom] at h
  unfold Level.clipped
  rcases hhead with ⟨hk, hr, -⟩ | ⟨hopen, hdelim, -, -⟩
  · rw [if_pos hk]
    rw [Zipper.zone, if_pos hk] at hcut
    exact .payload hbefore hr hk hcut (by omega) h
  · have hk : lv.met.kind ≠ .len := by rw [hopen.1]; decide
    have hstart : lv.met.payloadStart = lv.met.start + lv.met.tagWidth := if_neg hk
    have hstart' : ({ lv.met with
        payloadLen := cut - (lv.met.start + lv.met.tagWidth) } : Met).payloadStart =
          lv.met.start + lv.met.tagWidth := if_neg hk
    rw [if_neg hk]
    change lv.met.payloadStart ≤ cut at hle
    change Torn bytes cut _ lv.met.payloadStart cur at h
    rw [hstart] at h hle
    refine .group hbefore hopen hdelim (by omega) ?_ (by rwa [hstart'])
    rw [hstart']
    show lv.met.start + lv.met.tagWidth + (cut - (lv.met.start + lv.met.tagWidth)) = cut
    omega

/-- Clipping folds every open container. -/
theorem clip_torn (ho : Zipper.Outer bytes limit lvs)
    (h : Torn bytes cut (limit - lvs.length) (Zipper.bodyStart lvs) cur)
    (hcut : cut ≤ Zipper.zone bytes.length lvs) :
    ∃ ns : Nodes, (Zipper.frames total lvs).foldr (clipFrame cut) (Zipper.rows lvs cur) =
      ns.rows none 0 ∧ Torn bytes cut limit 0 ns := by
  induction lvs generalizing cur with
  | nil => exact ⟨cur, rfl, h⟩
  | cons lv lvs ih =>
    rw [Zipper.frames, List.foldr_append, List.foldr_cons, List.foldr_nil, clipFrame_fold]
    have hzone := @Zipper.Outer.zone_le bytes limit [lv] lvs ho
    exact ih ho.1 (clipped_torn ho h hcut) (Nat.le_trans hcut hzone)

end Clip

/-! ## The machine on a zipper -/

namespace Machine

variable {α : Type} {j : Job α} {m m' : Machine α} {lvs : List Level} {cur : Nodes}
  {failure : Failure}

/-- The registers, the stack and the table are those of a zipper. -/
structure Fits (j : Job α) (m : Machine α) (lvs : List Level) (cur : Nodes) : Prop where
  rows : m.rows = Zipper.rows lvs cur
  stack : m.stack = Zipper.frames j.input.bytes.length lvs
  zone : m.zone = Zipper.zone j.input.bytes.length lvs
  absorber : m.nearestAbsorber = Zipper.absorber lvs
  outer : Zipper.Outer j.input.bytes j.limit.asInner lvs

/-- The zipper lies on the bytes up to the cursor. -/
structure Stands (j : Job α) (m : Machine α) (lvs : List Level) (cur : Nodes) : Prop extends
    Fits j m lvs cur where
  lies : Lies j.input.bytes (j.limit.asInner - lvs.length) (Zipper.bodyStart lvs) cur m.cursor
  cursor : m.cursor ≤ m.zone

/-- What a turn comes to. -/
inductive Comes (j : Job α) (turns : Turn (Machine α) (Option Tree)) (μ : Nat) : Prop where
  | halts (tree : Tree) : turns = .halt (some tree) → tree.input = j.input →
      tree.Spells j.limit.asInner → Comes j turns μ
  | goes (m : Machine α) (lvs : List Level) (cur : Nodes) : turns = .next m → Stands j m lvs cur →
      2 * (j.input.bytes.length - m.cursor) + lvs.length < μ → Comes j turns μ

theorem Comes.mono {turns : Turn (Machine α) (Option Tree)} {μ μ' : Nat} (h : Comes j turns μ)
    (hle : μ ≤ μ') : Comes j turns μ' := by
  cases h with
  | halts tree ht hin hs => exact .halts tree ht hin hs
  | goes m' lvs' cur' ht hs hlt => exact .goes m' lvs' cur' ht hs (by omega)

theorem Fits.dispose_cursor {inner outer : List Level} {lv : Level}
    (h : Fits j m (inner ++ lv :: outer) cur) :
    (m.stack[outer.length + 1]?.map Frame.prevZone).getD m.zone =
      Zipper.zone j.input.bytes.length (lv :: outer) := by
  have hlen : (Zipper.frames j.input.bytes.length (lv :: outer)).length = outer.length + 1 :=
    Zipper.frames_length _ _
  rcases List.eq_nil_or_concat inner with rfl | ⟨init, lv', rfl⟩
  · rw [h.stack, List.getElem?_eq_none (by rw [List.nil_append, hlen]), h.zone]
    rfl
  · obtain ⟨tail, ht⟩ := Zipper.frames_append j.input.bytes.length init (lv' :: lv :: outer)
    have hstack : m.stack = Zipper.frames j.input.bytes.length (lv :: outer) ++
        (Zipper.frame j.input.bytes.length lv' (lv :: outer) :: tail) := by
      rw [h.stack, List.concat_eq_append, List.append_assoc, List.singleton_append, ht,
        Zipper.frames, List.append_assoc, List.singleton_append]
    rw [hstack, List.getElem?_append_right (by omega), hlen, Nat.sub_self]
    rfl

theorem Fits.dispose (h : Fits j m lvs cur)
    (ht : Torn j.input.bytes failure.cut (j.limit.asInner - lvs.length) (Zipper.bodyStart lvs) cur)
    (hcut : failure.cut ≤ m.zone) :
    Comes j (m.dispose j failure)
      (2 * (j.input.bytes.length - failure.cut) + lvs.length) := by
  unfold Machine.dispose
  rw [h.absorber]
  cases ha : Zipper.absorber lvs with
  | none =>
    rw [h.zone] at hcut
    obtain ⟨ns, hrows, htorn⟩ := @clip_torn _ _ j.input.bytes.length _ _ _ h.outer ht hcut
    refine .halts _ rfl rfl ⟨ns, ?_, htorn⟩
    rw [← hrows, ← h.rows, ← h.stack]
    rfl
  | some idx =>
    obtain ⟨inner, lv, outer, rfl, hlv, rfl⟩ := Zipper.absorber_some ha
    have houter := h.outer.suffix
    obtain ⟨hk, hr, hstop⟩ := houter.absorbing hlv
    obtain ⟨tail, hf⟩ := Zipper.frames_append j.input.bytes.length inner (lv :: outer)
    obtain ⟨behind, hb⟩ := Zipper.above_append inner (lv :: outer)
    have hlen := Zipper.frames_length j.input.bytes.length outer
    have hstack : m.stack = Zipper.frames j.input.bytes.length outer ++
        (Zipper.frame j.input.bytes.length lv outer :: tail) := by
      rw [h.stack, hf, Zipper.frames, List.append_assoc, List.singleton_append]
    have hget : m.stack[outer.length]? = some (Zipper.frame j.input.bytes.length lv outer) := by
      rw [hstack, List.getElem?_append_right (by omega), hlen, Nat.sub_self]
      rfl
    have hzone : Zipper.zone j.input.bytes.length (lv :: outer) = lv.met.stop := if_pos hk
    have hfold := h.outer.zone_le
    rw [hzone, ← h.zone] at hfold
    simp only [hget]
    refine .goes _ outer (lv.before.append (.node lv.met .nil .nil)) rfl
      ⟨⟨?_, ?_, rfl, rfl, houter.1⟩, ?_, ?_⟩ ?_
    · show m.rows.take (Zipper.height outer + lv.before.size + 1) = _
      have habove : (Zipper.above (lv :: outer)).length =
          Zipper.height outer + lv.before.size + 1 := Zipper.above_length _
      rw [h.rows, Zipper.rows, hb, List.append_assoc, List.take_left' habove, Zipper.rows_push]
      rfl
    · show m.stack.take outer.length = _
      rw [hstack, List.take_left' hlen]
    · show Lies _ _ _ _ _
      rw [h.dispose_cursor, hzone]
      exact houter.2.1.append (.leaf rfl hr (.nil _ _))
    · show _ ≤ Zipper.zone j.input.bytes.length outer
      rw [h.dispose_cursor, hzone]
      exact hstop
    · show 2 * (_ - _) + _ < _
      rw [h.dispose_cursor, hzone]
      simp only [List.length_append, List.length_cons]
      omega

/-! ### The turns -/

section Turns

variable {r : Met} {field : FieldNumber} {tagWidth : Nat} {lv : Level}

theorem Stands.consult (h : Stands j m lvs cur) (field : FieldNumber) :
    Stands j (m.consult j field).2 lvs cur := by
  have hlend : m.lend.cursor = m.cursor ∧ m.lend.zone = m.zone ∧ m.lend.stack = m.stack ∧
      m.lend.nearestAbsorber = m.nearestAbsorber ∧ m.lend.rows = m.rows := by
    unfold lend
    split <;> exact ⟨rfl, rfl, rfl, rfl, rfl⟩
  obtain ⟨hc, hz, hs, ha, hr⟩ := hlend
  refine ⟨⟨hr.trans h.rows, hs.trans h.stack, hz.trans h.zone, ha.trans h.absorber, h.outer⟩, ?_, ?_⟩
  · show Lies _ _ _ _ m.lend.cursor
    rw [hc]
    exact h.lies
  · show m.lend.cursor ≤ m.lend.zone
    rw [hc, hz]
    exact h.cursor

theorem consult_cursor (m : Machine α) (field : FieldNumber) :
    (m.consult j field).2.cursor = m.cursor ∧ (m.consult j field).2.zone = m.zone := by
  unfold Machine.consult lend
  split <;> exact ⟨rfl, rfl⟩

theorem Fits.parentRow (h : Fits j m lvs cur) : m.parentRow = Zipper.container lvs := by
  rw [Machine.parentRow, h.stack, Zipper.frames_last]

theorem Fits.deep (h : Fits j m lvs cur) :
    m.atDepthLimit j = decide (j.limit.asInner ≤ lvs.length) := by
  rw [atDepthLimit, h.stack, Zipper.frames_length]

/-- A refusal at the cursor. -/
theorem Stands.dispose (h : Stands j m lvs cur) (hcut : failure.cut = m.cursor)
    {μ : Nat} (hμ : 2 * (j.input.bytes.length - m.cursor) + lvs.length ≤ μ) :
    Comes j (m.dispose j failure) μ := by
  have htorn : Torn j.input.bytes failure.cut (j.limit.asInner - lvs.length)
      (Zipper.bodyStart lvs) cur := .whole (hcut ▸ h.lies)
  have hd := h.toFits.dispose htorn (hcut ▸ h.cursor)
  rw [hcut] at hd
  exact hd.mono hμ

theorem Stands.leaf (h : Stands j m lvs cur) (hs : r.start = m.cursor)
    (hr : IsRecord j.input.bytes r) (hstop : r.stop ≤ m.zone) :
    Comes j (.next (m.leaf r)) (2 * (j.input.bytes.length - m.cursor) + lvs.length) := by
  have hlt := hr.lt_stop
  have hle := hr.stop_le
  refine .goes _ lvs (cur.append (.node r .nil .nil)) rfl
    ⟨⟨?_, h.stack, h.zone, h.absorber, h.outer⟩, h.lies.append (.leaf hs hr (.nil _ _)), hstop⟩ ?_
  · rw [Zipper.rows_push, ← h.rows, ← h.parentRow]
    rfl
  · show 2 * (_ - r.stop) + _ < _
    omega

/-- A container entered, a LEN or a group. -/
theorem Stands.enter (h : Stands j m lvs cur) (hs : r.start = m.cursor) {kind : FrameKind}
    {zone : Nat} {absorbing : Bool} (hroom : lvs.length < j.limit.asInner)
    (hhead : Zipper.Head j.input.bytes m.zone ⟨cur, r, absorbing⟩)
    (hkind : kind = Zipper.frameKind ⟨cur, r, absorbing⟩)
    (hzone : zone = Zipper.zone j.input.bytes.length (⟨cur, r, absorbing⟩ :: lvs))
    (hbody : m.cursor < r.payloadStart) (hin : r.payloadStart ≤ zone) :
    Comes j (.next (m.enter r kind zone absorbing))
      (2 * (j.input.bytes.length - m.cursor) + lvs.length) := by
  have hhead' := hhead
  rw [h.zone] at hhead'
  have houter : Zipper.Outer j.input.bytes j.limit.asInner (⟨cur, r, absorbing⟩ :: lvs) :=
    ⟨h.outer, by rw [hs]; exact h.lies, hroom, hhead'⟩
  have htotal := houter.zone_total
  have hheight : m.rows.length = Zipper.height lvs + cur.size := by
    rw [h.rows, Zipper.rows_length]
  refine .goes _ (⟨cur, r, absorbing⟩ :: lvs) .nil rfl
    ⟨⟨?_, ?_, hzone, ?_, houter⟩, .nil _ _, hin⟩ ?_
  · rw [Zipper.rows_enter, ← h.rows, ← h.parentRow]
    rfl
  · show m.stack ++ _ = _
    rw [Zipper.frames, ← h.stack, Zipper.frame, ← hkind, ← h.zone, ← h.absorber, ← hheight]
  · show (if absorbing then some m.stack.length else m.nearestAbsorber) = _
    rw [Zipper.absorber, h.stack, Zipper.frames_length, h.absorber]
  · show 2 * (_ - r.payloadStart) + (lvs.length + 1) < _
    omega

/-- A LEN, whatever the advice. -/
theorem Stands.lenAdvised (h : Stands j m lvs cur) (hs : r.start = m.cursor)
    (hr : IsRecord j.input.bytes r) (hk : r.kind = .len) (hstop : r.stop ≤ m.zone) :
    Comes j (m.lenAdvised j r) (2 * (j.input.bytes.length - m.cursor) + lvs.length) := by
  obtain ⟨hc, hz⟩ := @consult_cursor _ j m r.field
  have hlent := h.consult r.field
  obtain ⟨hbody, hin⟩ := hr.payloadStart_len hk
  have hkind : ∀ absorbing, Zipper.frameKind ⟨cur, r, absorbing⟩ = .len := fun _ => if_pos hk
  have hzone : ∀ absorbing, Zipper.zone j.input.bytes.length (⟨cur, r, absorbing⟩ :: lvs) =
      r.stop := fun _ => if_pos hk
  have hhead : ∀ absorbing, Zipper.Head j.input.bytes (m.consult j r.field).2.zone
      ⟨cur, r, absorbing⟩ := fun _ => .inl ⟨hk, hr, by rw [hz]; exact hstop⟩
  have hμ : ∀ {turns}, Comes j turns (2 * (j.input.bytes.length - (m.consult j r.field).2.cursor)
      + lvs.length) → Comes j turns (2 * (j.input.bytes.length - m.cursor) + lvs.length) := by
    intro turns hcomes
    rw [hc] at hcomes
    exact hcomes
  have hleaf := hμ (hlent.leaf (hs.trans hc.symm) hr (by rw [hz]; exact hstop))
  have henter : ∀ absorbing, lvs.length < j.limit.asInner →
      Comes j (.next ((m.consult j r.field).2.enter r .len r.stop absorbing))
        (2 * (j.input.bytes.length - m.cursor) + lvs.length) := fun absorbing hroom =>
    hμ (hlent.enter (hs.trans hc.symm) hroom (hhead absorbing) (hkind absorbing).symm
      (hzone absorbing).symm (by rw [hc, ← hs]; exact hbody) hin)
  unfold Machine.lenAdvised
  cases hadv : m.consult j r.field with
  | mk advice m' =>
    rw [hadv] at hleaf henter hlent hc
    cases advice with
    | opaqueBytes => exact hleaf
    | speculate =>
      simp only [hlent.deep, decide_eq_true_eq]
      split
      · exact hleaf
      · exact henter true (by omega)
    | commit =>
      simp only [hlent.deep, decide_eq_true_eq]
      split
      · exact hlent.dispose (hs.trans hc.symm) (by
          have : m'.cursor = m.cursor := hc
          omega)
      · exact henter false (by omega)

theorem Stands.groupOpen (h : Stands j m lvs cur)
    (ht : TagAt j.input.bytes m.cursor field 3 tagWidth) (hin : m.cursor + tagWidth ≤ m.zone) :
    Comes j (m.groupOpen j field tagWidth)
      (2 * (j.input.bytes.length - m.cursor) + lvs.length) := by
  have hpos : 0 < tagWidth := by
    obtain ⟨tag, rest, -, htag, rfl⟩ := ht
    exact htag.admits.isWord.length_pos
  unfold Machine.groupOpen
  rw [h.deep]
  simp only [decide_eq_true_eq]
  split
  · exact h.dispose rfl (by omega)
  · have hhead : Zipper.Head j.input.bytes m.zone
        ⟨cur, ⟨m.cursor, field, .group, tagWidth, none, 0⟩, false⟩ :=
      .inr ⟨⟨rfl, ht⟩, rfl, rfl, rfl⟩
    have hbody : (⟨m.cursor, field, .group, tagWidth, none, 0⟩ : Met).payloadStart =
        m.cursor + tagWidth := rfl
    exact h.enter rfl (by omega) hhead rfl h.zone (by rw [hbody]; omega)
      (by rw [hbody]; exact hin)

/-- The innermost open container. -/
theorem Fits.popped (h : Fits j m (lv :: lvs) cur) :
    m.stack.getLast? = some (Zipper.frame j.input.bytes.length lv lvs) ∧
      m.stack.dropLast = Zipper.frames j.input.bytes.length lvs := by
  rw [h.stack, Zipper.frames, List.getLast?_concat, List.dropLast_concat]
  exact ⟨rfl, rfl⟩

/-- A container's terminal write, behind the pop: what is written makes it a whole record. -/
theorem Fits.folded (h : Fits j m (lv :: lvs) cur) (f : Row → Row) (r : Met) (pos : Nat)
    (hf : f (lv.met.row (Zipper.container lvs) 0) = r.row (Zipper.container lvs) cur.size) :
    Fits j
      { m.restore (Zipper.frame j.input.bytes.length lv lvs) with
        rows := m.rows.modify (Zipper.height lvs + lv.before.size) f
        cursor := pos }
      lvs (lv.before.append (.node r cur .nil)) := by
  refine ⟨?_, h.popped.2, rfl, rfl, h.outer.1⟩
  show m.rows.modify _ f = _
  rw [h.rows]
  exact Zipper.rows_fold f lv lvs cur r hf

theorem Fits.behind (h : Fits j m (lv :: lvs) cur) :
    m.rows.length - 1 - (Zipper.height lvs + lv.before.size) = cur.size := by
  rw [h.rows, Zipper.rows_length, Zipper.height]
  omega

theorem Stands.groupClose (h : Stands j m lvs cur)
    (ht : TagAt j.input.bytes m.cursor field 4 tagWidth) (hin : m.cursor + tagWidth ≤ m.zone) :
    Comes j (m.groupClose j field tagWidth)
      (2 * (j.input.bytes.length - m.cursor) + lvs.length) := by
  have hpos : 0 < tagWidth := by
    obtain ⟨tag, rest, -, htag, rfl⟩ := ht
    exact htag.admits.isWord.length_pos
  have hrefuse : ∀ kind, Comes j (m.halt j m.cursor m.cursor kind)
      (2 * (j.input.bytes.length - m.cursor) + lvs.length) := fun kind =>
    h.dispose rfl (Nat.le_refl _)
  unfold Machine.groupClose
  cases lvs with
  | nil =>
    have hlast : m.stack.getLast? = none := by rw [h.stack]; rfl
    simp only [hlast]
    exact hrefuse _
  | cons lv lvs =>
    obtain ⟨hlast, hdrop⟩ := h.popped
    simp only [hlast]
    split
    · exact hrefuse _
    next hkind =>
    split
    · exact hrefuse _
    next hfield =>
    have hk : lv.met.kind ≠ .len := by
      intro hk
      exact hkind (by simp [Zipper.frame, Zipper.frameKind, hk])
    have hf : lv.met.field = field := not_not.mp hfield
    obtain ⟨hopen, hdelim, hlen, -⟩ : Opens j.input.bytes lv.met ∧ lv.met.delimWidth = none ∧
        lv.met.payloadLen = 0 ∧ lv.absorbing = false := by
      rcases h.outer.2.2.2 with ⟨hl, -⟩ | hg
      · exact absurd hl hk
      · exact hg
    have hstart : lv.met.payloadStart = lv.met.start + lv.met.tagWidth := if_neg hk
    have hle : lv.met.payloadStart ≤ m.cursor := h.lies.le
    rw [hstart] at hle
    have hzone : m.zone = Zipper.zone j.input.bytes.length lvs := by
      rw [h.zone]
      exact if_neg hk
    have htotal := h.outer.1.zone_total
    obtain ⟨r, hr⟩ : ∃ r : Met, r = { lv.met with
        payloadLen := m.cursor - (lv.met.start + lv.met.tagWidth)
        delimWidth := some tagWidth } := ⟨_, rfl⟩
    have hfits := h.toFits.folded
      (fun row => { row with
        payloadLen := m.cursor - (row.start + row.tagWidth)
        delimWidth := some tagWidth
        descendants := m.rows.length - 1 - (Zipper.height lvs + lv.before.size) })
      r (m.cursor + tagWidth) (by rw [h.behind, hr]; rfl)
    have hstop : r.stop = m.cursor + tagWidth := by
      rw [hr]
      simp only [Met.stop, Option.getD_some]
      omega
    have hbody : r.payloadStart = lv.met.start + lv.met.tagWidth := by
      rw [hr]
      exact if_neg hk
    have hend : r.payloadStart + r.payloadLen = m.cursor := by
      rw [hbody, hr]
      simp only
      omega
    have hcloses : Closes j.input.bytes r := by
      refine ⟨tagWidth, by rw [hr], ?_⟩
      rw [hend, hr]
      simp only [hf]
      exact ht
    have hopens : Opens j.input.bytes r := by rw [hr]; exact hopen
    have hbefore := h.outer.2.1
    have hroom := h.outer.2.2.1
    have hkids := h.lies
    rw [List.length_cons, Nat.sub_add_eq] at hkids
    have hwhole : Lies j.input.bytes (j.limit.asInner - lvs.length) lv.met.start (.node r cur .nil)
        (m.cursor + tagWidth) := by
      refine .group (by rw [hr]) hopens hcloses (by omega) ?_ (hstop ▸ .nil _ _)
      rw [hend, hbody, ← hstart]
      exact hkids
    refine .goes _ lvs _ rfl ⟨hfits, hbefore.append hwhole, ?_⟩ ?_
    · show m.cursor + tagWidth ≤ Zipper.zone j.input.bytes.length lvs
      rw [← hzone]
      exact hin
    · show 2 * (_ - (m.cursor + tagWidth)) + _ < _
      rw [List.length_cons]
      omega

/-- The end of a zone: a LEN closes, a group never met its end tag. -/
theorem Stands.closeFrame (h : Stands j m (lv :: lvs) cur) (hend : m.cursor = m.zone) :
    Comes j (m.closeFrame j (Zipper.frame j.input.bytes.length lv lvs))
      (2 * (j.input.bytes.length - m.cursor) + (lv :: lvs).length) := by
  obtain ⟨houter, hbefore, hroom, hhead⟩ := h.outer
  have hkids := h.lies
  rw [List.length_cons, Nat.sub_add_eq] at hkids
  unfold Machine.closeFrame
  rcases hhead with ⟨hk, hr, hstop⟩ | ⟨hopen, hdelim, hlen, -⟩
  · have hkind : (Zipper.frame j.input.bytes.length lv lvs).kind = .len := if_pos hk
    have hzone : m.zone = lv.met.stop := by
      rw [h.zone]
      exact if_pos hk
    simp only [hkind]
    have hfits := h.toFits.folded
      (fun row => { row with
        descendants := m.rows.length - 1 - (Zipper.height lvs + lv.before.size) })
      lv.met m.cursor (by rw [h.behind]; rfl)
    rw [hend, hzone] at hkids
    refine .goes _ lvs _ rfl ⟨hfits, ?_, ?_⟩ ?_
    · show Lies _ _ _ _ m.cursor
      rw [hend, hzone]
      exact hbefore.append (.payload rfl hr hk (by omega) hkids (.nil _ _))
    · show m.cursor ≤ Zipper.zone j.input.bytes.length lvs
      rw [hend, hzone]
      exact hstop
    · show 2 * (_ - m.cursor) + lvs.length < _
      rw [List.length_cons]
      omega
  · have hk : lv.met.kind ≠ .len := by rw [hopen.1]; decide
    have hkind : (Zipper.frame j.input.bytes.length lv lvs).kind = .group := if_neg hk
    simp only [hkind]
    have hfits := h.toFits.folded
      (fun row => { row with
        payloadLen := m.zone - (row.start + row.tagWidth)
        descendants := m.rows.length - 1 - (Zipper.height lvs + lv.before.size) })
      { lv.met with payloadLen := m.zone - (lv.met.start + lv.met.tagWidth) }
      m.cursor (by rw [h.behind]; rfl)
    have htorn := clipped_torn h.outer (.whole (hend ▸ h.lies)) (Nat.le_of_eq h.zone)
    rw [Level.clipped, if_neg hk] at htorn
    have hzone : m.zone = Zipper.zone j.input.bytes.length lvs := by
      rw [h.zone]
      exact if_neg hk
    have hd := @Fits.dispose _ j _ lvs _ ⟨⟨m.zone, .groupUnclosed lv.met.field⟩, m.zone⟩ hfits htorn
      (Nat.le_of_eq hzone)
    exact hd.mono (by rw [hend, List.length_cons]; simp only; omega)

theorem Stands.turn (h : Stands j m lvs cur) :
    Comes j (m.turn j) (2 * (j.input.bytes.length - m.cursor) + lvs.length) := by
  unfold Machine.turn
  split
  case isTrue hend =>
    cases lvs with
    | nil =>
      have hlast : m.stack.getLast? = none := by rw [h.stack]; rfl
      simp only [hlast]
      have hzone : m.cursor = j.input.bytes.length := hend.trans h.zone
      refine .halts _ rfl rfl ⟨cur, h.rows, ?_⟩
      exact .whole (hzone ▸ h.lies)
    | cons lv lvs =>
      simp only [h.popped.1]
      exact h.closeFrame hend
  case isFalse hne =>
    have htotal := h.outer.zone_total
    rw [← h.zone] at htotal
    unfold Machine.record
    cases hj : judge j.standard j.input.bytes m.zone m.cursor with
    | error failure => exact h.dispose (judge_cut hj) (Nat.le_refl _)
    | ok judged =>
      have hstands := judge_ok htotal hj
      cases judged with
      | met r =>
        obtain ⟨hs, hr, hstop⟩ := hstands
        simp only
        split
        next hk => exact h.lenAdvised hs hr hk hstop
        next => exact h.leaf hs hr hstop
      | groupOpen field tagWidth => exact h.groupOpen hstands.1 hstands.2
      | groupClose field tagWidth => exact h.groupClose hstands.1 hstands.2

end Turns

theorem stands_start (j : Job α) : Stands j (start j) [] .nil :=
  ⟨⟨rfl, rfl, rfl, rfl, trivial⟩, .nil _ _, Nat.zero_le _⟩

end Machine

/-- Every parse comes to a tree that spells its bytes. -/
theorem parseStandard_spells {α : Type} (j : Job α) :
    ∃ tree, parseStandard j = some tree ∧ tree.input = j.input ∧
      tree.Spells j.limit.asInner := by
  have hrun : ∀ (fuel : Nat) (m : Machine α) (lvs : List Level) (cur : Nodes),
      Machine.Stands j m lvs cur →
      2 * (j.input.bytes.length - m.cursor) + lvs.length < fuel →
      ∃ tree, run (Machine.turn j) fuel m = some (some tree) ∧ tree.input = j.input ∧
        tree.Spells j.limit.asInner := by
    intro fuel
    induction fuel with
    | zero => intro m lvs cur _ hlt; omega
    | succ fuel ih =>
      intro m lvs cur hm hlt
      cases hm.turn with
      | halts tree ht hin hs => exact ⟨tree, by rw [run, ht], hin, hs⟩
      | goes m' lvs' cur' ht hs hμ =>
        obtain ⟨tree, hr, hin, hsp⟩ := ih m' lvs' cur' hs (by omega)
        exact ⟨tree, by rw [run, ht]; exact hr, hin, hsp⟩
  obtain ⟨tree, hr, hin, hs⟩ := hrun (2 * j.input.bytes.length + 1) (.start j) [] .nil
    (Machine.stands_start j) (by simp [Machine.start])
  exact ⟨tree, by rw [parseStandard, hr]; rfl, hin, hs⟩

end ProtobufEdit.Inspect.Grouped
