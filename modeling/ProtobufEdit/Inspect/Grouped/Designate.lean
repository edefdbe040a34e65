import ProtobufEdit.Inspect.Grouped.Run

/-!
# Designations tell the truth

`record_ref` designates exactly the records that stand whole in the indexed prefix. The group depth
it states is that of the bytes, and the canonical proof asked of it is the canonical cursor's
verdict.
-/

namespace ProtobufEdit.Inspect.Grouped

open Wire Wire.Grouped Varint Base128 Cursor Loop
open Cursor.Grouped (ofBody)
open Inplace.Grouped (Doc)
open Source.Grouped (RecordRef firstPadded)
open Source.Grouped.RecordRef (Designates delimW contentLen)

/-! ## Forests and documents -/

section Documents

variable {bytes : List UInt8} {cut room start mid stop : Nat} {ns kids : Nodes} {r : Met}

theorem IsRecord.kind_ne (h : IsRecord bytes r) : r.kind ≠ .group := by
  obtain ⟨rec, -, -, -, -, hk, -⟩ := h
  rw [hk]
  cases rec.payload <;> nofun

theorem Opens.payloadStart_eq (h : Opens bytes r) : r.payloadStart = r.start + r.tagWidth :=
  if_neg (by rw [h.1]; decide)

/-- A group's span is its start tag, its interior and its end tag. -/
theorem Opens.stop_eq {width : Nat} (h : Opens bytes r) (hd : r.delimWidth = some width) :
    r.stop = r.payloadStart + r.payloadLen + width := by
  rw [h.payloadStart_eq, Met.stop, hd, Option.getD_some]
  omega

/-- A forest that lies on the bytes is a closed document of them. -/
theorem Lies.doc (h : Lies bytes room start ns stop) :
    ∃ d : Doc, d.Closed ∧ d.Lawful .tolerant room ∧ d.nesting = ns.nesting ∧
      (∃ rest, bytes.drop start = d.bytes ++ rest) ∧ start + d.bytes.length = stop := by
  have hrecord : ∀ {room stop : Nat} {r : Met} {kids rest : Nodes} {d : Doc}, IsRecord bytes r →
      d.Closed → d.Lawful .tolerant room → d.nesting = rest.nesting →
      (∃ behind, bytes.drop r.stop = d.bytes ++ behind) → r.stop + d.bytes.length = stop →
      ∃ d : Doc, d.Closed ∧ d.Lawful .tolerant room ∧ d.nesting = (Nodes.node r kids rest).nesting ∧
        (∃ rest, bytes.drop r.start = d.bytes ++ rest) ∧ r.start + d.bytes.length = stop := by
    intro room stop r kids rest d hr hc hl hn ⟨behind, he⟩ hstop
    have hk := hr.kind_ne
    obtain ⟨rec, tail, hrec, hlaw, -, -, htag, hdelim, hlen⟩ := hr
    have hend := IsRecord.stop_eq htag hdelim hlen
    refine ⟨.record rec d, hc, ⟨hlaw, hl⟩, ?_, ⟨behind, ?_⟩, ?_⟩
    · rw [Nodes.nesting, if_neg hk, Nat.zero_max, ← hn]
      rfl
    · rw [Doc.bytes, List.append_assoc, ← he, hend, drop_of_drop_eq hrec]
      exact hrec
    · rw [Doc.bytes, List.length_append]
      omega
  induction h with
  | nil room pos => exact ⟨.nil, trivial, trivial, rfl, ⟨_, rfl⟩, rfl⟩
  | leaf hs hr _ ih =>
    subst hs
    obtain ⟨d, hc, hl, hn, hrest, hstop⟩ := ih
    exact hrecord hr hc hl hn hrest hstop
  | payload hs hr _ _ _ _ _ ih =>
    subst hs
    obtain ⟨d, hc, hl, hn, hrest, hstop⟩ := ih
    exact hrecord hr hc hl hn hrest hstop
  | @group room _ _ r kids rest hs ho hclose hroom _ _ ihk ih =>
    subst hs
    obtain ⟨d, hc, hl, hn, ⟨behind, he⟩, hstop⟩ := ih
    obtain ⟨inner, hic, hil, hin, ⟨tail, hinner⟩, hilen⟩ := ihk
    have hbody := ho.payloadStart_eq
    obtain ⟨width, hd, closer, past, hclo, hct, rfl⟩ := hclose
    have hend := ho.stop_eq hd
    obtain ⟨hk, opener, front, hopen, hot, hw⟩ := ho
    refine ⟨.group r.field opener inner closer d, ⟨hic, hc⟩, ⟨hroom, hot, hct, hil, hl⟩, ?_,
      ⟨behind, ?_⟩, ?_⟩
    · rw [Nodes.nesting, if_pos hk, ← hin, ← hn]
      rfl
    · have hfront := drop_of_drop_eq hopen
      rw [← hw, ← hbody, hinner] at hfront
      have htail := drop_of_drop_eq hinner
      rw [hilen, hclo] at htail
      have hpast := drop_of_drop_eq hclo
      rw [← hend, he] at hpast
      simp only [Doc.bytes, List.append_assoc]
      rw [hopen, ← hfront, ← htail, ← hpast]
    · simp only [Doc.bytes, List.length_append]
      omega

/-- One complete record stands at a position, inside a stretch of the bytes that ends at `cut`. -/
def CompleteAt (bytes : List UInt8) (cut pos : Nat) : Prop :=
  ∃ (d : Doc) (rest : List UInt8) (room : Nat), d.Single ∧ d.Closed ∧ d.Lawful .tolerant room ∧
    (bytes.take cut).drop pos = d.bytes ++ rest

/-- An end tag stands behind a closed document at a position. -/
def EndsAt (bytes : List UInt8) (cut pos : Nat) : Prop :=
  ∃ (inner : Doc) (field : FieldNumber) (closer rest : List UInt8) (room : Nat), inner.Closed ∧
    inner.Lawful .tolerant room ∧ IsTag .tolerant field 4 closer ∧
      (bytes.take cut).drop pos = inner.bytes ++ (closer ++ rest)

theorem drop_take {u v : List UInt8} (h : bytes.drop start = u ++ v) (cut : Nat)
    (hcut : start + u.length ≤ cut) :
    (bytes.take cut).drop start = u ++ v.take (cut - (start + u.length)) := by
  rw [List.drop_take, h, List.take_append]
  have hlen : cut - start - u.length = cut - (start + u.length) := by omega
  rw [List.take_of_length_le (by omega), hlen]

theorem drop_of_take {u v : List UInt8} (h : (bytes.take cut).drop start = u ++ v) :
    ∃ w, bytes.drop start = u ++ w := by
  rw [List.drop_take] at h
  refine ⟨v ++ (bytes.drop start).drop (cut - start), ?_⟩
  rw [← List.append_assoc, ← h, List.take_append_drop]

/-- Whole records at the front do not help to find an end tag. -/
theorem Lies.skip (h : Lies bytes room start ns mid) (hmid : mid ≤ cut)
    (he : EndsAt bytes cut start) : EndsAt bytes cut mid := by
  obtain ⟨d, hdc, hdl, -, ⟨rest, hd⟩, hlen⟩ := h.doc
  obtain ⟨inner, field, closer, tail, room', hic, hil, hct, hinner⟩ := he
  have hfront := drop_take hd cut (by omega)
  rw [hlen] at hfront
  have hbehind := drop_of_drop_eq hfront
  rw [hlen] at hbehind
  rw [hinner, ← hbehind] at hfront
  rcases Doc.common hdc hic hdl hil hfront.symm with ⟨c, hc, hcl, -, hx⟩ | ⟨c, hc, hcl, -, hy⟩
  · exact ⟨c, field, closer, tail, room', hc, hcl, hct, hx⟩
  · have hnil := Doc.closer_nil hy hct hc hcl
    subst hnil
    exact ⟨.nil, field, closer, tail, room, trivial, trivial, hct, hy.symm⟩

/-- Nor is there one where a start tag stands, but inside the group it opens. -/
theorem Opens.inside (h : Opens bytes r) (hcut : r.payloadStart ≤ cut)
    (he : EndsAt bytes cut r.start) : EndsAt bytes cut r.payloadStart := by
  have hbody := h.payloadStart_eq
  obtain ⟨-, opener, rest, hopen, hot, hw⟩ := h
  obtain ⟨inner, field, closer, tail, room', hic, hil, hct, hinner⟩ := he
  have hfront := drop_take hopen cut (by omega)
  rw [hinner] at hfront
  cases inner with
  | nil =>
    rw [Doc.bytes, List.nil_append] at hfront
    obtain ⟨-, -, hcode, -⟩ := Doc.tag_inj hfront hct hot
    exact absurd hcode (by decide)
  | crossed => exact hic.elim
  | record rec rest' =>
    rw [Doc.bytes, List.append_assoc] at hfront
    exact (Doc.record_ne_tag hfront hil.1 hot (.inl rfl)).elim
  | group f o i c d =>
    simp only [Doc.bytes, List.append_assoc] at hfront hinner
    obtain ⟨-, ho, hc, hi, -⟩ := hil
    obtain ⟨rfl, -, -, -⟩ := Doc.tag_inj hfront ho hot
    have hin := drop_of_drop_eq hinner
    rw [← hw, ← hbody] at hin
    exact ⟨i, f, c, _, _, hic.1, hi, hc, hin⟩

/-- No end tag stands behind a LEN that runs past the cut. -/
theorem IsRecord.swallows (h : IsRecord bytes r) (hk : r.kind = .len)
    (hbody : r.payloadStart ≤ cut) (hstop : cut ≤ r.stop) : ¬ EndsAt bytes cut r.start := by
  rintro ⟨inner, field, closer, tail, room', hic, hil, hct, hinner⟩
  obtain ⟨rec, rest, hrec, hlaw, -, hkind, htag, hdelim, hlen⟩ := h
  have hend := IsRecord.stop_eq htag hdelim hlen
  have hclo := hct.admits.isWord.length_pos
  have hle : r.start + rec.tag.length ≤ cut := by
    rw [Met.payloadStart, if_pos hk] at hbody
    omega
  have hrec' : bytes.drop r.start = rec.tag ++ (rec.payload.bytes ++ rest) := by
    rw [hrec, Record.bytes, List.append_assoc]
  have hfront := drop_take hrec' cut hle
  have hcode : rec.payload.kind.low3 ≠ 3 ∧ rec.payload.kind.low3 ≠ 4 := by
    cases rec.payload.kind <;> decide
  rw [hinner] at hfront
  cases inner with
  | nil =>
    rw [Doc.bytes, List.nil_append] at hfront
    obtain ⟨-, -, hc, -⟩ := Doc.tag_inj hfront hct hlaw.isTag
    exact hcode.2 hc.symm
  | crossed => exact hic.elim
  | group f o i c d =>
    simp only [Doc.bytes, List.append_assoc] at hfront
    obtain ⟨-, -, hc, -⟩ := Doc.tag_inj hfront hil.2.1 hlaw.isTag
    exact hcode.1 hc.symm
  | record rec' d =>
    rw [Doc.bytes, List.append_assoc] at hinner
    obtain ⟨w, hsame⟩ := drop_of_take hinner
    rw [hrec] at hsame
    obtain ⟨rfl, -⟩ := Doc.record_inj hsame hlaw hil.1
    have hlength := congrArg List.length hinner
    simp only [List.length_append, List.length_drop, List.length_take] at hlength
    omega

/-- A torn forest has no end tag to find. -/
theorem Torn.unclosed (h : Torn bytes cut room start ns) : ¬ EndsAt bytes cut start := by
  induction h with
  | whole h =>
    intro he
    obtain ⟨inner, field, closer, tail, room', hic, hil, hct, hinner⟩ := h.skip (Nat.le_refl _) he
    have hclo := hct.admits.isWord.length_pos
    have hlength := congrArg List.length hinner
    simp only [List.length_append, List.length_drop, List.length_take] at hlength
    omega
  | payload hbefore hr hk hstop _ hkids _ =>
    intro he
    have hlt := hr.lt_stop
    have hle := hkids.le
    have hmid := (hr.payloadStart_len hk).1
    exact hr.swallows hk hle hstop (hbefore.skip (by omega) he)
  | @group _ _ _ _ r hbefore ho _ _ hcut hkids ih =>
    intro he
    have hbody := ho.payloadStart_eq
    have hle := hkids.le
    exact ih (ho.inside hle (hbefore.skip (by omega) he))

/-- A group that a stopped parse left open is not complete. -/
theorem Torn.incomplete (h : Torn bytes cut room r.payloadStart kids) (ho : Opens bytes r) :
    ¬ CompleteAt bytes cut r.start := by
  rintro ⟨d, rest, room', hs, hc, hl, he⟩
  have hle := h.le
  have hbody := ho.payloadStart_eq
  obtain ⟨-, opener, behind, hopen, hot, hw⟩ := ho
  have hfront := drop_take hopen cut (by omega)
  rw [he] at hfront
  cases d with
  | nil => exact hs.elim
  | crossed => exact hc.elim
  | record rec d =>
    rw [Doc.bytes, List.append_assoc] at hfront
    exact (Doc.record_ne_tag hfront hl.1 hot (.inl rfl)).elim
  | group f o i c d =>
    simp only [Doc.bytes, List.append_assoc] at hfront he
    obtain ⟨-, ho, hclo, hi, -⟩ := hl
    obtain ⟨rfl, -, -, -⟩ := Doc.tag_inj hfront ho hot
    have hin := drop_of_drop_eq he
    rw [← hw, ← hbody] at hin
    exact h.unclosed ⟨i, f, c, _, _, hc.1, hi, hclo, hin⟩

end Documents

/-! ## Rows and records -/

/-- A record of the forest, with the records inside it. -/
inductive Held (r : Met) (kids : Nodes) : Nodes → Prop where
  | here (rest : Nodes) : Held r kids (.node r kids rest)
  | inside {r' : Met} {ns rest : Nodes} : Held r kids ns → Held r kids (.node r' ns rest)
  | behind {r' : Met} {ns rest : Nodes} : Held r kids rest → Held r kids (.node r' ns rest)

/-- Every row is a record's, and behind it stand the rows of the records inside it. -/
theorem Nodes.row_at (ns : Nodes) (parent : Option Nat) (base : Nat) {k : Nat} (h : k < ns.size) :
    ∃ r kids p pre post, Held r kids ns ∧ pre.length = k ∧
      ns.rows parent base =
        pre ++ (r.row p kids.size :: kids.rows (some (base + k)) (base + k + 1)) ++ post := by
  induction ns generalizing parent base k with
  | nil => exact absurd h (Nat.not_lt_zero k)
  | node r kids rest ihk ih =>
    rw [size] at h
    rcases Nat.eq_zero_or_pos k with rfl | hpos
    · exact ⟨r, kids, parent, [], rest.rows parent (base + 1 + kids.size), .here rest, rfl, rfl⟩
    by_cases hk : k - 1 < kids.size
    · obtain ⟨r', ks, p, pre, post, hhas, hlen, hrows⟩ := ihk (some base) (base + 1) hk
      have hbase : base + 1 + (k - 1) = base + k := by omega
      rw [hbase] at hrows
      refine ⟨r', ks, p, r.row parent kids.size :: pre,
        post ++ rest.rows parent (base + 1 + kids.size), .inside hhas, ?_, ?_⟩
      · rw [List.length_cons]
        omega
      · rw [rows, hrows]
        simp only [List.cons_append, List.append_assoc]
    · obtain ⟨r', ks, p, pre, post, hhas, hlen, hrows⟩ :=
        ih parent (base + 1 + kids.size) (show k - 1 - kids.size < rest.size by omega)
      have hbase : base + 1 + kids.size + (k - 1 - kids.size) = base + k := by omega
      rw [hbase] at hrows
      refine ⟨r', ks, p, r.row parent kids.size :: kids.rows (some base) (base + 1) ++ pre, post,
        .behind hhas, ?_, ?_⟩
      · simp only [List.cons_append, List.length_cons, List.length_append, rows_length]
        omega
      · rw [rows, hrows]
        simp only [List.cons_append, List.append_assoc]

/-- What is known of a record of a parse, by its row. -/
inductive Known (bytes : List UInt8) (cut limit : Nat) (r : Met) (kids : Nodes) : Prop where
  | record : IsRecord bytes r → Known bytes cut limit r kids
  | group (room : Nat) : Opens bytes r → Closes bytes r → 0 < room → room ≤ limit →
      Lies bytes (room - 1) r.payloadStart kids (r.payloadStart + r.payloadLen) → r.stop ≤ cut →
      Known bytes cut limit r kids
  | torn (room : Nat) : Opens bytes r → r.delimWidth = none →
      r.payloadStart + r.payloadLen = cut → Torn bytes cut room r.payloadStart kids →
      Known bytes cut limit r kids

section Known

variable {bytes : List UInt8} {cut room limit start stop : Nat} {ns before kids : Nodes} {r : Met}

theorem held_append (h : Held r kids (before.append ns)) :
    Held r kids before ∨ Held r kids ns := by
  induction before with
  | nil => exact .inr h
  | node r' ks rest _ ih =>
    cases h with
    | here => exact .inl (.here rest)
    | inside h => exact .inl (.inside h)
    | behind h => exact (ih h).imp_left .behind

theorem Lies.known (h : Lies bytes room start ns stop) (hm : Held r kids ns) (hroom : room ≤ limit)
    (hcut : stop ≤ cut) : Known bytes cut limit r kids := by
  induction h with
  | nil => cases hm
  | leaf hs hr _ ih =>
    cases hm with
    | here => exact .record hr
    | inside hm => cases hm
    | behind hm => exact ih hm hroom hcut
  | payload hs hr hk hpos hkids hrest ihk ih =>
    cases hm with
    | here => exact .record hr
    | inside hm => exact ihk hm (by omega) (Nat.le_trans hrest.le hcut)
    | behind hm => exact ih hm hroom hcut
  | @group room' _ _ r' _ _ hs ho hc hpos hkids hrest ihk ih =>
    have hle := hrest.le
    cases hm with
    | here => exact .group room' ho hc hpos hroom hkids (Nat.le_trans hle hcut)
    | inside hm =>
      obtain ⟨width, hd, -⟩ := hc
      have hend := ho.stop_eq hd
      exact ihk hm (by omega) (by omega)
    | behind hm => exact ih hm hroom hcut

theorem Torn.known (h : Torn bytes cut room start ns) (hm : Held r kids ns) (hroom : room ≤ limit) :
    Known bytes cut limit r kids := by
  induction h with
  | whole h => exact h.known hm hroom (Nat.le_refl _)
  | payload hbefore hr hk hstop hpos hkids ih =>
    have hle := hkids.le
    have hmid := (hr.payloadStart_len hk).1
    rcases held_append hm with hm | hm
    · exact hbefore.known hm hroom (by omega)
    · cases hm with
      | here => exact .record hr
      | inside hm => exact ih hm (by omega)
      | behind hm => cases hm
  | @group room' _ _ _ r' hbefore ho hd hpos hcut hkids ih =>
    have hle := hkids.le
    have hbody := ho.payloadStart_eq
    rcases held_append hm with hm | hm
    · exact hbefore.known hm hroom (by omega)
    · cases hm with
      | here => exact .torn (room' - 1) ho hd hcut hkids
      | inside hm => exact ih hm (by omega)
      | behind hm => cases hm

end Known

/-! ## The nesting a designation states -/

section Nesting

variable {table : List Row} {root q base : Nat} {o : Option Nat}

/-- What the climb from a container comes to: the root over so many groups, or a LEN. -/
def Climbs (table : List Row) (root q : Nat) (o : Option Nat) : Prop :=
  ∀ (fuel depth : Nat), q < fuel + root →
    Tree.chain table root fuel (some q) depth = some (o.map (depth + ·))

theorem climbs_root (table : List Row) (root : Nat) : Climbs table root root (some 0) := by
  intro fuel depth hf
  cases fuel with
  | zero => omega
  | succ fuel => exact if_pos rfl

/-- A climb goes on through a group, and ends at a LEN. -/
theorem Climbs.through (h : Climbs table root q o) {b : Nat} {row : Row} (hq : root ≤ q)
    (hb : q < b) (hrow : table[b]? = some row) (hp : row.parent = some q) :
    Climbs table root b (if row.kind = .group then o.map (1 + ·) else none) := by
  intro fuel depth hf
  cases fuel with
  | zero => omega
  | succ fuel =>
    rw [Tree.chain, if_neg (by omega), hrow]
    simp only [hp]
    by_cases hk : row.kind = .group
    · rw [if_neg (not_not.mpr hk), if_pos hk, h fuel (depth + 1) (by omega)]
      cases o with
      | none => rfl
      | some c =>
        show some (some (depth + 1 + c)) = some (some (depth + (1 + c)))
        rw [Nat.add_assoc]
    · rw [if_pos hk, if_neg hk]
      rfl

/-- What a forest's groups add to the deepest chain. -/
def deepened (o : Option Nat) (nesting deepest : Nat) : Nat :=
  match o with
  | none => deepest
  | some c => if nesting = 0 then deepest else max deepest (nesting + 1 + c)

/-- One row of the subtree. -/
theorem Climbs.deepen (h : Climbs table root q o) {b : Nat} {row : Row}
    (hrow : table[b]? = some row) (hp : row.parent = some q) (deepest : Nat) (hb : q < b) :
    Tree.deepen table root deepest b =
      some (if row.kind = .group then deepened o 1 deepest else deepest) := by
  have hlen : b < table.length := (List.getElem?_eq_some_iff.mp hrow).1
  unfold Tree.deepen
  rw [hrow]
  simp only [hp]
  by_cases hk : row.kind = .group
  · rw [if_neg (not_not.mpr hk), if_pos hk, h table.length 2 (by omega)]
    cases o with
    | none => rfl
    | some c =>
      show some (if deepest < 2 + c then 2 + c else deepest) = some (max deepest (1 + 1 + c))
      congr 1
      split <;> omega
  · rw [if_pos hk, if_neg hk]

/-- The subtree's rows, one after the other, find the deepest chain of groups. -/
theorem deepen_forest (ns : Nodes) (hclimb : Climbs table root q o) (hq : root ≤ q) (hb : q < base)
    (htable : ∀ i < ns.size, table[base + i]? = (ns.rows (some q) base)[i]?) (deepest : Nat) :
    (List.range' base ns.size).foldlM (Tree.deepen table root) deepest =
      some (deepened o ns.nesting deepest) := by
  induction ns generalizing q base o deepest with
  | nil =>
    show some deepest = _
    cases o <;> rfl
  | node r kids rest ihk ih =>
    have hrow : table[base]? = some (r.row (some q) kids.size) :=
      htable 0 (by rw [Nodes.size]; omega)
    have hlen : base < table.length := (List.getElem?_eq_some_iff.mp hrow).1
    have hkids : ∀ i < kids.size, table[base + 1 + i]? =
        (kids.rows (some base) (base + 1))[i]? := by
      intro i hi
      have h := htable (i + 1) (by rw [Nodes.size]; omega)
      rw [Nodes.rows, List.getElem?_cons_succ,
        List.getElem?_append_left (by rw [Nodes.rows_length]; exact hi)] at h
      rw [← h]
      congr 1
      omega
    have hrest : ∀ i < rest.size, table[base + 1 + kids.size + i]? =
        (rest.rows (some q) (base + 1 + kids.size))[i]? := by
      intro i hi
      have h := htable (kids.size + i + 1) (by rw [Nodes.size]; omega)
      rw [Nodes.rows, List.getElem?_cons_succ,
        List.getElem?_append_right (by rw [Nodes.rows_length]; omega), Nodes.rows_length,
        Nat.add_sub_cancel_left] at h
      rw [← h]
      congr 1
      omega
    have hthrough := hclimb.through hq hb hrow rfl
    have hhead := hclimb.deepen hrow rfl deepest hb
    have hrange : List.range' base (Nodes.node r kids rest).size =
        base :: (List.range' (base + 1) kids.size ++
          List.range' (base + 1 + kids.size) rest.size) := by
      rw [Nodes.size, Nat.add_assoc, Nat.add_comm 1, List.range'_succ, List.range'_append_1]
    rw [hrange, List.foldlM_cons, hhead, Option.bind_eq_bind, Option.bind_some, List.foldlM_append,
      ihk hthrough (by omega) (Nat.lt_succ_self _) hkids, Option.bind_eq_bind, Option.bind_some,
      ih hclimb hq (by omega) hrest]
    congr 1
    rw [Nodes.nesting]
    change deepened o rest.nesting (deepened (if r.kind = .group then o.map (1 + ·) else none)
      kids.nesting (if r.kind = .group then deepened o 1 deepest else deepest)) = _
    cases o with
    | none => by_cases hk : r.kind = .group <;> simp [hk, deepened]
    | some c =>
      by_cases hk : r.kind = .group
      · simp only [hk, if_true, deepened, Option.map_some, Nat.one_ne_zero, if_false]
        split_ifs <;> omega
      · simp only [hk, if_false, deepened, Nat.zero_max]

/-- A group's designation states one more than the groups inside it nest. -/
theorem structuralNesting_eq {tree : Tree} {r : Met} {kids : Nodes} {p : Option Nat}
    {pre post : List Row}
    (h : tree.rows = pre ++ (r.row p kids.size :: kids.rows (some pre.length) (pre.length + 1)) ++
      post) :
    tree.structuralNesting pre.length =
      some (if r.kind = .group then kids.nesting + 1 else 0) := by
  have hget : tree.rows[pre.length]? = some (r.row p kids.size) := by
    rw [h, List.append_assoc, List.getElem?_append_right le_rfl, Nat.sub_self]
    rfl
  have htable : ∀ i < kids.size, tree.rows[pre.length + 1 + i]? =
      (kids.rows (some pre.length) (pre.length + 1))[i]? := by
    intro i hi
    have hsub : pre.length + 1 + i - pre.length = i + 1 := by omega
    rw [h, List.append_assoc, List.getElem?_append_right (by omega), hsub, List.cons_append,
      List.getElem?_cons_succ, List.getElem?_append_left (by rw [Nodes.rows_length]; exact hi)]
  have hfold := deepen_forest kids (climbs_root tree.rows pre.length) le_rfl (Nat.lt_succ_self _)
    htable 1
  unfold Tree.structuralNesting
  rw [hget]
  change (if r.kind ≠ .group then some 0 else
    (List.range' (pre.length + 1) kids.size).foldlM (Tree.deepen tree.rows pre.length) 1) = _
  by_cases hk : r.kind = .group
  · rw [if_neg (not_not.mpr hk), if_pos hk, hfold]
    congr 1
    unfold deepened
    simp only
    split_ifs <;> omega
  · rw [if_pos hk, if_neg hk]

end Nesting

/-! ## The designations of a tree -/

/-- What a designation says of its row is so: its bytes are one complete record or group, and its
group depth is theirs. -/
structure Truthful (bytes : List UInt8) (limit : DepthLimit) (row : Row) (ref : RecordRef)
    (d : Doc) : Prop where
  single : d.Single
  closed : d.Closed
  lawful : d.Lawful .tolerant limit.asInner
  spells : ref.bytes = d.bytes
  span : ref.bytes = (bytes.drop row.start).take (row.stop - row.start)
  field : ref.field = row.field
  kind : ref.kind = row.kind
  depth : ref.groupDepth = d.nesting
  scalar : row.kind ≠ .group → ref.groupDepth = 0

/-- What is asked of a designation is what the canonical cursor finds in its bytes, entering every
group and no LEN: it is granted where the cursor walks them to their end, and refused at the first
word that is not minimal. -/
def CanonicallyJudged (ref : RecordRef) (d : Doc) : Prop :=
  ∃ verdict, ref.tryCanonical = some verdict ∧
    (∀ limit : DepthLimit, ref.groupDepth ≤ limit.asInner →
      ∃ c, Cursor.Grouped.Cursor.over ref.bytes limit = some c ∧
        ((∃ proved, verdict = .ok proved) ↔
          Cursor.Grouped.exhaust .canonicalMinimal c = some none)) ∧
    ∀ fault, verdict = .error fault → ∃ w ∈ Source.Grouped.words d 0, w.padded = true ∧
      (∀ w' ∈ Source.Grouped.words d 0, w'.pos < w.pos → w'.padded = false) ∧
      fault = .standardMismatch w.pos w.stage

theorem canonicallyJudged {ref : RecordRef} {d : Doc} {room : Nat} (h : Designates ref d)
    (hc : d.Closed) (hl : d.Lawful .tolerant room) (hb : ref.bytes = d.bytes)
    (hn : ref.groupDepth = d.nesting) (hle : d.bytes.length ≤ PayloadLen.max) :
    CanonicallyJudged ref d := by
  refine ⟨_, Source.Grouped.RecordRef.tryCanonical_eq h hc hl, ?_, ?_⟩
  · intro limit hlimit
    rw [hn] at hlimit
    obtain ⟨c, hover, hexhaust⟩ := Source.Grouped.Canonical.exhaust_eq hc (hl.refit hc hlimit) hle
    refine ⟨c, by rw [hb]; exact hover, ?_⟩
    rw [hexhaust]
    cases firstPadded d 0 with
    | none => exact ⟨fun _ => rfl, fun _ => ⟨_, rfl⟩⟩
    | some w =>
      constructor
      · rintro ⟨proved, e⟩
        cases e
      · intro e
        cases e
  · intro fault e
    cases hf : firstPadded d 0 with
    | none => rw [hf] at e; cases e
    | some w =>
      rw [hf] at e
      cases e
      obtain ⟨hmem, hpad, hmin⟩ := Source.Grouped.firstPadded_spec hc hl hf
      exact ⟨w, hmem, hpad, hmin, rfl⟩

section Designations

variable {tree : Tree} {limit : DepthLimit} {id : Nat} {row : Row}

/-- What `record_ref` answers for a row. -/
def Answers (tree : Tree) (limit : DepthLimit) (row : Row)
    (answer : Except Source.Grouped.Fault RecordRef) : Prop :=
  ((∃ fault, answer = .error fault) ↔ tree.indexedEnd < row.stop ∨
    row.kind = .group ∧ ¬ CompleteAt tree.input.bytes tree.indexedEnd row.start) ∧
  (∀ fault, answer = .error fault → fault = .incompleteRecord tree.indexedEnd) ∧
  ∀ ref, answer = .ok ref →
    ∃ d, Truthful tree.input.bytes limit row ref d ∧ CanonicallyJudged ref d

theorem answers_refused {fault : Source.Grouped.Fault} (hf : fault = .incompleteRecord tree.indexedEnd)
    (h : tree.indexedEnd < row.stop ∨
      row.kind = .group ∧ ¬ CompleteAt tree.input.bytes tree.indexedEnd row.start) :
    Answers tree limit row (.error fault) := by
  refine ⟨⟨fun _ => h, fun _ => ⟨fault, rfl⟩⟩, ?_, nofun⟩
  intro fault' e
  cases e
  exact hf

theorem answers_granted {ref : RecordRef} {d : Doc} (ht : Truthful tree.input.bytes limit row ref d)
    (hd : Designates ref d) (hstop : row.stop ≤ tree.indexedEnd)
    (hcomplete : row.kind = .group → CompleteAt tree.input.bytes tree.indexedEnd row.start) :
    Answers tree limit row (.ok ref) := by
  have hle : d.bytes.length ≤ PayloadLen.max := by
    have := tree.input.le_max
    rw [← ht.spells, ht.span, List.length_take, List.length_drop]
    unfold PayloadLen.max
    omega
  refine ⟨⟨fun ⟨_, e⟩ => (nomatch e), ?_⟩, nofun, ?_⟩
  · rintro (h | ⟨hk, h⟩)
    · omega
    · exact absurd (hcomplete hk) h
  · intro ref' e
    cases e
    exact ⟨d, ht, canonicallyJudged hd ht.closed ht.lawful ht.spells ht.depth hle⟩

theorem Tree.Spells.answers (h : tree.Spells limit.asInner) (hrow : tree.rows[id]? = some row) :
    ∃ answer, tree.recordRef id = some answer ∧ Answers tree limit row answer := by
  obtain ⟨ns, hrows, htorn⟩ := h
  have hid : id < ns.size := by
    rw [← Nodes.rows_length none 0 ns, ← hrows]
    exact (List.getElem?_eq_some_iff.mp hrow).1
  obtain ⟨r, kids, p, pre, post, hheld, rfl, hsplit⟩ := ns.row_at none 0 hid
  rw [Nat.zero_add, ← hrows] at hsplit
  have hnesting := structuralNesting_eq hsplit
  have hget : tree.rows[pre.length]? = some (r.row p kids.size) := by
    rw [hsplit, List.append_assoc, List.getElem?_append_right le_rfl, Nat.sub_self]
    rfl
  obtain rfl : r.row p kids.size = row := Option.some.inj (hget.symm.trans hrow)
  -- refused by the span or the missing end tag, granted otherwise
  have hanswer : tree.recordRef pre.length =
      if tree.indexedEnd < r.stop ∨ (r.kind = .group ∧ r.delimWidth = none) then
        some (.error (.incompleteRecord tree.indexedEnd))
      else some (.ok ⟨(tree.input.bytes.drop r.start).take (r.stop - r.start), r.field, r.kind,
        ⟨r.tagWidth, r.delimWidth, r.payloadLen⟩, false,
        if r.kind = .group then kids.nesting + 1 else 0⟩) := by
    rw [Tree.recordRef, hget, hnesting]
    rfl
  rw [hanswer]
  have htake : ∀ {u v : List UInt8}, tree.input.bytes.drop r.start = u ++ v →
      r.stop = r.start + u.length →
      (tree.input.bytes.drop r.start).take (r.stop - r.start) = u := by
    intro u v he hstop
    rw [he, hstop, Nat.add_sub_cancel_left, List.take_left]
  cases htorn.known hheld le_rfl with
  | record hr =>
    have hk := hr.kind_ne
    by_cases hcut : tree.indexedEnd < r.stop
    · rw [if_pos (.inl hcut)]
      exact ⟨_, rfl, answers_refused rfl (.inl hcut)⟩
    rw [if_neg (by rintro (h | ⟨h, -⟩); exacts [hcut h, hk h]), if_neg hk]
    refine ⟨_, rfl, ?_⟩
    obtain ⟨rec, rest, he, hlaw, hfield, hkind, htag, hdelim, hlen⟩ := hr
    have hspan := htake he (IsRecord.stop_eq htag hdelim hlen)
    refine answers_granted (d := .record rec .nil)
      ⟨trivial, trivial, ⟨hlaw, trivial⟩, ?_, rfl, rfl, rfl, rfl, fun _ => rfl⟩ ?_ (by
        show r.stop ≤ _
        omega) (fun h => absurd h hk)
    · rw [hspan, Doc.bytes, Doc.bytes, List.append_nil]
    · rw [hspan, hfield, hkind, htag, hdelim, hlen]
      exact .record rec 0
  | torn room ho hd hcut htorn =>
    rw [if_pos (.inr ⟨ho.1, hd⟩)]
    exact ⟨_, rfl, answers_refused rfl (.inr ⟨ho.1, htorn.incomplete ho⟩)⟩
  | group room ho hclose hpos hroom hkids hstop =>
    obtain ⟨inner, hic, hil, hin, ⟨tail, hinner⟩, hilen⟩ := hkids.doc
    have hbody := ho.payloadStart_eq
    obtain ⟨width, hd, closer, past, hclo, hct, rfl⟩ := hclose
    have hend := ho.stop_eq hd
    obtain ⟨hk, opener, front, hopen, hot, hw⟩ := ho
    have hnone : ¬ (tree.indexedEnd < r.stop ∨ (r.kind = .group ∧ r.delimWidth = none)) := by
      rintro (h | ⟨-, h⟩)
      · omega
      · rw [hd] at h
        cases h
    rw [if_neg hnone, if_pos hk]
    refine ⟨_, rfl, ?_⟩
    obtain ⟨d, hdoc⟩ : ∃ d : Doc, d = .group r.field opener inner closer .nil := ⟨_, rfl⟩
    have hclosed : d.Closed := by rw [hdoc]; exact ⟨hic, trivial⟩
    have hlawful : d.Lawful .tolerant limit.asInner := by
      have hinner : inner.Lawful .tolerant (limit.asInner - 1) :=
        hil.refit hic (Nat.le_trans (Doc.nesting_le hic hil) (by omega))
      rw [hdoc]
      exact ⟨by omega, hot, hct, hinner, trivial⟩
    have hbytes : d.bytes = opener ++ (inner.bytes ++ closer) := by
      rw [hdoc]
      simp only [Doc.bytes, List.append_assoc, List.append_nil]
    have he : tree.input.bytes.drop r.start = d.bytes ++ past := by
      have hfront := drop_of_drop_eq hopen
      rw [← hw, ← hbody, hinner] at hfront
      have htail := drop_of_drop_eq hinner
      rw [hilen, hclo] at htail
      rw [hopen, ← hfront, ← htail, hbytes]
      simp only [List.append_assoc]
    have hlen : r.stop = r.start + d.bytes.length := by
      rw [hbytes]
      simp only [List.length_append]
      omega
    have hspan := htake he hlen
    refine answers_granted (d := d)
      ⟨by rw [hdoc]; trivial, hclosed, hlawful, hspan, rfl, rfl, rfl, ?_, fun h => absurd hk h⟩ ?_
      hstop fun _ => ⟨d, _, limit.asInner, by rw [hdoc]; trivial, hclosed, hlawful,
        drop_take he tree.indexedEnd (by omega)⟩
    · rw [hdoc, ← hin]
      simp [Doc.nesting]
    · have hpl : r.payloadLen = inner.bytes.length := by omega
      rw [hspan, hk, hw, hd, hpl, hdoc]
      exact .group r.field opener inner closer _

end Designations

/-- Of every row of every tree, faulted and clipped ones included: the designation is refused
exactly where the record does not stand whole in the indexed prefix, and else tells the truth. -/
theorem designations_truthful {α : Type} (j : Job α) :
    ∃ tree, parseStandard j = some tree ∧ tree.input = j.input ∧
      ∀ id row, tree.rows[id]? = some row →
        ∃ answer, tree.recordRef id = some answer ∧ Answers tree j.limit row answer := by
  obtain ⟨tree, hparse, hin, hspells⟩ := parseStandard_spells j
  exact ⟨tree, hparse, hin, fun id row hrow => hspells.answers hrow⟩

end ProtobufEdit.Inspect.Grouped
