import ProtobufEdit.Select.Grouped

/-!
# The committed document

What a selection reads of a document: every group, and the LEN payloads some path goes on
through, up to the first refusal. `Tree` is its shape, `Lawful` says which trees stand for
bytes, and `selected` is what the paths select of it, in the order the records complete.
-/

namespace ProtobufEdit.Select.Grouped

open Wire Wire.Grouped ProtobufEdit.Path Cursor
open Cursor.Grouped (WireBreach recordBreach)

/-! ## Trees -/

/-- A committed document. The last four shapes are cut short by a refusal, and what stands
behind it is unread. -/
inductive Tree where
  | nil
  /-- A scalar, or a LEN record whose payload stays closed. -/
  | leaf (r : Record) (rest : Tree)
  | node (r : Record) (inner rest : Tree)
  | group (field : FieldNumber) (opener : List UInt8) (inner : Tree) (closer : List UInt8)
      (rest : Tree)
  /-- No construct stands here. -/
  | refused (offset : Nat) (breach : WireBreach) (unread : List UInt8)
  /-- A payload past the budget. -/
  | deep (r : Record) (unread : List UInt8)
  /-- A payload that is cut short. -/
  | sunk (r : Record) (inner : Tree) (unread : List UInt8)
  /-- A group that is cut short. -/
  | torn (field : FieldNumber) (opener : List UInt8) (inner : Tree)
  deriving DecidableEq, Repr

/-- Where a part of a document stands: the containers entered (outermost first), the group its
end tag closes, and how many containers may still be entered. -/
structure Scope where
  chain : List FieldNumber
  opened : Option FieldNumber
  room : Nat
  deriving DecidableEq, Repr

def Scope.enter (s : Scope) (field : FieldNumber) (opened : Option FieldNumber) : Scope :=
  ⟨s.chain ++ [field], opened, s.room - 1⟩

/-- What is wrong with the bytes as the head of a construct: where, and which contract. -/
def refusal (standard : Standard) (s : Scope) (bytes : List UInt8) : Option (Nat × WireBreach) :=
  if bytes = [] then s.opened.map fun _ => (0, .grouping)
  else
    match readHead standard bytes 0 with
    | .error (offset, fault) => some (offset, recordBreach fault)
    | .ok (field, code, tagW) =>
      match classify code with
      | .record .varint => body tagW (readBody standard (bytes.drop tagW) 0 field .varint)
      | .record .i64 => body tagW (readBody standard (bytes.drop tagW) 0 field .i64)
      | .record .i32 => body tagW (readBody standard (bytes.drop tagW) 0 field .i32)
      | .record .len => body tagW (readBody standard (bytes.drop tagW) 0 field .len)
      | .record .group => if s.room = 0 then some (0, .depth) else none
      | .groupEnd => if s.opened = some field then none else some (0, .grouping)
      | .unassigned => some (0, .tag)
where
  body (tagW : Nat) : Except (Nat × RecordFault) Body → Option (Nat × WireBreach)
    | .error (offset, fault) => some (tagW + offset, recordBreach fault)
    | .ok _ => none

/-- A record's interior, where it is a payload. -/
def interior (r : Record) : Option (List UInt8) :=
  match r.payload with
  | .len _ payload => some payload
  | _ => none

namespace Tree

def bytes : Tree → List UInt8
  | nil => []
  | leaf r rest => r.bytes ++ rest.bytes
  | node r _ rest => r.bytes ++ rest.bytes
  | group _ opener inner closer rest => opener ++ inner.bytes ++ closer ++ rest.bytes
  | refused _ _ unread => unread
  | deep r unread => r.bytes ++ unread
  | sunk r _ unread => r.bytes ++ unread
  | torn _ opener inner => opener ++ inner.bytes

/-- Whether a refusal cuts the tree short. -/
def cut : Tree → Bool
  | nil => false
  | leaf _ rest | node _ _ rest | group _ _ _ _ rest => rest.cut
  | refused _ _ _ | deep _ _ | sunk _ _ _ | torn _ _ _ => true

/-- The tree is what the walk commits of its bytes: records and framing tags are lawful, a
payload is open exactly where some path goes on through it, and a refusal is one. -/
def Lawful (program : Program) (standard : Standard) : Scope → Tree → Prop
  | _, nil => True
  | s, leaf r rest =>
    r.Lawful standard ∧
      (interior r = none ∨ program.provider.routes s.chain r.field = false) ∧
      rest.Lawful program standard s
  | s, node r inner rest =>
    r.Lawful standard ∧ program.provider.routes s.chain r.field = true ∧ 0 < s.room ∧
      interior r = some inner.bytes ∧ inner.cut = false ∧
      inner.Lawful program standard (s.enter r.field none) ∧ rest.Lawful program standard s
  | s, group field opener inner closer rest =>
    IsTag standard field RecordKind.group.low3 opener ∧ 0 < s.room ∧ inner.cut = false ∧
      inner.Lawful program standard (s.enter field (some field)) ∧
      IsTag standard field 4 closer ∧ rest.Lawful program standard s
  | s, refused offset breach unread => refusal standard s unread = some (offset, breach)
  | s, deep r _ =>
    r.Lawful standard ∧ program.provider.routes s.chain r.field = true ∧ s.room = 0 ∧
      interior r ≠ none
  | s, sunk r inner _ =>
    r.Lawful standard ∧ program.provider.routes s.chain r.field = true ∧ 0 < s.room ∧
      interior r = some inner.bytes ∧ inner.cut = true ∧
      inner.Lawful program standard (s.enter r.field none)
  | s, torn field opener inner =>
    IsTag standard field RecordKind.group.low3 opener ∧ 0 < s.room ∧ inner.cut = true ∧
      inner.Lawful program standard (s.enter field (some field))

end Tree

/-! ## Records of a tree -/

/-- A record that completed: the containers around it, where it stands, what it holds. -/
structure Occurrence where
  chain : List FieldNumber
  field : FieldNumber
  span : Span
  kind : MatchKind
  deriving DecidableEq, Repr

def kindOf : Value → MatchKind
  | .varint word => .varint word
  | .i64 bits => .i64 bits
  | .i32 bits => .i32 bits
  | .len payload => .len payload

def Occurrence.of (chain : List FieldNumber) (pos : Nat) (r : Record) : Occurrence :=
  ⟨chain, r.field, ⟨pos, r.bytes.length⟩, kindOf r.payload.value⟩

namespace Tree

/-- The records in the order they complete: a LEN record with its payload in hand, ahead of
what it holds, a group at its end tag, behind what it holds. -/
def completed : Tree → List FieldNumber → Nat → List Occurrence
  | nil, _, _ => []
  | leaf r rest, chain, pos => .of chain pos r :: rest.completed chain (pos + r.bytes.length)
  | node r inner rest, chain, pos =>
    .of chain pos r ::
      (inner.completed (chain ++ [r.field]) (pos + (r.bytes.length - inner.bytes.length)) ++
        rest.completed chain (pos + r.bytes.length))
  | group field opener inner closer rest, chain, pos =>
    let width := (opener ++ inner.bytes ++ closer).length
    inner.completed (chain ++ [field]) (pos + opener.length) ++
      ⟨chain, field, ⟨pos, width⟩, .group inner.bytes⟩ :: rest.completed chain (pos + width)
  | refused _ _ _, _, _ => []
  | deep r _, chain, pos => [.of chain pos r]
  | sunk r inner _, chain, pos =>
    .of chain pos r ::
      inner.completed (chain ++ [r.field]) (pos + (r.bytes.length - inner.bytes.length))
  | torn field opener inner, chain, pos =>
    inner.completed (chain ++ [field]) (pos + opener.length)

/-- The refusal the tree is cut short by. -/
def fault : Tree → List Crossing → Nat → Option Fault
  | nil, _, _ => none
  | leaf r rest, trail, pos | node r _ rest, trail, pos => rest.fault trail (pos + r.bytes.length)
  | group _ opener inner closer rest, trail, pos =>
    rest.fault trail (pos + (opener ++ inner.bytes ++ closer).length)
  | refused offset breach _, trail, pos => some ⟨pos + offset, trail, breach⟩
  | deep _ _, trail, pos => some ⟨pos, trail, .depth⟩
  | sunk r inner _, trail, pos =>
    inner.fault (trail ++ [⟨r.field, pos⟩]) (pos + (r.bytes.length - inner.bytes.length))
  | torn _ opener inner, trail, pos => inner.fault trail (pos + opener.length)

end Tree

/-- A record's matches: the paths that select its chain, ascending. -/
def matchesOf (program : Program) (o : Occurrence) : List Match :=
  ((List.range program.paths.length).filter fun id =>
    Selects (program.paths.getD id []) (o.chain ++ [o.field])).map
      fun id => ⟨id, o.field, o.span, o.kind⟩

/-- What a selection over the tree delivers. -/
def selected (program : Program) (tree : Tree) : List Item :=
  (((tree.completed [] 0).flatMap (matchesOf program)).map .ok) ++
    ((tree.fault [] 0).map .error).toList

/-- The tree is the committed document of the input. -/
structure Tree.Parses (program : Program) (standard : Standard) (limit : DepthLimit)
    (input : List UInt8) (tree : Tree) : Prop where
  bytes : tree.bytes = input
  lawful : tree.Lawful program standard ⟨[], none, limit.asInner⟩

/-! ## Every input has a committed document -/

section Reading

variable {program : Program} {standard : Standard} {s : Scope} {bytes : List UInt8}

/-- Bytes not refused begin with a construct, or end a window. -/
theorem construct_of_refusal_none (h : refusal standard s bytes = none) :
    bytes = [] ∧ s.opened = none ∨
      (∃ r rest, bytes = Record.bytes r ++ rest ∧ r.Lawful standard) ∨
      (∃ field tag rest, bytes = tag ++ rest ∧ IsTag standard field RecordKind.group.low3 tag ∧
        0 < s.room) ∨
      ∃ field tag rest, bytes = tag ++ rest ∧ IsTag standard field 4 tag ∧
        s.opened = some field := by
  unfold refusal at h
  split at h
  case isTrue hnil => exact .inl ⟨hnil, by simpa using h⟩
  case isFalse =>
    split at h
    case h_1 => cases h
    case h_2 field code tagW hhead =>
      obtain ⟨tag, rest, he, htag, rfl⟩ := readHead_ok.mp hhead
      rw [List.drop_zero] at he
      have hbody : ∀ kind : Groupless.RecordKind, code = kind.low3 →
          refusal.body tag.length (readBody standard (bytes.drop tag.length) 0 field kind) = none →
          ∃ r rest, bytes = Record.bytes r ++ rest ∧ r.Lawful standard := by
        intro kind hk hr
        cases hb : readBody standard (bytes.drop tag.length) 0 field kind with
        | error refused => rw [hb] at hr; cases hr
        | ok b =>
          obtain ⟨p, behind, hp, hlaw, rfl, -⟩ := readBody_ok.mp hb
          refine ⟨⟨field, tag, p⟩, behind, ?_, ⟨hk ▸ htag, hlaw⟩⟩
          rw [List.drop_zero, he, List.drop_left] at hp
          rw [he, hp, Record.bytes, List.append_assoc]
      split at h
      case h_1 hc => exact .inr (.inl (hbody .varint (low3_of_classify hc) h))
      case h_2 hc => exact .inr (.inl (hbody .i64 (low3_of_classify hc) h))
      case h_3 hc => exact .inr (.inl (hbody .i32 (low3_of_classify hc) h))
      case h_4 hc => exact .inr (.inl (hbody .len (low3_of_classify hc) h))
      case h_5 hc =>
        split at h
        · cases h
        · exact .inr (.inr (.inl ⟨field, tag, rest, he, low3_of_classify hc ▸ htag,
            Nat.pos_of_ne_zero ‹_›⟩))
      case h_6 hc =>
        split at h
        · have hcode := code_of_groupEnd hc
          exact .inr (.inr (.inr ⟨field, tag, rest, he, hcode ▸ htag, ‹_›⟩))
        · cases h
      case h_7 => cases h

/-- What a tree leaves of the bytes: nothing, or its group's end tag and what follows. -/
def Ends (standard : Standard) (s : Scope) (bytes : List UInt8) (tree : Tree) : Prop :=
  if tree.cut then tree.bytes = bytes
  else
    match s.opened with
    | none => tree.bytes = bytes
    | some field => ∃ closer rest, bytes = tree.bytes ++ closer ++ rest ∧
        IsTag standard field 4 closer

theorem Ends.behind {front : List UInt8} {tree tree' : Tree} (h : Ends standard s bytes tree)
    (hcut : tree'.cut = tree.cut) (hbytes : tree'.bytes = front ++ tree.bytes) :
    Ends standard s (front ++ bytes) tree' := by
  unfold Ends at h ⊢
  rw [hcut, hbytes]
  split
  case isTrue hc =>
    rw [if_pos hc] at h
    rw [h]
  case isFalse hc =>
    rw [if_neg hc] at h
    cases ho : s.opened with
    | none =>
      rw [ho] at h
      simp only at h ⊢
      rw [h]
    | some field =>
      rw [ho] at h
      obtain ⟨closer, rest, he, ht⟩ := h
      exact ⟨closer, rest, by rw [he]; simp only [List.append_assoc], ht⟩

theorem payload_lt {r : Record} {payload : List UInt8} (hlaw : r.Lawful standard)
    (h : interior r = some payload) : payload.length < r.bytes.length := by
  unfold interior at h
  split at h
  case h_1 word payload' hp =>
    cases h
    have := hlaw.isTag.admits.isWord.length_pos
    simp only [Record.bytes, hp, Payload.bytes, List.length_append]
    omega
  case h_2 => cases h

theorem exists_tree (program : Program) (standard : Standard) (s : Scope) (bytes : List UInt8) :
    ∃ tree : Tree, tree.Lawful program standard s ∧ Ends standard s bytes tree := by
  induction hn : bytes.length using Nat.strong_induction_on generalizing s bytes with
  | _ n ih =>
    cases href : refusal standard s bytes with
    | some p => exact ⟨.refused p.1 p.2 bytes, href, rfl⟩
    | none =>
      rcases construct_of_refusal_none href with ⟨rfl, ho⟩ | ⟨r, rest, rfl, hlaw⟩ |
        ⟨field, opener, rest, rfl, ht, hroom⟩ | ⟨field, closer, rest, rfl, ht, ho⟩
      · exact ⟨.nil, trivial, by simp only [Ends, Tree.cut, ho]; rfl⟩
      · have hpos := hlaw.length_pos
        rw [List.length_append] at hn
        obtain ⟨tree, htree, hends⟩ := ih rest.length (by omega) s rest rfl
        by_cases hopen : interior r = none ∨ program.provider.routes s.chain r.field = false
        · exact ⟨.leaf r tree, ⟨hlaw, hopen, htree⟩, hends.behind rfl rfl⟩
        · rw [not_or, Bool.not_eq_false] at hopen
          obtain ⟨hsome, hroutes⟩ := hopen
          rcases Nat.eq_zero_or_pos s.room with hroom | hroom
          · exact ⟨.deep r rest, ⟨hlaw, hroutes, hroom, hsome⟩, rfl⟩
          · obtain ⟨payload, hp⟩ := Option.ne_none_iff_exists'.mp hsome
            have hlt := payload_lt hlaw hp
            obtain ⟨inner, hinner, hin⟩ :=
              ih payload.length (by omega) (s.enter r.field none) payload rfl
            have hbytes : inner.bytes = payload := by
              unfold Ends at hin
              split at hin <;> exact hin
            cases hcut : inner.cut with
            | true => exact ⟨.sunk r inner rest,
                ⟨hlaw, hroutes, hroom, hbytes ▸ hp, hcut, hinner⟩, rfl⟩
            | false => exact ⟨.node r inner tree,
                ⟨hlaw, hroutes, hroom, hbytes ▸ hp, hcut, hinner, htree⟩, hends.behind rfl rfl⟩
      · have hpos := ht.admits.isWord.length_pos
        rw [List.length_append] at hn
        obtain ⟨inner, hinner, hin⟩ :=
          ih rest.length (by omega) (s.enter field (some field)) rest rfl
        unfold Ends at hin
        cases hcut : inner.cut with
        | true =>
          rw [if_pos hcut] at hin
          exact ⟨.torn field opener inner, ⟨ht, hroom, hcut, hinner⟩,
            by rw [← hin]; rfl⟩
        | false =>
          rw [if_neg (by rw [hcut]; decide)] at hin
          obtain ⟨closer, behind, he, hc⟩ := hin
          have hlen := congrArg List.length he
          simp only [List.length_append] at hlen
          obtain ⟨tree, htree, hends⟩ := ih behind.length (by omega) s behind rfl
          refine ⟨.group field opener inner closer tree, ⟨ht, hroom, hcut, hinner, hc, htree⟩, ?_⟩
          rw [he, ← List.append_assoc, ← List.append_assoc]
          exact hends.behind rfl rfl
      · refine ⟨.nil, trivial, ?_⟩
        simp only [Ends, Tree.cut, ho]
        exact ⟨closer, rest, rfl, ht⟩

theorem exists_parse (program : Program) (standard : Standard) (limit : DepthLimit)
    (input : List UInt8) : ∃ tree : Tree, tree.Parses program standard limit input := by
  obtain ⟨tree, hlaw, hends⟩ := exists_tree program standard ⟨[], none, limit.asInner⟩ input
  refine ⟨tree, ?_, hlaw⟩
  unfold Ends at hends
  split at hends <;> exact hends

end Reading

/-! ## Extents and order -/

/-- The source's bytes at an extent. -/
def slice (input : List UInt8) (span : Span) : List UInt8 :=
  (input.drop span.start).take span.width

/-- The occurrence's extent is a lawful record's, or a group's with its own end tag, and its
observation is that record's. -/
def Occurrence.Exact (standard : Standard) (input : List UInt8) (o : Occurrence) : Prop :=
  (∃ r : Record, r.Lawful standard ∧ slice input o.span = r.bytes ∧ r.field = o.field ∧
    o.kind = kindOf r.payload.value) ∨
  ∃ opener interior closer, IsTag standard o.field RecordKind.group.low3 opener ∧
    IsTag standard o.field 4 closer ∧ slice input o.span = opener ++ interior ++ closer ∧
    o.kind = .group interior

/-- Where a record's observation is in hand: a payload's start, otherwise the record's end. -/
def Occurrence.completes (o : Occurrence) : Nat :=
  match o.kind with
  | .len payload => o.span.stop - payload.length
  | _ => o.span.stop

section Extents

variable {program : Program} {standard : Standard} {s : Scope} {input behind : List UInt8}
  {pos : Nat} {r : Record} {payload : List UInt8}

theorem interior_eq_some (h : interior r = some payload) :
    ∃ word, r.payload = .len word payload := by
  unfold interior at h
  split at h
  · cases h
    exact ⟨_, ‹_›⟩
  · cases h

/-- A payload stands at the end of its record. -/
theorem payload_at (h : interior r = some payload) (hb : input.drop pos = r.bytes ++ behind) :
    input.drop (pos + (r.bytes.length - payload.length)) = payload ++ behind := by
  obtain ⟨word, hp⟩ := interior_eq_some h
  have hbytes : r.bytes = (r.tag ++ word) ++ payload := by
    rw [Record.bytes, hp, Payload.bytes, List.append_assoc]
  have hwidth : r.bytes.length - payload.length = (r.tag ++ word).length := by
    rw [hbytes, List.length_append, Nat.add_sub_cancel]
  rw [hwidth]
  rw [hbytes, List.append_assoc] at hb
  exact drop_of_drop_eq hb

theorem slice_front {front : List UInt8} (h : input.drop pos = front ++ behind) :
    slice input ⟨pos, front.length⟩ = front := by
  rw [slice, h, List.take_left]

theorem completed_exact {tree : Tree} (hlaw : tree.Lawful program standard s)
    (hb : input.drop pos = tree.bytes ++ behind) (chain : List FieldNumber) :
    ∀ o ∈ tree.completed chain pos, o.Exact standard input := by
  have hrecord : ∀ {r : Record} {chain pos behind}, r.Lawful standard →
      input.drop pos = r.bytes ++ behind →
      (Occurrence.of chain pos r).Exact standard input :=
    fun hr hb => .inl ⟨_, hr, slice_front hb, rfl, rfl⟩
  induction tree generalizing s pos behind chain with
  | nil | refused _ _ _ => nofun
  | leaf r rest ih =>
    obtain ⟨hr, -, hrest⟩ := hlaw
    rw [Tree.bytes, List.append_assoc] at hb
    exact List.forall_mem_cons.mpr ⟨hrecord hr hb, ih hrest (drop_of_drop_eq hb) chain⟩
  | node r inner rest ihi ihr =>
    obtain ⟨hr, -, -, hi, -, hinner, hrest⟩ := hlaw
    rw [Tree.bytes, List.append_assoc] at hb
    refine List.forall_mem_cons.mpr ⟨hrecord hr hb, List.forall_mem_append.mpr ⟨?_, ?_⟩⟩
    · exact ihi hinner (payload_at hi hb) _
    · exact ihr hrest (drop_of_drop_eq hb) chain
  | group field opener inner closer rest ihi ihr =>
    obtain ⟨ho, -, -, hinner, hc, hrest⟩ := hlaw
    rw [Tree.bytes, List.append_assoc] at hb
    refine List.forall_mem_append.mpr ⟨?_, List.forall_mem_cons.mpr ⟨?_, ?_⟩⟩
    · rw [List.append_assoc, List.append_assoc] at hb
      exact ihi hinner (drop_of_drop_eq hb) _
    · exact .inr ⟨opener, inner.bytes, closer, ho, hc, slice_front hb, rfl⟩
    · exact ihr hrest (drop_of_drop_eq hb) chain
  | deep r unread =>
    rw [Tree.bytes, List.append_assoc] at hb
    exact List.forall_mem_singleton.mpr (hrecord hlaw.1 hb)
  | sunk r inner unread ih =>
    obtain ⟨hr, -, -, hi, -, hinner⟩ := hlaw
    rw [Tree.bytes, List.append_assoc] at hb
    exact List.forall_mem_cons.mpr ⟨hrecord hr hb, ih hinner (payload_at hi hb) _⟩
  | torn field opener inner ih =>
    obtain ⟨-, -, -, hinner⟩ := hlaw
    rw [Tree.bytes, List.append_assoc] at hb
    exact ih hinner (drop_of_drop_eq hb) _

theorem completes_of (hr : r.Lawful standard) (chain : List FieldNumber) (pos : Nat) :
    pos < (Occurrence.of chain pos r).completes ∧
      (Occurrence.of chain pos r).completes ≤ pos + r.bytes.length ∧
      ∀ payload, interior r = some payload →
        (Occurrence.of chain pos r).completes = pos + (r.bytes.length - payload.length) := by
  have hpos := hr.length_pos
  cases hp : r.payload with
  | varint _ | i64 _ | i32 _ =>
    simp only [Occurrence.completes, Occurrence.of, hp, Payload.value, kindOf, Span.stop]
    exact ⟨by omega, le_refl _, fun payload hi => by simp [interior, hp] at hi⟩
  | len word payload =>
    have hi : interior r = some payload := by rw [interior, hp]
    have hlt := payload_lt hr hi
    simp only [Occurrence.completes, Occurrence.of, hp, Payload.value, kindOf, Span.stop]
    refine ⟨by omega, by omega, fun payload' hi' => ?_⟩
    obtain rfl : payload = payload' := Option.some.inj (hi.symm.trans hi')
    omega

/-- One record completes ahead of another, and stands elsewhere. -/
def Occurrence.Ahead (a b : Occurrence) : Prop :=
  a.completes < b.completes ∧ a.span.start ≠ b.span.start

/-- An occurrence between two positions. -/
def Occurrence.Between (lo hi : Nat) (o : Occurrence) : Prop :=
  lo ≤ o.span.start ∧ o.span.start < hi ∧ lo < o.completes ∧ o.completes ≤ hi

theorem Occurrence.Between.mono {o : Occurrence} {lo lo' hi hi' : Nat} (h : o.Between lo hi)
    (hlo : lo' ≤ lo) (hhi : hi ≤ hi') : o.Between lo' hi' := by
  obtain ⟨h₁, h₂, h₃, h₄⟩ := h
  exact ⟨by omega, by omega, by omega, by omega⟩

theorem Occurrence.Between.ahead {a b : Occurrence} {lo mid mid' hi : Nat} (ha : a.Between lo mid)
    (hb : b.Between mid' hi) (hmid : mid ≤ mid') : a.Ahead b := by
  obtain ⟨-, h₂, -, h₄⟩ := ha
  obtain ⟨h₁', -, h₃', -⟩ := hb
  exact ⟨by omega, by omega⟩

theorem between_of (hr : r.Lawful standard) (chain : List FieldNumber) (pos : Nat) :
    (Occurrence.of chain pos r).Between pos (pos + r.bytes.length) := by
  obtain ⟨hlt, hle, -⟩ := completes_of hr chain pos
  exact ⟨le_refl _, Nat.lt_add_of_pos_right hr.length_pos, hlt, hle⟩

/-- A record ahead of what its payload holds. -/
theorem ahead_of_inside (hr : r.Lawful standard) (hi : interior r = some payload)
    (chain : List FieldNumber) {o : Occurrence} {hi' : Nat}
    (ho : o.Between (pos + (r.bytes.length - payload.length)) hi') :
    (Occurrence.of chain pos r).Ahead o := by
  have hlt := payload_lt hr hi
  obtain ⟨-, -, hat⟩ := completes_of hr chain pos
  obtain ⟨h₁, -, h₃, -⟩ := ho
  refine ⟨by rw [hat payload hi]; exact h₃, ?_⟩
  show pos ≠ o.span.start
  omega

/-- Records complete in order, each at a place of its own. -/
theorem completed_order {tree : Tree} (hlaw : tree.Lawful program standard s)
    (chain : List FieldNumber) (pos : Nat) :
    (tree.completed chain pos).Pairwise Occurrence.Ahead ∧
      ∀ o ∈ tree.completed chain pos, o.Between pos (pos + tree.bytes.length) := by
  induction tree generalizing s pos chain with
  | nil | refused _ _ _ => exact ⟨.nil, nofun⟩
  | leaf r rest ih =>
    obtain ⟨hr, -, hrest⟩ := hlaw
    obtain ⟨hp, hb⟩ := ih hrest chain (pos + r.bytes.length)
    have hself := between_of hr chain pos
    simp only [Tree.bytes, List.length_append]
    refine ⟨List.pairwise_cons.mpr ⟨fun o ho => hself.ahead (hb o ho) le_rfl, hp⟩,
      List.forall_mem_cons.mpr ⟨hself.mono le_rfl (by omega), fun o ho => ?_⟩⟩
    exact (hb o ho).mono (by omega) (by omega)
  | node r inner rest ihi ihr =>
    obtain ⟨hr, -, -, hi, -, hinner, hrest⟩ := hlaw
    have hlt := payload_lt hr hi
    obtain ⟨hpi, hbi⟩ := ihi hinner (chain ++ [r.field])
      (pos + (r.bytes.length - inner.bytes.length))
    obtain ⟨hp, hb⟩ := ihr hrest chain (pos + r.bytes.length)
    have hself := between_of hr chain pos
    simp only [Tree.bytes, List.length_append]
    refine ⟨List.pairwise_cons.mpr ⟨List.forall_mem_append.mpr ⟨?_, ?_⟩,
      List.pairwise_append.mpr ⟨hpi, hp, ?_⟩⟩,
      List.forall_mem_cons.mpr ⟨hself.mono le_rfl (by omega),
        List.forall_mem_append.mpr ⟨?_, ?_⟩⟩⟩
    · exact fun o ho => ahead_of_inside hr hi chain (hbi o ho)
    · exact fun o ho => hself.ahead (hb o ho) le_rfl
    · exact fun o ho o' ho' => (hbi o ho).ahead (hb o' ho') (by omega)
    · exact fun o ho => (hbi o ho).mono (by omega) (by omega)
    · exact fun o ho => (hb o ho).mono (by omega) (by omega)
  | group field opener inner closer rest ihi ihr =>
    obtain ⟨ho, -, -, hinner, hc, hrest⟩ := hlaw
    have hopener := ho.admits.isWord.length_pos
    have hcloser := hc.admits.isWord.length_pos
    obtain ⟨hpi, hbi⟩ := ihi hinner (chain ++ [field]) (pos + opener.length)
    obtain ⟨hp, hb⟩ := ihr hrest chain (pos + (opener ++ inner.bytes ++ closer).length)
    simp only [Tree.bytes, Tree.completed, List.length_append] at hb hp ⊢
    refine ⟨List.pairwise_append.mpr ⟨hpi, List.pairwise_cons.mpr ⟨?_, hp⟩, ?_⟩,
      List.forall_mem_append.mpr ⟨?_, List.forall_mem_cons.mpr ⟨?_, ?_⟩⟩⟩
    · intro o ho'
      obtain ⟨h₁, -, h₃, -⟩ := hb o ho'
      refine ⟨h₃, ?_⟩
      show pos ≠ o.span.start
      omega
    · refine fun o ho' => List.forall_mem_cons.mpr ⟨?_, fun o' ho'' => ?_⟩
      · obtain ⟨h₁, h₂, h₃, h₄⟩ := hbi o ho'
        refine ⟨?_, ?_⟩
        · show o.completes < pos + (opener.length + inner.bytes.length + closer.length)
          omega
        · show o.span.start ≠ pos
          omega
      · exact (hbi o ho').ahead (hb o' ho'') (by omega)
    · exact fun o ho' => (hbi o ho').mono (by omega) (by omega)
    · refine ⟨le_refl _, ?_, ?_, ?_⟩
      · show pos < _
        omega
      · show pos < pos + (opener.length + inner.bytes.length + closer.length)
        omega
      · show pos + (opener.length + inner.bytes.length + closer.length) ≤ _
        omega
    · exact fun o ho' => (hb o ho').mono (by omega) (by omega)
  | deep r unread =>
    have hself := between_of hlaw.1 chain pos
    simp only [Tree.bytes, List.length_append]
    exact ⟨List.pairwise_singleton _ _,
      List.forall_mem_singleton.mpr (hself.mono le_rfl (by omega))⟩
  | sunk r inner unread ih =>
    obtain ⟨hr, -, -, hi, -, hinner⟩ := hlaw
    have hlt := payload_lt hr hi
    obtain ⟨hpi, hbi⟩ := ih hinner (chain ++ [r.field])
      (pos + (r.bytes.length - inner.bytes.length))
    have hself := between_of hr chain pos
    simp only [Tree.bytes, List.length_append]
    refine ⟨List.pairwise_cons.mpr ⟨?_, hpi⟩,
      List.forall_mem_cons.mpr ⟨hself.mono le_rfl (by omega), ?_⟩⟩
    · exact fun o ho => ahead_of_inside hr hi chain (hbi o ho)
    · exact fun o ho => (hbi o ho).mono (by omega) (by omega)
  | torn field opener inner ih =>
    obtain ⟨hp, hb⟩ := ih hlaw.2.2.2 (chain ++ [field]) (pos + opener.length)
    simp only [Tree.bytes, List.length_append]
    exact ⟨hp, fun o ho => (hb o ho).mono (by omega) (by omega)⟩

end Extents

end ProtobufEdit.Select.Grouped
