import ProtobufEdit.Editor.Save

/-!
# The save walks

Each save pass walks the cells; what it comes to is a recursion over the forest the cells lay
out. `Shape` is the one account of a row the size walk, the emit walk and the recursion share.
-/

namespace ProtobufEdit.Editor

open Wire Wire.Grouped Varint Arena Loop

/-! ## Slices -/

section Slices

variable {zone : List UInt8} {pos mid stop : Nat}

theorem slice_eq (zone : List UInt8) (pos stop : Nat) :
    Machine.slice zone pos stop = (zone.drop pos).take (stop - pos) := List.drop_take

theorem slice_append (h : pos ≤ mid) (h' : mid ≤ stop) :
    Machine.slice zone pos mid ++ Machine.slice zone mid stop = Machine.slice zone pos stop := by
  rw [slice_eq, slice_eq, slice_eq, show stop - pos = (mid - pos) + (stop - mid) by omega,
    List.take_add, List.drop_drop, Nat.add_sub_cancel' h]

theorem slice_length (h : stop ≤ zone.length) :
    (Machine.slice zone pos stop).length = stop - pos := by
  rw [slice_eq, List.length_take, List.length_drop]
  omega

end Slices

/-! ## The emitter -/

namespace Emit

/-- What is written, with the pending stretch. -/
def text (e : Emit) : List UInt8 := e.flush.out

def Ordered (e : Emit) : Prop := ∀ zone pos stop, e.run = some (zone, pos, stop) → pos ≤ stop

/-- One emitter is the other with a piece more. -/
structure Writes (e e' : Emit) (piece : List UInt8) : Prop where
  ordered : e.Ordered → e'.Ordered
  text : e.Ordered → e'.text = e.text ++ piece

variable {e e' e'' : Emit} {piece piece' : List UInt8}

theorem Writes.refl (e : Emit) : e.Writes e [] := ⟨id, fun _ => (List.append_nil _).symm⟩

theorem Writes.trans (h : e.Writes e' piece) (h' : e'.Writes e'' piece') :
    e.Writes e'' (piece ++ piece') := by
  refine ⟨fun ho => h'.ordered (h.ordered ho), fun ho => ?_⟩
  rw [h'.text (h.ordered ho), h.text ho, List.append_assoc]

theorem text_of_some {out zone : List UInt8} {pos stop : Nat} :
    (⟨out, some (zone, pos, stop)⟩ : Emit).text = out ++ Machine.slice zone pos stop := rfl

theorem flush_run (e : Emit) : e.flush.run = none := by
  unfold flush
  split
  · rfl
  · assumption

theorem ordered_of_none (h : e.run = none) : e.Ordered := by
  intro zone pos stop hrun
  rw [h] at hrun
  cases hrun

theorem writes_flush (e : Emit) : e.Writes e.flush [] := by
  refine ⟨fun _ => ordered_of_none e.flush_run, fun _ => ?_⟩
  unfold text
  rw [flush, e.flush_run]
  exact (List.append_nil _).symm

theorem writes_bytes (e : Emit) (piece : List UInt8) : e.Writes (e.bytes piece) piece :=
  ⟨fun _ => ordered_of_none rfl, fun _ => rfl⟩

theorem writes_varint (e : Emit) (v : Nat) : e.Writes (e.varint v) (emit64 v) := e.writes_bytes _

theorem writes_verbatimIn (e : Emit) (zone : List UInt8) {pos stop : Nat} (h : pos ≤ stop) :
    e.Writes (e.verbatimIn zone pos stop) (Machine.slice zone pos stop) := by
  have hout : ∀ out : List UInt8, (⟨out, some (zone, pos, stop)⟩ : Emit).Ordered := by
    rintro out _ _ _ ⟨⟩
    exact h
  rcases e with ⟨out, _ | ⟨z, start, reached⟩⟩
  · exact ⟨fun _ => hout out, fun _ => rfl⟩
  · unfold verbatimIn
    show Writes _ (if reached = pos ∧ z = zone then _ else _) _
    split
    · next hjoin =>
      obtain ⟨rfl, rfl⟩ := hjoin
      refine ⟨fun ho => ?_, fun ho => ?_⟩
      · rintro _ _ _ ⟨⟩
        exact Nat.le_trans (ho z start reached rfl) h
      · rw [text_of_some, text_of_some, List.append_assoc, slice_append (ho z start reached rfl) h]
    · exact ⟨fun _ => hout _, fun _ => rfl⟩

theorem writes_pieces (e : Emit) (pieces : List (List UInt8)) :
    e.Writes (pieces.foldl (fun e piece => e.bytes piece) e) pieces.flatten := by
  induction pieces generalizing e with
  | nil => exact .refl e
  | cons piece pieces ih => exact (e.writes_bytes piece).trans (ih _)

end Emit

/-! ## Shapes -/

/-- How a row is emitted around its interior. -/
inductive Shape where
  | leaf (text : List UInt8)
  | len (pos : Nat) (tag delim : List UInt8) (srcLen : Nat)
  | group (front back : List UInt8)
  deriving DecidableEq, Repr

namespace Shape

def bytes : Shape → List UInt8 → List UInt8
  | leaf text, _ => text
  | len _ tag delim srcLen, body =>
    tag ++ (if body.length = srcLen then delim else emit64 body.length) ++ body
  | group front back, body => front ++ body ++ back

/-- The bodies the row and its interior take places for. -/
def bodies : Shape → List UInt8 → List Nat → List Nat
  | leaf _, _, _ => []
  | len .., body, inner => body.length :: inner
  | group .., _, inner => inner

/-- The first body over the cap, in the order the bodies are closed. -/
def overCap : Shape → List UInt8 → Option SaveFault → Option SaveFault
  | leaf _, _, _ => none
  | len pos .., body, inner =>
    inner.or (if PayloadLen.max < body.length then some (.bodyOverCap pos) else none)
  | group .., _, inner => inner

end Shape

namespace Machine

def payload (m : Machine) (slot : Nat) : List UInt8 := (m.payloads.pieces slot).flatten

def prefixed (zone : List UInt8) (tagEnd prefixEnd srcLen len : Nat) : List UInt8 :=
  if len = srcLen then slice zone tagEnd prefixEnd else emit64 len

def shape (m : Machine) (zone : List UInt8) : Arm → Shape
  | .skip => .leaf []
  | .clean pos stop => .leaf (slice zone pos stop)
  | .reValue tagAt tagEnd value => .leaf (slice zone tagAt tagEnd ++ value.bytes)
  | .newValue head value => .leaf (emit64 head ++ value.bytes)
  | .reBody tagAt tagEnd prefixEnd srcLen slot =>
    .leaf (slice zone tagAt tagEnd ++
      prefixed zone tagEnd prefixEnd srcLen (m.payloads.len slot) ++ m.payload slot)
  | .newBody head slot =>
    .leaf (emit64 head ++ emit64 (m.payloads.len slot) ++ m.payload slot)
  | .spine tagAt tagEnd prefixEnd srcLen =>
    .len tagAt (slice zone tagAt tagEnd) (slice zone tagEnd prefixEnd) srcLen
  | .reGroup tagAt tagEnd endAt endEnd =>
    .group (slice zone tagAt tagEnd) (slice zone endAt endEnd)
  | .newGroup head endWord => .group (emit64 head) (emit64 endWord)
  | .imported slot => .leaf (m.payload slot)
  | .importSpine tagAt tagEnd prefixEnd srcLen slot =>
    .len tagAt (slice (m.importSlot slot) tagAt tagEnd)
      (slice (m.importSlot slot) tagEnd prefixEnd) srcLen
  | .importGroup tagAt tagEnd endAt endEnd slot =>
    .group (slice (m.importSlot slot) tagAt tagEnd) (slice (m.importSlot slot) endAt endEnd)
  | .reSrcBody tagAt tagEnd prefixEnd srcLen pos len =>
    .leaf (slice zone tagAt tagEnd ++ prefixed zone tagEnd prefixEnd srcLen len ++
      slice m.source pos (pos + len))
  | .newSrcBody head pos len =>
    .leaf (emit64 head ++ emit64 len ++ slice m.source pos (pos + len))

/-- The shape of a minted row. -/
def shapeOf (m : Machine) (id : Nat) : Shape :=
  m.shape (m.zoneOf (m.row id)) (m.settle (m.row id).body)

/-! ## The recursion -/

section Recursion

variable {β : Type}

/-- What the rows emit. -/
def text (m : Machine) : Forest β → List UInt8
  | .nil => []
  | .node id _ kids rest => (m.shapeOf id).bytes (m.text kids) ++ m.text rest

/-- The table of bodies, in the order the bodies are opened. -/
def bodies (m : Machine) : Forest β → List Nat
  | .nil => []
  | .node id _ kids rest => (m.shapeOf id).bodies (m.text kids) (m.bodies kids) ++ m.bodies rest

def overCap (m : Machine) : Forest β → Option SaveFault
  | .nil => none
  | .node id _ kids rest =>
    ((m.shapeOf id).overCap (m.text kids) (m.overCap kids)).or (m.overCap rest)

end Recursion

/-! ## Inside the zones -/

/-- An arm's offsets lie inside the bytes they index, and its payload is as long as it says. -/
def Inside (m : Machine) (zone : List UInt8) : Arm → Prop
  | .skip | .newValue .. | .newGroup .. => True
  | .clean _ stop => stop ≤ zone.length
  | .reValue _ tagEnd _ => tagEnd ≤ zone.length
  | .reBody _ tagEnd prefixEnd _ slot =>
    tagEnd ≤ prefixEnd ∧ prefixEnd ≤ zone.length ∧ m.payloads.len slot = (m.payload slot).length
  | .newBody _ slot | .imported slot => m.payloads.len slot = (m.payload slot).length
  | .spine _ tagEnd prefixEnd _ => tagEnd ≤ prefixEnd ∧ prefixEnd ≤ zone.length
  | .reGroup _ tagEnd _ endEnd => tagEnd ≤ endEnd ∧ endEnd ≤ zone.length
  | .importSpine _ tagEnd prefixEnd _ slot =>
    tagEnd ≤ prefixEnd ∧ prefixEnd ≤ (m.importSlot slot).length
  | .importGroup _ tagEnd _ endEnd slot =>
    tagEnd ≤ endEnd ∧ endEnd ≤ (m.importSlot slot).length
  | .reSrcBody _ tagEnd prefixEnd _ pos len =>
    tagEnd ≤ prefixEnd ∧ prefixEnd ≤ zone.length ∧ pos + len ≤ m.source.length
  | .newSrcBody _ pos len => pos + len ≤ m.source.length

/-- Every row of the forest is inside its zone. -/
def Bounded {β : Type} (m : Machine) (t : Forest β) : Prop :=
  t.All fun x _ _ => m.Inside (m.zoneOf (m.row x)) (m.settle (m.row x).body)

end Machine

@[simp] theorem emit64_length (v : Nat) : (emit64 v).length = encodedLen64 v :=
  write64At_length _ _

@[simp] theorem toLeBytes_length (n v : Nat) : (toLeBytes n v).length = n := by
  induction n generalizing v with
  | zero => rfl
  | succ n ih => exact congrArg (· + 1) (ih _)

theorem Word.bytes_length (w : Word) : w.bytes.length = w.width := by
  cases w with
  | varint word => exact emit64_length word
  | bits32 bits => exact toLeBytes_length 4 bits
  | bits64 bits => exact toLeBytes_length 8 bits

theorem Shape.len_length (pos srcLen : Nat) (tag delim body : List UInt8) :
    ((Shape.len pos tag delim srcLen).bytes body).length =
      tag.length + (if body.length = srcLen then delim.length else encodedLen32 body.length) +
        body.length := by
  unfold Shape.bytes
  rw [List.length_append, List.length_append]
  split
  · rfl
  · rw [emit64_length]
    rfl

namespace Machine

/-! ## The size walk -/

section Size

variable {β : Type} {m : Machine} {zone : List UInt8} {arm : Arm} {slot : Nat}

/-- What the size walk makes of a row, against the row's shape. -/
inductive Sizes (m : Machine) (arm : Arm) (slot : Nat) : Shape → Prop where
  | leaf {text : List UInt8} : closing slot arm = none → m.leafSize arm = text.length →
      Sizes m arm slot (.leaf text)
  | len {pos srcLen : Nat} {tag delim : List UInt8} :
      closing slot arm = some (.len slot delim.length srcLen pos tag.length) →
      Sizes m arm slot (.len pos tag delim srcLen)
  | group {close : Close} {front back : List UInt8} : closing slot arm = some close →
      (∀ bodies, claimed bodies close = bodies) →
      (∀ bodies acc, closeFrame bodies acc close =
        .ok (front.length + acc + back.length, bodies)) →
      Sizes m arm slot (.group front back)

theorem prefixed_length {tagEnd prefixEnd srcLen len : Nat} (h : prefixEnd ≤ zone.length) :
    (prefixed zone tagEnd prefixEnd srcLen len).length =
      if len = srcLen then prefixEnd - tagEnd else encodedLen32 len := by
  unfold prefixed
  split
  · exact slice_length h
  · exact emit64_length len

/-- The size walk bills what the shape writes. -/
theorem sizes (h : m.Inside zone arm) : Sizes m arm slot (m.shape zone arm) := by
  cases arm with
  | skip => exact .leaf rfl rfl
  | clean pos stop => exact .leaf rfl (slice_length h).symm
  | reValue tagAt tagEnd value =>
    refine .leaf rfl ?_
    rw [List.length_append, slice_length h, value.bytes_length]
    rfl
  | newValue head value =>
    refine .leaf rfl ?_
    rw [List.length_append, emit64_length, value.bytes_length]
    rfl
  | reBody tagAt tagEnd prefixEnd srcLen slot =>
    obtain ⟨hle, hin, hlen⟩ := h
    refine .leaf rfl ?_
    rw [List.length_append, List.length_append, slice_length (Nat.le_trans hle hin),
      prefixed_length hin, ← hlen]
    rfl
  | newBody head slot =>
    refine .leaf rfl ?_
    have h : m.payloads.len slot = (m.payload slot).length := h
    rw [List.length_append, List.length_append, emit64_length, emit64_length, ← h]
    rfl
  | spine tagAt tagEnd prefixEnd srcLen =>
    refine .len ?_
    rw [slice_length h.2, slice_length (Nat.le_trans h.1 h.2)]
    rfl
  | reGroup tagAt tagEnd endAt endEnd =>
    refine .group rfl (fun _ => rfl) fun bodies acc => ?_
    rw [slice_length h.2, slice_length (Nat.le_trans h.1 h.2)]
    rfl
  | newGroup head endWord =>
    refine .group rfl (fun _ => rfl) fun bodies acc => ?_
    rw [emit64_length, emit64_length]
    rfl
  | imported slot => exact .leaf rfl h
  | importSpine tagAt tagEnd prefixEnd srcLen slot =>
    refine .len ?_
    rw [slice_length h.2, slice_length (Nat.le_trans h.1 h.2)]
    rfl
  | importGroup tagAt tagEnd endAt endEnd slot =>
    refine .group rfl (fun _ => rfl) fun bodies acc => ?_
    rw [slice_length h.2, slice_length (Nat.le_trans h.1 h.2)]
    rfl
  | reSrcBody tagAt tagEnd prefixEnd srcLen pos len =>
    obtain ⟨hle, hin, hsrc⟩ := h
    refine .leaf rfl ?_
    rw [List.length_append, List.length_append, slice_length (Nat.le_trans hle hin),
      prefixed_length hin, slice_length hsrc, Nat.add_sub_cancel_left]
    rfl
  | newSrcBody head pos len =>
    refine .leaf rfl ?_
    rw [List.length_append, List.length_append, emit64_length, emit64_length, slice_length h,
      Nat.add_sub_cancel_left]
    rfl

variable {body : β → Row} {i acc : Nat} {spine : List SizeFrame} {table : List Nat}

theorem sizeTurn_closes {frame : SizeFrame} {closed : Nat} {bodies : List Nat}
    (h : closeFrame table acc frame.close = .ok (closed, bodies)) :
    m.sizeTurn ⟨none, frame :: spine, acc, table⟩ =
      .next ⟨frame.next, spine, frame.outer + closed, bodies⟩ := by
  unfold sizeTurn
  dsimp only
  rw [h]

theorem sizeTurn_refuses {frame : SizeFrame} {fault : SaveFault}
    (h : closeFrame table acc frame.close = .error fault) :
    m.sizeTurn ⟨none, frame :: spine, acc, table⟩ = .halt (.error fault) := by
  unfold sizeTurn
  dsimp only
  rw [h]

/-- Where the walk goes behind a row. -/
def behind (m : Machine) (spine : List SizeFrame) (i : Nat) : Option Nat :=
  if spine = [] then none else (m.row i).next

theorem sizeTurn_enters {close : Close}
    (h : closing table.length (m.settle (m.row i).body) = some close) :
    m.sizeTurn ⟨some i, spine, acc, table⟩ =
      .next ⟨(m.row i).kid, ⟨m.behind spine i, acc, close⟩ :: spine, 0,
        claimed table close⟩ := by
  simp only [sizeTurn, h]
  rfl

theorem sizeTurn_passes (h : closing table.length (m.settle (m.row i).body) = none) :
    m.sizeTurn ⟨some i, spine, acc, table⟩ =
      .next ⟨m.behind spine i, spine, acc + m.leafSize (m.settle (m.row i).body), table⟩ := by
  simp only [sizeTurn, h]
  rfl

/-- The walk gets from a state, in so many turns, past rows of the length and the bodies, or to
the fault. -/
structure Sized (m : Machine) (turns : Nat) (s : Sizing) (next : Option Nat) (len : Nat)
    (bodies : List Nat) (fault : Option SaveFault) : Prop where
  passes : fault = none → ∃ n ≤ turns,
    Takes m.sizeTurn n s ⟨next, s.spine, s.acc + len, s.bodies ++ bodies⟩
  faults : ∀ f, fault = some f → ∃ n < turns, ∃ s', Takes m.sizeTurn n s s' ∧
    m.sizeTurn s' = .halt (.error f)

theorem Sized.append {turns turns' len len' : Nat} {s : Sizing} {next next' : Option Nat}
    {bodies bodies' : List Nat} {fault fault' : Option SaveFault}
    (h : m.Sized turns s next len bodies fault)
    (h' : m.Sized turns' ⟨next, s.spine, s.acc + len, s.bodies ++ bodies⟩ next' len' bodies'
      fault') :
    m.Sized (turns + turns') s next' (len + len') (bodies ++ bodies') (fault.or fault') := by
  refine ⟨fun hf => ?_, fun f hf => ?_⟩
  · obtain ⟨hf, hf'⟩ := Option.or_eq_none_iff.mp hf
    obtain ⟨n, hn, ht⟩ := h.passes hf
    obtain ⟨n', hn', ht'⟩ := h'.passes hf'
    refine ⟨n + n', Nat.add_le_add hn hn', ?_⟩
    rw [← Nat.add_assoc, ← List.append_assoc]
    exact ht.trans ht'
  · rcases Option.or_eq_some_iff.mp hf with hf | ⟨hf, hf'⟩
    · obtain ⟨n, hn, hs⟩ := h.faults f hf
      exact ⟨n, Nat.lt_add_right _ hn, hs⟩
    · obtain ⟨n, hn, ht⟩ := h.passes hf
      obtain ⟨n', hn', s', ht', he⟩ := h'.faults f hf'
      exact ⟨n + n', Nat.add_lt_add_of_le_of_lt hn hn', s', ht.trans ht', he⟩

/-- A row that closes over its interior, `cap` being the close's own fault. -/
theorem sized_container {turns len len' : Nat} {bodies bodies' : List Nat} {close : Close}
    {fault cap : Option SaveFault}
    (hclose : closing table.length (m.settle (m.row i).body) = some close)
    (hkids : m.Sized turns ⟨(m.row i).kid, ⟨m.behind spine i, acc, close⟩ :: spine, 0,
      claimed table close⟩ none len bodies fault)
    (hok : cap = none →
      closeFrame (claimed table close ++ bodies) (0 + len) close = .ok (len', table ++ bodies'))
    (herr : ∀ f, cap = some f →
      closeFrame (claimed table close ++ bodies) (0 + len) close = .error f) :
    m.Sized (turns + 2) ⟨some i, spine, acc, table⟩ (m.behind spine i) len' bodies'
      (fault.or cap) := by
  have hstep : m.sizeTurn ⟨some i, spine, acc, table⟩ = _ := sizeTurn_enters hclose
  refine ⟨fun hf => ?_, fun f hf => ?_⟩
  · obtain ⟨hf, hcap⟩ := Option.or_eq_none_iff.mp hf
    obtain ⟨n, hn, ht⟩ := hkids.passes hf
    exact ⟨n + 1 + 1, by omega,
      .head hstep (ht.trans (.head (sizeTurn_closes (hok hcap)) (.refl _)))⟩
  · rcases Option.or_eq_some_iff.mp hf with hf | ⟨hf, hcap⟩
    · obtain ⟨n, hn, s', ht, he⟩ := hkids.faults f hf
      exact ⟨n + 1, by omega, s', .head hstep ht, he⟩
    · obtain ⟨n, hn, ht⟩ := hkids.passes hf
      exact ⟨n + 1, by omega, _, .head hstep ht, sizeTurn_refuses (herr f hcap)⟩

/-- A row, where its interior is walked. -/
theorem sized_row {kids : Forest β} {turns : Nat}
    (hin : m.Inside (m.zoneOf (m.row i)) (m.settle (m.row i).body))
    (hkids : ∀ frame table, m.Sized turns ⟨(m.row i).kid, frame :: spine, 0, table⟩ none
      (m.text kids).length (m.bodies kids) (m.overCap kids)) :
    m.Sized (turns + 2) ⟨some i, spine, acc, table⟩ (m.behind spine i)
      ((m.shapeOf i).bytes (m.text kids)).length
      ((m.shapeOf i).bodies (m.text kids) (m.bodies kids))
      ((m.shapeOf i).overCap (m.text kids) (m.overCap kids)) := by
  have hs : Sizes m _ table.length _ := sizes hin
  unfold shapeOf
  generalize m.shape (m.zoneOf (m.row i)) (m.settle (m.row i).body) = shape at hs
  cases hs with
  | leaf hclose hsize =>
    refine ⟨fun _ => ?_, nofun⟩
    refine ⟨1, by omega, .head (sizeTurn_passes hclose) ?_⟩
    rw [hsize]
    show Takes _ _ _ (Sizing.mk _ _ _ (table ++ []))
    rw [List.append_nil]
    exact .refl _
  | @len pos srcLen tag delim hclose =>
    refine sized_container hclose (hkids _ _) (fun hcap => ?_) fun f hcap => ?_
    · have hcap : ¬ PayloadLen.max < 0 + (m.text kids).length := by
        intro h
        rw [Nat.zero_add] at h
        rw [if_pos h] at hcap
        cases hcap
      unfold closeFrame claimed
      dsimp only
      rw [if_neg hcap, Nat.zero_add, List.append_assoc, List.set_append_right _ _ (Nat.le_refl _),
        Nat.sub_self, Shape.len_length]
      rfl
    · split at hcap
      · next h =>
        cases hcap
        rw [← Nat.zero_add (m.text kids).length] at h
        exact if_pos h
      · cases hcap
  | group hclose hclaim hclosed =>
    have hor : (m.overCap kids).or none = m.overCap kids := Option.or_none
    unfold Shape.overCap
    rw [← hor]
    refine sized_container hclose (hkids _ _) (fun _ => ?_) nofun
    rw [hclaim, hclosed, Nat.zero_add]
    unfold Shape.bytes
    rw [List.length_append, List.length_append]
    rfl

/-- The size walk of a layer below the root. -/
theorem sized_layer {parent first : Option Nat} {t : Forest β}
    (h : Chain body m.rows parent first t)
    (hin : m.Bounded t) (frame : SizeFrame) (acc : Nat) (table : List Nat) (spine : List SizeFrame) :
    m.Sized (2 * t.ids.length) ⟨first, frame :: spine, acc, table⟩ none (m.text t).length
      (m.bodies t) (m.overCap t) := by
  induction h generalizing frame acc table spine with
  | nil =>
    refine ⟨fun _ => ?_, nofun⟩
    refine ⟨0, Nat.le_refl _, ?_⟩
    show Takes _ _ _ (Sizing.mk _ _ _ (table ++ []))
    rw [List.append_nil]
    exact .refl _
  | @node parent next kid x r kids rest hcell _ _ ihk ihr =>
    obtain ⟨hrow, hk, hr⟩ := hin
    have hc : m.row x = ⟨parent, next, kid, body r⟩ := by
      unfold row
      rw [List.getD_eq_getElem?_getD, hcell]
      rfl
    have hx : m.Sized _ ⟨some x, frame :: spine, acc, table⟩ _ _ _ _ :=
      sized_row hrow fun frame' table' => by
        rw [hc]
        exact ihk hk frame' 0 table' (frame :: spine)
    have hnext : m.behind (frame :: spine) x = next := by
      unfold behind
      rw [if_neg (List.cons_ne_nil _ _), hc]
    rw [hnext] at hx
    have hall := hx.append (ihr hr frame _ _ spine)
    have hturns : 2 * kids.ids.length + 2 + 2 * rest.ids.length =
        2 * (Forest.node x r kids rest).ids.length := by
      show _ = 2 * (kids.ids ++ rest.ids).length.succ
      rw [List.length_append]
      omega
    rw [hturns] at hall
    rw [← List.length_append] at hall
    exact hall

theorem row_of_cell {c : Cell Row} (h : m.rows[i]? = some c) : m.row i = c := by
  unfold row
  rw [List.getD_eq_getElem?_getD, h]
  rfl

/-- The size walk comes to what the row writes, and to the table of its bodies. -/
theorem sizeSubtree_eq {parent next kid : Option Nat} {r : Row} {kids : Forest β}
    (hcell : m.rows[i]? = some ⟨parent, next, kid, r⟩) (h : Chain body m.rows (some i) kid kids)
    (hin : m.Inside (m.zoneOf (m.row i)) (m.settle (m.row i).body)) (hkids : m.Bounded kids)
    (hlen : kids.ids.length < m.rows.length) :
    m.sizeSubtree i = ((m.shapeOf i).overCap (m.text kids) (m.overCap kids)).elim
      (.ok (((m.shapeOf i).bytes (m.text kids)).length,
        (m.shapeOf i).bodies (m.text kids) (m.bodies kids))) .error := by
  have hs : m.Sized _ ⟨some i, [], 0, []⟩ _ _ _ _ := sized_row hin fun frame table => by
    rw [row_of_cell hcell]
    exact sized_layer h hkids frame 0 table []
  have hfuel : 2 * kids.ids.length + 2 < m.walkFuel := by
    unfold walkFuel
    omega
  unfold sizeSubtree
  cases hf : (m.shapeOf i).overCap (m.text kids) (m.overCap kids) with
  | none =>
    obtain ⟨n, hn, ht⟩ := hs.passes hf
    rw [ht.halts rfl (Nat.lt_of_le_of_lt hn hfuel), Nat.zero_add]
    rfl
  | some f =>
    obtain ⟨n, hn, s', ht, he⟩ := hs.faults f hf
    rw [ht.halts he (Nat.lt_trans hn hfuel)]
    rfl

end Size

/-! ## The emit walk -/

section EmitWalk

variable {m : Machine} {zone : List UInt8} {arm : Arm}

theorem writes_opening (e : Emit) {tagEnd prefixEnd : Nat} (h : tagEnd ≤ prefixEnd)
    (srcLen len : Nat) :
    e.Writes (emitPrefix zone tagEnd prefixEnd srcLen len e)
      (prefixed zone tagEnd prefixEnd srcLen len) := by
  unfold emitPrefix prefixed
  split
  · exact e.writes_verbatimIn zone h
  · exact e.writes_varint len

theorem writes_payload (e : Emit) (slot : Nat) : e.Writes (m.emitPayload slot e) (m.payload slot) :=
  e.writes_pieces _

/-- An arm's offsets stand in order. -/
def Ordered : Arm → Prop
  | .skip | .newValue .. | .newBody .. | .newGroup .. | .imported _ | .newSrcBody .. => True
  | .clean pos stop => pos ≤ stop
  | .reValue tagAt tagEnd _ => tagAt ≤ tagEnd
  | .reBody tagAt tagEnd prefixEnd .. | .spine tagAt tagEnd prefixEnd _
  | .importSpine tagAt tagEnd prefixEnd .. | .reSrcBody tagAt tagEnd prefixEnd .. =>
    tagAt ≤ tagEnd ∧ tagEnd ≤ prefixEnd
  | .reGroup tagAt tagEnd endAt endEnd | .importGroup tagAt tagEnd endAt endEnd _ =>
    tagAt ≤ tagEnd ∧ endAt ≤ endEnd

/-- What the emit walk writes at a row and at the climb out of it, against the row's shape. -/
inductive Emits (m : Machine) (c : Cell Row) (zone : List UInt8) (arm : Arm) : Shape → Prop where
  | leaf {text : List UInt8} : (∀ body e, m.emitOpening zone body e arm = none) →
      (∀ e : Emit, e.Writes (m.emitLeaf zone e arm) text) → Emits m c zone arm (.leaf text)
  | len {pos srcLen : Nat} {tag delim : List UInt8} :
      (∀ (body : Nat) (e : Emit), ∃ e', m.emitOpening zone body e arm = some (e', 1) ∧
        e.Writes e' (tag ++ if body = srcLen then delim else emit64 body)) →
      (∀ e, m.emitClosing c e = e) → Emits m c zone arm (.len pos tag delim srcLen)
  | group {front back : List UInt8} :
      (∀ (body : Nat) (e : Emit), ∃ e', m.emitOpening zone body e arm = some (e', 0) ∧
        e.Writes e' front) →
      (∀ e : Emit, e.Writes (m.emitClosing c e) back) → Emits m c zone arm (.group front back)

/-- The climb out of a row writes the end tag of the row's arm. -/
def Closes (m : Machine) (c : Cell Row) : Arm → Prop
  | .spine .. | .importSpine .. => c.body.kind ≠ .group
  | .reGroup _ _ endAt endEnd =>
    ∀ e : Emit, m.emitClosing c e = e.verbatimIn (m.zoneOf c) endAt endEnd
  | .importGroup _ _ endAt endEnd slot =>
    ∀ e : Emit, m.emitClosing c e = e.verbatimIn (m.importSlot slot) endAt endEnd
  | .newGroup _ endWord => ∀ e : Emit, m.emitClosing c e = e.varint endWord
  | _ => True

theorem emitClosing_skip {c : Cell Row} (h : c.body.kind ≠ .group) (e : Emit) :
    m.emitClosing c e = e := if_neg h

theorem emits_of {c : Cell Row} (ho : Ordered arm) (hc : m.Closes c arm) :
    m.Emits c (m.zoneOf c) arm (m.shape (m.zoneOf c) arm) := by
  cases arm with
  | skip => exact .leaf (fun _ _ => rfl) fun e => .refl e
  | clean pos stop => exact .leaf (fun _ _ => rfl) fun e => e.writes_verbatimIn _ ho
  | reValue tagAt tagEnd value =>
    exact .leaf (fun _ _ => rfl) fun e =>
      (e.writes_verbatimIn _ ho).trans (Emit.writes_bytes _ _)
  | newValue head value =>
    exact .leaf (fun _ _ => rfl) fun e => (e.writes_varint head).trans (Emit.writes_bytes _ _)
  | reBody tagAt tagEnd prefixEnd srcLen slot =>
    exact .leaf (fun _ _ => rfl) fun e => ((e.writes_verbatimIn _ ho.1).trans
      (writes_opening _ ho.2 srcLen _)).trans (writes_payload _ slot)
  | newBody head slot =>
    exact .leaf (fun _ _ => rfl) fun e => ((e.writes_varint head).trans
      (Emit.writes_varint _ _)).trans (writes_payload _ slot)
  | imported slot => exact .leaf (fun _ _ => rfl) fun e => writes_payload e slot
  | reSrcBody tagAt tagEnd prefixEnd srcLen pos len =>
    exact .leaf (fun _ _ => rfl) fun e => ((e.writes_verbatimIn _ ho.1).trans
      (writes_opening _ ho.2 srcLen _)).trans (Emit.writes_verbatimIn _ _ (Nat.le_add_right pos len))
  | newSrcBody head pos len =>
    exact .leaf (fun _ _ => rfl) fun e => ((e.writes_varint head).trans
      (Emit.writes_varint _ _)).trans (Emit.writes_verbatimIn _ _ (Nat.le_add_right pos len))
  | spine tagAt tagEnd prefixEnd srcLen =>
    exact .len (fun body e => ⟨_, rfl, (e.writes_verbatimIn _ ho.1).trans
      (writes_opening _ ho.2 srcLen body)⟩) (emitClosing_skip hc)
  | importSpine tagAt tagEnd prefixEnd srcLen slot =>
    exact .len (fun body e => ⟨_, rfl, (e.writes_verbatimIn _ ho.1).trans
      (writes_opening _ ho.2 srcLen body)⟩) (emitClosing_skip hc)
  | reGroup tagAt tagEnd endAt endEnd =>
    refine .group (fun body e => ⟨_, rfl, e.writes_verbatimIn _ ho.1⟩) fun e => ?_
    rw [show m.emitClosing c e = _ from hc e]
    exact e.writes_verbatimIn _ ho.2
  | importGroup tagAt tagEnd endAt endEnd slot =>
    refine .group (fun body e => ⟨_, rfl, e.writes_verbatimIn _ ho.1⟩) fun e => ?_
    rw [show m.emitClosing c e = _ from hc e]
    exact e.writes_verbatimIn _ ho.2
  | newGroup head endWord =>
    refine .group (fun body e => ⟨_, rfl, e.writes_varint head⟩) fun e => ?_
    rw [show m.emitClosing c e = _ from hc e]
    exact e.writes_varint endWord

theorem importGroupEnd_le (bytes : List UInt8) (field : FieldNumber) :
    importGroupEnd bytes field ≤ bytes.length := by
  unfold importGroupEnd
  dsimp only
  split
  · exact Nat.sub_le _ _
  · exact Nat.le_refl _

section Closing

variable {c : Cell Row} (hk : c.body.kind = .group) (e : Emit)

include hk

theorem emitClosing_intact (hb : c.body.base = .intact) :
    m.emitClosing c e = e.verbatimIn (m.zoneOf c)
      (c.body.start + c.body.tagW m.standard + c.body.payloadLen)
      (c.body.spanEnd m.standard) := by
  unfold emitClosing
  dsimp only
  rw [if_pos hk, hb]

theorem emitClosing_inserted (hb : c.body.base = .inserted) :
    m.emitClosing c e = e.varint (groupEndWord c.body.field) := by
  unfold emitClosing
  dsimp only
  rw [if_pos hk, hb]

theorem emitClosing_src (hb : c.body.base = .src) :
    m.emitClosing c e = e.verbatimIn (m.importSlot c.body.value)
      (importGroupEnd (m.importSlot c.body.value) c.body.field)
      (m.importSlot c.body.value).length := by
  unfold emitClosing
  dsimp only
  rw [if_pos hk, hb]

end Closing

/-- What `settle` can say of a row. -/
theorem settle_spec (c : Cell Row) : Ordered (m.settle c.body) ∧ m.Closes c (m.settle c.body) := by
  unfold settle
  dsimp only
  split
  · exact ⟨trivial, trivial⟩
  · split
    · unfold settleIntact
      dsimp only
      have hspan : c.body.start ≤ c.body.spanEnd m.standard := by
        unfold Row.spanEnd
        omega
      split
      · exact ⟨hspan, trivial⟩
      · split
        · next h =>
          exact ⟨⟨Nat.le_add_right _ _, Nat.le_add_right _ _⟩, fun hk => by simp [h.1] at hk⟩
        · split
          · next hb _ _ h =>
            refine ⟨⟨Nat.le_add_right _ _, ?_⟩, fun e => ?_⟩
            · unfold Row.spanEnd
              omega
            · exact emitClosing_intact h e hb
          · exact ⟨hspan, trivial⟩
    · split
      · exact ⟨⟨Nat.le_add_right _ _, Nat.le_add_right _ _⟩, trivial⟩
      · exact ⟨Nat.le_add_right _ _, trivial⟩
    · next hb =>
      unfold settleSrc
      dsimp only
      split
      · next slot hslot =>
        have hvalue : c.body.value = slot := by
          unfold Row.srcValue at hslot
          split at hslot
          · cases hslot
            rfl
          · split at hslot <;> cases hslot
        split
        · split
          · next hk =>
            refine ⟨⟨Nat.zero_le _, importGroupEnd_le _ _⟩, fun e => ?_⟩
            rw [emitClosing_src hk e hb, hvalue]
          · next hk => exact ⟨⟨Nat.zero_le _, Nat.le_add_right _ _⟩, hk⟩
        · exact ⟨trivial, trivial⟩
      · exact ⟨⟨Nat.le_add_right _ _, Nat.le_add_right _ _⟩, trivial⟩
      · exact ⟨trivial, trivial⟩
    · next hb =>
      split
      · exact ⟨trivial, trivial⟩
      · next hk =>
        refine ⟨trivial, fun e => ?_⟩
        exact emitClosing_inserted hk e hb
      · exact ⟨trivial, trivial⟩

theorem emits (c : Cell Row) :
    m.Emits c (m.zoneOf c) (m.settle c.body) (m.shape (m.zoneOf c) (m.settle c.body)) :=
  emits_of (settle_spec c).1 (settle_spec c).2

variable {β : Type} {body : β → Row} {i root : Nat} {table : List Nat} {opened : Option Nat}
  {cursor : Nat}
  {e : Emit}

theorem emitTurn_enters {e' : Emit} {read : Nat}
    (h : m.emitOpening (m.zoneOf (m.row i)) (table.getD cursor 0) e (m.settle (m.row i).body) =
      some (e', read)) :
    m.emitTurn root table ⟨opened, some i, cursor, e⟩ =
      .next ⟨some i, (m.row i).kid, cursor + read, e'⟩ := by
  unfold emitTurn
  dsimp only
  rw [h]

theorem emitTurn_passes
    (h : m.emitOpening (m.zoneOf (m.row i)) (table.getD cursor 0) e (m.settle (m.row i).body) =
      none) :
    m.emitTurn root table ⟨opened, some i, cursor, e⟩ =
      .next ⟨opened, if i = root then none else (m.row i).next, cursor,
        m.emitLeaf (m.zoneOf (m.row i)) e (m.settle (m.row i).body)⟩ := by
  unfold emitTurn
  dsimp only
  rw [h]

theorem emitTurn_climbs : m.emitTurn root table ⟨some i, none, cursor, e⟩ =
    .next ⟨(m.row i).parent, if i = root then none else (m.row i).next, cursor,
      m.emitClosing (m.row i) e⟩ := rfl

/-- The walk gets from a row, or from the end of a layer, past what writes the piece. -/
def Emitted (m : Machine) (root : Nat) (table : List Nat) (turns : Nat) (s : Emitting)
    (next : Option Nat) (cursor : Nat) (piece : List UInt8) : Prop :=
  ∃ n ≤ turns, ∃ e', Takes (m.emitTurn root table) n s ⟨s.opened, next, cursor, e'⟩ ∧
    s.emit.Writes e' piece

theorem Emitted.append {turns turns' : Nat} {s : Emitting} {next next' : Option Nat}
    {cursor cursor' : Nat} {piece piece' : List UInt8}
    (h : m.Emitted root table turns s next cursor piece)
    (h' : ∀ e, m.Emitted root table turns' ⟨s.opened, next, cursor, e⟩ next' cursor' piece') :
    m.Emitted root table (turns + turns') s next' cursor' (piece ++ piece') := by
  obtain ⟨n, hn, e, ht, hw⟩ := h
  obtain ⟨n', hn', e', ht', hw'⟩ := h' e
  exact ⟨n + n', Nat.add_le_add hn hn', e', ht.trans ht', hw.trans hw'⟩

/-- A row, where its interior is walked. -/
theorem emitted_row (kids : Forest β) {turns : Nat} (before after : List Nat)
    (htable : table = before ++ (m.shapeOf i).bodies (m.text kids) (m.bodies kids) ++ after)
    (hkids : ∀ (e : Emit) (before after : List Nat), table = before ++ m.bodies kids ++ after →
      m.Emitted root table turns ⟨some i, (m.row i).kid, before.length, e⟩ none
        (before ++ m.bodies kids).length (m.text kids)) (e : Emit) :
    m.Emitted root table (turns + 2) ⟨(m.row i).parent, some i, before.length, e⟩
      (if i = root then none else (m.row i).next)
      (before ++ (m.shapeOf i).bodies (m.text kids) (m.bodies kids)).length
      ((m.shapeOf i).bytes (m.text kids)) := by
  have hs := emits (m := m) (m.row i)
  unfold shapeOf at htable ⊢
  generalize m.shape (m.zoneOf (m.row i)) (m.settle (m.row i).body) = shape at hs htable
  cases hs with
  | leaf hopen hw =>
    refine ⟨1, by omega, _, .head (emitTurn_passes (hopen _ e)) ?_, hw e⟩
    show Takes _ _ _ (Emitting.mk _ _ (before ++ []).length _)
    rw [List.append_nil]
    exact .refl _
  | @len pos srcLen tag delim hopen hclose =>
    have hread : table.getD before.length 0 = (m.text kids).length := by
      rw [htable, List.append_assoc, List.getD_eq_getElem?_getD,
        List.getElem?_append_right (Nat.le_refl _), Nat.sub_self]
      rfl
    obtain ⟨e₁, he₁, hw₁⟩ := hopen (m.text kids).length e
    obtain ⟨n, hn, e₂, ht, hw₂⟩ := hkids e₁ (before ++ [(m.text kids).length]) after (by
      rw [htable]
      simp only [Shape.bodies, List.append_assoc, List.cons_append, List.nil_append])
    rw [List.append_assoc, List.singleton_append, List.length_append, List.length_singleton] at ht
    have hhead : m.emitTurn root table ⟨(m.row i).parent, some i, before.length, e⟩ =
        .next ⟨some i, (m.row i).kid, before.length + 1, e₁⟩ :=
      emitTurn_enters (by rw [hread]; exact he₁)
    have hlast : m.emitTurn root table ⟨some i, none,
          (before ++ (m.text kids).length :: m.bodies kids).length, e₂⟩ = _ := emitTurn_climbs
    rw [hclose] at hlast
    exact ⟨n + 1 + 1, by omega, e₂, .head hhead (ht.trans (.head hlast (.refl _))),
      hw₁.trans hw₂⟩
  | @group front back hopen hclose =>
    obtain ⟨e₁, he₁, hw₁⟩ := hopen (table.getD before.length 0) e
    obtain ⟨n, hn, e₂, ht, hw₂⟩ := hkids e₁ before after htable
    have hhead : m.emitTurn root table ⟨(m.row i).parent, some i, before.length, e⟩ =
        .next ⟨some i, (m.row i).kid, before.length + 0, e₁⟩ := emitTurn_enters he₁
    have hlast : m.emitTurn root table ⟨some i, none, (before ++ m.bodies kids).length, e₂⟩ = _ :=
      emitTurn_climbs
    exact ⟨n + 1 + 1, by omega, _, .head hhead (ht.trans (.head hlast (.refl _))),
      (hw₁.trans hw₂).trans (hclose e₂)⟩

/-- The emit walk of a layer below the root. -/
theorem emitted_layer {parent first : Option Nat} {t : Forest β}
    (h : Chain body m.rows parent first t) (hroot : root ∉ t.ids) (before after : List Nat)
    (htable : table = before ++ m.bodies t ++ after) (e : Emit) :
    m.Emitted root table (2 * t.ids.length) ⟨parent, first, before.length, e⟩ none
      (before ++ m.bodies t).length (m.text t) := by
  induction h generalizing e before after with
  | nil =>
    refine ⟨0, Nat.le_refl _, e, ?_, .refl e⟩
    show Takes _ _ _ (Emitting.mk _ _ (before ++ []).length _)
    rw [List.append_nil]
    exact .refl _
  | @node parent next kid x r kids rest hcell _ _ ihk ihr =>
    simp only [Forest.mem_ids_node, not_or] at hroot
    have hc := row_of_cell hcell
    have hx : m.Emitted root table (2 * kids.ids.length + 2)
        ⟨(m.row x).parent, some x, before.length, e⟩ _ _ _ :=
      emitted_row kids before (m.bodies rest ++ after)
        (by rw [htable]; simp only [bodies, List.append_assoc]) (fun e' before' after' h' => by
          rw [hc]
          exact ihk hroot.2.1 before' after' h' e') e
    rw [hc, if_neg (Ne.symm hroot.1)] at hx
    have hall := hx.append fun e' => ihr hroot.2.2 _ after (by
      rw [htable]; simp only [bodies, List.append_assoc]) e'
    have hturns : 2 * kids.ids.length + 2 + 2 * rest.ids.length =
        2 * (Forest.node x r kids rest).ids.length := by
      show _ = 2 * (kids.ids ++ rest.ids).length.succ
      rw [List.length_append]
      omega
    rw [hturns, List.append_assoc] at hall
    exact hall

/-- The emit walk writes what the row does. -/
theorem emitSubtree_writes {next kid : Option Nat} {r : Row} {kids : Forest β}
    (hcell : m.rows[i]? = some ⟨none, next, kid, r⟩) (h : Chain body m.rows (some i) kid kids)
    (hi : i ∉ kids.ids) (hlen : kids.ids.length < m.rows.length) (e : Emit) :
    e.Writes (m.emitSubtree i ((m.shapeOf i).bodies (m.text kids) (m.bodies kids)) e)
      ((m.shapeOf i).bytes (m.text kids)) := by
  have hc := row_of_cell hcell
  have hall : m.Emitted i _ (2 * kids.ids.length + 2) ⟨(m.row i).parent, some i, 0, e⟩ _ _ _ :=
    emitted_row kids [] [] (by rw [List.nil_append, List.append_nil])
      (fun e' before after h' => by
        rw [hc]
        exact emitted_layer h hi before after h' e') e
  obtain ⟨n, hn, e', ht, hw⟩ := hall
  rw [hc, if_pos rfl] at ht
  have hfuel : 2 * kids.ids.length + 2 < m.walkFuel := by
    unfold walkFuel
    omega
  have hrun := ht.halts rfl (Nat.lt_of_le_of_lt hn hfuel)
  unfold emitSubtree
  rw [show run _ _ (Emitting.mk none (some i) 0 e) = some e' from hrun]
  exact hw

end EmitWalk

/-! ## The save -/

section Save

variable {β : Type} {body : β → Row} {m : Machine} {i : Nat} {last : Option Nat}

/-- A riding row stands at the end of the row in front, where that one rides too. -/
def Abut (m : Machine) : Option Nat → Forest β → Prop
  | _, .nil => True
  | last, .node i _ _ rest =>
    (∀ prev, last = some prev → (m.row prev).body.ridesVerbatim = true →
      (m.row i).body.ridesVerbatim = true →
      (m.row i).body.start = (m.row prev).body.spanEnd m.standard) ∧ m.Abut (some i) rest

/-- A save's last judgment. -/
def published (out : List UInt8) : Saved :=
  if PayloadLen.max < out.length then .refused (.docOverCap out.length) else .saved out

/-- A row that rides is copied out of the source. -/
theorem settle_rides (h : (m.row i).body.ridesVerbatim = true) :
    m.settle (m.row i).body =
        .clean (m.row i).body.start ((m.row i).body.spanEnd m.standard) ∧
      m.zoneOf (m.row i) = m.source := by
  unfold Row.ridesVerbatim at h
  simp only [Bool.and_eq_true, beq_iff_eq, Bool.not_eq_true'] at h
  obtain ⟨⟨⟨hb, hdel⟩, hdirty⟩, hzone⟩ := h
  have himport : (m.row i).body.importZone = false := by
    unfold Row.importZone
    rw [hzone]
    rfl
  unfold settle settleIntact zoneOf
  dsimp only
  rw [hdel, hb, himport]
  exact ⟨if_pos hdirty, rfl⟩

theorem shapeOf_rides (h : (m.row i).body.ridesVerbatim = true) :
    m.shapeOf i = .leaf (slice m.source (m.row i).body.start
      ((m.row i).body.spanEnd m.standard)) := by
  obtain ⟨hsettle, hzone⟩ := settle_rides h
  unfold shapeOf
  rw [hsettle, hzone]
  rfl

theorem shapeOf_deleted (h : (m.row i).body.deleted = true) : m.shapeOf i = .leaf [] := by
  unfold shapeOf settle
  dsimp only
  rw [if_pos h]
  rfl

theorem start_le_spanEnd (standard : Standard) (r : Row) : r.start ≤ r.spanEnd standard := by
  unfold Row.spanEnd
  omega

/-- The pending run ends with the row in front of the position. -/
structure Runs (m : Machine) (last : Option Nat) (s : Saving) : Prop where
  last : ∀ start prev, s.run = some (start, prev) → last = some prev
  rides : ∀ start prev, s.run = some (start, prev) → (m.row prev).body.ridesVerbatim = true
  ordered : ∀ start prev, s.run = some (start, prev) →
    start ≤ (m.row prev).body.spanEnd m.standard
  emit : s.emit.Ordered

/-- What is published, with the pending run. -/
def pending (m : Machine) (s : Saving) : List UInt8 := (m.endRun s).text

theorem endRun_writes {s : Saving} (h : m.Runs last s) : (m.endRun s).Ordered ∧
    m.pending s = s.emit.text ++ s.run.elim [] fun r =>
      slice m.source r.1 ((m.row r.2).body.spanEnd m.standard) := by
  rcases s with ⟨cur, _ | ⟨start, prev⟩, emit⟩
  · exact ⟨h.emit, (List.append_nil _).symm⟩
  · have hw := emit.writes_verbatimIn m.source (h.ordered start prev rfl)
    exact ⟨hw.ordered h.emit, hw.text h.emit⟩

/-- A turn of the save, at a row. -/
def Saves (m : Machine) (s s' : Saving) (i : Nat) (piece : List UInt8) : Prop :=
  m.Runs (some i) s' ∧ m.pending s' = m.pending s ++ piece

theorem saves_riding {s : Saving} {cur : Option Nat} (h : m.Runs last s)
    (hr : (m.row i).body.ridesVerbatim = true)
    (hab : ∀ prev, last = some prev → (m.row prev).body.ridesVerbatim = true →
      (m.row i).body.start = (m.row prev).body.spanEnd m.standard) :
    m.Saves s ⟨cur, some (s.run.elim (m.row i).body.start Prod.fst, i), s.emit⟩ i
      (slice m.source (m.row i).body.start ((m.row i).body.spanEnd m.standard)) := by
  have hspan := start_le_spanEnd m.standard (m.row i).body
  have hstart : s.run.elim (m.row i).body.start Prod.fst ≤ (m.row i).body.start := by
    cases hrun : s.run with
    | none => exact Nat.le_refl _
    | some r =>
      have := h.ordered r.1 r.2 hrun
      rwa [← hab r.2 (h.last r.1 r.2 hrun) (h.rides r.1 r.2 hrun)] at this
  have hruns : m.Runs (some i)
      ⟨cur, some (s.run.elim (m.row i).body.start Prod.fst, i), s.emit⟩ := by
    refine ⟨?_, ?_, ?_, h.emit⟩
    · rintro _ _ ⟨⟩
      rfl
    · rintro _ _ ⟨⟩
      exact hr
    · rintro _ _ ⟨⟩
      exact Nat.le_trans hstart hspan
  refine ⟨hruns, ?_⟩
  rw [(endRun_writes hruns).2, (endRun_writes h).2, List.append_assoc]
  show s.emit.text ++ slice _ _ _ = s.emit.text ++ _
  rw [← slice_append hstart hspan]
  congr 2
  cases hrun : s.run with
  | none =>
    show slice _ (m.row i).body.start (m.row i).body.start = []
    rw [slice_eq, Nat.sub_self]
    rfl
  | some r =>
    show slice _ r.1 (m.row i).body.start = slice _ r.1 _
    rw [hab r.2 (h.last r.1 r.2 hrun) (h.rides r.1 r.2 hrun)]

theorem saves_ended {s : Saving} {cur : Option Nat} {e : Emit} {piece : List UInt8}
    (h : m.Runs last s) (hw : (m.endRun s).Writes e piece) :
    m.Saves s ⟨cur, none, e⟩ i piece := by
  have ho := (endRun_writes h).1
  exact ⟨⟨nofun, nofun, nofun, hw.ordered ho⟩, hw.text ho⟩

section Turns

variable {run : Option (Nat × Nat)} {e : Emit}

theorem saveTurn_rides (hr : (m.row i).body.ridesVerbatim = true) :
    m.saveTurn ⟨some i, run, e⟩ =
      .next ⟨(m.row i).next, some (run.elim (m.row i).body.start Prod.fst, i), e⟩ := by
  unfold saveTurn
  dsimp only
  rw [if_pos hr]

theorem saveTurn_deleted (hr : (m.row i).body.ridesVerbatim = false)
    (hd : (m.row i).body.deleted = true) :
    m.saveTurn ⟨some i, run, e⟩ = .next ⟨(m.row i).next, none, m.endRun ⟨some i, run, e⟩⟩ := by
  unfold saveTurn
  dsimp only
  rw [if_neg (by rw [hr]; decide), if_pos hd]

variable (hr : (m.row i).body.ridesVerbatim = false) (hd : (m.row i).body.deleted = false)

include hr hd

theorem saveTurn_refuses {fault : SaveFault} (h : m.sizeSubtree i = .error fault) :
    m.saveTurn ⟨some i, run, e⟩ = .halt (.refused fault) := by
  unfold saveTurn
  dsimp only
  rw [if_neg (by rw [hr]; decide), if_neg (by rw [hd]; decide), h]

theorem saveTurn_emits {size : Nat} {bodies : List Nat} (h : m.sizeSubtree i = .ok (size, bodies))
    (hseam : (m.emitSubtree i bodies (m.endRun ⟨some i, run, e⟩).flush).flush.out.length -
      (m.endRun ⟨some i, run, e⟩).flush.out.length = size) :
    m.saveTurn ⟨some i, run, e⟩ = .next ⟨(m.row i).next, none,
      (m.emitSubtree i bodies (m.endRun ⟨some i, run, e⟩).flush).flush⟩ := by
  unfold saveTurn
  dsimp only
  rw [if_neg (by rw [hr]; decide), if_neg (by rw [hd]; decide), h]
  exact if_pos hseam

end Turns

/-- The seam holds: the emit walk of a row writes as many bytes as the size walk bills. -/
theorem emitSubtree_length {next kid : Option Nat} {r : Row} {kids : Forest β} {e : Emit}
    (hcell : m.rows[i]? = some ⟨none, next, kid, r⟩) (h : Chain body m.rows (some i) kid kids)
    (hi : i ∉ kids.ids) (hlen : kids.ids.length < m.rows.length) (he : e.Ordered) :
    (m.emitSubtree i ((m.shapeOf i).bodies (m.text kids) (m.bodies kids)) e.flush).flush.out.length
      - e.flush.out.length = ((m.shapeOf i).bytes (m.text kids)).length := by
  have hw := (e.writes_flush.trans (emitSubtree_writes hcell h hi hlen _)).text he
  show (Emit.text _).length - (Emit.text _).length = _
  rw [hw, List.nil_append, List.length_append]
  exact Nat.add_sub_cancel_left _ _

/-- A row and its interior are rows of the machine. -/
theorem interior_shorter {cell : Cell Row} {parent first : Option Nat} {kids : Forest β}
    (hcell : m.rows[i]? = some cell) (h : Chain body m.rows parent first kids)
    (hi : i ∉ kids.ids) (hnodup : kids.ids.Nodup) : kids.ids.length < m.rows.length := by
  have hsub : i :: kids.ids ⊆ List.range m.rows.length := by
    intro y hy
    refine List.mem_range.mpr ?_
    rcases List.mem_cons.mp hy with rfl | hy
    · exact (List.getElem?_eq_some_iff.mp hcell).1
    · exact h.lt hy
  have := (List.subperm_of_subset (List.nodup_cons.mpr ⟨hi, hnodup⟩) hsub).length_le
  rwa [List.length_cons, List.length_range] at this

/-- The save from a row of the top layer on. -/
theorem save_layer {first : Option Nat} {t : Forest β} (h : Chain body m.rows none first t)
    (hb : m.Bounded t) (hnodup : t.ids.Nodup) (last : Option Nat) (hab : m.Abut last t)
    (run : Option (Nat × Nat)) (e : Emit) (hruns : m.Runs last ⟨first, run, e⟩) :
    ∃ n ≤ t.ids.length, ∃ s, Takes m.saveTurn n ⟨first, run, e⟩ s ∧
      m.saveTurn s = .halt ((m.overCap t).elim
        (published (m.pending ⟨first, run, e⟩ ++ m.text t)) .refused) := by
  generalize hparent : (none : Option Nat) = parent at h
  induction h generalizing last run e with
  | nil =>
    refine ⟨0, Nat.le_refl _, _, .refl _, ?_⟩
    show m.saveTurn ⟨none, run, e⟩ = .halt (published (m.pending ⟨none, run, e⟩ ++ []))
    rw [List.append_nil]
    rfl
  | @node parent next kid x r kids rest hcell hk _ _ ihr =>
    subst hparent
    have hap := Forest.nodup_node.mp hnodup
    obtain ⟨hin, hbk, hbr⟩ := hb
    obtain ⟨habut, habr⟩ := hab
    have hc := row_of_cell hcell
    have hlen := interior_shorter hcell hk hap.notKids hap.inKids
    -- What the rest does behind a turn that saves this row.
    have hgo : ∀ {run' : Option (Nat × Nat)} {e' : Emit},
        m.saveTurn ⟨some x, run, e⟩ = .next ⟨next, run', e'⟩ →
        m.Saves ⟨some x, run, e⟩ ⟨next, run', e'⟩ x ((m.shapeOf x).bytes (m.text kids)) →
        (m.shapeOf x).overCap (m.text kids) (m.overCap kids) = none →
        ∃ n ≤ (Forest.node x r kids rest).ids.length, ∃ s,
          Takes m.saveTurn n ⟨some x, run, e⟩ s ∧
          m.saveTurn s = .halt ((m.overCap (.node x r kids rest)).elim
            (published (m.pending ⟨some x, run, e⟩ ++ m.text (.node x r kids rest)))
            .refused) := by
      intro run' e' hturn hsaves hover
      obtain ⟨n, hn, s, ht, hs⟩ := ihr hbr hap.inRest (some x) habr run' e' hsaves.1 rfl
      refine ⟨n + 1, ?_, s, .head hturn ht, ?_⟩
      · show n + 1 ≤ (kids.ids ++ rest.ids).length + 1
        rw [List.length_append]
        omega
      · have hnode : m.overCap (.node x r kids rest) = m.overCap rest := by
          show ((m.shapeOf x).overCap _ _).or _ = _
          rw [hover]
          rfl
        rw [hs, hsaves.2, List.append_assoc, hnode]
        rfl
    cases hrides : (m.row x).body.ridesVerbatim with
    | true =>
      have hshape := shapeOf_rides hrides
      have hturn : m.saveTurn ⟨some x, run, e⟩ = _ := saveTurn_rides hrides
      rw [hc] at hturn
      refine hgo hturn ?_ (by rw [hshape]; rfl)
      have hsaves : m.Saves _ ⟨next, _, _⟩ _ _ :=
        saves_riding hruns hrides fun prev hp hr => habut prev hp hr hrides
      rw [hshape]
      rw [hc] at hsaves ⊢
      exact hsaves
    | false =>
      cases hdel : (m.row x).body.deleted with
      | true =>
        have hshape := shapeOf_deleted hdel
        have hturn : m.saveTurn ⟨some x, run, e⟩ = _ := saveTurn_deleted hrides hdel
        rw [hc] at hturn
        refine hgo hturn ?_ (by rw [hshape]; rfl)
        rw [hshape]
        exact saves_ended hruns (.refl _)
      | false =>
        have hsize := sizeSubtree_eq hcell hk hin hbk hlen
        cases hover : (m.shapeOf x).overCap (m.text kids) (m.overCap kids) with
        | some fault =>
          rw [hover] at hsize
          refine ⟨0, Nat.zero_le _, _, .refl _, ?_⟩
          rw [saveTurn_refuses hrides hdel hsize]
          show _ = Turn.halt ((((m.shapeOf x).overCap _ _).or _).elim _ _)
          rw [hover]
          rfl
        | none =>
          rw [hover] at hsize
          have hw := (((m.endRun ⟨some x, run, e⟩).writes_flush.trans
            (emitSubtree_writes hcell hk hap.notKids hlen _)).trans (Emit.writes_flush _))
          rw [List.nil_append, List.append_nil] at hw
          have hturn : m.saveTurn ⟨some x, run, e⟩ = _ := saveTurn_emits hrides hdel hsize
            (emitSubtree_length hcell hk hap.notKids hlen (endRun_writes hruns).1)
          rw [hc] at hturn
          exact hgo hturn (saves_ended hruns hw) hover

/-- A machine has as many rows as its forest, at least. -/
theorem shorter {t : Forest β} (h : Chain body m.rows none m.top t) (hnodup : t.ids.Nodup) :
    t.ids.length ≤ m.rows.length := by
  have hsub : t.ids ⊆ List.range m.rows.length := fun y hy => List.mem_range.mpr (h.lt hy)
  have := (List.subperm_of_subset hnodup hsub).length_le
  rwa [List.length_range] at this

/-- The save writes what the recursion does. -/
theorem save_eq {t : Forest β} (h : Chain body m.rows none m.top t) (hb : m.Bounded t)
    (hnodup : t.ids.Nodup) (hab : m.Abut none t) (hdirty : m.dirty = true) :
    m.save = (m.overCap t).elim (published (m.text t)) .refused := by
  obtain ⟨n, hn, s, ht, hs⟩ := save_layer h hb hnodup none hab none ⟨[], none⟩
    ⟨nofun, nofun, nofun, nofun⟩
  have hlen := shorter h hnodup
  unfold save
  rw [if_neg (by rw [hdirty]; decide), ht.halts hs (by omega)]
  rfl

end Save

end Machine

end ProtobufEdit.Editor
