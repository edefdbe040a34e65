import ProtobufEdit.TwoPass

/-!
# The splicer's verdicts and its Vec back-end

A rule answers one verdict a record; the walk hands what follows to a back-end. The Vec faces'
back-end copies a committed container's prefix at its met width and settles it at the close, by
moving the interior it has already emitted. `close_comes` says what the three ways of settling
come to: the new prefix stands before the interior and the tail.
-/

namespace ProtobufEdit.Splice

open Wire Varint Base128 TwoPass

/-! ## Verdicts -/

/-- A scalar record's verdict. -/
inductive Scalar (ν : Type) where
  | keep
  | rewrite (value : ν)
  | drop
  | insert (bytes : List UInt8)
  deriving DecidableEq, Repr

/-- Maps the rewrite payload: the walks' fixed-kind funnel. -/
def Scalar.map {ν ω : Type} (f : ν → ω) : Scalar ν → Scalar ω
  | .keep => .keep
  | .rewrite value => .rewrite (f value)
  | .drop => .drop
  | .insert bytes => .insert bytes

/-- A LEN record's verdict. -/
inductive Len where
  | pass
  | commit (tail : Option (List UInt8))
  | replace (bytes : List UInt8)
  | drop
  | insert (bytes : List UInt8)
  deriving DecidableEq, Repr

/-- A fixed word, unifying the two fixed kinds' rewrite arms. -/
inductive Word where
  | w32 (bits : UInt32)
  | w64 (bits : UInt64)
  deriving DecidableEq, Repr

def Word.bytes : Word → List UInt8
  | w32 bits => toLeBytes 4 bits.toNat
  | w64 bits => toLeBytes 8 bits.toNat

/-! ## The back-ends' interface -/

/-- What an event leaves behind: whether it failed, and the back-end either way. -/
abbrev Did (β : Type) := Except Trap Unit × β

def Did.andThen {β : Type} (d : Did β) (f : β → Did β) : Did β :=
  match d.1 with
  | .ok () => f d.2
  | .error trap => (.error trap, d.2)

/-- One emission back-end behind the shared ask walk. Every coordinate is an absolute input
offset; `outgrown` is the output-cap breach. -/
structure Back (β : Type) where
  verbatim : Nat → Nat → β → Did β
  author : List UInt8 → β → Did β
  authorVarint : Nat → β → Did β
  dirty : β → β
  commit : Nat → Nat → Nat → Option (List UInt8) → β → Did β
  close : Nat → β → Did β

/-! ## The Vec back-end -/

/-- One open container's settle state: the output coordinates on either side of its copied
prefix, and its staged tail's length. -/
structure Hole where
  holeAt : Nat
  interiorAt : Nat
  tailLen : Nat
  deriving DecidableEq, Repr

/-- Output coordinates are relative to `mark`; `holes` stands innermost first, and the staged
`tails` innermost last. -/
structure Emit where
  input : List UInt8
  out : List UInt8
  mark : Nat
  holes : List Hole
  tails : List UInt8
  deriving DecidableEq, Repr

/-- `bytes` stored from `pos` on, over what stood there. -/
def overwrite (xs : List UInt8) (pos : Nat) (bytes : List UInt8) : List UInt8 :=
  xs.take pos ++ bytes ++ xs.drop (pos + bytes.length)

/-- The prefix that ends up before a body: the met one where the announced length held. -/
def settledPrefix (word : List UInt8) (oldLen newLen : Nat) : List UInt8 :=
  if newLen = oldLen then word else minimal newLen

namespace Emit

def new (input out : List UInt8) : Emit := ⟨input, out, out.length, [], []⟩

/-- The job's output length so far. -/
def rel (e : Emit) : Nat := e.out.length - e.mark

/-- The eager cap judgment. -/
def admitGrow (e : Emit) (grow : Nat) : Except Trap Unit :=
  if e.rel + grow > PayloadLen.max then .error (.outgrown (e.rel + grow)) else .ok ()

def append (e : Emit) (bytes : List UInt8) : Did Emit :=
  match e.admitGrow bytes.length with
  | .error trap => (.error trap, e)
  | .ok () => (.ok (), { e with out := e.out ++ bytes })

/-- `undefined` is an unchecked extent outside the input. -/
def verbatim (start stop : Nat) (e : Emit) : Did Emit :=
  if start ≤ stop ∧ stop ≤ e.input.length then
    e.append ((e.input.drop start).take (stop - start))
  else (.error .undefined, e)

def author (bytes : List UInt8) (e : Emit) : Did Emit := e.append bytes

def authorVarint (word : Nat) (e : Emit) : Did Emit := e.append (emit64 word)

def commit (head tagEnd payloadStart : Nat) (tail : Option (List UInt8)) (e : Emit) : Did Emit :=
  (e.verbatim head tagEnd).andThen fun e =>
    let holeAt := e.rel
    (e.verbatim tagEnd payloadStart).andThen fun e =>
      let staged := tail.getD []
      (.ok (), { e with
        tails := e.tails ++ staged, holes := ⟨holeAt, e.rel, staged.length⟩ :: e.holes })

/-- The close's first half: the staged tail lands. -/
def land (tailLen : Nat) (e : Emit) : Did Emit :=
  if 0 < tailLen then
    if e.tails.length < tailLen then (.error .panic, e)
    else
      let start := e.tails.length - tailLen
      match e.admitGrow tailLen with
      | .error trap => (.error trap, e)
      | .ok () => (.ok (), { e with
          out := e.out ++ e.tails.drop start, tails := e.tails.take start })
  else (.ok (), e)

/-- The close's second half: the prefix re-authors over its hole. -/
def settle (oldLen : Nat) (hole : Hole) (e : Emit) : Did Emit :=
  if e.rel < hole.interiorAt ∨ hole.interiorAt < hole.holeAt then (.error .panic, e)
  else
    let newLen := e.rel - hole.interiorAt
    if newLen = oldLen then (.ok (), e)
    else
      let met := hole.interiorAt - hole.holeAt
      let need := encodedLen32 newLen
      let holeAbs := e.mark + hole.holeAt
      let interiorAbs := e.mark + hole.interiorAt
      let count := e.out.length - interiorAbs
      if need = met then
        (.ok (), { e with out := overwrite e.out holeAbs ((emit64 newLen).take need) })
      else if met < need then
        let grow := need - met
        match e.admitGrow grow with
        | .error trap => (.error trap, e)
        | .ok () =>
          -- the reserved bytes hold no value before the interior moves over them
          let reserved := e.out ++ List.replicate grow 0
          let moved := overwrite reserved (interiorAbs + grow) ((e.out.drop interiorAbs).take count)
          (.ok (), { e with out := overwrite moved holeAbs (write64At newLen need) })
      else
        let shrink := met - need
        let written := overwrite e.out holeAbs ((emit64 newLen).take need)
        let moved := overwrite written (interiorAbs - shrink) (written.drop interiorAbs)
        (.ok (), { e with out := moved.take (interiorAbs - shrink + count) })

/-- `undefined` is a close without its commit. -/
def close (oldLen : Nat) (e : Emit) : Did Emit :=
  match e.holes with
  | [] => (.error .undefined, e)
  | hole :: holes =>
    (({ e with holes } : Emit).land hole.tailLen).andThen fun e => e.settle oldLen hole

def back : Back Emit where
  verbatim := verbatim
  author := author
  authorVarint := authorVarint
  dirty := id
  commit := commit
  close := close

/-! ## What the events come to -/

/-- A job's emission over the caller's bytes `before`. -/
def wrote (input before written : List UInt8) (holes : List Hole) (tails : List UInt8) : Emit :=
  ⟨input, before ++ written, before.length, holes, tails⟩

/-- An event succeeds inside the cap with the emission `e`, or outgrows the cap; the caller's
bytes stand either way. -/
def Comes (before : List UInt8) (d : Did Emit) (e : Emit) : Prop :=
  d = (.ok (), e) ∧ e.rel ≤ PayloadLen.max ∨
    ∃ len b, d = (.error (.outgrown len), b) ∧ PayloadLen.max < len ∧ before <+: b.out

section Events

variable {input before written tails : List UInt8} {holes : List Hole}

@[simp] theorem rel_wrote : (wrote input before written holes tails).rel = written.length := by
  simp [wrote, rel]

theorem Comes.andThen {d : Did Emit} {e e' : Emit} {f : Emit → Did Emit} (h : Comes before d e)
    (hf : e.rel ≤ PayloadLen.max → Comes before (f e) e') : Comes before (d.andThen f) e' := by
  rcases h with ⟨rfl, hcap⟩ | ⟨len, b, rfl, hlen, hb⟩
  · exact hf hcap
  · exact .inr ⟨len, b, rfl, hlen, hb⟩

theorem admit_comes (base : Emit) (grow : Nat) {d : Did Emit} {e : Emit}
    (hbase : before <+: base.out)
    (hd : d = match base.admitGrow grow with
      | .error trap => (.error trap, base)
      | .ok () => (.ok (), e))
    (he : e.rel = base.rel + grow) : Comes before d e := by
  unfold admitGrow at hd
  split at hd
  case h_1 trap htrap =>
    split at htrap
    case isTrue hcap => cases htrap; exact .inr ⟨_, _, hd, hcap, hbase⟩
    case isFalse => cases htrap
  case h_2 hok =>
    split at hok
    case isTrue => cases hok
    case isFalse hcap => exact .inl ⟨hd, by omega⟩

theorem append_comes (bytes : List UInt8) :
    Comes before ((wrote input before written holes tails).append bytes)
      (wrote input before (written ++ bytes) holes tails) := by
  refine admit_comes (wrote input before written holes tails) bytes.length
    (List.prefix_append _ _) ?_ (by simp only [rel_wrote, List.length_append])
  simp only [append, wrote, List.append_assoc]

/-- A delivered extent rides. -/
theorem verbatim_comes {start stop : Nat} {bytes rest : List UInt8}
    (h : input.drop start = bytes ++ rest) (hpos : start ≤ input.length)
    (hstop : stop = start + bytes.length) :
    Comes before ((wrote input before written holes tails).verbatim start stop)
      (wrote input before (written ++ bytes) holes tails) := by
  have hlen := congrArg List.length h
  rw [List.length_drop, List.length_append] at hlen
  have hin : start ≤ stop ∧ stop ≤ (wrote input before written holes tails).input.length :=
    ⟨by omega, by show stop ≤ input.length; omega⟩
  have hslice : ((wrote input before written holes tails).input.drop start).take (stop - start)
      = bytes := by
    show (input.drop start).take (stop - start) = bytes
    rw [h, hstop, Nat.add_sub_cancel_left, List.take_left]
  unfold verbatim
  rw [if_pos hin, hslice]
  exact append_comes bytes

theorem authorVarint_comes {word : Nat} (h : word < 2 ^ 64) :
    Comes before ((wrote input before written holes tails).authorVarint word)
      (wrote input before (written ++ minimal word) holes tails) := by
  unfold authorVarint
  rw [emit64_eq h]
  exact append_comes _

theorem commit_comes {head tagEnd payloadStart : Nat} {tag word rest : List UInt8}
    {tail : Option (List UInt8)} (h : input.drop head = tag ++ (word ++ rest))
    (hpos : head ≤ input.length) (htag : tagEnd = head + tag.length)
    (hword : payloadStart = tagEnd + word.length) :
    Comes before ((wrote input before written holes tails).commit head tagEnd payloadStart tail)
      (wrote input before (written ++ tag ++ word)
        (⟨(written ++ tag).length, (written ++ tag).length + word.length, (tail.getD []).length⟩
          :: holes)
        (tails ++ tail.getD [])) := by
  have hlen := congrArg List.length h
  rw [List.length_drop, List.length_append, List.length_append] at hlen
  have hdrop : input.drop tagEnd = word ++ rest := by
    rw [htag, ← List.drop_drop, h, List.drop_left]
  refine (verbatim_comes h hpos htag).andThen fun _ => ?_
  refine (verbatim_comes hdrop (by omega) hword).andThen fun hcap => .inl ⟨?_, hcap⟩
  simp only [rel_wrote, List.length_append]
  rfl

end Events

/-! ## The close -/

theorem overwrite_middle {a b c bytes : List UInt8} (h : b.length = bytes.length) :
    overwrite (a ++ b ++ c) a.length bytes = a ++ bytes ++ c := by
  have htake : (a ++ b ++ c).take a.length = a := by rw [List.append_assoc, List.take_left]
  have hdrop : (a ++ b ++ c).drop (a.length + bytes.length) = c :=
    List.drop_left' (by rw [List.length_append, h])
  rw [overwrite, htake, hdrop]

section Close

variable {input before tails pre word body : List UInt8} {holes : List Hole}

/-- The interior moves right, then the wider prefix stands over the hole. -/
theorem overwrite_grown {new : List UInt8} (h : word.length ≤ new.length) :
    overwrite
      (overwrite ((pre ++ word ++ body) ++ List.replicate (new.length - word.length) 0)
        (pre.length + word.length + (new.length - word.length)) body) pre.length new
      = pre ++ new ++ body := by
  have hat : pre.length + word.length + (new.length - word.length) = pre.length + new.length := by
    omega
  have hall : ((pre ++ word ++ body) ++ List.replicate (new.length - word.length) (0 : UInt8)).length
      = pre.length + new.length + body.length := by
    simp only [List.length_append, List.length_replicate]; omega
  rw [hat]
  set reserved := (pre ++ word ++ body) ++ List.replicate (new.length - word.length) (0 : UInt8)
    with hreserved
  have hmoved : overwrite reserved (pre.length + new.length) body
      = pre ++ (reserved.drop pre.length).take new.length ++ body := by
    have htake : reserved.take (pre.length + new.length)
        = pre ++ (reserved.drop pre.length).take new.length := by
      rw [List.take_add, hreserved, List.append_assoc, List.append_assoc, List.take_left]
    rw [overwrite, List.drop_of_length_le (by omega), List.append_nil, htake]
  have hmid : ((reserved.drop pre.length).take new.length).length = new.length := by
    rw [List.length_take, List.length_drop]; omega
  rw [hmoved, overwrite_middle hmid]

/-- The narrower prefix stands over the hole's start, then the interior slides left. -/
theorem overwrite_shrunk {new : List UInt8} (h : new.length ≤ word.length) :
    (overwrite (overwrite (pre ++ word ++ body) pre.length new)
        (pre.length + word.length - (word.length - new.length))
        ((overwrite (pre ++ word ++ body) pre.length new).drop (pre.length + word.length))).take
      (pre.length + word.length - (word.length - new.length) + body.length)
      = pre ++ new ++ body := by
  have hat : pre.length + word.length - (word.length - new.length) = pre.length + new.length := by
    omega
  have hsplit : pre ++ word ++ body
      = pre ++ word.take new.length ++ (word.drop new.length ++ body) := by
    rw [List.append_assoc pre (word.take _), ← List.append_assoc (word.take _),
      List.take_append_drop, List.append_assoc]
  have hwritten : overwrite (pre ++ word ++ body) pre.length new
      = pre ++ new ++ (word.drop new.length ++ body) := by
    rw [hsplit]
    exact overwrite_middle (by rw [List.length_take]; omega)
  have hbody : (pre ++ new ++ (word.drop new.length ++ body)).drop (pre.length + word.length)
      = body := by
    rw [← List.append_assoc]
    refine List.drop_left' ?_
    simp only [List.length_append, List.length_drop]; omega
  have htake : (pre ++ new ++ (word.drop new.length ++ body)).take (pre.length + new.length)
      = pre ++ new := List.take_left' (by rw [List.length_append])
  rw [hwritten, hat, hbody, overwrite, htake]
  exact List.take_left' (by rw [List.length_append, List.length_append])

theorem land_comes {written staged : List UInt8} (h : written.length ≤ PayloadLen.max) :
    Comes before ((wrote input before written holes (tails ++ staged)).land staged.length)
      (wrote input before (written ++ staged) holes tails) := by
  unfold land
  split
  case isFalse hz =>
    obtain rfl := List.eq_nil_of_length_eq_zero (by omega : staged.length = 0)
    exact .inl ⟨by simp only [List.append_nil], by simpa using h⟩
  case isTrue =>
    have hroom : ¬(wrote input before written holes (tails ++ staged)).tails.length
        < staged.length := by
      show ¬(tails ++ staged).length < staged.length
      rw [List.length_append]; omega
    have hstart : (tails ++ staged).length - staged.length = tails.length := by
      rw [List.length_append]; omega
    rw [if_neg hroom]
    refine admit_comes (wrote input before written holes (tails ++ staged)) staged.length
      (List.prefix_append _ _) ?_ (by simp only [rel_wrote, List.length_append])
    simp only [wrote, hstart, List.drop_left, List.take_left, List.append_assoc]

theorem settle_comes {oldLen tailLen : Nat} (h : (pre ++ word ++ body).length ≤ PayloadLen.max) :
    Comes before
      ((wrote input before (pre ++ word ++ body) holes tails).settle oldLen
        ⟨pre.length, pre.length + word.length, tailLen⟩)
      (wrote input before (pre ++ settledPrefix word oldLen body.length ++ body) holes tails) := by
  have hlen : (pre ++ word ++ body).length = pre.length + word.length + body.length := by
    simp only [List.length_append]
  have hnew : body.length < 2 ^ 32 := by rw [PayloadLen.max] at h; omega
  have hneed : encodedLen32 body.length = (minimal body.length).length := by
    rw [encodedLen32_eq hnew, minimal_length]
  have hemit : (emit64 body.length).take (encodedLen32 body.length) = minimal body.length := by
    rw [emit64_eq (by omega), hneed, List.take_length]
  have hwrite : write64At body.length (minimal body.length).length = minimal body.length := by
    rw [write64At_eq, minimal_length, minimal]
  have hX : before ++ (pre ++ word ++ body) = before ++ pre ++ word ++ body := by
    simp only [List.append_assoc]
  have hpos : before.length + pre.length = (before ++ pre).length := by rw [List.length_append]
  have hpos' : before.length + (pre.length + word.length) = (before ++ pre).length + word.length := by
    rw [List.length_append, Nat.add_assoc]
  have hcount : (before ++ pre ++ word ++ body).length - ((before ++ pre).length + word.length)
      = body.length := by
    simp only [List.length_append]; omega
  have hinner : ((before ++ pre ++ word ++ body).drop ((before ++ pre).length + word.length)).take
      body.length = body := by
    rw [List.drop_left' (by rw [List.length_append]), List.take_length]
  unfold settle
  simp only [rel_wrote]
  rw [if_neg (by omega), hlen]
  simp only [Nat.add_sub_cancel_left]
  unfold settledPrefix
  split
  case isTrue => exact .inl ⟨rfl, by rw [rel_wrote]; exact h⟩
  case isFalse =>
    simp only [hemit]
    rw [hneed]
    split
    case isTrue hmet =>
      refine .inl ⟨?_, by rw [rel_wrote]; simp only [List.length_append] at h ⊢; omega⟩
      simp only [wrote, hX, hpos]
      rw [overwrite_middle hmet.symm]
      simp only [List.append_assoc]
    case isFalse =>
      split
      case isTrue hgrow =>
        refine admit_comes (wrote input before (pre ++ word ++ body) holes tails)
          ((minimal body.length).length - word.length) (List.prefix_append _ _) ?_
          (by simp only [rel_wrote, List.length_append]; omega)
        simp only [wrote, hX, hpos, hpos', hcount, hinner, hwrite]
        rw [overwrite_grown hgrow.le]
        simp only [List.append_assoc]
      case isFalse hshrink =>
        refine .inl ⟨?_, by rw [rel_wrote]; simp only [List.length_append] at h ⊢; omega⟩
        simp only [wrote, hX, hpos, hpos', hcount]
        rw [overwrite_shrunk (by omega)]
        simp only [List.append_assoc]

/-- A close leaves the settled prefix before the interior and its tail. -/
theorem close_comes {interior staged : List UInt8} {oldLen : Nat}
    (h : (pre ++ word ++ interior).length ≤ PayloadLen.max) :
    Comes before
      ((wrote input before (pre ++ word ++ interior)
        (⟨pre.length, pre.length + word.length, staged.length⟩ :: holes) (tails ++ staged)).close
          oldLen)
      (wrote input before
        (pre ++ settledPrefix word oldLen (interior ++ staged).length ++ (interior ++ staged))
        holes tails) := by
  refine (land_comes h).andThen fun hcap => ?_
  rw [rel_wrote, List.append_assoc] at hcap
  rw [List.append_assoc (pre ++ word)]
  exact settle_comes hcap

end Close

end Emit

end ProtobufEdit.Splice
