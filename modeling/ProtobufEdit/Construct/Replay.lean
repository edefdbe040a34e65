import ProtobufEdit.Construct

/-!
# The replay program

`Script.bytes` is what a sequence of commands stands for and `Script.ledger` what it is
charged. A healthy run extends the program by exactly those bytes (`Runs`), whatever the
backing, so the plan, the buffer and the sink agree.
-/

namespace ProtobufEdit.Construct

open Wire Varint Base128

/-! ## What the commands stand for -/

/-- A LEN record behind a minimal tag and a minimal prefix. -/
def lenRecord (field : FieldNumber) (payload : List UInt8) : List UInt8 :=
  minimal (head field .len) ++ minimal payload.length ++ payload

def Put.bytes : Put → List UInt8
  | varint field value => minimal (head field .varint) ++ minimal value.toNat
  | i32 field bits => minimal (head field .i32) ++ toLeBytes 4 bits.toNat
  | i64 field bits => minimal (head field .i64) ++ toLeBytes 8 bits.toNat
  | len field payload _ => lenRecord field payload
  | packedVarints field words => lenRecord field (words.flatMap fun w => minimal w.toNat)
  | packedFixed32 field words => lenRecord field (words.flatMap fun w => toLeBytes 4 w.toNat)
  | packedFixed64 field words => lenRecord field (words.flatMap fun w => toLeBytes 8 w.toNat)

def Raw.spell : Raw → List UInt8
  | varint value => minimal value.toNat
  | i32 bits => toLeBytes 4 bits.toNat
  | i64 bits => toLeBytes 8 bits.toNat
  | bytes data _ => data

def Script.bytes : Script → List UInt8
  | nil => []
  | put p rest => p.bytes ++ rest.bytes
  | raw r rest => r.spell ++ rest.bytes
  | message field body rest => lenRecord field body.bytes ++ rest.bytes
  | bytesFrame field chunks rest => lenRecord field (chunks.flatMap Prod.fst) ++ rest.bytes
  | group field body rest =>
    minimal (Grouped.headWord field .group) ++ body.bytes ++
      minimal (Grouped.groupEndWord field) ++ rest.bytes

/-! ## What they are charged -/

/-- One charge against the cap, under the heads of the open frames. -/
def charge (heads : List Nat) (total cost : Nat) : Except OverCap Nat :=
  if cap < total + cost then .error ⟨heads.head?.bind FieldNumber.fromWord, total + cost⟩
  else .ok (total + cost)

def lenCost (field : FieldNumber) (body : Nat) : Nat :=
  encodedLen64 (head field .len) + encodedLen64 body + body

def Put.cost : Put → Nat
  | varint field value => encodedLen64 (head field .varint) + encodedLen64 value.toNat
  | i32 field _ => encodedLen64 (head field .i32) + 4
  | i64 field _ => encodedLen64 (head field .i64) + 8
  | len field payload _ => lenCost field payload.length
  | packedVarints field words =>
    if cap < words.length then words.length
    else lenCost field (words.map fun w => encodedLen64 w.toNat).sum
  | packedFixed32 field words => lenCost field (4 * words.length)
  | packedFixed64 field words => lenCost field (8 * words.length)

def Raw.cost : Raw → Nat
  | varint value => encodedLen64 value.toNat
  | i32 _ => 4
  | i64 _ => 8
  | bytes data _ => data.length

def chunkLedger (heads : List Nat) : List (List UInt8 × Bool) → Nat → Except OverCap Nat
  | [], total => .ok total
  | chunk :: chunks, total => charge heads total chunk.1.length >>= chunkLedger heads chunks

/-- A LEN frame's account: its prefix is charged at its close, with the frame still open. -/
def frameLedger (head : Nat) (body : List Nat → Nat → Except OverCap Nat) (heads : List Nat)
    (total : Nat) : Except OverCap Nat := do
  let opened ← charge heads total (encodedLen64 head)
  let closed ← body (head :: heads) opened
  charge (head :: heads) closed (encodedLen64 (closed - opened))

/-- The account over a sequence; a group's tags are charged at its open. -/
def Script.ledger : Script → List Nat → Nat → Except OverCap Nat
  | nil, _, total => .ok total
  | put p rest, heads, total => charge heads total p.cost >>= rest.ledger heads
  | raw r rest, heads, total => charge heads total r.cost >>= rest.ledger heads
  | message field body rest, heads, total =>
    frameLedger (head field .len) body.ledger heads total >>= rest.ledger heads
  | bytesFrame field chunks rest, heads, total =>
    frameLedger (head field .len) (chunkLedger · chunks) heads total >>= rest.ledger heads
  | group field body rest, heads, total =>
    (charge heads total (2 * encodedLen64 (Grouped.headWord field .group)) >>=
      body.ledger (Grouped.headWord field .group :: heads)) >>= rest.ledger heads

/-! ## Segments -/

section Segments

variable {backing : Backing}

/-- A stretch of the program over a stretch of the owned store, and the slices it replays to. -/
inductive Segment (borrows : List (List UInt8)) :
    List (Event backing) → List UInt8 → List (List UInt8) → Prop where
  | nil : Segment borrows [] [] []
  | owned {slice : List UInt8} {events : List (Event backing)} {owned : List UInt8}
      {slices : List (List UInt8)} : slice ≠ [] → Segment borrows events owned slices →
      Segment borrows (.owned slice.length :: events) (slice ++ owned) (slice :: slices)
  | borrowed {slot : backing.At} {slice : List UInt8} {events : List (Event backing)}
      {owned : List UInt8} {slices : List (List UInt8)} :
      borrows[backing.index slot]? = some slice → slice ≠ [] →
      Segment borrows events owned slices →
      Segment borrows (.borrowed slot :: events) owned (slice :: slices)
  | len {body : Nat} {events : List (Event backing)} {owned : List UInt8}
      {slices : List (List UInt8)} : body ≤ cap → Segment borrows events owned slices →
      Segment borrows (.len body (encodedLen32 body) :: events) owned (minimal body :: slices)

variable {borrows : List (List UInt8)} {events events' front : List (Event backing)}
  {owned owned' : List UInt8} {slices slices' : List (List UInt8)}

theorem Segment.append (h : Segment borrows events owned slices)
    (h' : Segment borrows events' owned' slices') :
    Segment borrows (events ++ events') (owned ++ owned') (slices ++ slices') := by
  induction h with
  | nil => exact h'
  | owned hne _ ih =>
    rw [List.append_assoc]
    exact .owned hne ih
  | borrowed hslot hne _ ih => exact .borrowed hslot hne ih
  | len hle _ ih => exact .len hle ih

theorem Segment.mono {lent : List (List UInt8)} (h : Segment borrows events owned slices)
    (hlent : borrows <+: lent) : Segment lent events owned slices := by
  obtain ⟨more, rfl⟩ := hlent
  induction h with
  | nil => exact .nil
  | owned hne _ ih => exact .owned hne ih
  | borrowed hslot hne _ ih =>
    obtain ⟨hlt, -⟩ := List.getElem?_eq_some_iff.mp hslot
    exact .borrowed ((List.getElem?_append_left hlt).trans hslot) hne ih
  | len hle _ ih => exact .len hle ih

/-- The run at a segment's end. -/
theorem Segment.last_run {run : Nat} (h : Segment borrows (events ++ [.owned run]) owned slices) :
    ∃ owned' slices' slice, owned = owned' ++ slice ∧ slices = slices' ++ [slice] ∧
      slice.length = run ∧ slice ≠ [] ∧ Segment borrows events owned' slices' := by
  induction events generalizing owned slices with
  | nil =>
    cases h with
    | owned hne h =>
      cases h
      exact ⟨[], [], _, List.append_nil _, rfl, rfl, hne, .nil⟩
  | cons e events ih =>
    cases h with
    | @owned first _ _ _ hne h =>
      obtain ⟨owned', slices', slice, rfl, rfl, hlen, hne', h⟩ := ih h
      exact ⟨first ++ owned', first :: slices', slice, (List.append_assoc _ _ _).symm, rfl, hlen,
        hne', .owned hne h⟩
    | borrowed hslot hne h =>
      obtain ⟨owned', slices', slice, rfl, rfl, hlen, hne', h⟩ := ih h
      exact ⟨owned', _ :: slices', slice, rfl, rfl, hlen, hne', .borrowed hslot hne h⟩
    | len hle h =>
      obtain ⟨owned', slices', slice, rfl, rfl, hlen, hne', h⟩ := ih h
      exact ⟨owned', _ :: slices', slice, rfl, rfl, hlen, hne', .len hle h⟩

/-- A stretch no later run merges into. -/
def Sealed (front : List (Event backing)) : Prop := ∀ run, front.getLast? ≠ some (.owned run)

/-- The owned run extended behind a sealed front. -/
theorem extendRun_segment {slice : List UInt8} (hfront : Sealed front) (hne : slice ≠ [])
    (h : Segment borrows events owned slices) :
    ∃ events' slices', extendRun (front ++ events) slice.length = front ++ events' ∧
      Segment borrows events' (owned ++ slice) slices' ∧
      slices'.flatten = slices.flatten ++ slice := by
  have hnew : Segment borrows (events ++ [.owned slice.length]) (owned ++ slice)
      (slices ++ [slice]) := by
    refine h.append ?_
    have := Segment.owned hne (.nil : Segment borrows ([] : List (Event backing)) [] [])
    rwa [List.append_nil] at this
  have hflat : (slices ++ [slice]).flatten = slices.flatten ++ slice := by simp
  rcases List.eq_nil_or_concat' events with rfl | ⟨init, e, rfl⟩
  · refine ⟨_, _, ?_, hnew, hflat⟩
    unfold extendRun
    rw [List.append_nil]
    split
    · next run hlast => exact absurd hlast (hfront run)
    · rfl
  · have hlast : (front ++ (init ++ [e])).getLast? = some e := by
      rw [← List.append_assoc, List.getLast?_concat]
    cases e with
    | owned run =>
      obtain ⟨owned', slices', last, rfl, rfl, rfl, hne', h⟩ := h.last_run
      refine ⟨init ++ [.owned (last.length + slice.length)], slices' ++ [last ++ slice], ?_, ?_,
        by simp⟩
      · unfold extendRun
        rw [hlast]
        simp only [← List.append_assoc, List.dropLast_concat]
      · rw [← List.length_append, List.append_assoc]
        refine h.append ?_
        have := Segment.owned (show last ++ slice ≠ [] by simp [hne'])
          (.nil : Segment borrows ([] : List (Event backing)) [] [])
        rwa [List.append_nil] at this
    | borrowed _ | len _ _ =>
      refine ⟨_, _, ?_, hnew, hflat⟩
      unfold extendRun
      rw [hlast]
      simp only [List.append_assoc]

end Segments

/-! ## What a run adds -/

section Runs

variable {backing : Backing} {c c₁ c₂ : Core backing} {bytes bytes' : List UInt8}

/-- From `c` to `c'` the program behind any sealed front goes on by the bytes; the account and
the frames aside. -/
structure Grows (c : Core backing) (bytes : List UInt8) (c' : Core backing) : Prop where
  lent : c.borrows <+: c'.borrows
  program : ∀ {front events : List (Event backing)} {pre owned : List UInt8}
    {slices : List (List UInt8)}, Sealed front → c.events = front ++ events →
    c.owned = pre ++ owned → Segment c.borrows events owned slices →
    ∃ events' owned' slices', c'.events = front ++ events' ∧ c'.owned = pre ++ owned' ∧
      Segment c'.borrows events' owned' slices' ∧ slices'.flatten = slices.flatten ++ bytes

/-- The program grows under the frames it has. -/
structure Adds (c : Core backing) (bytes : List UInt8) (c' : Core backing) : Prop
    extends Grows c bytes c' where
  overCap : c'.overCap = c.overCap
  stack : c'.stack = c.stack

/-- A healthy account stands within the cap. -/
def Core.Sound (c : Core backing) : Prop := c.overCap = none ∧ c.total ≤ cap

/-- A healthy run that adds the bytes and was charged for them. -/
structure Extends (c : Core backing) (bytes : List UInt8) (c' : Core backing) : Prop
    extends Adds c bytes c' where
  sound : c'.Sound
  total : c'.total = c.total + bytes.length

/-- The heads of the open frames. -/
def Core.heads (c : Core backing) : List Nat := c.stack.map Frame.head

/-- A run against its account: the bytes added, or the break and the frames as they were. -/
inductive Runs (c : Core backing) (bytes : List UInt8) (c' : Core backing) :
    Except OverCap Nat → Prop where
  | ok : Extends c bytes c' → Runs c bytes c' (.ok c'.total)
  | broken {e : OverCap} : c'.overCap = some e → c'.stack = c.stack → Runs c bytes c' (.error e)

/-- A broken program is passed over. -/
def Passes (c c' : Core backing) : Prop :=
  ∀ e, c.overCap = some e → c'.overCap = some e ∧ c'.stack = c.stack

theorem Passes.refl (c : Core backing) : Passes c c := fun _ h => ⟨h, rfl⟩

theorem Passes.trans (h : Passes c c₁) (h' : Passes c₁ c₂) : Passes c c₂ := by
  intro e he
  obtain ⟨he₁, hs₁⟩ := h e he
  obtain ⟨he₂, hs₂⟩ := h' e he₁
  exact ⟨he₂, hs₂.trans hs₁⟩

theorem Grows.refl (c : Core backing) : Grows c [] c where
  lent := List.prefix_rfl
  program _ he ho hseg := ⟨_, _, _, he, ho, hseg, (List.append_nil _).symm⟩

theorem Grows.trans (h : Grows c bytes c₁) (h' : Grows c₁ bytes' c₂) :
    Grows c (bytes ++ bytes') c₂ where
  lent := h.lent.trans h'.lent
  program hfront he ho hseg := by
    obtain ⟨_, _, _, he₁, ho₁, hseg₁, hflat₁⟩ := h.program hfront he ho hseg
    obtain ⟨_, _, _, he₂, ho₂, hseg₂, hflat₂⟩ := h'.program hfront he₁ ho₁ hseg₁
    exact ⟨_, _, _, he₂, ho₂, hseg₂, by rw [hflat₂, hflat₁, List.append_assoc]⟩

theorem Adds.trans (h : Adds c bytes c₁) (h' : Adds c₁ bytes' c₂) :
    Adds c (bytes ++ bytes') c₂ where
  toGrows := h.toGrows.trans h'.toGrows
  overCap := h'.overCap.trans h.overCap
  stack := h'.stack.trans h.stack

/-- Bytes charged and then added: the program does not read the account. -/
theorem Adds.charged (h : Adds { c with total := c.total + bytes.length } bytes c₁)
    (hc : c.overCap = none) (hle : c.total + bytes.length ≤ cap)
    (ht : c₁.total = c.total + bytes.length) : Extends c bytes c₁ where
  lent := h.lent
  program := h.program
  overCap := h.overCap
  stack := h.stack
  sound := ⟨h.overCap.trans hc, ht ▸ hle⟩
  total := ht

theorem Extends.refl (h : c.Sound) : Extends c [] c := ⟨⟨.refl c, rfl, rfl⟩, h, rfl⟩

theorem Extends.trans (h : Extends c bytes c₁) (h' : Extends c₁ bytes' c₂) :
    Extends c (bytes ++ bytes') c₂ where
  toAdds := h.toAdds.trans h'.toAdds
  sound := h'.sound
  total := by rw [h'.total, h.total, List.length_append, Nat.add_assoc]

theorem Extends.heads (h : Extends c bytes c₁) : c₁.heads = c.heads :=
  congrArg (List.map Frame.head) h.stack

theorem Runs.bind {r : Except OverCap Nat} {k : Nat → Except OverCap Nat}
    (h : Runs c bytes c₁ r) (hpass : Passes c₁ c₂)
    (hk : Extends c bytes c₁ → Runs c₁ bytes' c₂ (k c₁.total)) :
    Runs c (bytes ++ bytes') c₂ (r >>= k) := by
  cases h with
  | ok hext =>
    show Runs c (bytes ++ bytes') c₂ (k c₁.total)
    have hrest := hk hext
    generalize k c₁.total = r at hrest ⊢
    cases hrest with
    | ok hext' => exact .ok (hext.trans hext')
    | broken he hs => exact .broken he (hs.trans hext.stack)
  | broken he hs =>
    obtain ⟨he', hs'⟩ := hpass _ he
    exact .broken he' (hs'.trans hs)

/-! ### The account -/

theorem account_passes (c : Core backing) (n : Nat) {e : OverCap} (h : c.overCap = some e) :
    c.account n = (false, c) := by
  unfold Core.account
  rw [h]
  rfl

theorem account_broken {n : Nat} (hc : c.overCap = none) (h : cap < c.total + n) :
    c.account n = (false, c.poisonOverCap (c.total + n)) := by
  unfold Core.account
  rw [hc, if_neg (by simp), if_pos h]

theorem account_ok {n : Nat} (hc : c.overCap = none) (h : c.total + n ≤ cap) :
    c.account n = (true, { c with total := c.total + n }) := by
  unfold Core.account
  rw [hc, if_neg (by simp), if_neg (by omega)]

theorem poison_overCap (c : Core backing) (n : Nat) :
    (c.poisonOverCap n).overCap = some ⟨c.heads.head?.bind FieldNumber.fromWord, n⟩ := by
  unfold Core.poisonOverCap Core.heads
  cases c.stack <;> rfl

/-- A charge and what is done on its two verdicts, against the ledger's charge. -/
theorem account_runs {n : Nat} (hbroken : cap < c.total + n → c₁ = c.poisonOverCap (c.total + n))
    (hok : c.total + n ≤ cap → Extends c bytes c₁ ∧ bytes.length = n) :
    Runs c bytes c₁ (charge c.heads c.total n) := by
  unfold charge
  by_cases h : cap < c.total + n
  · rw [if_pos h, hbroken h]
    exact .broken (poison_overCap c _) rfl
  · rw [if_neg h]
    obtain ⟨hext, hlen⟩ := hok (by omega)
    rw [← hlen, ← hext.total]
    exact .ok hext

/-- Literals behind a run of their length. -/
theorem grows_run (hne : bytes ≠ []) (hborrows : c₁.borrows = c.borrows)
    (hevents : c₁.events = extendRun c.events bytes.length) (howned : c₁.owned = c.owned ++ bytes) :
    Grows c bytes c₁ where
  lent := hborrows ▸ List.prefix_rfl
  program hfront he ho hseg := by
    obtain ⟨events', slices', he', hseg', hflat⟩ := extendRun_segment hfront hne hseg
    rw [hevents, howned, hborrows, he, he', ho, List.append_assoc]
    exact ⟨events', _, slices', rfl, rfl, hseg', hflat⟩

theorem pushRun_adds (hne : bytes ≠ []) :
    Adds c bytes { c.pushRun bytes.length with owned := c.owned ++ bytes } :=
  ⟨grows_run hne rfl rfl rfl, rfl, rfl⟩

/-- A payload the caller lends. -/
theorem borrow_adds {mint : Nat → backing.At} (hmint : ∀ n, backing.index (mint n) = n)
    (hne : bytes ≠ []) :
    Adds c bytes { c with
      borrows := c.borrows ++ [bytes]
      events := c.events ++ [.borrowed (mint c.borrows.length)] } where
  overCap := rfl
  stack := rfl
  lent := List.prefix_append _ _
  program {front events pre owned slices} hfront he ho hseg := by
    refine ⟨events ++ [.borrowed (mint c.borrows.length)], owned, slices ++ [bytes], ?_, ho, ?_,
      by simp⟩
    · show c.events ++ _ = _
      rw [he, List.append_assoc]
    · have hslot : (c.borrows ++ [bytes])[backing.index (mint c.borrows.length)]? = some bytes := by
        rw [hmint, List.getElem?_concat_length]
      have := (hseg.mono (List.prefix_append _ _)).append (.borrowed hslot hne .nil)
      rwa [List.append_nil] at this

theorem keep_adds {mint : Nat → backing.At} (hmint : ∀ n, backing.index (mint n) = n)
    (hne : bytes ≠ []) : Adds c bytes (c.keep mint bytes) := by
  unfold Core.keep
  split
  · exact borrow_adds hmint hne
  · exact pushRun_adds hne

theorem keep_total (mint : Nat → backing.At) : (c.keep mint bytes).total = c.total := by
  unfold Core.keep
  split <;> rfl

/-- A head and its payload, kept. -/
theorem lent_adds {front : List UInt8} {mint : Nat → backing.At}
    (hmint : ∀ n, backing.index (mint n) = n) (hne : front ≠ [])
    (hc₁ : c₁ = { c.pushRun front.length with owned := c.owned ++ front }) :
    Adds c (front ++ bytes) (if bytes = [] then c₁ else c₁.keep mint bytes) := by
  have hfront : Adds c front c₁ := hc₁ ▸ pushRun_adds hne
  split
  · next h =>
    rwa [h, List.append_nil]
  · next h => exact hfront.trans (keep_adds hmint h)

theorem stage_passes (c : Core backing) (n : Nat) (bytes : List UInt8) :
    Passes c (c.stage n bytes) := by
  intro e he
  unfold Core.stage
  rw [account_passes c n he]
  exact ⟨he, rfl⟩

theorem stage_runs {n : Nat} {staged : List UInt8} (hc : c.overCap = none)
    (h : c.total + n ≤ cap → staged = bytes ∧ bytes.length = n ∧ bytes ≠ []) :
    Runs c bytes (c.stage n staged) (charge c.heads c.total n) := by
  unfold Core.stage
  refine account_runs (fun hlt => ?_) (fun hle => ?_)
  · rw [account_broken hc hlt]
  · obtain ⟨rfl, rfl, hne⟩ := h hle
    rw [account_ok hc hle]
    exact ⟨(pushRun_adds hne).charged hc hle rfl, rfl⟩

/-! ### The records -/

theorem word_spelled {v : Nat} (h : v < 2 ^ 64) :
    emit64 v = minimal v ∧ encodedLen64 v = (minimal v).length := by
  rw [emit64_eq h, encodedLen64_eq h, minimal_length]
  exact ⟨rfl, rfl⟩

theorem minimal_ne_nil (v : Nat) : minimal v ≠ [] := by
  intro h
  have hlen := minimal_length v
  rw [h] at hlen
  exact absurd hlen.symm (width_pos v).ne'

theorem head_lt (field : FieldNumber) (kind : Groupless.RecordKind) : head field kind < 2 ^ 64 :=
  Nat.lt_trans (tagWord_lt field kind.low3) (by decide)

theorem cap_lt : cap < 2 ^ 32 := by decide

/-- A tagged record, staged whole. -/
theorem tagged_runs {v n : Nat} {body : List UInt8} (hv : v < 2 ^ 64) (hc : c.overCap = none)
    (h : c.total + (encodedLen64 v + n) ≤ cap → bytes = body ∧ body.length = n) :
    Runs c (minimal v ++ body) (c.stage (encodedLen64 v + n) (emit64 v ++ bytes))
      (charge c.heads c.total (encodedLen64 v + n)) := by
  refine stage_runs hc fun hle => ?_
  obtain ⟨rfl, hlen⟩ := h hle
  obtain ⟨hemit, hwidth⟩ := word_spelled hv
  refine ⟨by rw [hemit], by rw [List.length_append, hlen, hwidth], ?_⟩
  exact List.append_ne_nil_of_left_ne_nil (minimal_ne_nil v) _

/-- A LEN record, staged whole. -/
theorem len_runs {field : FieldNumber} {n : Nat} {payload : List UInt8} (hc : c.overCap = none)
    (h : n ≤ cap → bytes = payload ∧ payload.length = n) :
    Runs c (lenRecord field payload)
      (c.stage (encodedLen64 (head field .len) + encodedLen64 n + n)
        (emit64 (head field .len) ++ emit64 n ++ bytes))
      (charge c.heads c.total (lenCost field n)) := by
  unfold lenRecord lenCost
  rw [Nat.add_assoc, List.append_assoc, List.append_assoc]
  refine tagged_runs (head_lt field .len) hc fun hle => ?_
  obtain ⟨rfl, rfl⟩ := h (by omega)
  have hcap := cap_lt
  obtain ⟨hemit, hwidth⟩ := word_spelled (v := bytes.length) (by omega)
  exact ⟨by rw [hemit], by rw [List.length_append, hwidth]⟩

theorem words_spelled (words : List UInt64) :
    ((words.map UInt64.toNat).map encodedLen64).sum =
      (words.flatMap fun w => minimal w.toNat).length ∧
    (words.map UInt64.toNat).flatMap emit64 = words.flatMap fun w => minimal w.toNat := by
  induction words with
  | nil => exact ⟨rfl, rfl⟩
  | cons w words ih =>
    obtain ⟨hsum, hflat⟩ := ih
    obtain ⟨hemit, hwidth⟩ := word_spelled w.toNat_lt
    refine ⟨?_, ?_⟩
    · rw [List.map_cons, List.map_cons, List.sum_cons, hsum, hwidth, List.flatMap_cons,
        List.length_append]
    · rw [List.map_cons, List.flatMap_cons, hflat, hemit, List.flatMap_cons]

theorem fixed_spelled (width : Nat) {α : Type} (word : α → Nat) (words : List α) :
    (words.flatMap fun w => toLeBytes width (word w)).length = width * words.length ∧
    (words.map word).flatMap (toLeBytes width) = words.flatMap fun w => toLeBytes width (word w) := by
  induction words with
  | nil => exact ⟨rfl, rfl⟩
  | cons w words ih =>
    obtain ⟨hlen, hflat⟩ := ih
    refine ⟨?_, ?_⟩
    · rw [List.flatMap_cons, List.length_append, hlen, toLeBytes_length, List.length_cons,
        Nat.mul_succ, Nat.add_comm]
    · rw [List.map_cons, List.flatMap_cons, hflat, List.flatMap_cons]

/-- A backing's table answers the coordinates it mints. -/
def Backing.Faithful (backing : Backing) : Prop :=
  ∀ mint, backing.mint = some mint → ∀ n, backing.index (mint n) = n

theorem mixed_faithful : Backing.mixed.Faithful := by
  rintro _ ⟨⟩ n
  rfl

theorem copy_faithful : Backing.copy.Faithful := by
  rintro _ ⟨⟩

theorem putLen_passes (c : Core backing) (v : Nat) (payload : List UInt8) :
    Passes c (c.putLen v payload) := by
  unfold Core.putLen
  split
  · exact stage_passes c _ _
  · intro e he
    rw [account_passes c _ he]
    exact ⟨he, rfl⟩

theorem putLen_runs (hb : backing.Faithful) {field : FieldNumber} {payload : List UInt8}
    (hc : c.overCap = none) :
    Runs c (lenRecord field payload) (c.putLen (head field .len) payload)
      (charge c.heads c.total (lenCost field payload.length)) := by
  unfold Core.putLen lenCost
  split
  · exact len_runs hc fun _ => ⟨rfl, rfl⟩
  · next mint hmint =>
    refine account_runs (fun hlt => ?_) (fun hle => ?_)
    · rw [account_broken hc hlt]
    · have hcap := cap_lt
      have hn : payload.length < 2 ^ 64 := by omega
      obtain ⟨hemit, hwidth⟩ := word_spelled (head_lt field .len)
      obtain ⟨hemit', hwidth'⟩ := word_spelled hn
      have hlen : (lenRecord field payload).length = encodedLen64 (head field .len) +
          encodedLen64 payload.length + payload.length := by
        rw [lenRecord, List.length_append, List.length_append, hwidth, hwidth']
      rw [account_ok hc hle, ← hlen]
      simp only [hwidth, hwidth', hemit, hemit', ← List.length_append, List.append_assoc]
      have hne := List.append_ne_nil_of_left_ne_nil (minimal_ne_nil (head field .len))
        (minimal payload.length)
      refine ⟨(lent_adds (hb mint hmint) hne rfl).charged hc (hlen ▸ hle) ?_, trivial⟩
      split
      · rfl
      · rw [keep_total]
        rfl

theorem putPackedVarints_passes (c : Core backing) (v : Nat) (words : List Nat) :
    Passes c (c.putPackedVarints v words) := by
  unfold Core.putPackedVarints
  split
  · intro e he
    rw [account_passes c _ he]
    exact ⟨he, rfl⟩
  · exact stage_passes c _ _

/-- A count past the cap breaks it under the count itself. -/
theorem putPackedVarints_runs {field : FieldNumber} {words : List UInt64}
    (hc : c.overCap = none) :
    Runs c (lenRecord field (words.flatMap fun w => minimal w.toNat))
      (c.putPackedVarints (head field .len) (words.map UInt64.toNat))
      (charge c.heads c.total (if cap < words.length then words.length
        else lenCost field (words.map fun w => encodedLen64 w.toNat).sum)) := by
  obtain ⟨hsum, hflat⟩ := words_spelled words
  have hcost : (words.map fun w => encodedLen64 w.toNat).sum =
      ((words.map UInt64.toNat).map encodedLen64).sum := by
    rw [List.map_map]
    rfl
  unfold Core.putPackedVarints
  rw [List.length_map, hcost, hflat]
  by_cases h : cap < words.length
  · rw [if_pos h, if_pos h]
    refine account_runs (fun hlt => ?_) (fun hle => ?_)
    · rw [account_broken hc hlt]
    · omega
  · rw [if_neg h, if_neg h]
    exact len_runs hc fun _ => ⟨rfl, hsum.symm⟩

theorem putPackedFixed_runs (width : Nat) {α : Type} (word : α → Nat) {field : FieldNumber}
    {words : List α} (hc : c.overCap = none) :
    Runs c (lenRecord field (words.flatMap fun w => toLeBytes width (word w)))
      (c.putPackedFixed width (head field .len) (words.map word))
      (charge c.heads c.total (lenCost field (width * words.length))) := by
  obtain ⟨hlen, hflat⟩ := fixed_spelled width word words
  unfold Core.putPackedFixed
  rw [List.length_map, hflat]
  exact len_runs hc fun _ => ⟨rfl, hlen⟩

theorem put_passes (c : Core backing) (p : Put) : Passes c (p.run c) := by
  cases p with
  | len field payload copied =>
    cases copied with
    | true => exact stage_passes c _ _
    | false => exact putLen_passes c _ _
  | packedVarints field words => exact putPackedVarints_passes c _ _
  | varint | i32 | i64 | packedFixed32 | packedFixed64 => exact stage_passes c _ _

theorem put_runs (hb : backing.Faithful) (p : Put) (hc : c.overCap = none) :
    Runs c p.bytes (p.run c) (charge c.heads c.total p.cost) := by
  cases p with
  | varint field value =>
    obtain ⟨hemit, hwidth⟩ := word_spelled value.toNat_lt
    exact tagged_runs (head_lt field .varint) hc fun _ => ⟨hemit, hwidth.symm⟩
  | i32 field bits =>
    exact tagged_runs (head_lt field .i32) hc fun _ => ⟨rfl, toLeBytes_length 4 _⟩
  | i64 field bits =>
    exact tagged_runs (head_lt field .i64) hc fun _ => ⟨rfl, toLeBytes_length 8 _⟩
  | len field payload copied =>
    cases copied with
    | true => exact len_runs hc fun _ => ⟨rfl, rfl⟩
    | false => exact putLen_runs hb hc
  | packedVarints field words => exact putPackedVarints_runs hc
  | packedFixed32 field words => exact putPackedFixed_runs 4 UInt32.toNat hc
  | packedFixed64 field words => exact putPackedFixed_runs 8 UInt64.toNat hc

/-! ### The raw words -/

theorem putRawBytesCopy_passes (c : Core backing) (data : List UInt8) :
    Passes c (c.putRawBytesCopy data) := by
  unfold Core.putRawBytesCopy
  split
  · exact .refl c
  · exact stage_passes c _ _

theorem putRawBytes_passes (c : Core backing) (data : List UInt8) :
    Passes c (c.putRawBytes data) := by
  unfold Core.putRawBytes
  split
  · exact putRawBytesCopy_passes c data
  · split
    · exact .refl c
    · intro e he
      rw [account_passes c _ he]
      exact ⟨he, rfl⟩

theorem raw_passes (c : Core backing) (r : Raw) : Passes c (r.run c) := by
  cases r with
  | bytes data copied =>
    cases copied with
    | true => exact putRawBytesCopy_passes c data
    | false => exact putRawBytes_passes c data
  | varint | i32 | i64 => exact stage_passes c _ _

theorem empty_runs (hc : c.Sound) : Runs c [] c (charge c.heads c.total ([] : List UInt8).length) :=
  account_runs (fun hlt => absurd hlt (Nat.not_lt.mpr hc.2)) fun _ => ⟨.refl hc, rfl⟩

theorem putRawBytesCopy_runs {data : List UInt8} (hc : c.Sound) :
    Runs c data (c.putRawBytesCopy data) (charge c.heads c.total data.length) := by
  unfold Core.putRawBytesCopy
  split
  · next h =>
    rw [h]
    exact empty_runs hc
  · next h => exact stage_runs hc.1 fun _ => ⟨rfl, rfl, h⟩

theorem putRawBytes_runs (hb : backing.Faithful) {data : List UInt8} (hc : c.Sound) :
    Runs c data (c.putRawBytes data) (charge c.heads c.total data.length) := by
  unfold Core.putRawBytes
  split
  · exact putRawBytesCopy_runs hc
  · next mint hmint =>
    split
    · next h =>
      rw [h]
      exact empty_runs hc
    · next h =>
      refine account_runs (fun hlt => ?_) (fun hle => ?_)
      · rw [account_broken hc.1 hlt]
      · rw [account_ok hc.1 hle]
        exact ⟨(keep_adds (hb mint hmint) h).charged hc.1 hle (keep_total mint), rfl⟩

theorem raw_runs (hb : backing.Faithful) (r : Raw) (hc : c.Sound) :
    Runs c r.spell (r.run c) (charge c.heads c.total r.cost) := by
  cases r with
  | varint value =>
    obtain ⟨hemit, hwidth⟩ := word_spelled value.toNat_lt
    exact stage_runs hc.1 fun _ => ⟨hemit, hwidth.symm, minimal_ne_nil _⟩
  | i32 bits => exact stage_runs hc.1 fun _ => ⟨rfl, rfl, List.cons_ne_nil _ _⟩
  | i64 bits => exact stage_runs hc.1 fun _ => ⟨rfl, rfl, List.cons_ne_nil _ _⟩
  | bytes data copied =>
    cases copied with
    | true => exact putRawBytesCopy_runs hc
    | false => exact putRawBytes_runs hb hc

/-! ### Frames -/

section Frames

variable {frame : Frame} {stack : List Frame} {v : Nat}

theorem endLen_broken {e : OverCap} (hs : c.stack = frame :: stack) (he : c.overCap = some e) :
    c.endLen = { c with stack := stack } := by
  unfold Core.endLen
  rw [hs]
  show (if c.overCap.isSome then _ else _) = _
  rw [if_pos (by rw [he]; rfl)]

theorem endLen_healthy (hs : c.stack = frame :: stack) (hc : c.overCap = none) :
    c.endLen = { (c.account (encodedLen64 (c.total - frame.startTotal))).2 with
      events := (c.account (encodedLen64 (c.total - frame.startTotal))).2.events.set frame.start
        (.len (c.total - frame.startTotal) (encodedLen32 (c.total - frame.startTotal)))
      stack := stack } := by
  unfold Core.endLen
  rw [hs]
  show (if c.overCap.isSome then _ else _) = _
  rw [if_neg (by rw [hc]; exact Bool.false_ne_true)]

theorem endGroup_broken {e : OverCap} (word : Nat) (he : c.overCap = some e) :
    c.endGroup word = { c with stack := c.stack.tail } := by
  unfold Core.endGroup
  exact if_pos (by rw [he]; rfl)

theorem endGroup_healthy (word : Nat) (hc : c.overCap = none) :
    c.endGroup word = { { c with stack := c.stack.tail }.pushRun (encodedLen64 word) with
      owned := c.owned ++ emit64 word } := by
  unfold Core.endGroup
  exact if_neg (by rw [hc]; exact Bool.false_ne_true)

theorem beginLen_false {c' : Core backing} (h : c.account (encodedLen64 v) = (false, c')) :
    c.beginLen v = { c' with stack := ⟨v, 0, c'.total⟩ :: c'.stack } := by
  unfold Core.beginLen
  rw [h]

theorem beginGroup_false {c' : Core backing} (h : c.account (2 * encodedLen64 v) = (false, c')) :
    c.beginGroup v = { c' with stack := ⟨v, 0, c'.total⟩ :: c'.stack } := by
  unfold Core.beginGroup
  rw [h]

/-- A frame opened on a broken program is closed on one. -/
theorem broken_len {run : Core backing → Core backing} (hpass : ∀ c, Passes c (run c))
    {e : OverCap} (he : c.overCap = some e) :
    (run { c with stack := frame :: c.stack }).endLen.overCap = some e ∧
      (run { c with stack := frame :: c.stack }).endLen.stack = c.stack := by
  obtain ⟨he', hs'⟩ := hpass { c with stack := frame :: c.stack } e he
  rw [endLen_broken hs' he']
  exact ⟨he', rfl⟩

theorem broken_group {run : Core backing → Core backing} (hpass : ∀ c, Passes c (run c))
    {e : OverCap} (he : c.overCap = some e) (word : Nat) :
    ((run { c with stack := frame :: c.stack }).endGroup word).overCap = some e ∧
      ((run { c with stack := frame :: c.stack }).endGroup word).stack = c.stack := by
  obtain ⟨he', hs'⟩ := hpass { c with stack := frame :: c.stack } e he
  rw [endGroup_broken word he']
  exact ⟨he', congrArg List.tail hs'⟩

theorem len_passes {run : Core backing → Core backing} (hpass : ∀ c, Passes c (run c))
    (c : Core backing) (v : Nat) : Passes c (run (c.beginLen v)).endLen := by
  intro e he
  rw [beginLen_false (account_passes c _ he)]
  exact broken_len hpass he

theorem group_passes {run : Core backing → Core backing} (hpass : ∀ c, Passes c (run c))
    (c : Core backing) (v word : Nat) : Passes c ((run (c.beginGroup v)).endGroup word) := by
  intro e he
  rw [beginGroup_false (account_passes c _ he)]
  exact broken_group hpass he word

theorem beginLen_ok (hc : c.overCap = none) (hle : c.total + encodedLen64 v ≤ cap) :
    c.beginLen v =
      { owned := c.owned ++ emit64 v, borrows := c.borrows
        events := extendRun c.events (encodedLen64 v) ++ [.len 0 1]
        stack := ⟨v, (extendRun c.events (encodedLen64 v)).length, c.total + encodedLen64 v⟩ ::
          c.stack
        total := c.total + encodedLen64 v, overCap := c.overCap } := by
  unfold Core.beginLen
  rw [account_ok hc hle]
  rfl

/-- A closed LEN frame: the placeholder becomes the prefix of what was added behind it. -/
theorem close_extends {body : List UInt8} (hv : v < 2 ^ 64) (hc : c.overCap = none)
    (hopen : c.total + encodedLen64 v ≤ cap) (hbody : Extends (c.beginLen v) body c₂)
    (hclose : c₂.total + encodedLen64 body.length ≤ cap) :
    Extends c (minimal v ++ minimal body.length ++ body) c₂.endLen := by
  have hstack := hbody.stack
  rw [beginLen_ok hc hopen] at hstack
  have htotal : c₂.total = c.total + encodedLen64 v + body.length := by
    rw [hbody.total, beginLen_ok hc hopen]
  have hgrown : c₂.total - (c.total + encodedLen64 v) = body.length := by
    rw [htotal]
    exact Nat.add_sub_cancel_left _ _
  have hcap := cap_lt
  have hle := hbody.sound.2
  obtain ⟨hemit, hwidth⟩ := word_spelled hv
  obtain ⟨-, hwidth'⟩ := word_spelled (v := body.length) (by omega)
  rw [endLen_healthy hstack hbody.sound.1, hgrown, account_ok hbody.sound.1 hclose]
  refine ⟨⟨⟨?_, ?_⟩, hbody.sound.1.trans hc.symm, rfl⟩, ⟨hbody.sound.1, hclose⟩, ?_⟩
  · have hlent := hbody.lent
    rwa [beginLen_ok hc hopen] at hlent
  · intro front events pre owned slices hfront he ho hseg
    obtain ⟨opened, slices₁, hopened, hseg₁, hflat₁⟩ :=
      extendRun_segment hfront (minimal_ne_nil v) hseg
    rw [← he, ← hwidth] at hopened
    have hbegun := beginLen_ok (v := v) hc hopen
    rw [hopened, ho, hemit, List.append_assoc] at hbegun
    have hsealed : Sealed (front ++ opened ++ [(.len 0 1 : Event backing)]) := by
      intro run hlast
      rw [List.getLast?_concat] at hlast
      cases hlast
    obtain ⟨added, owned₂, slices₂, he₂, ho₂, hseg₂, hflat₂⟩ :=
      @hbody.program _ [] (pre ++ (owned ++ minimal v)) [] [] hsealed
        (by rw [hbegun, List.append_nil]) (by rw [hbegun, List.append_nil]) .nil
    refine ⟨opened ++ .len body.length (encodedLen32 body.length) :: added,
      owned ++ minimal v ++ owned₂, slices₁ ++ minimal body.length :: slices₂, ?_, ?_, ?_, ?_⟩
    · show c₂.events.set (extendRun c.events (encodedLen64 v)).length _ = _
      rw [he₂, hopened, List.append_assoc _ [_]]
      simp
    · show c₂.owned = _
      rw [ho₂, List.append_assoc]
    · have hlent := hbody.lent
      rw [hbegun] at hlent
      exact (hseg₁.mono hlent).append (.len (by omega) hseg₂)
    · rw [List.flatten_append, hflat₁, List.flatten_cons, hflat₂]
      simp
  · rw [List.length_append, List.length_append, ← hwidth, ← hwidth']
    show c₂.total + encodedLen64 body.length = _
    rw [htotal]
    omega

theorem charge_broken {heads : List Nat} {total cost : Nat} (h : cap < total + cost) :
    charge heads total cost = .error ⟨heads.head?.bind FieldNumber.fromWord, total + cost⟩ := if_pos h

theorem charge_ok {heads : List Nat} {total cost : Nat} (h : total + cost ≤ cap) :
    charge heads total cost = .ok (total + cost) := if_neg (Nat.not_lt.mpr h)

/-- The close of a LEN frame, against its charge. -/
theorem close_runs {body : List UInt8} (hv : v < 2 ^ 64) (hc : c.overCap = none)
    (hopen : c.total + encodedLen64 v ≤ cap) (hbody : Extends (c.beginLen v) body c₂) :
    Runs c (minimal v ++ minimal body.length ++ body) c₂.endLen
      (charge (v :: c.heads) c₂.total (encodedLen64 (c₂.total - (c.total + encodedLen64 v)))) := by
  have hstack := hbody.stack
  rw [beginLen_ok hc hopen] at hstack
  have hgrown : c₂.total - (c.total + encodedLen64 v) = body.length := by
    rw [hbody.total, beginLen_ok hc hopen]
    exact Nat.add_sub_cancel_left _ _
  have hheads : c₂.heads = v :: c.heads := congrArg (List.map Frame.head) hstack
  rw [hgrown, ← hheads]
  by_cases hclose : c₂.total + encodedLen64 body.length ≤ cap
  · have htotal : c₂.endLen.total = c₂.total + encodedLen64 body.length := by
      rw [endLen_healthy hstack hbody.sound.1, hgrown, account_ok hbody.sound.1 hclose]
    rw [charge_ok hclose, ← htotal]
    exact .ok (close_extends hv hc hopen hbody hclose)
  · rw [charge_broken (Nat.lt_of_not_le hclose), endLen_healthy hstack hbody.sound.1, hgrown,
      account_broken hbody.sound.1 (Nat.lt_of_not_le hclose)]
    exact .broken (poison_overCap c₂ _) rfl

/-- A LEN frame around a run, against the frame's account. -/
theorem frame_runs {body : List UInt8} {run : Core backing → Core backing}
    {ledger : List Nat → Nat → Except OverCap Nat} (hv : v < 2 ^ 64) (hc : c.Sound)
    (hpass : ∀ c, Passes c (run c))
    (hrun : ∀ c : Core backing, c.Sound → Runs c body (run c) (ledger c.heads c.total)) :
    Runs c (minimal v ++ minimal body.length ++ body) (run (c.beginLen v)).endLen
      (frameLedger v ledger c.heads c.total) := by
  unfold frameLedger
  by_cases hopen : c.total + encodedLen64 v ≤ cap
  · rw [charge_ok hopen]
    have hbegun := beginLen_ok (v := v) hc.1 hopen
    have hbody := hrun (c.beginLen v) (by rw [hbegun]; exact ⟨hc.1, hopen⟩)
    have hheads : (c.beginLen v).heads = v :: c.heads := by
      rw [hbegun]
      rfl
    have htotal : (c.beginLen v).total = c.total + encodedLen64 v := by rw [hbegun]
    rw [hheads, htotal] at hbody
    show Runs c _ _ (ledger (v :: c.heads) (c.total + encodedLen64 v) >>= fun closed =>
      charge (v :: c.heads) closed (encodedLen64 (closed - (c.total + encodedLen64 v))))
    generalize ledger (v :: c.heads) (c.total + encodedLen64 v) = r at hbody ⊢
    cases hbody with
    | ok hext => exact close_runs hv hc.1 hopen hext
    | broken he hs =>
      rw [endLen_broken (hs.trans (congrArg Core.stack hbegun)) he]
      exact .broken he rfl
  · rw [charge_broken (Nat.lt_of_not_le hopen),
      beginLen_false (account_broken hc.1 (Nat.lt_of_not_le hopen))]
    obtain ⟨he, hs⟩ := @broken_len _ _ ⟨v, 0, c.total⟩ _ hpass _
      (poison_overCap c (c.total + encodedLen64 v))
    exact .broken he hs

theorem beginGroup_ok (hc : c.overCap = none) (hle : c.total + 2 * encodedLen64 v ≤ cap) :
    c.beginGroup v =
      { owned := c.owned ++ emit64 v, borrows := c.borrows
        events := extendRun c.events (encodedLen64 v)
        stack := ⟨v, 0, c.total + 2 * encodedLen64 v⟩ :: c.stack
        total := c.total + 2 * encodedLen64 v, overCap := c.overCap } := by
  unfold Core.beginGroup
  rw [account_ok hc hle]
  rfl

/-- A closed group frame: its end tag was charged at its open. -/
theorem closeGroup_extends {w : Nat} {body : List UInt8} (hv : v < 2 ^ 64) (hw : w < 2 ^ 64)
    (hwidth : encodedLen64 w = encodedLen64 v) (hc : c.overCap = none)
    (hopen : c.total + 2 * encodedLen64 v ≤ cap) (hbody : Extends (c.beginGroup v) body c₂) :
    Extends c (minimal v ++ body ++ minimal w) (c₂.endGroup w) := by
  obtain ⟨hemit, hlen⟩ := word_spelled hv
  obtain ⟨hemit', hlen'⟩ := word_spelled hw
  have hbegun := beginGroup_ok (v := v) hc hopen
  have hopened : Grows c (minimal v) (c.beginGroup v) := by
    rw [hbegun, hemit, hlen]
    exact grows_run (minimal_ne_nil v) rfl rfl rfl
  have hstack := hbody.stack
  have htotal := hbody.total
  rw [hbegun] at hstack
  rw [congrArg Core.total hbegun] at htotal
  rw [endGroup_healthy w hbody.sound.1, hemit', hlen']
  refine ⟨⟨(hopened.trans hbody.toGrows).trans (grows_run (minimal_ne_nil w) rfl rfl rfl),
    hbody.sound.1.trans hc.symm, congrArg List.tail hstack⟩, hbody.sound, ?_⟩
  show c₂.total = _
  rw [List.length_append, List.length_append, ← hlen, ← hlen', hwidth, htotal]
  show c.total + 2 * encodedLen64 v + body.length = _
  omega

/-- A group frame around a run: both tags are charged at its open. -/
theorem group_runs {w : Nat} {body : List UInt8} {run : Core backing → Core backing}
    {ledger : List Nat → Nat → Except OverCap Nat} (hv : v < 2 ^ 64) (hw : w < 2 ^ 64)
    (hwidth : encodedLen64 w = encodedLen64 v) (hc : c.Sound) (hpass : ∀ c, Passes c (run c))
    (hrun : ∀ c : Core backing, c.Sound → Runs c body (run c) (ledger c.heads c.total)) :
    Runs c (minimal v ++ body ++ minimal w) ((run (c.beginGroup v)).endGroup w)
      (charge c.heads c.total (2 * encodedLen64 v) >>= ledger (v :: c.heads)) := by
  by_cases hopen : c.total + 2 * encodedLen64 v ≤ cap
  · rw [charge_ok hopen]
    have hbegun := beginGroup_ok (v := v) hc.1 hopen
    have hbody := hrun (c.beginGroup v) (by rw [hbegun]; exact ⟨hc.1, hopen⟩)
    have hheads : (c.beginGroup v).heads = v :: c.heads := by
      rw [hbegun]
      rfl
    have htotal : (c.beginGroup v).total = c.total + 2 * encodedLen64 v := by rw [hbegun]
    rw [hheads, htotal] at hbody
    show Runs c _ _ (ledger (v :: c.heads) (c.total + 2 * encodedLen64 v))
    generalize ledger (v :: c.heads) (c.total + 2 * encodedLen64 v) = r at hbody ⊢
    cases hbody with
    | ok hext =>
      have hkept : ((run (c.beginGroup v)).endGroup w).total = (run (c.beginGroup v)).total := by
        rw [endGroup_healthy w hext.sound.1]
        rfl
      rw [← hkept]
      exact .ok (closeGroup_extends hv hw hwidth hc.1 hopen hext)
    | broken he hs =>
      rw [endGroup_broken w he]
      exact .broken he (congrArg List.tail (hs.trans (congrArg Core.stack hbegun)))
  · rw [charge_broken (Nat.lt_of_not_le hopen),
      beginGroup_false (account_broken hc.1 (Nat.lt_of_not_le hopen))]
    obtain ⟨he, hs⟩ := @broken_group _ _ ⟨v, 0, c.total⟩ _ hpass _
      (poison_overCap c (c.total + 2 * encodedLen64 v)) w
    exact .broken he hs

end Frames

/-! ### Sequences -/

theorem chunks_passes (chunks : List (List UInt8 × Bool)) (c : Core backing) :
    Passes c (chunks.foldl writeChunk c) := by
  induction chunks generalizing c with
  | nil => exact .refl c
  | cons chunk chunks ih => exact (raw_passes c _).trans (ih _)

theorem chunks_runs (hb : backing.Faithful) (chunks : List (List UInt8 × Bool))
    (c : Core backing) (hc : c.Sound) :
    Runs c (chunks.flatMap Prod.fst) (chunks.foldl writeChunk c)
      (chunkLedger c.heads chunks c.total) := by
  induction chunks generalizing c with
  | nil => exact .ok (.refl hc)
  | cons chunk chunks ih =>
    refine (raw_runs hb (.bytes chunk.1 chunk.2) hc).bind (chunks_passes chunks _) fun hext => ?_
    rw [← hext.heads]
    exact ih _ hext.sound

theorem tag_lt (field : FieldNumber) (code : Low3) : tagWord field code < 2 ^ 64 :=
  Nat.lt_trans (tagWord_lt field code) (by decide)

theorem groupEnd_width (field : FieldNumber) :
    encodedLen64 (Grouped.groupEndWord field) = encodedLen64 (Grouped.headWord field .group) := by
  unfold Grouped.groupEndWord Grouped.headWord
  rw [encodedLen64_eq (tag_lt field 4), encodedLen64_eq (tag_lt field _)]
  exact (width_tagWord field 4).trans (width_tagWord field _).symm

theorem run_passes (s : Script) (c : Core backing) : Passes c (s.run c) := by
  induction s generalizing c with
  | nil => exact .refl c
  | put p rest ih => exact (put_passes c p).trans (ih _)
  | raw r rest ih => exact (raw_passes c r).trans (ih _)
  | message field body rest ihb ih => exact (len_passes ihb c _).trans (ih _)
  | bytesFrame field chunks rest ih => exact (len_passes (chunks_passes chunks) c _).trans (ih _)
  | group field body rest ihb ih => exact (group_passes ihb c _ _).trans (ih _)

/-- A run of a sequence adds what the sequence stands for, against its account. -/
theorem run_runs (hb : backing.Faithful) (s : Script) (c : Core backing) (hc : c.Sound) :
    Runs c s.bytes (s.run c) (s.ledger c.heads c.total) := by
  induction s generalizing c with
  | nil => exact .ok (.refl hc)
  | put p rest ih =>
    refine (put_runs hb p hc.1).bind (run_passes rest _) fun hext => ?_
    rw [← hext.heads]
    exact ih _ hext.sound
  | raw r rest ih =>
    refine (raw_runs hb r hc).bind (run_passes rest _) fun hext => ?_
    rw [← hext.heads]
    exact ih _ hext.sound
  | message field body rest ihb ih =>
    refine (frame_runs (head_lt field .len) hc (run_passes body) ihb).bind (run_passes rest _)
      fun hext => ?_
    rw [← hext.heads]
    exact ih _ hext.sound
  | bytesFrame field chunks rest ih =>
    refine (frame_runs (head_lt field .len) hc (chunks_passes chunks)
      (chunks_runs hb chunks)).bind (run_passes rest _) fun hext => ?_
    rw [← hext.heads]
    exact ih _ hext.sound
  | group field body rest ihb ih =>
    refine (group_runs (tag_lt field _) (tag_lt field 4) (groupEnd_width field) hc
      (run_passes body) ihb).bind (run_passes rest _) fun hext => ?_
    rw [← hext.heads]
    exact ih _ hext.sound

end Runs

/-! ## The account over a sequence -/

section Account

variable {r : Except OverCap Nat} {total n : Nat}

/-- An account over `n` bytes comes to their sum, or breaks where that is past the cap. -/
def Bills (total n : Nat) : Except OverCap Nat → Prop
  | .ok closed => closed = total + n
  | .error e => cap < e.len ∧ cap < total + n

theorem bills_charge {heads : List Nat} {cost : Nat}
    (h : cost = n ∨ cap < total + cost ∧ cap < total + n) :
    Bills total n (charge heads total cost) := by
  unfold charge
  split
  · next hover =>
    refine ⟨hover, ?_⟩
    rcases h with rfl | ⟨-, hn⟩
    · exact hover
    · exact hn
  · next hin =>
    rcases h with rfl | ⟨hcost, -⟩
    · rfl
    · exact absurd hcost hin

theorem Bills.bind {f : Nat → Except OverCap Nat} {m : Nat} (h : Bills total n r)
    (hf : Bills (total + n) m (f (total + n))) : Bills total (n + m) (r >>= f) := by
  cases r with
  | error e =>
    have hcap : cap < total + n := h.2
    exact ⟨h.1, by omega⟩
  | ok closed =>
    obtain rfl : closed = total + n := h
    show Bills total (n + m) (f (total + n))
    unfold Bills at hf ⊢
    split at hf
    · rw [hf, Nat.add_assoc]
    · exact ⟨hf.1, by omega⟩

theorem head_width (field : FieldNumber) :
    (minimal (head field .len)).length = encodedLen64 (head field .len) := by
  rw [minimal_length, encodedLen64_eq (head_lt field .len)]

/-- What a LEN record is charged, or both are past the cap. -/
theorem lenCost_bytes (field : FieldNumber) (payload : List UInt8) :
    lenCost field payload.length = (lenRecord field payload).length ∨
      cap < lenCost field payload.length ∧ cap < (lenRecord field payload).length := by
  have hcap := cap_lt
  have hlen : (lenRecord field payload).length =
      encodedLen64 (head field .len) + width payload.length + payload.length := by
    rw [lenRecord, List.length_append, List.length_append, head_width, minimal_length]
  unfold lenCost
  by_cases h : payload.length < 2 ^ 64
  · left
    rw [hlen, encodedLen64_eq h]
  · right
    rw [hlen]
    omega

theorem words_le (words : List UInt64) :
    words.length ≤ (words.flatMap fun w => minimal w.toNat).length := by
  induction words with
  | nil => exact Nat.le_refl _
  | cons w words ih =>
    have hpos := width_pos w.toNat
    rw [List.flatMap_cons, List.length_append, minimal_length, List.length_cons]
    omega

theorem Put.cost_bytes (p : Put) :
    p.cost = p.bytes.length ∨ cap < p.cost ∧ cap < p.bytes.length := by
  have htagged : ∀ (field : FieldNumber) (kind : Groupless.RecordKind),
      (minimal (head field kind)).length = encodedLen64 (head field kind) := fun field kind => by
    rw [minimal_length, encodedLen64_eq (head_lt field kind)]
  cases p with
  | varint field value =>
    left
    rw [Put.bytes, List.length_append, htagged, minimal_length, Put.cost,
      encodedLen64_eq value.toNat_lt]
  | i32 field bits | i64 field bits =>
    left
    rw [Put.bytes, List.length_append, htagged, toLeBytes_length]
    rfl
  | len field payload copied => exact lenCost_bytes field payload
  | packedVarints field words =>
    have hwords : (words.map fun w => encodedLen64 w.toNat).sum =
        (words.flatMap fun w => minimal w.toNat).length := by
      rw [← (words_spelled words).1, List.map_map]
      rfl
    have hcount := words_le words
    by_cases hover : cap < words.length
    · right
      have hcost : Put.cost (.packedVarints field words) = words.length := if_pos hover
      have hle : (words.flatMap fun w => minimal w.toNat).length ≤
          (Put.bytes (.packedVarints field words)).length := by
        rw [Put.bytes, lenRecord, List.length_append]
        exact Nat.le_add_left _ _
      omega
    · have hcost : Put.cost (.packedVarints field words) =
          lenCost field (words.flatMap fun w => minimal w.toNat).length :=
        (if_neg hover).trans (congrArg _ hwords)
      rw [hcost]
      exact lenCost_bytes field _
  | packedFixed32 field words =>
    have hcost := lenCost_bytes field (words.flatMap fun w => toLeBytes 4 w.toNat)
    rwa [(fixed_spelled 4 UInt32.toNat words).1] at hcost
  | packedFixed64 field words =>
    have hcost := lenCost_bytes field (words.flatMap fun w => toLeBytes 8 w.toNat)
    rwa [(fixed_spelled 8 UInt64.toNat words).1] at hcost

theorem Raw.cost_bytes (r : Raw) : r.cost = r.spell.length := by
  cases r with
  | varint value => rw [Raw.spell, minimal_length, Raw.cost, encodedLen64_eq value.toNat_lt]
  | i32 bits | i64 bits => rw [Raw.spell, toLeBytes_length, Raw.cost]
  | bytes data copied => rfl

theorem bills_chunks {heads : List Nat} (chunks : List (List UInt8 × Bool)) (total : Nat) :
    Bills total (chunks.flatMap Prod.fst).length (chunkLedger heads chunks total) := by
  induction chunks generalizing total with
  | nil => rfl
  | cons chunk chunks ih =>
    rw [List.flatMap_cons, List.length_append]
    exact (bills_charge (.inl rfl)).bind (ih _)

theorem bills_frame {field : FieldNumber} {payload : List UInt8} {heads : List Nat}
    {body : List Nat → Nat → Except OverCap Nat}
    (hbody : ∀ heads total, Bills total payload.length (body heads total)) (total : Nat) :
    Bills total (lenRecord field payload).length (frameLedger (head field .len) body heads total) := by
  have hcap := cap_lt
  have hlen : (lenRecord field payload).length =
      encodedLen64 (head field .len) + (payload.length + width payload.length) := by
    rw [lenRecord, List.length_append, List.length_append, head_width, minimal_length]
    omega
  rw [hlen]
  refine (bills_charge (.inl rfl)).bind ((hbody _ _).bind (bills_charge ?_))
  rw [Nat.add_sub_cancel_left]
  by_cases h : payload.length < 2 ^ 64
  · exact .inl (encodedLen64_eq h)
  · exact .inr (by omega)

/-- A sequence is charged its bytes, or breaks the cap where they are past it. -/
theorem bills_script (s : Script) (heads : List Nat) (total : Nat) :
    Bills total s.bytes.length (s.ledger heads total) := by
  induction s generalizing heads total with
  | nil => rfl
  | put p rest ih =>
    rw [Script.bytes, List.length_append]
    refine (bills_charge ?_).bind (ih _ _)
    rcases p.cost_bytes with he | ⟨hcost, hbytes⟩
    · exact .inl he
    · exact .inr (by omega)
  | raw r rest ih =>
    rw [Script.bytes, List.length_append]
    exact (bills_charge (.inl r.cost_bytes)).bind (ih _ _)
  | message field body rest ihb ih =>
    rw [Script.bytes, List.length_append]
    exact (bills_frame ihb total).bind (ih _ _)
  | bytesFrame field chunks rest ih =>
    rw [Script.bytes, List.length_append]
    exact (bills_frame (fun _ => bills_chunks chunks) total).bind (ih _ _)
  | group field body rest ihb ih =>
    have htags : 2 * encodedLen64 (Grouped.headWord field .group) =
        (minimal (Grouped.headWord field .group)).length +
          (minimal (Grouped.groupEndWord field)).length := by
      have hhead := encodedLen64_eq (tag_lt field (Grouped.RecordKind.group).low3)
      have hend := encodedLen64_eq (tag_lt field 4)
      have hsame := groupEnd_width field
      unfold Grouped.groupEndWord Grouped.headWord at hsame ⊢
      rw [minimal_length, minimal_length]
      omega
    have hlen : (Script.group field body rest).bytes.length =
        2 * encodedLen64 (Grouped.headWord field .group) + body.bytes.length +
          rest.bytes.length := by
      simp only [Script.bytes, List.length_append]
      omega
    rw [hlen]
    exact ((bills_charge (.inl rfl)).bind (ihb _ _)).bind (ih _ _)

end Account

/-! ## The finish -/

section Finish

variable {backing : Backing} {c : Core backing}

/-- A segment replays to its slices, wherever its literals stand in the store. -/
theorem Segment.replay {events : List (Event backing)} {owned : List UInt8}
    {slices : List (List UInt8)} (h : Segment c.borrows events owned slices)
    {pre post : List UInt8} (ho : c.owned = pre ++ owned ++ post) :
    c.replay pre.length events = some (slices, pre.length + owned.length) := by
  induction h generalizing pre with
  | nil => rfl
  | @owned slice events owned slices _ _ ih =>
    have hrest := @ih (pre ++ slice) (by rw [ho]; simp)
    have hfits : pre.length + slice.length ≤ c.owned.length := by
      rw [ho]
      simp only [List.length_append]
      omega
    have htake : (c.owned.drop pre.length).take slice.length = slice := by
      rw [ho]
      simp
    unfold Core.replay
    rw [if_pos hfits, ← List.length_append, hrest, htake]
    simp [Nat.add_assoc]
  | borrowed hslot _ _ ih =>
    unfold Core.replay
    rw [hslot, ih ho]
    rfl
  | @len body events owned slices hle _ ih =>
    have hcap := cap_lt
    have hwidth : encodedLen32 body ≤ 5 := by
      rw [encodedLen32_eq (by omega)]
      exact width_le (by decide) (Nat.lt_of_le_of_lt hle (by decide))
    unfold Core.replay
    rw [if_pos ⟨Nat.le_refl _, hwidth⟩, ih ho, write64At_eq, encodedLen32_eq (by omega)]
    rfl

theorem judged_broken {α : Type} {e : OverCap} (he : c.overCap = some e) (emit : Emission α) :
    c.judged emit = .overCap e := by
  unfold Core.judged
  rw [he]

theorem judged_healthy {α : Type} (hc : c.overCap = none) (hs : c.stack = [])
    (emit : Emission α) : c.judged emit = emit := by
  unfold Core.judged
  rw [hc]
  exact if_pos hs

theorem new_sound : (Core.new : Core backing).Sound := ⟨rfl, Nat.zero_le _⟩

/-- What a sequence comes to in a machine: the break of its account in every face, or its bytes,
planned, buffered and sunk. -/
theorem build_agrees (hb : backing.Faithful) (s : Script) :
    (∃ e, s.ledger [] 0 = .error e ∧ (s.build backing).plannedLen = .overCap e ∧
      (s.build backing).finish = .overCap e ∧ (s.build backing).emitSink = .overCap e) ∨
    (s.ledger [] 0 = .ok s.bytes.length ∧ s.bytes.length ≤ cap ∧
      (s.build backing).plannedLen = .done s.bytes.length ∧
      (s.build backing).finish = .done s.bytes ∧
      ∃ slices, (s.build backing).emitSink = .done slices ∧ slices.flatten = s.bytes) := by
  have hrun : Runs .new s.bytes (s.build backing) (s.ledger [] 0) :=
    run_runs hb s .new new_sound
  generalize s.build backing = c at hrun ⊢
  generalize s.ledger [] 0 = r at hrun ⊢
  cases hrun with
  | broken he _ =>
    exact .inl ⟨_, rfl, judged_broken he _, judged_broken he _, judged_broken he _⟩
  | ok hext =>
    right
    have htotal : c.total = s.bytes.length := hext.total.trans (Nat.zero_add _)
    obtain ⟨events, owned, slices, he, ho, hseg, hflat⟩ :=
      @hext.program [] [] [] [] [] (by simp [Sealed]) rfl rfl .nil
    rw [List.nil_append] at he ho
    have hreplay : c.replay 0 c.events = some (slices, c.owned.length) := by
      rw [he, ho]
      have := @Segment.replay _ _ _ _ _ hseg [] [] (by rw [ho]; simp)
      rwa [List.length_nil, Nat.zero_add] at this
    refine ⟨congrArg _ htotal, htotal ▸ hext.sound.2, ?_, ?_, slices, ?_, hflat⟩
    · unfold Core.plannedLen
      rw [judged_healthy hext.sound.1 hext.stack, htotal]
    · unfold Core.finish Core.emitInto
      rw [judged_healthy hext.sound.1 hext.stack, hreplay]
      show (if slices.flatten.length ≠ c.total then _ else _) = _
      rw [if_neg (by rw [hflat, htotal]; simp)]
      show (if c.owned.length ≠ c.owned.length then _ else _) = _
      rw [if_neg (by simp), hflat]
      rfl
    · unfold Core.emitSink
      rw [judged_healthy hext.sound.1 hext.stack, hreplay]
      show (if c.owned.length ≠ c.owned.length then _ else _) = _
      rw [if_neg (by simp)]

end Finish

end ProtobufEdit.Construct
