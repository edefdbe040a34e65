import Mathlib.Data.Nat.Log
import Mathlib.Data.Nat.Size
import Mathlib.Tactic.Positivity
import Mathlib.Tactic.Ring

/-!
# Base-128 words

Words of seven-bit digits, least significant first, every byte but the last with its
high bit set. `resume` reads one word from a byte supply that may be cut at any byte;
`read` is the same reader over a supply that is whole. A window of `cap` bytes and the
bound `last` on a full-width word's terminal byte are parameters.
-/

namespace Base128

/-! ## Values -/

/-- The number the digits of `word` spell. -/
def value : List UInt8 → Nat
  | [] => 0
  | b :: word => b.toNat % 128 + 128 * value word

@[simp] theorem value_nil : value [] = 0 := rfl

@[simp] theorem value_cons (b : UInt8) (word : List UInt8) :
    value (b :: word) = b.toNat % 128 + 128 * value word := rfl

theorem value_append (u w : List UInt8) :
    value (u ++ w) = value u + 128 ^ u.length * value w := by
  induction u with
  | nil => simp
  | cons b u ih => simp only [List.cons_append, value_cons, ih, List.length_cons, pow_succ]; ring

theorem value_concat (u : List UInt8) (b : UInt8) :
    value (u ++ [b]) = value u + 128 ^ u.length * (b.toNat % 128) := by
  simp [value_append]

theorem value_lt (word : List UInt8) : value word < 128 ^ word.length := by
  induction word with
  | nil => simp
  | cons b word ih =>
    have hb : b.toNat % 128 < 128 := Nat.mod_lt _ (by decide)
    simp only [value_cons, List.length_cons, pow_succ]; omega

/-! ## The resumable reader -/

/-- How a read ends: `rest` is what the supply still holds. -/
inductive Outcome where
  | done (word rest : List UInt8)
  | more (held : List UInt8)
  | cut (held rest : List UInt8)
  | tooWide (held rest : List UInt8)
  | outOfClass (held rest : List UInt8)
  deriving DecidableEq, Repr

/-- Reads on from `held` with at most `room` bytes allowed: the window's width first, then
the room, then the supply. -/
def resume (cap last : Nat) : List UInt8 → Nat → List UInt8 → Outcome
  | held, room, [] =>
    if cap ≤ held.length then .tooWide held []
    else if room = 0 then .cut held []
    else .more held
  | held, room, b :: rest =>
    if cap ≤ held.length then .tooWide held (b :: rest)
    else if room = 0 then .cut held (b :: rest)
    else if b.toNat < 128 then
      if held.length + 1 = cap ∧ last < b.toNat then .outOfClass (held ++ [b]) rest
      else .done (held ++ [b]) rest
    else resume cap last (held ++ [b]) (room - 1) rest

attribute [grind =] resume

/-- The outcome once `more` has been added to the supply behind it. -/
def Outcome.behind (o : Outcome) (more : List UInt8) : Outcome :=
  match o with
  | .done w rest => .done w (rest ++ more)
  | .more held => .more held
  | .cut held rest => .cut held (rest ++ more)
  | .tooWide held rest => .tooWide held (rest ++ more)
  | .outOfClass held rest => .outOfClass held (rest ++ more)

/-- The bytes the reader has in hand when it ends. -/
def Outcome.held : Outcome → List UInt8
  | .done w _ => w
  | .more w => w
  | .cut w _ => w
  | .tooWide w _ => w
  | .outOfClass w _ => w

/-- What the supply still holds when the reader ends. -/
def Outcome.rest : Outcome → List UInt8
  | .done _ r => r
  | .more _ => []
  | .cut _ r => r
  | .tooWide _ r => r
  | .outOfClass _ r => r

section Resume

variable {cap last : Nat}

/-- A reader that asks for more has taken the whole supply inside its room. -/
theorem resume_more {held : List UInt8} {room : Nat} {chunk held' : List UInt8}
    (h : resume cap last held room chunk = .more held') :
    held' = held ++ chunk ∧ chunk.length < room ∧ held'.length < cap := by
  induction chunk generalizing held room with
  | nil =>
    simp only [resume] at h
    split at h
    · cases h
    split at h
    · cases h
    cases h
    simp only [List.append_nil, List.length_nil, true_and]
    omega
  | cons b rest ih =>
    simp only [resume] at h
    split at h
    · cases h
    split at h
    · cases h
    split at h
    · split at h <;> cases h
    obtain ⟨rfl, hr, hw⟩ := ih h
    refine ⟨by simp, ?_, hw⟩
    simp only [List.length_cons]
    omega

/-- Chunks compose: a reader that asked for more goes on as if never interrupted, and one
that ended ends the same with the later bytes still unread. -/
theorem resume_append (held : List UInt8) (room : Nat) (chunk more : List UInt8) :
    resume cap last held room (chunk ++ more) =
      match resume cap last held room chunk with
      | .more held' => resume cap last held' (room - chunk.length) more
      | ended => ended.behind more := by
  induction chunk generalizing held room with
  | nil =>
    cases more with
    | nil =>
      simp only [resume, List.append_nil, List.length_nil, Nat.sub_zero]
      split_ifs <;> simp [Outcome.behind, *]
    | cons b rest =>
      simp only [resume, List.nil_append, List.length_nil, Nat.sub_zero]
      split_ifs <;> simp [Outcome.behind, *]
  | cons b rest ih =>
    simp only [List.cons_append, resume]
    split_ifs
    · rfl
    · rfl
    · rfl
    · rfl
    · rw [ih, List.length_cons, Nat.sub_sub, Nat.add_comm 1]

/-- Every outcome splits the supply: what was taken goes behind the held bytes. -/
theorem resume_split (cap last : Nat) (held : List UInt8) (room : Nat) (chunk : List UInt8) :
    match resume cap last held room chunk with
    | .done w rest => w ++ rest = held ++ chunk ∧ held.length < w.length
        ∧ w.length ≤ held.length + room ∧ w.length ≤ cap
    | .more held' => held' = held ++ chunk
    | .cut w rest => w ++ rest = held ++ chunk ∧ w.length = held.length + room
    | .tooWide w rest => w ++ rest = held ++ chunk ∧ cap ≤ w.length
        ∧ w.length ≤ held.length + room
    | .outOfClass w rest => w ++ rest = held ++ chunk ∧ w.length = cap
        ∧ w.length ≤ held.length + room := by
  induction chunk generalizing held room with
  | nil =>
    simp only [resume]
    split_ifs <;> simp <;> omega
  | cons b rest ih =>
    simp only [resume]
    split_ifs with hw hr hb hc
    · simp; omega
    · simp; omega
    · simp; omega
    · simp; omega
    · have := ih (held ++ [b]) (room - 1)
      revert this
      cases resume cap last (held ++ [b]) (room - 1) rest <;>
        simp only [List.append_assoc, List.cons_append, List.nil_append, List.length_append,
          List.length_cons, List.length_nil] <;> grind

/-- A reader whose room covers the supply never asks for more. -/
theorem resume_ne_more (held chunk held' : List UInt8) :
    resume cap last held chunk.length chunk ≠ .more held' := fun h =>
  absurd (resume_more h).2.1 (Nat.lt_irrefl _)

/-- Room past the supply only turns a cut into asking for more. -/
theorem resume_room {held : List UInt8} {room : Nat} {chunk : List UInt8}
    (h : chunk.length < room) : resume cap last held room chunk =
      match resume cap last held chunk.length chunk with
      | .cut held _ => .more held
      | o => o := by
  induction chunk generalizing held room with
  | nil =>
    have h0 : ¬ room = 0 := by simp at h; omega
    simp only [resume, List.length_nil, h0, if_false, if_true]
    split_ifs <;> rfl
  | cons b rest ih =>
    simp only [List.length_cons] at h
    have h0 : ¬ room = 0 := by omega
    simp only [resume, List.length_cons, h0, Nat.succ_ne_zero, if_false, Nat.add_sub_cancel]
    split_ifs
    · rfl
    · rfl
    · rfl
    · exact ih (by omega)

end Resume

/-! ## Whole words -/

/-- A word the window admits: continuing bytes, then one terminal byte in class. -/
structure IsWord (cap last : Nat) (w : List UInt8) : Prop where
  shape : ∃ init b, w = init ++ [b] ∧ (∀ c ∈ init, 128 ≤ c.toNat) ∧ b.toNat < 128 ∧
    (w.length = cap → b.toNat ≤ last)
  fits : w.length ≤ cap

section Words

variable {cap last : Nat}

theorem resume_word {held init : List UInt8} {b : UInt8} {room : Nat} (tail : List UInt8)
    (hi : ∀ c ∈ init, 128 ≤ c.toNat) (hb : b.toNat < 128)
    (hc : (held ++ init ++ [b]).length = cap → b.toNat ≤ last)
    (hf : (held ++ init ++ [b]).length ≤ cap) (hr : init.length < room) :
    resume cap last held room (init ++ b :: tail) = .done (held ++ init ++ [b]) tail := by
  induction init generalizing held room with
  | nil =>
    simp only [List.append_nil, List.length_append, List.length_cons, List.length_nil] at hc hf hr
    simp only [List.nil_append, List.append_nil, resume]
    rw [if_neg (by omega), if_neg (by omega), if_pos hb, if_neg (by omega)]
  | cons c init ih =>
    have hc128 := hi c List.mem_cons_self
    simp only [List.length_append, List.length_cons, List.length_nil] at hf hr
    simp only [List.cons_append, resume]
    rw [if_neg (by omega), if_neg (by omega), if_neg (by omega)]
    have := @ih (held ++ [c]) (room - 1)
      (fun d hd => hi d (List.mem_cons_of_mem _ hd)) (by simpa using hc)
      (by simp; omega) (by omega)
    simpa using this

/-- A word reads as itself, whatever follows it. -/
theorem IsWord.resume {w : List UInt8} (h : IsWord cap last w) (tail : List UInt8) {room : Nat}
    (hr : w.length ≤ room) : resume cap last [] room (w ++ tail) = .done w tail := by
  obtain ⟨⟨init, b, rfl, hi, hb, hc⟩, hf⟩ := h
  have := @resume_word cap last [] init b room tail hi hb (by simpa using hc) (by simpa using hf)
    (by simp at hr; omega)
  simpa using this

theorem resume_done_shape {held chunk w rest : List UInt8} {room : Nat}
    (h : Base128.resume cap last held room chunk = .done w rest) :
    ∃ init b, w = held ++ init ++ [b] ∧ (∀ c ∈ init, 128 ≤ c.toNat) ∧ b.toNat < 128 ∧
      (w.length = cap → b.toNat ≤ last) := by
  induction chunk generalizing held room with
  | nil =>
    simp only [Base128.resume] at h
    split_ifs at h
  | cons b tail ih =>
    simp only [Base128.resume] at h
    split_ifs at h with hw h0 hb hc
    · cases h
      refine ⟨[], b, by simp, by simp, hb, ?_⟩
      simp only [List.length_append, List.length_cons, List.length_nil]
      omega
    · obtain ⟨init, d, rfl, hi, hd, hcd⟩ := ih h
      refine ⟨b :: init, d, by simp, ?_, hd, hcd⟩
      intro c hc'
      rcases List.mem_cons.mp hc' with rfl | hc'
      · omega
      · exact hi c hc'

/-- What a reader completes is a word of its window, at the front of the supply. -/
theorem isWord_of_resume {chunk w rest : List UInt8} {room : Nat}
    (h : Base128.resume cap last [] room chunk = .done w rest) :
    IsWord cap last w ∧ chunk = w ++ rest ∧ w.length ≤ room := by
  have hs := resume_split cap last [] room chunk
  rw [h] at hs
  obtain ⟨he, -, hr, hf⟩ := hs
  obtain ⟨init, b, hw, hi, hb, hc⟩ := resume_done_shape h
  exact ⟨⟨⟨init, b, by simpa using hw, hi, hb, hc⟩, hf⟩, by simpa using he.symm, by simpa using hr⟩

theorem IsWord.length_pos {w : List UInt8} (h : IsWord cap last w) : 0 < w.length := by
  obtain ⟨⟨init, b, rfl, -⟩, -⟩ := h
  simp

/-- The window's class as a bound on the number, digit by digit. -/
theorem value_concat_lt {held : List UInt8} {b : UInt8} (hl : held.length < cap)
    (hc : held.length + 1 = cap → b.toNat % 128 ≤ last) :
    value (held ++ [b]) < 128 ^ (cap - 1) * (last + 1) := by
  have hv := value_lt held
  rcases Nat.lt_or_ge (held.length + 1) cap with hlt | hge
  · calc value (held ++ [b]) < 128 ^ (held ++ [b]).length := value_lt _
      _ ≤ 128 ^ (cap - 1) := Nat.pow_le_pow_right (by decide) (by simp; omega)
      _ ≤ 128 ^ (cap - 1) * (last + 1) := Nat.le_mul_of_pos_right _ (by omega)
  · have hb := hc (by omega)
    rw [value_concat, show cap - 1 = held.length by omega]
    calc value held + 128 ^ held.length * (b.toNat % 128)
        < 128 ^ held.length + 128 ^ held.length * (b.toNat % 128) := by omega
      _ = 128 ^ held.length * (b.toNat % 128 + 1) := by ring
      _ ≤ 128 ^ held.length * (last + 1) := Nat.mul_le_mul_left _ (by omega)

theorem IsWord.value_lt {w : List UInt8} (h : IsWord cap last w) :
    value w < 128 ^ (cap - 1) * (last + 1) := by
  obtain ⟨⟨init, b, rfl, hi, hb, hc⟩, hf⟩ := h
  simp only [List.length_append, List.length_cons, List.length_nil] at hc hf
  exact value_concat_lt (by omega) fun h => by rw [Nat.mod_eq_of_lt hb]; exact hc (by omega)

end Words

/-! ## Spellings -/

/-- `v` in exactly `len` bytes. -/
def spell : Nat → Nat → List UInt8
  | 0, _ => []
  | 1, v => [UInt8.ofNat v]
  | len + 2, v => UInt8.ofNat (v % 128 + 128) :: spell (len + 1) (v / 128)

@[simp] theorem spell_length (len v : Nat) : (spell len v).length = len := by
  induction len, v using spell.induct with
  | case1 => rfl
  | case2 => rfl
  | case3 len v ih => simp [spell, ih]

theorem value_spell {len v : Nat} (h0 : 0 < len) (h : v < 128 ^ len) : value (spell len v) = v := by
  induction len, v using spell.induct with
  | case1 => omega
  | case2 v =>
    simp only [pow_one] at h
    simp only [spell, value_cons, value_nil, UInt8.toNat_ofNat']
    omega
  | case3 len v ih =>
    have hd : v / 128 < 128 ^ (len + 1) := Nat.div_lt_of_lt_mul (by rw [pow_succ] at h; omega)
    simp only [spell, value_cons, UInt8.toNat_ofNat', ih (by omega) hd]
    omega

/-- A spelling is a word's shape; its terminal byte is what the digits below it leave over. -/
theorem spell_shape {len v : Nat} (h0 : 0 < len) (h : v < 128 ^ len) :
    ∃ init b, spell len v = init ++ [b] ∧ (∀ c ∈ init, 128 ≤ c.toNat) ∧
      b.toNat = v / 128 ^ (len - 1) ∧ b.toNat < 128 := by
  induction len, v using spell.induct with
  | case1 => omega
  | case2 v =>
    simp only [pow_one] at h
    refine ⟨[], UInt8.ofNat v, rfl, by simp, ?_, ?_⟩ <;> simp <;> omega
  | case3 len v ih =>
    have hd : v / 128 < 128 ^ (len + 1) := Nat.div_lt_of_lt_mul (by rw [pow_succ] at h; omega)
    obtain ⟨init, b, he, hi, hb, hlt⟩ := ih (by omega) hd
    refine ⟨UInt8.ofNat (v % 128 + 128) :: init, b, by simp [spell, he], ?_, ?_, hlt⟩
    · intro c hc
      rcases List.mem_cons.mp hc with rfl | hc
      · simp; omega
      · exact hi c hc
    · rw [hb, Nat.div_div_eq_div_mul]
      simp [pow_succ, Nat.mul_comm]

theorem spell_isWord {cap last len v : Nat} (h0 : 0 < len) (hl : len ≤ cap) (h : v < 128 ^ len)
    (hc : v < 128 ^ (cap - 1) * (last + 1)) : IsWord cap last (spell len v) := by
  obtain ⟨init, b, he, hi, hb, hlt⟩ := spell_shape h0 h
  refine ⟨⟨init, b, he, hi, hlt, ?_⟩, by simpa using hl⟩
  intro hw
  rw [spell_length] at hw
  rw [hb, hw]
  exact Nat.le_of_lt_succ (Nat.div_lt_of_lt_mul hc)

/-- A word is the spelling of its own value at its own width. -/
theorem IsWord.spell_value {cap last : Nat} {w : List UInt8} (h : IsWord cap last w) :
    spell w.length (value w) = w := by
  obtain ⟨⟨init, b, rfl, hi, hb, -⟩, -⟩ := h
  induction init with
  | nil => simp [spell, Nat.mod_eq_of_lt hb]
  | cons c init ih =>
    have hc := hi c List.mem_cons_self
    have hc256 := c.toNat_lt
    simp only [List.cons_append, List.length_cons, List.length_append, List.length_nil, spell,
      value_cons]
    have ih := ih fun d hd => hi d (List.mem_cons_of_mem _ hd)
    simp only [List.length_append, List.length_cons, List.length_nil, Nat.zero_add] at ih
    rw [show (c.toNat % 128 + 128 * value (init ++ [b])) / 128 = value (init ++ [b]) by omega, ih,
      show (c.toNat % 128 + 128 * value (init ++ [b])) % 128 + 128 = c.toNat by omega]
    simp

/-! ## Minimal widths -/

/-- The fewest bytes that spell `v`. -/
def width (v : Nat) : Nat := Nat.log 128 v + 1

theorem width_pos (v : Nat) : 0 < width v := Nat.succ_pos _

theorem lt_pow_width (v : Nat) : v < 128 ^ width v := Nat.lt_pow_succ_log_self (by decide) v

theorem width_le {v n : Nat} (h0 : 0 < n) (h : v < 128 ^ n) : width v ≤ n := by
  have := Nat.log_lt_of_lt_pow' (by omega) h
  simp only [width]; omega

theorem width_le_length {w : List UInt8} (h0 : 0 < w.length) : width (value w) ≤ w.length :=
  width_le h0 (value_lt w)

/-- `v` at its minimal width. -/
def minimal (v : Nat) : List UInt8 := spell (width v) v

@[simp] theorem minimal_length (v : Nat) : (minimal v).length = width v := spell_length _ _

@[simp] theorem value_minimal (v : Nat) : value (minimal v) = v :=
  value_spell (width_pos v) (lt_pow_width v)

theorem minimal_isWord {cap last v : Nat} (h0 : 0 < cap) (hl : last < 128)
    (hc : v < 128 ^ (cap - 1) * (last + 1)) : IsWord cap last (minimal v) := by
  refine spell_isWord (width_pos v) (width_le h0 ?_) (lt_pow_width v) hc
  calc v < 128 ^ (cap - 1) * (last + 1) := hc
    _ ≤ 128 ^ (cap - 1) * 128 := Nat.mul_le_mul_left _ (by omega)
    _ = 128 ^ cap := by rw [← pow_succ]; congr 1; omega

/-- A word of minimal width is the minimal spelling of its value. -/
theorem IsWord.eq_minimal {cap last : Nat} {w : List UInt8} (h : IsWord cap last w)
    (hw : w.length = width (value w)) : w = minimal (value w) := by
  rw [minimal, ← hw, h.spell_value]

/-- A word of a narrower window is a word of the value window. -/
theorem IsWord.widen {cap last : Nat} {w : List UInt8} (h : IsWord cap last w) (hcap : cap ≤ 10)
    (hlt : value w < 2 ^ 64) : IsWord 10 1 w := by
  obtain ⟨⟨init, b, rfl, hi, hb, -⟩, hf⟩ := h
  refine ⟨⟨init, b, rfl, hi, hb, fun hlen => ?_⟩, hf.trans hcap⟩
  simp only [List.length_append, List.length_cons, List.length_nil] at hlen
  rw [value_concat, show init.length = 9 by omega, Nat.mod_eq_of_lt hb] at hlt
  omega

/-- The width by bit count: `bits * 9 / 64 + 1` is exact up to 64 bits. -/
theorem width_eq_bits {v : Nat} (h : v < 2 ^ 64) : width v = Nat.size v * 9 / 64 + 1 := by
  have hs : Nat.size v ≤ 64 := Nat.size_le.mpr h
  have key : ∀ k ≤ 64, 0 < k → 7 * (k * 9 / 64) + 1 ≤ k ∧ k ≤ 7 * (k * 9 / 64 + 1) := by decide
  apply Nat.le_antisymm
  · apply width_le (Nat.succ_pos _)
    rcases Nat.eq_zero_or_pos v.size with h0 | h0
    · rw [Nat.size_eq_zero.mp h0]; positivity
    · calc v < 2 ^ v.size := Nat.lt_size_self v
        _ ≤ 2 ^ (7 * (v.size * 9 / 64 + 1)) := Nat.pow_le_pow_right (by decide) (key _ hs h0).2
        _ = 128 ^ (v.size * 9 / 64 + 1) := by rw [pow_mul]; rfl
  · rcases Nat.eq_zero_or_pos v.size with h0 | h0
    · rw [h0]; exact width_pos v
    · have hle : 2 ^ (7 * (v.size * 9 / 64)) ≤ v :=
        Nat.lt_size.mp (by have := (key _ hs h0).1; omega)
      rw [pow_mul] at hle
      exact Nat.succ_le_succ (Nat.le_log_of_pow_le (by decide) hle)

end Base128
