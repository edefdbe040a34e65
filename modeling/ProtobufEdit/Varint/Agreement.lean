import ProtobufEdit.Varint.Carry
import ProtobufEdit.Varint.Slice

/-!
# The kernels agree

The slice kernel's tiers, its re-reads and the carry kernel, each against the plain reader
that takes one byte at a time.
-/

namespace ProtobufEdit.Varint

open Base128 Slice

/-- The three word domains. -/
inductive Domain where
  | tag
  | len
  | value
  deriving DecidableEq, Repr

namespace Domain

def window : Domain → Window
  | tag => .tag
  | len => .len
  | value => .value

def read : Domain → List UInt8 → Nat → Nat → Read
  | tag => Slice.tagWord
  | len => Slice.lenWord
  | value => Slice.value64

def step : Domain → Carry → List UInt8 → Nat → Nat → Stepped
  | tag => Carry.stepTag
  | len => Carry.stepLen
  | value => Carry.stepValue64

variable (dom : Domain)

theorem fits : dom.window.Fits := by
  cases dom
  exacts [Window.tag_fits, Window.len_fits, Window.value_fits]

theorem cap_le : dom.window.cap ≤ 10 := by cases dom <;> decide

theorem read_eq : dom.read = tiers dom.window.cap dom.window.last := by cases dom <;> rfl

theorem step_eq : dom.step = Carry.step dom.window.cap dom.window.last := by cases dom <;> rfl

end Domain

/-! ## The plain reader -/

/-- Reads the word at the front of an extent behind the bytes already seen, one byte at a
time: the window's width first, then the extent's end. -/
def plain (cap last : Nat) : List UInt8 → List UInt8 → Read
  | seen, [] => if cap ≤ seen.length then .error .tooWide else .error .truncated
  | seen, b :: rest =>
    if cap ≤ seen.length then .error .tooWide
    else if b.toNat < 128 then
      if seen.length + 1 = cap ∧ last < b.toNat then .error .outOfClass
      else .ok (value (seen ++ [b]), seen.length + 1)
    else plain cap last (seen ++ [b]) rest

section Plain

variable {cap last : Nat} {data : List UInt8} {start stop : Nat}

theorem verdict_resume (seen : List UInt8) (room : Nat) (chunk : List UInt8) :
    verdict (resume cap last seen room chunk) = plain cap last seen (chunk.take room) := by
  induction chunk generalizing seen room with
  | nil =>
    simp only [resume, List.take_nil, plain]
    split_ifs <;> rfl
  | cons b rest ih =>
    cases room with
    | zero =>
      simp only [resume, List.take_zero, plain]
      split_ifs <;> rfl
    | succ room =>
      simp only [resume, List.take_succ_cons, plain, Nat.add_one_sub_one, Nat.add_one_ne_zero,
        if_false]
      split_ifs with hw hb hc
      · rfl
      · rfl
      · simp [verdict]
      · exact ih _ _

theorem tiers_plain {w : Window} (hw : w.Fits) (h : stop ≤ data.length) :
    tiers w.cap w.last data start stop =
      plain w.cap w.last [] ((data.drop start).take (stop - start)) := by
  rw [tiers_eq hw.1 hw.2 h, verdict_resume]

/-- The width-only walk judges as the assembling walk does. -/
theorem width64From_eq {left i : Nat} (acc : Nat) :
    width64From data start stop left i =
      (shortFrom maxLen64 last64 data start stop left i acc).map Prod.snd := by
  induction left generalizing i acc with
  | zero => rfl
  | succ left ih =>
    simp only [width64From, shortFrom]
    split_ifs
    · rfl
    · rfl
    · rfl
    · exact ih _

theorem width64Trusted_eq (h : stop ≤ data.length) :
    width64Trusted data start stop = (value64 data start stop).map Prod.snd := by
  have hshort : shortFrom maxLen64 last64 data start stop maxLen64 0 0 = _ :=
    @shortFrom_eq maxLen64 last64 data start stop (by decide) h maxLen64 [] 0 (Nat.zero_add _)
      (.inr rfl)
  rw [value64_eq h, width64Trusted, width64From_eq 0, hshort]
  rfl

/-- The unjudged re-read assembles the word it stands on. -/
theorem value64UncheckedFrom_eq {held init tail : List UInt8} {b : UInt8}
    (hi : ∀ c ∈ init, 128 ≤ c.toNat) (hb : b.toNat < 128)
    (hlen : (held ++ init ++ [b]).length ≤ 10) (hlt : value (held ++ init ++ [b]) < 2 ^ 64) :
    value64UncheckedFrom (init ++ b :: tail) held.length (value held) =
      some (value (held ++ init ++ [b])) := by
  induction init generalizing held with
  | nil =>
    simp only [List.append_nil, List.length_append, List.length_cons, List.length_nil] at hlen hlt ⊢
    have hshift : ¬ 64 ≤ payloadBits * held.length := by simp only [payloadBits]; omega
    simp only [List.nil_append, value64UncheckedFrom, hshift, if_false, contBit, hb, if_true,
      fold_last hb hlt]
  | cons c init ih =>
    have hc := hi c List.mem_cons_self
    simp only [List.length_append, List.length_cons, List.length_nil] at hlen
    have hshift : ¬ 64 ≤ payloadBits * held.length := by simp only [payloadBits]; omega
    have hnot : ¬ c.toNat < contBit := Nat.not_lt.mpr hc
    have hfold : value (held ++ [c]) < 2 ^ 64 := by
      refine Nat.lt_of_le_of_lt ?_ hlt
      rw [show held ++ c :: init ++ [b] = held ++ [c] ++ (init ++ [b]) by simp,
        value_append (held ++ [c])]
      exact Nat.le_add_right _ _
    have ih := @ih (held ++ [c]) (fun d hd => hi d (List.mem_cons_of_mem _ hd))
      (by simp; omega) (by simpa using hlt)
    simp only [List.cons_append, value64UncheckedFrom, hshift, if_false, hnot, fold_digit hfold]
    simpa using ih

theorem value64Unchecked_word {w : Window} (hw : w.Fits) (hcap : w.cap ≤ 10)
    {word rest : List UInt8} (he : data.drop start = word ++ rest)
    (hword : IsWord w.cap w.last word) : value64Unchecked data start = some (value word) := by
  have hlt := Nat.lt_of_lt_of_le hword.value_lt hw.2
  obtain ⟨⟨init, b, rfl, hi, hb, -⟩, hfits⟩ := hword
  have := @value64UncheckedFrom_eq [] init rest b hi hb (by simpa using Nat.le_trans hfits hcap)
    (by simpa using hlt)
  rw [value64Unchecked, he]
  simpa using this

end Plain

/-! ## The slice kernel -/

section Reads

variable (dom : Domain) {data : List UInt8} {start stop : Nat}

/-- A completed read stands on a word of its domain. -/
theorem read_word {v width : Nat} (h : stop ≤ data.length)
    (hr : dom.read data start stop = .ok (v, width)) :
    ∃ word rest, data.drop start = word ++ rest ∧ IsWord dom.window.cap dom.window.last word ∧
      v = value word ∧ width = word.length ∧ word.length ≤ stop - start := by
  rw [dom.read_eq, tiers_eq dom.fits.1 dom.fits.2 h] at hr
  cases ho : resume dom.window.cap dom.window.last [] (stop - start) (data.drop start) with
  | done word rest =>
    rw [ho] at hr
    cases hr
    obtain ⟨hword, he, hroom⟩ := isWord_of_resume ho
    exact ⟨word, rest, he, hword, rfl, rfl, hroom⟩
  | _ => rw [ho] at hr; cases hr

/-- A word in its width class is admitted by the canonical standard exactly where it is the
minimal spelling. -/
theorem minimal_iff {word : List UInt8} (hword : IsWord dom.window.cap dom.window.last word) :
    widthPadded word.length (value word) .canonicalMinimal dom.window.minimal = false ↔
      word = minimal (value word) := by
  have hlt := Nat.lt_of_lt_of_le hword.value_lt dom.fits.2
  have hwidth : dom.window.minimal (value word) = width (value word) := by
    cases dom <;> exact encodedLen64_eq hlt
  simp only [widthPadded, hwidth, decide_true, Bool.true_and, bne_eq_false_iff_eq]
  constructor
  · exact hword.eq_minimal
  · intro he
    rw [he, value_minimal, minimal_length]

/-- Every bounded read is the plain reader's over its extent, its canonical judgment is
minimality, and the re-reads of an admitted word give the same width and value. -/
theorem reads_agree (h : stop ≤ data.length) :
    dom.read data start stop =
        plain dom.window.cap dom.window.last [] ((data.drop start).take (stop - start)) ∧
      width64Trusted data start stop = (value64 data start stop).map Prod.snd ∧
      ∀ v width, dom.read data start stop = .ok (v, width) →
        (widthPadded width v .canonicalMinimal dom.window.minimal = false ↔
          (data.drop start).take width = minimal v) ∧
        width64Trusted data start stop = .ok width ∧ value64Unchecked data start = some v := by
  refine ⟨by rw [dom.read_eq, tiers_plain dom.fits h], width64Trusted_eq h, ?_⟩
  intro v width hr
  obtain ⟨word, rest, he, hword, rfl, rfl, hroom⟩ := read_word dom h hr
  refine ⟨by rw [minimal_iff dom hword, he, List.take_left], ?_,
    value64Unchecked_word dom.fits dom.cap_le he hword⟩
  -- a word of any domain is a value word
  have hvalue : IsWord maxLen64 last64 word := hword.widen dom.cap_le
    (Nat.lt_of_lt_of_le hword.value_lt dom.fits.2)
  rw [width64Trusted_eq h, value64_eq h, he, hvalue.resume rest hroom]
  rfl

theorem reads_agree_padded :
    let data : List UInt8 := [0x96, 0x81, 0x00, 0xFF]
    (Domain.value.read data 0 4 = plain maxLen64 last64 [] data) ∧
      (widthPadded 3 150 .canonicalMinimal encodedLen64 = false ↔
        [0x96, 0x81, 0x00] = minimal 150) ∧
      width64Trusted data 0 4 = .ok 3 ∧ value64Unchecked data 0 = some 150 := by
  intro data
  obtain ⟨hplain, -, hword⟩ := @reads_agree .value data 0 4 (by decide)
  obtain ⟨hminimal, hwidth, hvalue⟩ := hword 150 3 (by decide)
  exact ⟨hplain, hminimal, hwidth, hvalue⟩

end Reads

/-! ## The carry kernel -/

/-- Where a carry stops, or is left suspended: the last verdict, the carry, the offset, and
the bytes not consumed. -/
structure Driven where
  verdict : Step
  carry : Carry
  off : Nat
  unread : List UInt8
  deriving DecidableEq, Repr

/-- The carry driven over a first piece and the pieces behind it until it stops. -/
def drive (dom : Domain) (zoneEnd : Nat) : Carry → Nat → List UInt8 → List (List UInt8) → Driven
  | carry, off, piece, [] =>
    let s := dom.step carry piece off zoneEnd
    ⟨s.verdict, s.carry, s.off, s.chunk⟩
  | carry, off, piece, next :: pieces =>
    let s := dom.step carry piece off zoneEnd
    if s.verdict = .more then drive dom zoneEnd s.carry s.off next pieces
    else ⟨s.verdict, s.carry, s.off, s.chunk ++ (next :: pieces).flatten⟩

/-- What a stopped or suspended carry says of the extent it stood in. -/
def Step.read : Step → Nat → Read
  | .done v, width => .ok (v, width)
  | .more, _ => .error .truncated
  | .cut, _ => .error .truncated
  | .tooWide, _ => .error .tooWide
  | .outOfClass, _ => .error .outOfClass

section Drive

variable (dom : Domain) {zoneEnd : Nat}

/-- Driving is the one reader over the pieces joined. -/
theorem drive_resume {carry : Carry} {off : Nat} {piece : List UInt8} (pieces : List (List UInt8))
    (hoff : off ≤ zoneEnd) (hacc : carry.acc = value carry.bytes) :
    let o := resume dom.window.cap dom.window.last carry.bytes (zoneEnd - off)
      (piece ++ pieces.flatten)
    let d := drive dom zoneEnd carry off piece pieces
    d.verdict = Step.of o ∧ d.carry.bytes = o.held ∧ d.unread = o.rest ∧
      d.off + carry.bytes.length = off + o.held.length := by
  induction pieces generalizing carry off piece with
  | nil =>
    have h := @Carry.step_agrees dom.window.cap dom.window.last zoneEnd dom.fits.2 carry piece off
      hoff hacc
    simp only [List.flatten_nil, List.append_nil, drive, dom.step_eq]
    exact ⟨h.verdict, h.bytes, h.chunk, h.off⟩
  | cons next pieces ih =>
    have h := @Carry.step_agrees dom.window.cap dom.window.last zoneEnd dom.fits.2 carry piece off
      hoff hacc
    simp only [drive, dom.step_eq, resume_append carry.bytes]
    cases ho : resume dom.window.cap dom.window.last carry.bytes (zoneEnd - off) piece with
    | more held =>
      rw [ho] at h
      obtain ⟨rfl, hroom, -⟩ := resume_more ho
      have hmore := h.verdict
      simp only [Step.of] at hmore
      have hnext : (Carry.step dom.window.cap dom.window.last carry piece off zoneEnd).off +
          carry.bytes.length = off + (carry.bytes ++ piece).length := h.off
      rw [List.length_append] at hnext
      have ih := @ih (Carry.step dom.window.cap dom.window.last carry piece off zoneEnd).carry
        (Carry.step dom.window.cap dom.window.last carry piece off zoneEnd).off next (by omega)
        (by rw [h.acc hmore, h.bytes])
      have hheld : (Carry.step dom.window.cap dom.window.last carry piece off zoneEnd).carry.bytes =
          carry.bytes ++ piece := h.bytes
      simp only [hmore, if_true, List.flatten_cons]
      rw [hheld, List.length_append, show zoneEnd - (Carry.step dom.window.cap dom.window.last carry piece off zoneEnd).off =
        zoneEnd - off - piece.length by omega] at ih
      obtain ⟨h1, h2, h3, h4⟩ := ih
      exact ⟨h1, h2, h3, by omega⟩
    | _ =>
      rw [ho] at h
      have hstop := h.verdict
      rw [if_neg (by rw [hstop]; exact nofun)]
      exact ⟨hstop, h.bytes, by rw [h.chunk]; rfl, h.off⟩

end Drive

/-- A carry driven from empty over any pieces of some bytes gives the verdict of one read of
the bytes joined, bounded at the zone's end or the bytes' own; its offset and its bytes are
what it consumed, nothing behind the word. A zone's cut is that read's truncation at the
zone's end, and a carry left suspended holds all the bytes there were, fewer than its window. -/
theorem carry_is_one_read (dom : Domain) (zoneEnd off : Nat) (piece : List UInt8)
    (pieces : List (List UInt8)) (hoff : off ≤ zoneEnd) :
    let data := piece ++ pieces.flatten
    let room := zoneEnd - off
    let d := drive dom zoneEnd .empty off piece pieces
    dom.read data 0 (min room data.length) = d.verdict.read d.carry.bytes.length ∧
      d.carry.bytes ++ d.unread = data ∧ d.off = off + d.carry.bytes.length ∧
      (d.verdict = .cut ↔ room ≤ data.length ∧ dom.read data 0 room = .error .truncated) ∧
      (d.verdict = .more → d.carry.bytes = data ∧ d.carry.bytes.length < dom.window.cap ∧
        dom.window.cap ≤ 10) := by
  intro data room d
  obtain ⟨hverdict, hbytes, hunread, hnext⟩ := @drive_resume dom zoneEnd .empty off piece pieces
    hoff rfl
  have hread : ∀ stop, stop ≤ data.length → dom.read data 0 stop =
      plain dom.window.cap dom.window.last [] (data.take stop) := fun stop hstop => by
    rw [dom.read_eq, tiers_plain dom.fits hstop, List.drop_zero, Nat.sub_zero]
  have hsplit := resume_split dom.window.cap dom.window.last [] room data
  simp only [Carry.empty, List.length_nil, Nat.add_zero] at hverdict hbytes hunread hnext
  change d.verdict = Step.of (resume dom.window.cap dom.window.last [] room data) at hverdict
  change d.carry.bytes = (resume dom.window.cap dom.window.last [] room data).held at hbytes
  change d.unread = (resume dom.window.cap dom.window.last [] room data).rest at hunread
  change d.off = off + (resume dom.window.cap dom.window.last [] room data).held.length at hnext
  have hone : dom.read data 0 (min room data.length) =
      verdict (resume dom.window.cap dom.window.last [] room data) := by
    rw [hread _ (Nat.min_le_right _ _), verdict_resume, ← List.take_take, List.take_length]
  have hzone : room ≤ data.length → dom.read data 0 room =
      verdict (resume dom.window.cap dom.window.last [] room data) := fun h => by
    rw [hread _ h, verdict_resume]
  rw [hone]
  cases ho : resume dom.window.cap dom.window.last [] room data with
  | done w rest | tooWide w rest | outOfClass w rest =>
    rw [ho] at hverdict hbytes hunread hnext hsplit hzone
    simp only [Step.of, Outcome.held, Outcome.rest, List.nil_append] at hverdict hbytes hunread hnext hsplit
    refine ⟨by rw [hverdict, hbytes]; rfl, by rw [hbytes, hunread]; exact hsplit.1,
      by rw [hnext, hbytes], ?_, by rw [hverdict]; intro e; cases e⟩
    rw [hverdict]
    refine ⟨fun e => (by cases e), ?_⟩
    rintro ⟨hle, htrunc⟩
    rw [hzone hle] at htrunc
    cases htrunc
  | cut w rest =>
    rw [ho] at hverdict hbytes hunread hnext hsplit hzone
    simp only [Step.of, Outcome.held, Outcome.rest, List.nil_append] at hverdict hbytes hunread hnext hsplit
    have hle : room ≤ data.length := by
      have := congrArg List.length hsplit.1
      have := hsplit.2
      simp only [List.length_append, List.length_nil] at *
      omega
    refine ⟨by rw [hverdict]; rfl, by rw [hbytes, hunread]; exact hsplit.1,
      by rw [hnext, hbytes], ?_, by rw [hverdict]; intro e; cases e⟩
    rw [hverdict, hzone hle]
    exact ⟨fun _ => ⟨hle, rfl⟩, fun _ => rfl⟩
  | more w =>
    obtain ⟨hw, hroom, hcap⟩ := resume_more ho
    rw [ho] at hverdict hbytes hunread hnext
    simp only [Step.of, Outcome.held, Outcome.rest, List.nil_append] at hverdict hbytes hunread hnext hw
    refine ⟨by rw [hverdict]; rfl, by rw [hbytes, hunread, hw, List.append_nil],
      by rw [hnext, hbytes], ?_, fun _ => ⟨by rw [hbytes, hw], by rw [hbytes]; exact hcap, dom.cap_le⟩⟩
    rw [hverdict]
    refine ⟨fun e => (by cases e), ?_⟩
    rintro ⟨hle, -⟩
    omega

/-- A padded word in three pieces, the last of them holding a byte of the next construct. -/
theorem carry_is_one_read_split :
    let d := drive .value 9 .empty 5 [0x96] [[0x81], [0x00, 0xFF]]
    Domain.value.read [0x96, 0x81, 0x00, 0xFF] 0 4 = d.verdict.read d.carry.bytes.length ∧
      d.carry.bytes ++ d.unread = [0x96, 0x81, 0x00, 0xFF] ∧ d.off = 5 + d.carry.bytes.length := by
  obtain ⟨hread, hbytes, hoff, -⟩ :=
    carry_is_one_read .value 9 5 [0x96] [[0x81], [0x00, 0xFF]] (by decide)
  exact ⟨hread, hbytes, hoff⟩

end ProtobufEdit.Varint
