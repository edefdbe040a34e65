import ProtobufEdit.Cursor
import ProtobufEdit.Inspect.Groupless
import ProtobufEdit.Varint.Agreement

/-!
# What is met at a position

Some bytes begin with a lawful record, or with exactly one fault. `judge` meets that record, with
its tag, prefix and payload measured off its bytes, or names that fault where it stands.
-/

namespace ProtobufEdit.Inspect.Groupless

open Wire Wire.Groupless Varint Base128 Cursor

/-! ## Faults at the front of some bytes -/

/-- Why no word of a window stands in front. -/
inductive Unread (w : Window) (data : List UInt8) : Slice.ReadFault → Prop where
  | truncated : data.length < w.cap → (∀ b ∈ data, 128 ≤ b.toNat) → Unread w data .truncated
  | tooWide : w.cap ≤ data.length → (∀ b ∈ data.take w.cap, 128 ≤ b.toNat) →
      Unread w data .tooWide
  | outOfClass {init rest : List UInt8} {b : UInt8} : data = init ++ b :: rest →
      init.length + 1 = w.cap → (∀ c ∈ init, 128 ≤ c.toNat) → b.toNat < 128 → w.last < b.toNat →
      Unread w data .outOfClass

/-- A word wider than its value needs, where the standard refuses it. -/
structure Spare (w : Window) (standard : Standard) (word : List UInt8) : Prop where
  isWord : IsWord w.cap w.last word
  canonical : standard = .canonicalMinimal
  padded : word ≠ minimal (value word)

/-- The fault some bytes begin with, and how far in it stands. -/
inductive Struck (standard : Standard) (data : List UInt8) : Nat → FaultKind → Prop where
  | tagUnread {cause : Slice.ReadFault} : Unread .tag data cause →
      Struck standard data 0 (.read .tag cause)
  | tagPadded {tag rest : List UInt8} : data = tag ++ rest → Spare .tag standard tag →
      Struck standard data 0 .nonMinimalTag
  | fieldZero {tag rest : List UInt8} : data = tag ++ rest → Window.tag.Admits standard tag →
      FieldNumber.fromWord (value tag) = none →
      Struck standard data 0 (.fieldZero (Low3.fromWord (value tag)))
  | groupCode {tag rest : List UInt8} {field : FieldNumber} {code : Low3} : data = tag ++ rest →
      IsTag standard field code tag → code = 3 ∨ code = 4 →
      Struck standard data 0 (.groupCode field code)
  | unassigned {tag rest : List UInt8} {field : FieldNumber} {code : Low3} : data = tag ++ rest →
      IsTag standard field code tag → code = 6 ∨ code = 7 →
      Struck standard data 0 (.unassigned field code)
  | valueUnread {tag rest : List UInt8} {field : FieldNumber} {cause : Slice.ReadFault} :
      data = tag ++ rest → IsTag standard field RecordKind.varint.low3 tag →
      Unread .value rest cause →
      Struck standard data tag.length (.read (.value field) cause)
  | valuePadded {tag word rest : List UInt8} {field : FieldNumber} :
      data = tag ++ (word ++ rest) → IsTag standard field RecordKind.varint.low3 tag →
      Spare .value standard word →
      Struck standard data tag.length (.nonMinimalValue field)
  | fixedTruncated {tag rest : List UInt8} {field : FieldNumber} {kind : RecordKind} {need : Nat} :
      data = tag ++ rest → IsTag standard field kind.low3 tag →
      kind = .i64 ∧ need = 8 ∨ kind = .i32 ∧ need = 4 → rest.length < need →
      Struck standard data tag.length (.fixedTruncated field need)
  | lenUnread {tag rest : List UInt8} {field : FieldNumber} {cause : Slice.ReadFault} :
      data = tag ++ rest → IsTag standard field RecordKind.len.low3 tag → Unread .len rest cause →
      Struck standard data tag.length (.read (.lenPrefix field) cause)
  | lenPadded {tag word rest : List UInt8} {field : FieldNumber} :
      data = tag ++ (word ++ rest) → IsTag standard field RecordKind.len.low3 tag →
      Spare .len standard word →
      Struck standard data tag.length (.nonMinimalLen field)
  | lenOverrun {tag word rest : List UInt8} {field : FieldNumber} :
      data = tag ++ (word ++ rest) → IsTag standard field RecordKind.len.low3 tag →
      Window.len.Admits standard word → rest.length < value word →
      Struck standard data tag.length (.lenOverrun field (value word) rest.length)

/-! ## Words -/

section Words

variable {w : Window} {data seen word rest : List UInt8} {cause : Slice.ReadFault}

/-- The first terminal byte is where it is, however the bytes are split. -/
theorem split_terminal {init init' rest' : List UInt8} {b c : UInt8}
    (hi : ∀ a ∈ init, 128 ≤ a.toNat) (hi' : ∀ a ∈ init', 128 ≤ a.toNat) (hb : b.toNat < 128)
    (hc : c.toNat < 128) (h : init ++ b :: rest = init' ++ c :: rest') : init = init' ∧ b = c := by
  induction init generalizing init' with
  | nil =>
    cases init' with
    | nil => exact ⟨rfl, (List.cons.inj h).1⟩
    | cons d init' =>
      have hd := hi' d List.mem_cons_self
      rw [← (List.cons.inj h).1] at hd
      omega
  | cons a init ih =>
    have ha := hi a List.mem_cons_self
    cases init' with
    | nil =>
      rw [(List.cons.inj h).1] at ha
      omega
    | cons d init' =>
      obtain rfl := (List.cons.inj h).1
      obtain ⟨rfl, hbc⟩ := ih (fun x hx => hi x (List.mem_cons_of_mem _ hx))
        (fun x hx => hi' x (List.mem_cons_of_mem _ hx)) (List.cons.inj h).2
      exact ⟨rfl, hbc⟩

theorem mem_take_of_lt {init : List UInt8} {b : UInt8} {n : Nat} (h : init.length < n) :
    b ∈ (init ++ b :: rest).take n := by
  obtain ⟨k, rfl⟩ : ∃ k, n = init.length + (k + 1) := ⟨n - init.length - 1, by omega⟩
  rw [List.take_length_add_append, List.take_succ_cons]
  exact List.mem_append_right _ List.mem_cons_self

theorem plain_error (hseen : ∀ b ∈ seen, 128 ≤ b.toNat) (hle : seen.length ≤ w.cap) :
    plain w.cap w.last seen data = .error cause ↔ Unread w (seen ++ data) cause := by
  induction data generalizing seen with
  | nil =>
    rw [plain, List.append_nil]
    split_ifs with hcap
    · constructor
      · rintro ⟨⟩
        exact .tooWide hcap fun b hb => hseen b (List.mem_of_mem_take hb)
      · rintro (⟨hlt, -⟩ | - | ⟨rfl, -, -, hb, -⟩)
        · omega
        · rfl
        · exact absurd (hseen _ (List.mem_append_right _ List.mem_cons_self)) (Nat.not_le.mpr hb)
    · constructor
      · rintro ⟨⟩
        exact .truncated (Nat.not_le.mp hcap) hseen
      · rintro (- | ⟨hle, -⟩ | ⟨rfl, -, -, hb, -⟩)
        · rfl
        · omega
        · exact absurd (hseen _ (List.mem_append_right _ List.mem_cons_self)) (Nat.not_le.mpr hb)
  | cons b data ih =>
    have hin : b ∈ seen ++ b :: data := List.mem_append_right _ List.mem_cons_self
    rw [plain]
    split_ifs with hcap hb hlast
    · -- the window is full before this byte
      have htake : (seen ++ b :: data).take w.cap = seen := List.take_left' (by omega)
      constructor
      · rintro ⟨⟩
        exact .tooWide (by simp; omega) (by rwa [htake])
      · rintro (⟨hlt, -⟩ | - | ⟨he, hlen, hi, hc, -⟩)
        · simp only [List.length_append, List.length_cons] at hlt
          omega
        · rfl
        · rename_i init rest c
          have hmem : c ∈ (seen ++ b :: data).take w.cap := he ▸ mem_take_of_lt (by omega)
          rw [htake] at hmem
          exact absurd (hseen c hmem) (Nat.not_le.mpr hc)
    · constructor
      · rintro ⟨⟩
        exact .outOfClass rfl hlast.1 hseen hb hlast.2
      · rintro (⟨-, hall⟩ | ⟨-, hall⟩ | _)
        · exact absurd (hall b hin) (Nat.not_le.mpr hb)
        · exact absurd (hall b (mem_take_of_lt (by omega))) (Nat.not_le.mpr hb)
        · rfl
    · constructor
      · intro h
        cases h
      · rintro (⟨-, hall⟩ | ⟨-, hall⟩ | ⟨he, hlen, hi, hc, hout⟩)
        · exact absurd (hall b hin) (Nat.not_le.mpr hb)
        · exact absurd (hall b (mem_take_of_lt (by omega))) (Nat.not_le.mpr hb)
        · obtain ⟨rfl, rfl⟩ := split_terminal hseen hi hb hc he
          exact absurd ⟨hlen, hout⟩ hlast
    · rw [ih _ (by simp; omega), List.append_assoc, List.singleton_append]
      intro c hc
      rcases List.mem_append.mp hc with hc | hc
      · exact hseen c hc
      · rw [List.mem_singleton.mp hc]
        exact Nat.not_lt.mp hb

/-- The bytes from a position to its zone's end. -/
def span (bytes : List UInt8) (pos zone : Nat) : List UInt8 := (bytes.take zone).drop pos

variable {bytes : List UInt8} {pos zone : Nat}

theorem span_behind {u : List UInt8} (h : span bytes pos zone = u ++ rest) :
    span bytes (pos + u.length) zone = rest := drop_of_drop_eq h

theorem span_length (hz : zone ≤ bytes.length) : (span bytes pos zone).length = zone - pos := by
  rw [span, List.length_drop, List.length_take, Nat.min_eq_left hz]

variable (dom : Domain)

theorem read_span (hz : zone ≤ bytes.length) : dom.read bytes pos zone =
    plain dom.window.cap dom.window.last [] (span bytes pos zone) := by
  rw [dom.read_eq, tiers_plain dom.fits hz, span, List.drop_take]

theorem read_at (hz : zone ≤ bytes.length) (he : span bytes pos zone = word ++ rest)
    (hword : IsWord dom.window.cap dom.window.last word) :
    dom.read bytes pos zone = .ok (value word, word.length) := by
  have hfront : dom.read (span bytes pos zone) 0 (span bytes pos zone).length =
      .ok (value word, word.length) := by
    rw [dom.read_eq]
    exact (Slice.tiers_ok dom.fits).mpr ⟨word, rest, he, hword, rfl, rfl⟩
  rw [read_span dom hz]
  rw [dom.read_eq, tiers_plain dom.fits le_rfl] at hfront
  simpa using hfront

theorem read_unread (hz : zone ≤ bytes.length) (h : Unread dom.window (span bytes pos zone) cause) :
    dom.read bytes pos zone = .error cause := by
  rw [read_span dom hz]
  exact (plain_error (List.forall_mem_nil _) (Nat.zero_le _)).mpr h

/-- In front of any bytes a word stands, or a cause why none does. -/
theorem word_or_unread (data : List UInt8) :
    (∃ word rest, data = word ++ rest ∧ IsWord dom.window.cap dom.window.last word) ∨
      ∃ cause, Unread dom.window data cause := by
  have hread : Slice.tiers dom.window.cap dom.window.last data 0 data.length = _ :=
    tiers_plain dom.fits le_rfl
  simp only [Nat.sub_zero, List.drop_zero, List.take_length] at hread
  cases hplain : plain dom.window.cap dom.window.last [] data with
  | error cause =>
    exact .inr ⟨cause, (plain_error (List.forall_mem_nil _) (Nat.zero_le _)).mp hplain⟩
  | ok p =>
    obtain ⟨word, rest, he, hword, -⟩ := (Slice.tiers_ok dom.fits).mp (hread.trans hplain)
    exact .inl ⟨word, rest, he, hword⟩

/-- A standard admits a word, or refuses it for its width. -/
theorem admits_or_spare (standard : Standard)
    (hword : IsWord dom.window.cap dom.window.last word) :
    dom.window.Admits standard word ∨ Spare dom.window standard word := by
  by_cases h : standard = .canonicalMinimal ∧ word ≠ minimal (value word)
  · exact .inr ⟨hword, h.1, h.2⟩
  · refine .inl ⟨hword, ?_⟩
    cases standard with
    | tolerant => rfl
    | canonicalMinimal =>
      exact (minimal_iff dom hword).mpr (not_not.mp fun hne => h ⟨rfl, hne⟩)

theorem minimal_le (hword : IsWord dom.window.cap dom.window.last word) :
    dom.window.minimal (value word) ≤ word.length := by
  have hlt := Nat.lt_of_lt_of_le hword.value_lt dom.fits.2
  have hwidth : dom.window.minimal (value word) = width (value word) := by
    cases dom <;> exact encodedLen64_eq hlt
  rw [hwidth]
  exact width_le_length hword.length_pos

theorem not_wider {standard : Standard} (h : dom.window.Admits standard word) :
    ¬ (standard = .canonicalMinimal ∧ dom.window.minimal (value word) < word.length) := by
  rintro ⟨rfl, hlt⟩
  have he := h.width
  rw [Window.padded, minimal_iff dom h.isWord] at he
  have hle := (minimal_iff dom h.isWord).mpr he
  simp only [widthPadded, decide_true, Bool.true_and, bne_eq_false_iff_eq] at hle
  omega

theorem wider {standard : Standard} (h : Spare dom.window standard word) :
    standard = .canonicalMinimal ∧ dom.window.minimal (value word) < word.length := by
  refine ⟨h.canonical, Nat.lt_of_le_of_ne (minimal_le dom h.isWord) fun he => ?_⟩
  refine h.padded ((minimal_iff dom h.isWord).mp ?_)
  simp [widthPadded, he]

end Words

/-! ## Records -/

/-- What is met where a record stands: its tag's width, its prefix's where it has one, and its
content's length. -/
def Met.of (start : Nat) (rec : Record) : Met :=
  ⟨start, rec.field, rec.payload.kind, rec.tag.length,
    match rec.payload with
    | .len word _ => some word.length
    | _ => none,
    match rec.payload with
    | .len _ payload => payload.length
    | p => p.bytes.length⟩

@[simp]
theorem Met.of_field (start : Nat) (rec : Record) : (Met.of start rec).field = rec.field := rfl

@[simp]
theorem Met.of_kind (start : Nat) (rec : Record) : (Met.of start rec).kind = rec.payload.kind := rfl

@[simp]
theorem Met.of_start (start : Nat) (rec : Record) : (Met.of start rec).start = start := rfl

/-- A record met stands inside its zone. -/
structure Within (head zone : Nat) (r : Met) : Prop where
  start : r.start = head
  payload : head < r.payloadStart
  stop : r.stop ≤ zone
  delim : r.kind ≠ .len → r.delimWidth = none

section Records

variable {standard : Standard} {data tag word rest : List UInt8} {field : FieldNumber}
  {code : Low3} {kind : RecordKind}

theorem code_of_groupCode (h : classify code = .groupCode) : code = 3 ∨ code = 4 := by
  revert h
  revert code
  decide

theorem code_of_unassigned (h : classify code = .unassigned) : code = 6 ∨ code = 7 := by
  revert h
  revert code
  decide

/-- A payload of the kind stands in front, or the fault behind its tag. -/
theorem payload_or_struck (rest : List UInt8) (htag : IsTag standard field kind.low3 tag) :
    (∃ (p : Payload) (behind : List UInt8), rest = p.bytes ++ behind ∧ p.Lawful standard ∧
      p.kind = kind) ∨
      ∃ off fault, Struck standard (tag ++ rest) off fault := by
  have hfixed : ∀ need, kind = .i64 ∧ need = 8 ∨ kind = .i32 ∧ need = 4 →
      (∃ bits behind : List UInt8, rest = bits ++ behind ∧ bits.length = need) ∨
        ∃ off fault, Struck standard (tag ++ rest) off fault := by
    intro need hneed
    by_cases hshort : rest.length < need
    · exact .inr ⟨_, _, .fixedTruncated rfl htag hneed hshort⟩
    · exact .inl ⟨rest.take need, rest.drop need, (List.take_append_drop _ _).symm,
        List.length_take_of_le (Nat.not_lt.mp hshort)⟩
  cases kind with
  | varint =>
    rcases word_or_unread .value rest with ⟨word, behind, rfl, hword⟩ | ⟨cause, h⟩
    · rcases admits_or_spare .value standard hword with h | h
      · exact .inl ⟨.varint word, behind, rfl, h, rfl⟩
      · exact .inr ⟨_, _, .valuePadded rfl htag h⟩
    · exact .inr ⟨_, _, .valueUnread rfl htag h⟩
  | i64 =>
    refine (hfixed 8 (.inl ⟨rfl, rfl⟩)).imp_left ?_
    rintro ⟨bits, behind, rfl, hlen⟩
    exact ⟨.i64 bits, behind, rfl, hlen, rfl⟩
  | i32 =>
    refine (hfixed 4 (.inr ⟨rfl, rfl⟩)).imp_left ?_
    rintro ⟨bits, behind, rfl, hlen⟩
    exact ⟨.i32 bits, behind, rfl, hlen, rfl⟩
  | len =>
    rcases word_or_unread .len rest with ⟨word, behind, rfl, hword⟩ | ⟨cause, h⟩
    · rcases admits_or_spare .len standard hword with h | h
      · by_cases hover : behind.length < value word
        · exact .inr ⟨_, _, .lenOverrun rfl htag h hover⟩
        · have hlen := List.length_take_of_le (Nat.not_lt.mp hover)
          refine .inl ⟨.len word (behind.take (value word)), behind.drop (value word), ?_,
            ⟨h, hlen.symm⟩, rfl⟩
          rw [Payload.bytes, List.append_assoc, List.take_append_drop]
      · exact .inr ⟨_, _, .lenPadded rfl htag h⟩
    · exact .inr ⟨_, _, .lenUnread rfl htag h⟩

/-- Some bytes begin with a lawful record, or with a fault. -/
theorem record_or_struck (standard : Standard) (data : List UInt8) :
    (∃ (rec : Record) (rest : List UInt8), data = rec.bytes ++ rest ∧ rec.Lawful standard) ∨
      ∃ off fault, Struck standard data off fault := by
  rcases word_or_unread .tag data with ⟨tag, rest, rfl, hword⟩ | ⟨cause, h⟩
  swap
  · exact .inr ⟨_, _, .tagUnread h⟩
  rcases admits_or_spare .tag standard hword with hadmits | h
  swap
  · exact .inr ⟨_, _, .tagPadded rfl h⟩
  cases hf : FieldNumber.fromWord (value tag) with
  | none => exact .inr ⟨_, _, .fieldZero rfl hadmits hf⟩
  | some field =>
    have htag : IsTag standard field (Low3.fromWord (value tag)) tag :=
      ⟨hadmits, (tagWord_of_fromWord hf).symm⟩
    generalize Low3.fromWord (value tag) = code at htag
    cases hc : classify code with
    | groupCode => exact .inr ⟨_, _, .groupCode rfl htag (code_of_groupCode hc)⟩
    | unassigned => exact .inr ⟨_, _, .unassigned rfl htag (code_of_unassigned hc)⟩
    | record kind =>
      obtain rfl := low3_of_classify hc
      refine (payload_or_struck rest htag).imp_left ?_
      rintro ⟨p, behind, rfl, hlaw, rfl⟩
      exact ⟨⟨field, tag, p⟩, behind, by rw [Record.bytes, List.append_assoc], htag, hlaw⟩

/-! ## The judgment -/

variable {bytes : List UInt8} {start zone : Nat}

/-- What `record` judges behind a tag of a kind. -/
def judgeKind (standard : Standard) (bytes : List UInt8) (zone start : Nat) (field : FieldNumber)
    (tagWidth : Nat) : RecordKind → Except Failure Met
  | .varint => varintRecord standard bytes zone start field tagWidth
  | .i64 => fixedRecord zone start field .i64 tagWidth
  | .i32 => fixedRecord zone start field .i32 tagWidth
  | .len => lenRecord standard bytes zone start field tagWidth

theorem judge_tag (hz : zone ≤ bytes.length) (he : span bytes start zone = tag ++ rest)
    (htag : IsTag standard field code tag) :
    (∀ kind, code = kind.low3 →
      judge standard bytes zone start = judgeKind standard bytes zone start field tag.length kind) ∧
    (code = 3 ∨ code = 4 →
      judge standard bytes zone start = .error ⟨⟨start, .groupCode field code⟩, start⟩) ∧
    (code = 6 ∨ code = 7 →
      judge standard bytes zone start = .error ⟨⟨start, .unassigned field code⟩, start⟩) := by
  have hread : Slice.tagWord bytes start zone = .ok (value tag, tag.length) :=
    read_at .tag hz he htag.admits.isWord
  have hnot : ¬ (standard = .canonicalMinimal ∧ encodedLen32 (value tag) < tag.length) :=
    not_wider .tag htag.admits
  rw [htag.spells] at hread hnot
  simp only [judge, hread, if_neg hnot, fromWord_tagWord, low3_tagWord]
  refine ⟨fun kind hcode => ?_, fun hcode => ?_, fun hcode => ?_⟩
  · subst hcode
    cases kind <;> rfl
  · rcases hcode with rfl | rfl <;> rfl
  · rcases hcode with rfl | rfl <;> rfl

theorem judge_kind (hz : zone ≤ bytes.length) (he : span bytes start zone = tag ++ rest)
    (htag : IsTag standard field kind.low3 tag) :
    judge standard bytes zone start = judgeKind standard bytes zone start field tag.length kind :=
  (judge_tag hz he htag).1 kind rfl

theorem judge_tagUnread {cause : Slice.ReadFault} (hz : zone ≤ bytes.length)
    (h : Unread .tag (span bytes start zone) cause) :
    judge standard bytes zone start = .error ⟨⟨start, .read .tag cause⟩, start⟩ := by
  have hread : Slice.tagWord bytes start zone = .error cause := read_unread .tag hz h
  simp only [judge, hread, refuse]

theorem judge_tagPadded (hz : zone ≤ bytes.length) (he : span bytes start zone = tag ++ rest)
    (h : Spare .tag standard tag) :
    judge standard bytes zone start = .error ⟨⟨start, .nonMinimalTag⟩, start⟩ := by
  have hread : Slice.tagWord bytes start zone = .ok (value tag, tag.length) :=
    read_at .tag hz he h.isWord
  have hwider : standard = .canonicalMinimal ∧ encodedLen32 (value tag) < tag.length :=
    wider .tag h
  simp only [judge, hread, if_pos hwider, refuse]

theorem judge_fieldZero (hz : zone ≤ bytes.length) (he : span bytes start zone = tag ++ rest)
    (h : Window.tag.Admits standard tag) (hf : FieldNumber.fromWord (value tag) = none) :
    judge standard bytes zone start =
      .error ⟨⟨start, .fieldZero (Low3.fromWord (value tag))⟩, start⟩ := by
  have hread : Slice.tagWord bytes start zone = .ok (value tag, tag.length) :=
    read_at .tag hz he h.isWord
  have hnot : ¬ (standard = .canonicalMinimal ∧ encodedLen32 (value tag) < tag.length) :=
    not_wider .tag h
  simp only [judge, hread, if_neg hnot, hf, refuse]

theorem valueWidth_at {pos cut : Nat} (hz : zone ≤ bytes.length)
    (he : span bytes pos zone = word ++ rest) (h : Window.value.Admits standard word) :
    valueWidth standard bytes zone pos cut field = .ok word.length := by
  have hread : Slice.value64 bytes pos zone = .ok (value word, word.length) :=
    read_at .value hz he h.isWord
  have hnot : ¬ (standard = .canonicalMinimal ∧ encodedLen64 (value word) < word.length) :=
    not_wider .value h
  cases standard with
  | tolerant => simp only [valueWidth, width64Trusted_eq hz, hread, Except.map]
  | canonicalMinimal => simp only [valueWidth, hread, if_neg fun hlt => hnot ⟨rfl, hlt⟩]

theorem valueWidth_unread {pos cut : Nat} {cause : Slice.ReadFault} (hz : zone ≤ bytes.length)
    (h : Unread .value (span bytes pos zone) cause) :
    valueWidth standard bytes zone pos cut field =
      .error ⟨⟨pos, .read (.value field) cause⟩, cut⟩ := by
  have hread : Slice.value64 bytes pos zone = .error cause := read_unread .value hz h
  cases standard with
  | tolerant => simp only [valueWidth, width64Trusted_eq hz, hread, Except.map, refuse]
  | canonicalMinimal => simp only [valueWidth, hread, refuse]

theorem valueWidth_padded {pos cut : Nat} (hz : zone ≤ bytes.length)
    (he : span bytes pos zone = word ++ rest) (h : Spare .value standard word) :
    valueWidth standard bytes zone pos cut field =
      .error ⟨⟨pos, .nonMinimalValue field⟩, cut⟩ := by
  have hread : Slice.value64 bytes pos zone = .ok (value word, word.length) :=
    read_at .value hz he h.isWord
  have hwider : standard = .canonicalMinimal ∧ encodedLen64 (value word) < word.length :=
    wider .value h
  obtain rfl := hwider.1
  simp only [valueWidth, hread, if_pos hwider.2, refuse]

/-- `judge` meets the lawful record in front. -/
theorem judge_record {rec : Record} (hz : zone ≤ bytes.length)
    (he : span bytes start zone = rec.bytes ++ rest) (h : rec.Lawful standard) :
    judge standard bytes zone start = .ok (.of start rec) := by
  obtain ⟨field, tag, p⟩ := rec
  obtain ⟨htag, hlaw⟩ := h
  rw [Record.bytes, List.append_assoc] at he
  dsimp only at he htag hlaw
  have hbehind := span_behind he
  have hlen : (span bytes start zone).length = zone - start := span_length hz
  rw [he, List.length_append, List.length_append] at hlen
  have hpos := htag.admits.isWord.length_pos
  rw [judge_kind hz he htag]
  cases p with
  | varint word =>
    simp only [Payload.kind, judgeKind, varintRecord, valueWidth_at hz hbehind hlaw]
    rfl
  | i64 bits =>
    have hbits : bits.length = 8 := hlaw
    simp only [Payload.bytes, hbits] at hlen
    simp only [Payload.kind, judgeKind, fixedRecord, if_true]
    rw [if_neg (by omega), ← hbits]
    rfl
  | i32 bits =>
    have hbits : bits.length = 4 := hlaw
    simp only [Payload.bytes, hbits] at hlen
    simp only [Payload.kind, judgeKind, fixedRecord, reduceCtorEq, if_false]
    rw [if_neg (by omega), ← hbits]
    rfl
  | len word payload =>
    rw [Payload.bytes, List.append_assoc] at hbehind
    have hread : Slice.lenWord bytes (start + tag.length) zone = .ok (value word, word.length) :=
      read_at .len hz hbehind hlaw.1.isWord
    have hnot : ¬ (standard = .canonicalMinimal ∧ encodedLen32 (value word) < word.length) :=
      not_wider .len hlaw.1
    rw [Payload.bytes, List.length_append, ← hlaw.2] at hlen
    simp only [Payload.kind, judgeKind, lenRecord, hread, if_neg hnot]
    rw [if_neg (by omega), hlaw.2]
    rfl

/-- `judge` names the fault in front, and cuts at the head. -/
theorem judge_struck {off : Nat} {fault : FaultKind} (hz : zone ≤ bytes.length)
    (h : Struck standard (span bytes start zone) off fault) :
    judge standard bytes zone start = .error ⟨⟨start + off, fault⟩, start⟩ := by
  have hlen : (span bytes start zone).length = zone - start := span_length hz
  cases h with
  | tagUnread h => exact judge_tagUnread hz h
  | tagPadded he h => exact judge_tagPadded hz he h
  | fieldZero he h hf => exact judge_fieldZero hz he h hf
  | groupCode he htag hcode => exact (judge_tag hz he htag).2.1 hcode
  | unassigned he htag hcode => exact (judge_tag hz he htag).2.2 hcode
  | valueUnread he htag h =>
    rw [judge_kind hz he htag]
    rw [← span_behind he] at h
    simp only [judgeKind, varintRecord, valueWidth_unread hz h]
  | valuePadded he htag h =>
    rw [judge_kind hz he htag]
    simp only [judgeKind, varintRecord, valueWidth_padded hz (span_behind he) h]
  | fixedTruncated he htag hneed hshort =>
    have hpos := htag.admits.isWord.length_pos
    rw [he, List.length_append] at hlen
    rw [judge_kind hz he htag]
    rcases hneed with ⟨rfl, rfl⟩ | ⟨rfl, rfl⟩
    · simp only [judgeKind, fixedRecord, if_true]
      rw [if_pos (by omega)]
      rfl
    · simp only [judgeKind, fixedRecord, reduceCtorEq, if_false]
      rw [if_pos (by omega)]
      rfl
  | @lenUnread tag rest field cause he htag h =>
    rw [← span_behind he] at h
    have hread : Slice.lenWord bytes (start + tag.length) zone = .error cause :=
      read_unread .len hz h
    rw [judge_kind hz he htag]
    simp only [judgeKind, lenRecord, hread, refuse]
  | @lenPadded tag word rest field he htag h =>
    have hread : Slice.lenWord bytes (start + tag.length) zone = .ok (value word, word.length) :=
      read_at .len hz (span_behind he) h.isWord
    have hwider : standard = .canonicalMinimal ∧ encodedLen32 (value word) < word.length :=
      wider .len h
    rw [judge_kind hz he htag]
    simp only [judgeKind, lenRecord, hread, if_pos hwider, refuse]
  | @lenOverrun tag word rest field he htag h hover =>
    have hread : Slice.lenWord bytes (start + tag.length) zone = .ok (value word, word.length) :=
      read_at .len hz (span_behind he) h.isWord
    have hnot : ¬ (standard = .canonicalMinimal ∧ encodedLen32 (value word) < word.length) :=
      not_wider .len h
    have hpos := htag.admits.isWord.length_pos
    rw [he, List.length_append, List.length_append] at hlen
    have hleft : zone - (start + tag.length + word.length) = rest.length := by omega
    rw [judge_kind hz he htag]
    simp only [judgeKind, lenRecord, hread, if_neg hnot]
    rw [if_pos (by omega), hleft]
    rfl

/-- A record is met exactly where the bytes begin with it. -/
theorem judge_ok_iff {r : Met} (hz : zone ≤ bytes.length) :
    judge standard bytes zone start = .ok r ↔
      ∃ rec rest, first standard (span bytes start zone) = some (rec, rest) ∧ r = .of start rec := by
  constructor
  · intro h
    rcases record_or_struck standard (span bytes start zone) with ⟨rec, rest, he, hlaw⟩ |
      ⟨off, fault, hs⟩
    · rw [judge_record hz he hlaw] at h
      exact ⟨rec, rest, first_iff.mpr ⟨he, hlaw⟩, (Except.ok.inj h).symm⟩
    · rw [judge_struck hz hs] at h
      cases h
  · rintro ⟨rec, rest, hfirst, rfl⟩
    obtain ⟨he, hlaw⟩ := first_iff.mp hfirst
    exact judge_record hz he hlaw

/-- A refusal cuts at the head and names the fault the bytes begin with. -/
theorem judge_error_iff {failure : Failure} (hz : zone ≤ bytes.length) :
    judge standard bytes zone start = .error failure ↔
      ∃ off fault, Struck standard (span bytes start zone) off fault ∧
        failure = ⟨⟨start + off, fault⟩, start⟩ := by
  constructor
  · intro h
    rcases record_or_struck standard (span bytes start zone) with ⟨rec, rest, he, hlaw⟩ |
      ⟨off, fault, hs⟩
    · rw [judge_record hz he hlaw] at h
      cases h
    · rw [judge_struck hz hs] at h
      exact ⟨off, fault, hs, (Except.error.inj h).symm⟩
  · rintro ⟨off, fault, hs, rfl⟩
    exact judge_struck hz hs

@[simp]
theorem Met.of_stop (start : Nat) (rec : Record) :
    (Met.of start rec).stop = start + rec.bytes.length := by
  obtain ⟨field, tag, p⟩ := rec
  rw [Met.stop, Met.payloadStart, Record.bytes, List.length_append]
  cases p <;> simp [Met.of, Payload.bytes, Nat.add_assoc]

theorem judge_within {r : Met} (hz : zone ≤ bytes.length)
    (h : judge standard bytes zone start = .ok r) : Within start zone r := by
  obtain ⟨rec, rest, hfirst, rfl⟩ := (judge_ok_iff hz).mp h
  obtain ⟨he, hlaw⟩ := first_iff.mp hfirst
  have hlen : (span bytes start zone).length = zone - start := span_length hz
  have hpos := hlaw.length_pos
  have htag := hlaw.isTag.admits.isWord.length_pos
  rw [he, List.length_append] at hlen
  refine ⟨rfl, ?_, by rw [Met.of_stop]; omega, ?_⟩
  · show start < start + rec.tag.length + _
    omega
  · obtain ⟨field, tag, p⟩ := rec
    cases p <;> intro hk
    case len => exact absurd rfl hk
    all_goals rfl

end Records

end ProtobufEdit.Inspect.Groupless
