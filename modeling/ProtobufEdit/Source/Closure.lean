import ProtobufEdit.Inplace.Grouped.Document
import ProtobufEdit.Source.Grouped
import ProtobufEdit.Varint.Agreement

/-!
# The words of a closure

A closed document's framing words and varint values in byte order, and the walks that judge them
one after the other: both the designation's own judgment and the canonical cursor refuse at the
first padded word, and at no other place.
-/

namespace ProtobufEdit.Inplace.Grouped.Doc

open Wire Wire.Grouped Varint Base128 Cursor Loop

variable {standard : Standard} {room room' pos : Nat} {a b d : Doc} {x y bytes rest : List UInt8}

/-! ## Reading from the front -/

section Front

variable {field field' : FieldNumber} {code code' : Low3} {tag tag' : List UInt8} {r r' : Record}

theorem tag_inj (h : tag ++ x = tag' ++ y) (ht : IsTag standard field code tag)
    (ht' : IsTag standard field' code' tag') :
    tag = tag' ∧ field = field' ∧ code = code' ∧ x = y := by
  have hread : readHead standard (tag ++ x) 0 = .ok (field, code, tag.length) :=
    readHead_ok.mpr ⟨tag, x, rfl, ht, rfl⟩
  have hread' : readHead standard (tag ++ x) 0 = .ok (field', code', tag'.length) :=
    readHead_ok.mpr ⟨tag', y, h, ht', rfl⟩
  rw [hread] at hread'
  simp only [Except.ok.injEq, Prod.mk.injEq] at hread'
  obtain ⟨rfl, rfl, hlen⟩ := hread'
  obtain ⟨rfl, rfl⟩ := List.append_inj h hlen
  exact ⟨rfl, rfl, rfl, rfl⟩

theorem record_inj (h : r.bytes ++ x = r'.bytes ++ y) (hr : r.Lawful standard)
    (hr' : r'.Lawful standard) : r = r' ∧ x = y := by
  have hfirst : first standard (r.bytes ++ x) = some (r, x) := first_iff.mpr ⟨rfl, hr⟩
  have hfirst' : first standard (r.bytes ++ x) = some (r', y) := first_iff.mpr ⟨h, hr'⟩
  rw [hfirst] at hfirst'
  cases hfirst'
  exact ⟨rfl, rfl⟩

/-- A record's tag is no framing tag. -/
theorem record_ne_tag (h : r.bytes ++ x = tag ++ y) (hr : r.Lawful standard)
    (ht : IsTag standard field code tag) (hcode : code = 3 ∨ code = 4) : False := by
  rw [Record.bytes, List.append_assoc] at h
  obtain ⟨-, -, hk, -⟩ := tag_inj h hr.isTag ht
  subst hk
  revert hcode
  cases r.payload.kind <;> decide

end Front

theorem append_nil (d : Doc) : d.append .nil = d := by
  induction d with
  | nil => rfl
  | record r rest ih => rw [append, ih]
  | crossed field tag word interior rest _ ih => rw [append, ih]
  | group field opener inner closer rest _ ih => rw [append, ih]

/-- No closed document begins with an end tag. -/
theorem closer_nil {field : FieldNumber} {tag : List UInt8} (h : tag ++ x = d.bytes ++ y)
    (ht : IsTag standard field 4 tag) (hc : d.Closed) (hd : d.Lawful standard room) :
    d = .nil := by
  cases d with
  | nil => rfl
  | record r rest =>
    rw [bytes, List.append_assoc] at h
    exact (record_ne_tag h.symm hd.1 ht (.inr rfl)).elim
  | crossed => exact hc.elim
  | group f opener inner closer rest =>
    simp only [bytes, List.append_assoc] at h
    obtain ⟨-, -, hk, -⟩ := tag_inj h ht hd.2.1
    exact absurd hk (by decide)

/-- Of two closed documents at one place, one is the other's beginning. -/
theorem common (ha : a.Closed) (hb : b.Closed) (hal : a.Lawful standard room)
    (hbl : b.Lawful standard room') (h : a.bytes ++ x = b.bytes ++ y) :
    (∃ c : Doc, c.Closed ∧ c.Lawful standard room' ∧ b = a.append c ∧ x = c.bytes ++ y) ∨
      ∃ c : Doc, c.Closed ∧ c.Lawful standard room ∧ a = b.append c ∧ y = c.bytes ++ x := by
  induction a generalizing b x y room room' with
  | nil => exact .inl ⟨b, hb, hbl, rfl, h⟩
  | crossed => exact ha.elim
  | record r rest ih =>
    cases b with
    | nil => exact .inr ⟨_, ha, hal, rfl, h.symm⟩
    | crossed => exact hb.elim
    | record r' rest' =>
      rw [bytes, bytes, List.append_assoc, List.append_assoc] at h
      obtain ⟨rfl, htail⟩ := record_inj h hal.1 hbl.1
      have hb' : rest'.Closed := hb
      rcases ih ha hb' hal.2 hbl.2 htail with ⟨c, hc, hcl, rfl, hx⟩ | ⟨c, hc, hcl, rfl, hy⟩
      · exact .inl ⟨c, hc, hcl, rfl, hx⟩
      · exact .inr ⟨c, hc, hcl, rfl, hy⟩
    | group f opener inner closer rest' =>
      simp only [bytes, List.append_assoc] at h
      exact (record_ne_tag h hal.1 hbl.2.1 (.inl rfl)).elim
  | group f opener inner closer rest ihi ih =>
    cases b with
    | nil => exact .inr ⟨_, ha, hal, rfl, h.symm⟩
    | crossed => exact hb.elim
    | record r' rest' =>
      simp only [bytes, List.append_assoc] at h
      exact (record_ne_tag h.symm hbl.1 hal.2.1 (.inl rfl)).elim
    | group f' opener' inner' closer' rest' =>
      simp only [bytes, List.append_assoc] at h
      obtain ⟨-, hopen, hclose, hin, hrest⟩ := hal
      obtain ⟨-, hopen', hclose', hin', hrest'⟩ := hbl
      obtain ⟨rfl, rfl, -, hinner⟩ := tag_inj h hopen hopen'
      -- the interiors agree: behind the shorter one stands an end tag
      have hsame : inner = inner' := by
        rcases ihi ha.1 hb.1 hin hin' hinner with ⟨c, hc, hcl, rfl, hx⟩ | ⟨c, hc, hcl, rfl, hy⟩
        · rw [closer_nil hx hclose hc hcl, append_nil]
        · rw [closer_nil hy hclose' hc hcl, append_nil]
      subst hsame
      obtain ⟨rfl, -, -, htail⟩ := tag_inj (List.append_cancel_left hinner) hclose hclose'
      rcases ih ha.2 hb.2 hrest hrest' htail with ⟨c, hc, hcl, rfl, hx⟩ | ⟨c, hc, hcl, rfl, hy⟩
      · exact .inl ⟨c, hc, hcl, rfl, hx⟩
      · exact .inr ⟨c, hc, hcl, rfl, hy⟩

/-! ## Nesting -/

/-- How deep the groups nest. -/
def nesting : Doc → Nat
  | nil => 0
  | record _ rest => rest.nesting
  | crossed _ _ _ _ rest => rest.nesting
  | group _ _ inner _ rest => max (inner.nesting + 1) rest.nesting

theorem nesting_le (hc : d.Closed) (h : d.Lawful standard room) : d.nesting ≤ room := by
  induction d generalizing room with
  | nil => exact Nat.zero_le _
  | record r rest ih => exact ih hc h.2
  | crossed => exact hc.elim
  | group f opener inner closer rest ihi ih =>
    have hi := ihi hc.1 h.2.2.2.1
    have hr := ih hc.2 h.2.2.2.2
    have hroom := h.1
    show max _ _ ≤ _
    omega

/-- A closed document is lawful wherever its groups fit. -/
theorem Lawful.refit (hc : d.Closed) (h : d.Lawful standard room) (hfit : d.nesting ≤ room') :
    d.Lawful standard room' := by
  induction d generalizing room room' with
  | nil => trivial
  | record r rest ih => exact ⟨h.1, ih hc h.2 hfit⟩
  | crossed => exact hc.elim
  | group f opener inner closer rest ihi ih =>
    have hmax : max (inner.nesting + 1) rest.nesting ≤ room' := hfit
    exact ⟨by omega, h.2.1, h.2.2.1, ihi hc.1 h.2.2.2.1 (by omega),
      ih hc.2 h.2.2.2.2 (by omega)⟩

end ProtobufEdit.Inplace.Grouped.Doc

namespace ProtobufEdit.Source.Grouped

open Wire Wire.Grouped Varint Base128 Cursor Loop
open Inplace.Grouped (Doc)

/-! ## Words -/

/-- A framing word or a varint value: where it stands, what it serves, how it is spelled. -/
structure Word where
  pos : Nat
  stage : Stage
  bytes : List UInt8
  deriving DecidableEq, Repr

/-- The word is not the minimal spelling of its value. -/
def Word.padded (w : Word) : Bool := w.bytes ≠ minimal (value w.bytes)

/-- A record's words, in byte order: a payload has none. -/
def recordWords (r : Record) (pos : Nat) : List Word :=
  ⟨pos, .tag, r.tag⟩ ::
    match r.payload with
    | .varint word => [⟨pos + r.tag.length, .value r.field, word⟩]
    | .len word _ => [⟨pos + r.tag.length, .lenPrefix r.field, word⟩]
    | .i64 _ | .i32 _ => []

/-- A document's words, in byte order: every group is entered, and no LEN. -/
def words : Doc → Nat → List Word
  | .nil, _ => []
  | .record r rest, pos => recordWords r pos ++ words rest (pos + r.bytes.length)
  | .crossed field tag word interior rest, pos =>
    recordWords ⟨field, tag, .len word interior.bytes⟩ pos ++
      words rest (pos + (Record.bytes ⟨field, tag, .len word interior.bytes⟩).length)
  | .group _ opener inner closer rest, pos =>
    ⟨pos, .tag, opener⟩ ::
      (words inner (pos + opener.length) ++
        ⟨pos + opener.length + inner.bytes.length, .tag, closer⟩ ::
          words rest (pos + (opener ++ inner.bytes ++ closer).length))

/-- The first word that is not minimal. -/
def firstPadded (d : Doc) (pos : Nat) : Option Word := (words d pos).find? Word.padded

theorem recordWords_ascend {r : Record} {pos : Nat} (h : r.Lawful .tolerant) :
    (recordWords r pos).Pairwise (fun w w' => w.pos < w'.pos) ∧
      ∀ w ∈ recordWords r pos, pos ≤ w.pos ∧ w.pos < pos + r.bytes.length := by
  obtain ⟨field, tag, payload⟩ := r
  have htag : 0 < tag.length := h.isTag.admits.isWord.length_pos
  have hlen : (Record.bytes ⟨field, tag, payload⟩).length = tag.length + payload.bytes.length :=
    List.length_append
  cases payload with
  | i64 bits | i32 bits =>
    simp only [recordWords, List.pairwise_singleton, List.mem_singleton, true_and]
    rintro w rfl
    simp only at hlen htag ⊢
    omega
  | varint word =>
    have hword : 0 < word.length := IsWord.length_pos (h.payload : Window.Admits _ _ word).isWord
    simp only [recordWords, Payload.bytes, List.pairwise_cons, List.mem_cons, List.not_mem_nil,
      or_false] at hlen ⊢
    refine ⟨⟨by rintro w rfl; simp only; omega, by simp⟩, ?_⟩
    rintro w (rfl | rfl) <;> simp only <;> omega
  | len word payload =>
    have hword : 0 < word.length := IsWord.length_pos (h.payload : _ ∧ _).1.isWord
    simp only [recordWords, Payload.bytes, List.length_append, List.pairwise_cons, List.mem_cons,
      List.not_mem_nil, or_false] at hlen ⊢
    refine ⟨⟨by rintro w rfl; simp only; omega, by simp⟩, ?_⟩
    rintro w (rfl | rfl) <;> simp only <;> omega

/-- The words of a document stand one behind the other, inside it. -/
theorem words_ascend {d : Doc} {room pos : Nat} (hc : d.Closed) (hl : d.Lawful .tolerant room) :
    (words d pos).Pairwise (fun w w' => w.pos < w'.pos) ∧
      ∀ w ∈ words d pos, pos ≤ w.pos ∧ w.pos < pos + d.bytes.length := by
  induction d generalizing room pos with
  | nil => exact ⟨.nil, by simp [words]⟩
  | crossed => exact hc.elim
  | record r d ih =>
    obtain ⟨hr, hrin⟩ := @recordWords_ascend r pos hl.1
    obtain ⟨hd, hdin⟩ := @ih room (pos + r.bytes.length) hc hl.2
    rw [words, Doc.bytes, List.length_append]
    refine ⟨List.pairwise_append.mpr ⟨hr, hd, fun w hw w' hw' => ?_⟩, fun w hw => ?_⟩
    · have := hrin w hw
      have := hdin w' hw'
      omega
    · rcases List.mem_append.mp hw with hw | hw
      · have := hrin w hw
        omega
      · have := hdin w hw
        omega
  | group f opener inner closer d ihi ih =>
    obtain ⟨-, hopen, hclose, hin, hrest⟩ := hl
    have hwo := hopen.admits.isWord.length_pos
    have hwc := hclose.admits.isWord.length_pos
    obtain ⟨hi, hiin⟩ := @ihi (room - 1) (pos + opener.length) hc.1 hin
    obtain ⟨hd, hdin⟩ := @ih room (pos + (opener ++ inner.bytes ++ closer).length) hc.2 hrest
    simp only [List.length_append] at hdin
    simp only [words, Doc.bytes, List.length_append, List.pairwise_cons, List.pairwise_append,
      List.mem_cons, List.mem_append]
    refine ⟨⟨?_, hi, ⟨?_, by simpa only [List.length_append] using hd⟩, ?_⟩, ?_⟩
    · rintro w (hw | rfl | hw)
      · have := hiin w hw
        omega
      · simp only
        omega
      · have := hdin w hw
        omega
    · intro w hw
      have := hdin w hw
      omega
    · rintro w hw w' (rfl | hw')
      · have := hiin w hw
        simp only
        omega
      · have := hiin w hw
        have := hdin w' hw'
        omega
    · rintro w (rfl | hw | rfl | hw)
      · simp only
        omega
      · have := hiin w hw
        omega
      · simp only
        omega
      · have := hdin w hw
        omega

/-- The word found is padded, and every word before it is minimal. -/
theorem firstPadded_spec {d : Doc} {room pos : Nat} {w : Word} (hc : d.Closed)
    (hl : d.Lawful .tolerant room) (h : firstPadded d pos = some w) :
    w ∈ words d pos ∧ w.padded = true ∧
      ∀ w' ∈ words d pos, w'.pos < w.pos → w'.padded = false := by
  obtain ⟨hpad, before, behind, hsplit, hmin⟩ := List.find?_eq_some_iff_append.mp h
  refine ⟨List.mem_of_find?_eq_some h, hpad, fun w' hw' hlt => ?_⟩
  have hasc := (@words_ascend d room pos hc hl).1
  rw [hsplit] at hw' hasc
  obtain ⟨-, hright, hcross⟩ := List.pairwise_append.mp hasc
  rcases List.mem_append.mp hw' with hw' | hw'
  · simpa using hmin w' hw'
  · rcases List.mem_cons.mp hw' with rfl | hw'
    · exact absurd hlt (Nat.lt_irrefl _)
    · have := List.rel_of_pairwise_cons hright hw'
      omega

/-! ## Walks that judge them -/

section Judges

variable {σ ρ : Type} {turn : σ → Turn σ ρ} {Stand : σ → Nat → List FieldNumber → Prop}
  {refuse : Word → ρ} {bound : Nat} {bytes rest : List UInt8}

/-- A stretch of a walk: it stands further on, or halts at a padded word. -/
inductive Judged (turn : σ → Turn σ ρ) (Stand : σ → Nat → List FieldNumber → Prop)
    (refuse : Word → ρ) (pos : Nat) (os : List FieldNumber) : Nat → σ → Option Word → Prop where
  | passes {len n : Nat} {s s' : σ} : Takes turn n s s' → n ≤ len → Stand s' pos os →
      Judged turn Stand refuse pos os len s none
  | refuses {len n : Nat} {s s' : σ} {w : Word} : Takes turn n s s' → n ≤ len →
      turn s' = .halt (refuse w) → Judged turn Stand refuse pos os len s (some w)

theorem Judged.andThen {pos pos' len len' : Nat} {os os' : List FieldNumber} {s : σ}
    {o o' : Option Word} (h : Judged turn Stand refuse pos os len s o)
    (h' : ∀ s', Stand s' pos os → Judged turn Stand refuse pos' os' len' s' o') :
    Judged turn Stand refuse pos' os' (len + len') s (o.or o') := by
  cases h with
  | refuses ht hn hhalt => exact .refuses ht (by omega) hhalt
  | passes ht hn hs =>
    cases h' _ hs with
    | passes ht' hn' hs' => exact .passes (ht.trans ht') (by omega) hs'
    | refuses ht' hn' hhalt => exact .refuses (ht.trans ht') (by omega) hhalt

theorem Judged.mono {pos len len' : Nat} {os : List FieldNumber} {s : σ} {o : Option Word}
    (h : Judged turn Stand refuse pos os len s o) (hle : len ≤ len') :
    Judged turn Stand refuse pos os len' s o := by
  cases h with
  | refuses ht hn hhalt => exact .refuses ht (by omega) hhalt
  | passes ht hn hs => exact .passes ht (by omega) hs

/-- A loop that stands at positions of some bytes with groups open, never more than `bound`, and
judges the words it passes in order. -/
structure Judges (turn : σ → Turn σ ρ) (Stand : σ → Nat → List FieldNumber → Prop)
    (refuse : Word → ρ) (bound : Nat) (bytes : List UInt8) : Prop where
  record : ∀ {s : σ} {pos : Nat} {os : List FieldNumber} {r : Record} {rest : List UInt8},
    Stand s pos os → bytes.drop pos = r.bytes ++ rest → r.Lawful .tolerant →
    Judged turn Stand refuse (pos + r.bytes.length) os 1 s
      ((recordWords r pos).find? Word.padded)
  opener : ∀ {s : σ} {pos : Nat} {os : List FieldNumber} {field : FieldNumber}
    {tag rest : List UInt8}, Stand s pos os → bytes.drop pos = tag ++ rest →
    IsTag .tolerant field 3 tag → os.length < bound →
    Judged turn Stand refuse (pos + tag.length) (field :: os) 1 s
      ([⟨pos, .tag, tag⟩].find? Word.padded)
  closer : ∀ {s : σ} {pos : Nat} {os : List FieldNumber} {field : FieldNumber}
    {tag rest : List UInt8}, Stand s pos (field :: os) → bytes.drop pos = tag ++ rest →
    IsTag .tolerant field 4 tag →
    Judged turn Stand refuse (pos + tag.length) os 1 s ([⟨pos, .tag, tag⟩].find? Word.padded)

/-- A closed document is passed where all its words are minimal, and refused at the first that is
not. -/
theorem Judges.walk (h : Judges turn Stand refuse bound bytes) {d : Doc} {room pos : Nat}
    {os : List FieldNumber} {s : σ} (hc : d.Closed) (hl : d.Lawful .tolerant room)
    (hroom : os.length + room ≤ bound) (he : bytes.drop pos = d.bytes ++ rest)
    (hs : Stand s pos os) :
    Judged turn Stand refuse (pos + d.bytes.length) os d.bytes.length s (firstPadded d pos) := by
  induction d generalizing room pos os s rest with
  | nil => exact .passes (.refl s) (Nat.zero_le _) hs
  | crossed => exact hc.elim
  | record r d ih =>
    rw [Doc.bytes, List.append_assoc] at he
    have hpos := hl.1.length_pos
    have hwalk := (h.record hs he hl.1).andThen fun s' hs' =>
      ih hc hl.2 hroom (drop_of_drop_eq he) hs'
    rw [Nat.add_assoc, ← List.length_append, firstPadded, ← List.find?_append] at hwalk
    exact hwalk.mono (by rw [Doc.bytes, List.length_append]; omega)
  | group f opener inner closer d ihi ih =>
    obtain ⟨hpos, hopen, hclose, hin, hrest⟩ := hl
    simp only [Doc.bytes, List.append_assoc] at he
    have hdrop := drop_of_drop_eq he
    have hdrop' := drop_of_drop_eq hdrop
    have hwo := hopen.admits.isWord.length_pos
    have hwc := hclose.admits.isWord.length_pos
    have hbound : os.length < bound := by omega
    have hinner : (f :: os).length + (room - 1) ≤ bound := by rw [List.length_cons]; omega
    have hwalk := (h.opener hs he hopen hbound).andThen fun s₁ hs₁ =>
      (ihi hc.1 hin hinner hdrop hs₁).andThen fun s₂ hs₂ =>
        (h.closer hs₂ hdrop' hclose).andThen fun s₃ hs₃ =>
          ih hc.2 hrest hroom (drop_of_drop_eq hdrop') hs₃
    have hword : firstPadded (.group f opener inner closer d) pos =
        ([(⟨pos, .tag, opener⟩ : Word)].find? Word.padded).or
          ((firstPadded inner (pos + opener.length)).or
            (([(⟨pos + opener.length + inner.bytes.length, .tag, closer⟩ : Word)].find?
              Word.padded).or
                (firstPadded d
                  (pos + opener.length + inner.bytes.length + closer.length)))) := by
      simp only [firstPadded, ← List.find?_append, words, List.length_append, List.singleton_append,
        Nat.add_assoc]
    have hend : pos + (Doc.group f opener inner closer d).bytes.length =
        pos + opener.length + inner.bytes.length + closer.length + d.bytes.length := by
      simp only [Doc.bytes, List.length_append]
      omega
    rw [hword, hend]
    exact hwalk.mono (by simp only [Doc.bytes, List.length_append]; omega)

end Judges

/-! ### One word -/

section Words

variable {field : FieldNumber} {code : Low3} {tag word rest data : List UInt8} {pos : Nat}

/-- Of a word in its domain the canonical width test is the spelling's minimality. -/
theorem wide_iff (dom : Domain) (hword : IsWord dom.window.cap dom.window.last word) :
    dom.window.minimal (value word) < word.length ↔ word ≠ minimal (value word) := by
  have hlt := Nat.lt_of_lt_of_le hword.value_lt dom.fits.2
  have hwidth : dom.window.minimal (value word) = width (value word) := by
    cases dom <;> exact encodedLen64_eq hlt
  have hle := width_le_length hword.length_pos
  rw [hwidth]
  constructor
  · intro hwide heq
    have hlen := congrArg List.length heq
    rw [minimal_length] at hlen
    omega
  · intro hne
    exact lt_of_le_of_ne hle fun hlen => hne (hword.eq_minimal hlen.symm)

theorem padded_iff (dom : Domain) (hword : IsWord dom.window.cap dom.window.last word)
    {stage : Stage} :
    (⟨pos, stage, word⟩ : Word).padded = decide (dom.window.minimal (value word) < word.length) := by
  rw [Word.padded, decide_eq_decide]
  exact (wide_iff dom hword).symm

/-- A tolerant tag that is minimal is a canonical one. -/
theorem isTag_canonical (h : IsTag .tolerant field code tag)
    (hmin : (⟨pos, .tag, tag⟩ : Word).padded = false) : IsTag .canonicalMinimal field code tag := by
  have hword := h.admits.isWord
  refine ⟨⟨hword, (minimal_iff .tag hword).mpr ?_⟩, h.spells⟩
  simpa [Word.padded] using hmin

theorem find?_single (w : Word) :
    [w].find? Word.padded = if w.padded then some w else none := by
  cases hp : w.padded <;> simp [hp]

end Words

/-! ### The designation's own walk -/

namespace RecordRef

variable {bytes rest tag : List UInt8} {pos : Nat} {field : FieldNumber} {code : Low3}

/-- The walk of a closure at a position, with groups open inside the designated one. -/
def Stand (c : Closure) (pos : Nat) (os : List FieldNumber) : Prop := c = ⟨pos, os.length + 1⟩

def refuse (w : Word) : Verdict := some (.error (.standardMismatch w.pos w.stage))

/-- What the walk does behind a minimal tag. -/
def behindTag (bytes : List UInt8) (c : Closure) (field : FieldNumber) (code : Low3)
    (valueAt : Nat) : Turn Closure Verdict :=
  match classify code with
  | .record .varint => closureValue bytes c field valueAt
  | .record .i32 => .next { c with pos := valueAt + 4 }
  | .record .i64 => .next { c with pos := valueAt + 8 }
  | .record .len => closureLen bytes c field valueAt
  | .record .group => .next ⟨valueAt, c.depth + 1⟩
  | .groupEnd => .next ⟨valueAt, c.depth - 1⟩
  | .unassigned => .halt none

theorem turn_tag {depth : Nat} (he : bytes.drop pos = tag ++ rest)
    (ht : IsTag .tolerant field code tag) :
    closureTurn bytes ⟨pos, depth + 1⟩ =
      if (⟨pos, .tag, tag⟩ : Word).padded then .halt (refuse ⟨pos, .tag, tag⟩)
      else behindTag bytes ⟨pos, depth + 1⟩ field code (pos + tag.length) := by
  have hword := ht.admits.isWord
  have hread : Slice.tagWord bytes pos bytes.length = .ok (value tag, tag.length) :=
    tagWord_ok.mpr ⟨tag, rest, he, hword, rfl, rfl⟩
  rw [padded_iff .tag hword]
  simp only [closureTurn, Nat.succ_ne_zero, if_false, hread, decide_eq_true_eq]
  show (if encodedLen32 (value tag) < tag.length then _ else _) = _
  rw [ht.spells, fromWord_tagWord, low3_tagWord]
  rfl

/-- A turn at a framing tag. -/
theorem judged_tag {s : Closure} {os os' : List FieldNumber} (hs : Stand s pos os)
    (he : bytes.drop pos = tag ++ rest) (ht : IsTag .tolerant field code tag)
    (hturn : behindTag bytes s field code (pos + tag.length) =
      .next ⟨pos + tag.length, os'.length + 1⟩) :
    Judged (closureTurn bytes) Stand refuse (pos + tag.length) os' 1 s
      ([⟨pos, .tag, tag⟩].find? Word.padded) := by
  subst hs
  have h := @turn_tag bytes rest tag pos field code os.length he ht
  rw [find?_single]
  by_cases hp : (⟨pos, .tag, tag⟩ : Word).padded = true
  · rw [if_pos hp] at h ⊢
    exact .refuses (.refl _) (Nat.zero_le _) h
  · rw [if_neg hp] at h ⊢
    exact .passes (.head (h.trans hturn) (.refl _)) (Nat.le_refl _) rfl

/-- A turn at a record with one word behind its tag. -/
theorem judged_word (dom : Domain) {word : List UInt8} {stage : Stage} {s : Closure}
    {os : List FieldNumber} {stop : Nat} (hword : IsWord dom.window.cap dom.window.last word)
    (hturn : closureTurn bytes s = if dom.window.minimal (value word) < word.length then
      .halt (refuse ⟨pos, stage, word⟩) else .next ⟨stop, os.length + 1⟩) :
    Judged (closureTurn bytes) Stand refuse stop os 1 s
      ([⟨pos, stage, word⟩].find? Word.padded) := by
  rw [find?_single, padded_iff dom hword]
  by_cases hp : dom.window.minimal (value word) < word.length
  · rw [if_pos hp] at hturn
    rw [if_pos (decide_eq_true hp)]
    exact .refuses (.refl _) (Nat.zero_le _) hturn
  · rw [if_neg hp] at hturn
    rw [if_neg (by rw [decide_eq_true_eq]; exact hp)]
    exact .passes (.head hturn (.refl _)) (Nat.le_refl _) rfl

theorem judges (bytes : List UInt8) (bound : Nat) :
    Judges (closureTurn bytes) Stand refuse bound bytes where
  opener hs he ht _ := judged_tag hs he ht (by subst hs; rfl)
  closer hs he ht := judged_tag hs he ht (by subst hs; rfl)
  record := by
    intro s pos os r rest hs he hlaw
    subst hs
    obtain ⟨field, tag, payload⟩ := r
    have hdata : bytes.drop pos = tag ++ (payload.bytes ++ rest) := by
      rw [he, Record.bytes, List.append_assoc]
    have h := @turn_tag bytes _ tag pos field payload.kind.low3 os.length hdata hlaw.isTag
    have hlen : pos + (Record.bytes ⟨field, tag, payload⟩).length =
        pos + tag.length + payload.bytes.length := by
      rw [Record.bytes, List.length_append, Nat.add_assoc]
    rw [hlen, recordWords, List.find?_cons]
    by_cases hp : (⟨pos, .tag, tag⟩ : Word).padded = true
    · rw [if_pos hp] at h
      simp only [hp]
      exact .refuses (.refl _) (Nat.zero_le _) h
    rw [if_neg hp] at h
    simp only [hp]
    have hbehind := drop_of_drop_eq hdata
    cases payload with
    | i64 bits =>
      have hbits : bits.length = 8 := hlaw.payload
      exact .passes (.head h (.refl _)) (Nat.le_refl _) (by rw [Payload.bytes, hbits]; rfl)
    | i32 bits =>
      have hbits : bits.length = 4 := hlaw.payload
      exact .passes (.head h (.refl _)) (Nat.le_refl _) (by rw [Payload.bytes, hbits]; rfl)
    | varint word =>
      have hword : IsWord maxLen64 last64 word := hlaw.payload.isWord
      have hread : Slice.value64 bytes (pos + tag.length) bytes.length =
          .ok (value word, word.length) := value64_ok.mpr ⟨word, rest, hbehind, hword, rfl, rfl⟩
      have hvalue : behindTag bytes ⟨pos, os.length + 1⟩ field RecordKind.varint.low3
          (pos + tag.length) = if encodedLen64 (value word) < word.length then
            .halt (refuse ⟨pos + tag.length, .value field, word⟩)
          else .next ⟨pos + tag.length + word.length, os.length + 1⟩ := by
        show closureValue bytes _ field _ = _
        rw [closureValue, hread]
        rfl
      exact judged_word .value hword (h.trans hvalue)
    | len word payload =>
      obtain ⟨hadmits, hlen⟩ := hlaw.payload
      have hword : IsWord maxLen32 lastLen word := hadmits.isWord
      have hread : Slice.lenWord bytes (pos + tag.length) bytes.length =
          .ok (value word, word.length) :=
        lenWord_ok.mpr ⟨word, payload ++ rest, by rw [hbehind, Payload.bytes, List.append_assoc],
          hword, rfl, rfl⟩
      have hvalue : behindTag bytes ⟨pos, os.length + 1⟩ field RecordKind.len.low3
          (pos + tag.length) = if encodedLen32 (value word) < word.length then
            .halt (refuse ⟨pos + tag.length, .lenPrefix field, word⟩)
          else .next ⟨pos + tag.length + word.length + value word, os.length + 1⟩ := by
        show closureLen bytes _ field _ = _
        rw [closureLen, hread]
        rfl
      rw [Payload.bytes, List.length_append, ← hlen, ← Nat.add_assoc]
      exact judged_word .len hword (h.trans hvalue)

/-- What is judged of a document's words. -/
def verdict : Option Word → Except Fault Unit
  | none => .ok ()
  | some w => .error (.standardMismatch w.pos w.stage)

def delimW : Payload → Option Nat
  | .len word _ => some word.length
  | _ => none

def contentLen : Payload → Nat
  | .len _ payload => payload.length
  | p => p.bytes.length

/-- A designation names exactly one record or group of a document. -/
inductive Designates : RecordRef → Doc → Prop where
  | record (r : Record) (depth : Nat) :
      Designates ⟨r.bytes, r.field, Cursor.Grouped.ofBody r.payload.kind,
        ⟨r.tag.length, delimW r.payload, contentLen r.payload⟩, false, depth⟩ (.record r .nil)
  | group (field : FieldNumber) (opener : List UInt8) (inner : Doc) (closer : List UInt8)
      (depth : Nat) :
      Designates ⟨(Doc.group field opener inner closer .nil).bytes, field, .group,
        ⟨opener.length, some closer.length, inner.bytes.length⟩, false, depth⟩
        (.group field opener inner closer .nil)

/-- A group's interior and end tag are judged word by word. -/
theorem canonicalClosure_eq {inner : Doc} {closer : List UInt8} {room : Nat}
    (hc : inner.Closed) (hl : inner.Lawful .tolerant room) (ht : IsTag .tolerant field 4 closer)
    (he : bytes.drop pos = inner.bytes ++ closer)
    (hlen : inner.bytes.length + closer.length < bytes.length) :
    canonicalClosure bytes pos =
      some (verdict ((firstPadded inner pos).or
        ([⟨pos + inner.bytes.length, .tag, closer⟩].find? Word.padded))) := by
  have hpos := ht.admits.isWord.length_pos
  have hstand : Stand ⟨pos, 1⟩ pos [] := rfl
  have hroom : ([] : List FieldNumber).length + room ≤ room := by simp
  have hwalk := (judges bytes room).walk hc hl hroom he hstand
  have hcloser := drop_of_drop_eq he
  rw [← List.append_nil closer] at hcloser
  have hturn := @turn_tag bytes [] closer (pos + inner.bytes.length) field 4 0 hcloser ht
  cases hf : firstPadded inner pos with
  | some w =>
    rw [hf] at hwalk
    cases hwalk with
    | refuses htakes hn hhalt =>
      rw [canonicalClosure, htakes.halts hhalt (by omega)]
      rfl
  | none =>
    rw [hf] at hwalk
    cases hwalk with
    | passes htakes hn hs =>
      subst hs
      rw [canonicalClosure, Option.none_or, find?_single]
      by_cases hp : (⟨pos + inner.bytes.length, .tag, closer⟩ : Word).padded = true
      · rw [if_pos hp] at hturn ⊢
        rw [htakes.halts hturn (by omega)]
        rfl
      · rw [if_neg hp] at hturn ⊢
        have hbehind := htakes.trans (.head hturn (.refl _))
        rw [hbehind.halts rfl (by omega)]
        rfl

theorem padded_head {field : FieldNumber} {kind : RecordKind} {tag : List UInt8}
    (h : IsTag .tolerant field kind.low3 tag) :
    (⟨0, .tag, tag⟩ : Word).padded =
      decide (encodedLen32 (headWord field kind) < tag.length) := by
  rw [padded_iff .tag h.admits.isWord]
  show decide (encodedLen32 (value tag) < tag.length) = _
  rw [h.spells]
  rfl

/-- Behind the head tag of a designation. -/
theorem tryCanonical_head {ref : RecordRef} {tag : List UInt8} {tail : Option Word}
    (hfresh : ref.canonical = false) (ht : IsTag .tolerant ref.field ref.kind.low3 tag)
    (hw : ref.geometry.tagW = tag.length) (hbody : ref.canonicalBody = some (verdict tail)) :
    ref.tryCanonical =
      some ((verdict (([⟨0, .tag, tag⟩].find? Word.padded).or tail)).map fun _ =>
        { ref with canonical := true }) := by
  rw [tryCanonical, hfresh, find?_single, padded_head ht, hw, hbody]
  by_cases hp : encodedLen32 (headWord ref.field ref.kind) < tag.length
  · simp only [hp, Bool.false_eq_true, if_false, if_true, decide_true, Option.some_or]
    rfl
  · simp only [hp, Bool.false_eq_true, if_false, decide_false, Option.none_or, Option.map_some]

theorem verdict_if (p : Prop) [Decidable p] (w : Word) :
    (if p then some (.error (.standardMismatch w.pos w.stage)) else some (.ok ())) =
      some (verdict (if p then some w else none)) := by
  split_ifs <;> rfl

/-- `try_canonical` refuses at the first padded word, and at no other. -/
theorem tryCanonical_eq {ref : RecordRef} {d : Doc} {room : Nat} (h : Designates ref d)
    (hc : d.Closed) (hl : d.Lawful .tolerant room) :
    ref.tryCanonical =
      some ((verdict (firstPadded d 0)).map fun _ => { ref with canonical := true }) := by
  cases h with
  | record r depth =>
    obtain ⟨field, tag, payload⟩ := r
    obtain ⟨htag, hpayload⟩ := hl.1
    have hwords : firstPadded (.record ⟨field, tag, payload⟩ .nil) 0 =
        ([(⟨0, .tag, tag⟩ : Word)].find? Word.padded).or
          ((recordWords ⟨field, tag, payload⟩ 0).tail.find? Word.padded) := by
      rw [← List.find?_append, firstPadded, words, words, List.append_nil]
      rfl
    rw [hwords]
    refine tryCanonical_head rfl (by rw [Cursor.Grouped.low3_ofBody]; exact htag) rfl ?_
    cases payload with
    | i64 bits => rfl
    | i32 bits => rfl
    | varint word =>
      have hword : IsWord maxLen64 last64 word := hpayload.isWord
      have hread : Slice.value64 (tag ++ word) tag.length (tag ++ word).length =
          .ok (value word, word.length) :=
        value64_ok.mpr ⟨word, [], by rw [List.drop_left, List.append_nil], hword, rfl, rfl⟩
      show canonicalBody ⟨tag ++ word, field, .varint, _, false, depth⟩ = _
      simp only [canonicalBody, hread, recordWords, List.tail_cons, find?_single,
        padded_iff .value hword, Nat.zero_add, decide_eq_true_eq]
      exact verdict_if (encodedLen64 (value word) < word.length) ⟨tag.length, .value field, word⟩
    | len word payload =>
      obtain ⟨hadmits, hlen⟩ := hpayload
      have hword : IsWord maxLen32 lastLen word := hadmits.isWord
      simp only [canonicalBody, Cursor.Grouped.ofBody, Payload.kind, recordWords, List.tail_cons,
        find?_single, padded_iff .len hword, Nat.zero_add, decide_eq_true_eq, delimW, contentLen,
        Option.getD_some, ← hlen]
      exact verdict_if (encodedLen32 (value word) < word.length) ⟨tag.length, .lenPrefix field, word⟩
  | group field opener inner closer depth =>
    obtain ⟨hroom, hopen, hclose, hin, -⟩ := hl
    have hpo := hopen.admits.isWord.length_pos
    have hbytes : (Doc.group field opener inner closer .nil).bytes =
        opener ++ (inner.bytes ++ closer) := by
      simp only [Doc.bytes, List.append_assoc, List.append_nil]
    have hdrop : (Doc.group field opener inner closer .nil).bytes.drop opener.length =
        inner.bytes ++ closer := by rw [hbytes, List.drop_left]
    have hlen : inner.bytes.length + closer.length <
        (Doc.group field opener inner closer .nil).bytes.length := by
      rw [hbytes]
      simp only [List.length_append]
      omega
    have hclosure := canonicalClosure_eq hc.1 hin hclose hdrop hlen
    have hwords : firstPadded (.group field opener inner closer .nil) 0 =
        ([(⟨0, .tag, opener⟩ : Word)].find? Word.padded).or
          ((firstPadded inner opener.length).or
            ([(⟨opener.length + inner.bytes.length, .tag, closer⟩ : Word)].find?
              Word.padded)) := by
      simp only [firstPadded, ← List.find?_append, words, List.singleton_append, Nat.zero_add]
    rw [hwords]
    exact tryCanonical_head rfl hopen rfl hclosure

end RecordRef

/-! ### The canonical cursor -/

namespace Canonical

open Cursor.Grouped

variable {bytes rest tag : List UInt8} {pos : Nat} {field : FieldNumber} {code : Low3}
  {limit : DepthLimit} {os os' : List FieldNumber} {c : Cursor}

/-- A cursor at a position of some bytes, with groups open. -/
structure Stand (bytes : List UInt8) (limit : DepthLimit) (c : Cursor) (pos : Nat)
    (os : List FieldNumber) : Prop where
  data : c.data = bytes
  limit : c.limit = limit
  pos : c.pos = pos
  opens : c.opens.map Prod.fst = os

/-- The refusal of a padded word, by what it serves. -/
def nonMinimal : Stage → RecordFault
  | .tag => .nonMinimalTag
  | .lenPrefix field => .nonMinimalLen field
  | .value field => .nonMinimalValue field

def refuse (w : Word) : Option Cursor.Grouped.Fault := some ⟨w.pos, .record (nonMinimal w.stage)⟩

theorem turn_padded (he : c.data.drop c.pos = tag ++ rest) (ht : IsTag .tolerant field code tag)
    (hp : (⟨c.pos, .tag, tag⟩ : Word).padded = true) :
    turn .canonicalMinimal c = .halt (refuse ⟨c.pos, .tag, tag⟩) := by
  have hword := ht.admits.isWord
  have hread : Slice.tagWord c.data c.pos c.data.length = .ok (value tag, tag.length) :=
    tagWord_ok.mpr ⟨tag, rest, he, hword, rfl, rfl⟩
  have hwide : widthPadded tag.length (value tag) .canonicalMinimal encodedLen32 = true := by
    cases hw : widthPadded tag.length (value tag) .canonicalMinimal encodedLen32 with
    | true => rfl
    | false => simp [Word.padded, ← (minimal_iff .tag hword).mp hw] at hp
  have hin : ¬ c.data.length ≤ c.pos := by
    have := length_of_drop_eq he
    have := hword.length_pos
    omega
  have hhead : readHead .canonicalMinimal c.data c.pos = .error (c.pos, .nonMinimalTag) := by
    simp only [readHead, hread, hwide, if_true]
  unfold turn step
  rw [if_neg hin, hhead]
  rfl

/-- A turn at a framing tag. -/
theorem judged_tag {opens : List (FieldNumber × Nat)} (hs : Stand bytes limit c pos os)
    (he : bytes.drop pos = tag ++ rest) (ht : IsTag .tolerant field code tag)
    (hstep : IsTag .canonicalMinimal field code tag → c.data.drop c.pos = tag ++ rest →
      ∃ entry, step .canonicalMinimal c = (some (.ok entry), c.framed opens tag))
    (hopens : opens.map Prod.fst = os') :
    Judged (turn .canonicalMinimal) (Stand bytes limit) refuse (pos + tag.length) os' 1 c
      ([⟨pos, .tag, tag⟩].find? Word.padded) := by
  have hc : c.data.drop c.pos = tag ++ rest := by rw [hs.data, hs.pos, he]
  rw [find?_single]
  by_cases hp : (⟨pos, .tag, tag⟩ : Word).padded = true
  · rw [if_pos hp]
    have hturn := turn_padded hc ht hp
    rw [hs.pos] at hturn
    exact .refuses (.refl _) (Nat.zero_le _) hturn
  · rw [if_neg hp]
    have hmin := isTag_canonical ht (Bool.eq_false_of_not_eq_true hp)
    obtain ⟨entry, hst⟩ := hstep hmin hc
    have hturn : turn .canonicalMinimal c = .next (c.framed opens tag) := by rw [turn, hst]
    refine .passes (.head hturn (.refl _)) (Nat.le_refl _) ⟨hs.data, hs.limit, ?_, hopens⟩
    rw [← hs.pos]
    rfl

/-- A width test of a word, against the canonical standard. -/
theorem widthPadded_eq (dom : Domain) {word : List UInt8} {stage : Stage}
    (hword : IsWord dom.window.cap dom.window.last word) :
    widthPadded word.length (value word) .canonicalMinimal dom.window.minimal =
      (⟨pos, stage, word⟩ : Word).padded := by
  have hiff := minimal_iff dom hword
  cases hw : widthPadded word.length (value word) .canonicalMinimal dom.window.minimal with
  | false => simpa [Word.padded] using hiff.mp hw
  | true =>
    have hne : word ≠ minimal (value word) := fun he => by rw [hiff.mpr he] at hw; cases hw
    simpa [Word.padded] using hne

/-- What a canonical body read does at a tolerant payload. -/
theorem readBody_judges {p : Payload} (he : c.data.drop pos = p.bytes ++ rest)
    (hp : p.Lawful .tolerant) {r : Record} (hr : r.field = field) (hpay : r.payload = p) {at' : Nat}
    (hat : pos = at' + r.tag.length) :
    match (recordWords r at').tail.find? Word.padded with
    | none => p.Lawful .canonicalMinimal
    | some w => readBody .canonicalMinimal c.data pos field p.kind =
        .error (w.pos, nonMinimal w.stage) := by
  subst hr hpay
  obtain ⟨field, tag, payload⟩ := r
  cases payload with
  | i64 bits => exact hp
  | i32 bits => exact hp
  | varint word =>
    have hword : IsWord maxLen64 last64 word := hp.isWord
    have hread : Slice.value64 c.data pos c.data.length = .ok (value word, word.length) :=
      value64_ok.mpr ⟨word, rest, he, hword, rfl, rfl⟩
    have hw := @widthPadded_eq pos .value word (.value field) hword
    simp only [recordWords, List.tail_cons, find?_single, ← hat]
    cases hpad : (⟨pos, .value field, word⟩ : Word).padded with
    | false => exact ⟨hword, hw.trans hpad⟩
    | true =>
      have hw' : widthPadded word.length (value word) .canonicalMinimal encodedLen64 = true :=
        hw.trans hpad
      show readVarint _ _ _ _ = _
      simp only [readVarint, hread, hw', if_true]
      rfl
  | len word payload =>
    obtain ⟨hadmits, hlen⟩ := hp
    have hword : IsWord maxLen32 lastLen word := hadmits.isWord
    have hread : Slice.lenWord c.data pos c.data.length = .ok (value word, word.length) :=
      lenWord_ok.mpr ⟨word, payload ++ rest, by rw [he, Payload.bytes, List.append_assoc], hword,
        rfl, rfl⟩
    have hw := @widthPadded_eq pos .len word (.lenPrefix field) hword
    simp only [recordWords, List.tail_cons, find?_single, ← hat]
    cases hpad : (⟨pos, .lenPrefix field, word⟩ : Word).padded with
    | false => exact ⟨⟨hword, hw.trans hpad⟩, hlen⟩
    | true =>
      have hw' : widthPadded word.length (value word) .canonicalMinimal encodedLen32 = true :=
        hw.trans hpad
      show readLen _ _ _ _ = _
      simp only [readLen, hread, hw', if_true]
      rfl

theorem judges (bytes : List UInt8) (limit : DepthLimit) :
    Judges (turn .canonicalMinimal) (Stand bytes limit) refuse limit.asInner bytes where
  opener := by
    intro c pos os field tag rest hs he ht hroom
    have hroom' : c.opens.length < c.limit.asInner := by
      rw [hs.limit, ← List.length_map (f := Prod.fst), hs.opens]
      exact hroom
    have hopens : ((field, c.pos) :: c.opens).map Prod.fst = field :: os := by
      rw [List.map_cons, hs.opens]
    exact judged_tag hs he ht (fun hmin hc => ⟨_, step_opener hc hmin hroom'⟩) hopens
  closer := by
    intro c pos os field tag rest hs he ht
    obtain ⟨⟨opened, openedAt⟩, opens, ho⟩ : ∃ o opens, c.opens = o :: opens := by
      cases ho : c.opens with
      | nil => have := hs.opens; rw [ho] at this; cases this
      | cons o opens => exact ⟨o, opens, rfl⟩
    have hmap := hs.opens
    rw [ho] at hmap
    simp only [List.map_cons, List.cons.injEq] at hmap
    obtain ⟨rfl, hmap⟩ := hmap
    exact judged_tag hs he ht (fun hmin hc => ⟨_, step_closer hc hmin ho⟩) hmap
  record := by
    intro c pos os r rest hs he hlaw
    have hc : c.data.drop c.pos = r.bytes ++ rest := by rw [hs.data, hs.pos, he]
    have hc' : c.data.drop c.pos = r.tag ++ (r.payload.bytes ++ rest) := by
      rw [hc, Record.bytes, List.append_assoc]
    have hwords : (recordWords r pos).find? Word.padded =
        ([(⟨pos, .tag, r.tag⟩ : Word)].find? Word.padded).or
          ((recordWords r pos).tail.find? Word.padded) := by
      rw [← List.find?_append]
      rfl
    rw [hwords, find?_single]
    by_cases hp : (⟨pos, .tag, r.tag⟩ : Word).padded = true
    · rw [if_pos hp]
      rw [← hs.pos] at hp
      have hturn := turn_padded hc' hlaw.isTag hp
      rw [hs.pos] at hturn
      exact .refuses (.refl _) (Nat.zero_le _) hturn
    rw [if_neg hp, Option.none_or]
    have hmin := isTag_canonical hlaw.isTag (Bool.eq_false_of_not_eq_true hp)
    have hbody := readBody_judges (drop_of_drop_eq hc') hlaw.payload rfl rfl
      (show c.pos + r.tag.length = pos + r.tag.length by rw [hs.pos])
    cases hf : (recordWords r pos).tail.find? Word.padded with
    | none =>
      rw [hf] at hbody
      have hst := step_record hc ⟨hmin, hbody⟩
      have hturn : turn .canonicalMinimal c = .next (c.past r) := by rw [turn, hst]
      refine .passes (.head hturn (.refl _)) (Nat.le_refl _) ⟨hs.data, hs.limit, ?_, hs.opens⟩
      rw [← hs.pos]
      rfl
    | some w =>
      rw [hf] at hbody
      obtain ⟨hin, hhead⟩ := inside_of_tag hc' hmin
      have hst := step_arm hin hhead
      rw [hbody] at hst
      refine .refuses (.refl _) (Nat.zero_le _) ?_
      rw [turn, hst]
      rfl

/-- The canonical cursor, entering every group and no LEN, refuses at the first padded word of a
closed document, and where there is none walks it to its end. -/
theorem exhaust_eq {d : Doc} (hc : d.Closed) (hl : d.Lawful .tolerant limit.asInner)
    (hle : d.bytes.length ≤ PayloadLen.max) :
    ∃ c, Cursor.over d.bytes limit = some c ∧
      exhaust .canonicalMinimal c = some ((firstPadded d 0).bind refuse) := by
  refine ⟨⟨d.bytes, [], 0, limit, 0, 0⟩, if_neg (by omega), ?_⟩
  have hstand : Stand d.bytes limit ⟨d.bytes, [], 0, limit, 0, 0⟩ 0 [] := ⟨rfl, rfl, rfl, rfl⟩
  have hroom : ([] : List FieldNumber).length + limit.asInner ≤ limit.asInner := by simp
  have hwalk := (judges d.bytes limit).walk hc hl hroom
    (show d.bytes.drop 0 = d.bytes ++ [] by simp) hstand
  cases hf : firstPadded d 0 with
  | some w =>
    rw [hf] at hwalk
    cases hwalk with
    | refuses htakes hn hhalt => exact htakes.halts hhalt (by simp only; omega)
  | none =>
    rw [hf] at hwalk
    cases hwalk with
    | @passes _ _ c' htakes hn hs =>
      have hopens : c'.opens = [] := List.map_eq_nil_iff.mp hs.opens
      have hend : c'.data.drop c'.pos = [] := by
        rw [hs.data, hs.pos, Nat.zero_add, List.drop_length]
      have hturn : turn .canonicalMinimal c' = .halt none := by rw [turn, step_end hend hopens]
      exact htakes.halts hturn (by simp only; omega)

end Canonical

end ProtobufEdit.Source.Grouped
