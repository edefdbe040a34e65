import ProtobufEdit.Inplace

/-!
# Fillers, and what the write loop leaves

A word written at a judged width is lawful, and a tombstone's filler is one or two lawful records
of its field with nothing in them. `commit_frame` is the frame of the write loop.
-/

namespace ProtobufEdit.Inplace

open Wire Varint Base128 ProtobufEdit.Path Cursor

/-! ## What a judged width spells -/

section Widths

variable {standard : Standard}

/-- A word written at a width the judgment passed is lawful. -/
theorem admits_write {w : Window} {v n : Nat} (hmin : w.minimal v = width v)
    (hfits : widthFits standard (w.minimal v) n = true) (hcap : n ≤ w.cap)
    (hv : v < 128 ^ (w.cap - 1) * (w.last + 1)) : w.Admits standard (write64At v n) := by
  have hle : width v ≤ n := by
    cases standard with
    | tolerant => exact hmin ▸ of_decide_eq_true hfits
    | canonicalMinimal => exact Nat.le_of_eq (hmin ▸ of_decide_eq_true hfits)
  have hpos : 0 < n := Nat.lt_of_lt_of_le (width_pos v) hle
  have hlt : v < 128 ^ n := (lt_pow_width v).trans_le (Nat.pow_le_pow_right (by decide) hle)
  rw [write64At_eq]
  refine ⟨spell_isWord hpos hcap hlt hv, ?_⟩
  rw [Window.padded, widthPadded, value_spell hpos hlt, spell_length]
  cases standard with
  | tolerant => rfl
  | canonicalMinimal =>
    have he : w.minimal v = n := of_decide_eq_true hfits
    simp [he]

theorem value_write {w : Window} {v n : Nat} (hmin : w.minimal v = width v)
    (hfits : widthFits standard (w.minimal v) n = true) : value (write64At v n) = v := by
  have hle : width v ≤ n := by
    cases standard with
    | tolerant => exact hmin ▸ of_decide_eq_true hfits
    | canonicalMinimal => exact Nat.le_of_eq (hmin ▸ of_decide_eq_true hfits)
  rw [write64At_eq]
  exact value_spell (Nat.lt_of_lt_of_le (width_pos v) hle)
    ((lt_pow_width v).trans_le (Nat.pow_le_pow_right (by decide) hle))

theorem isTag_write {field : FieldNumber} {code : Low3} {n : Nat}
    (hfits : widthFits standard (encodedLen32 (tagWord field code)) n = true)
    (hcap : n ≤ maxLen32) :
    IsTag standard field code (write64At (tagWord field code) n) :=
  have hmin := encodedLen32_eq (tagWord_lt field code)
  ⟨@admits_write standard .tag _ _ hmin hfits hcap (tagWord_lt field code),
    @value_write standard .tag _ _ hmin hfits⟩

end Widths

/-! ## What a filler spells -/

/-- A payload with no content. -/
def Blank : Payload → Prop
  | .varint word => value word = 0
  | .i64 bits | .i32 bits => ∀ b ∈ bits, b = 0
  | .len _ payload => ∀ b ∈ payload, b = 0

/-- The record `fillOne` spells. -/
def fillerRecord (standard : Standard) (width : Nat) (field : FieldNumber) : Record :=
  let t := encodedLen32 (tagWord field lenCode)
  let n := width - t
  if fillsVarint standard n then
    ⟨field, write64At (tagWord field varintCode) t, .varint (write64At 0 n)⟩
  else
    let p := fillPrefix standard n
    ⟨field, write64At (tagWord field lenCode) t,
      .len (write64At (n - p) p) (List.replicate (n - p) 0)⟩

/-- The records a filled extent holds. -/
def fillers (standard : Standard) (width : Nat) (field : FieldNumber) : List Record :=
  let t := encodedLen32 (tagWord field lenCode)
  if standard = .canonicalMinimal ∧ gapSplit (width - t) then
    [⟨field, write64At (tagWord field varintCode) t, .varint (write64At 0 1)⟩,
      fillerRecord standard (width - (t + 1)) field]
  else [fillerRecord standard width field]

section Fill

variable {standard : Standard} {width : Nat} {field : FieldNumber}

theorem fillOne_eq (standard : Standard) (width : Nat) (field : FieldNumber) :
    fillOne standard width field = (fillerRecord standard width field).bytes := by
  unfold fillOne fillerRecord
  simp only
  split
  · rfl
  · exact List.append_assoc _ _ _

theorem fill_eq (standard : Standard) (width : Nat) (field : FieldNumber) :
    fill standard width field = (fillers standard width field).flatMap Record.bytes := by
  unfold fill fillers
  simp only
  split
  · rw [fillOne_eq]
    simp [Record.bytes, Payload.bytes]
  · rw [fillOne_eq]
    simp

/-- Off the gap set the prefix read off the classes is the minimal one. -/
theorem splitPrefix_solves {n : Nat} (h : 2 ≤ n) (hgap : gapSplit n = false)
    (hle : n ≤ PayloadLen.max) :
    splitPrefix n ≤ n ∧ encodedLen32 (n - splitPrefix n) = splitPrefix n := by
  have hwidth : ∀ {v k : Nat}, v < 128 ^ (k + 1) → 128 ^ k ≤ v → Base128.width v = k + 1 := by
    intro v k hlt hle
    have hv : v ≠ 0 := by
      rintro rfl
      exact absurd hle (Nat.not_le.mpr (Nat.pow_pos (by decide)))
    rw [Base128.width, Nat.log_eq_of_pow_le_of_lt_pow hle hlt]
  simp only [gapSplit, decide_eq_false_iff_not, not_or] at hgap
  unfold PayloadLen.max at hle
  have hlt32 : ∀ k, n - k < 2 ^ 32 := by omega
  rw [encodedLen32_eq (hlt32 _)]
  unfold splitPrefix
  split_ifs with h₁ h₂ h₃ h₄
  · refine ⟨by omega, ?_⟩
    rw [Base128.width, Nat.log_of_lt (by omega)]
  · exact ⟨by omega, hwidth (by norm_num; omega) (by norm_num; omega)⟩
  · exact ⟨by omega, hwidth (by norm_num; omega) (by norm_num; omega)⟩
  · exact ⟨by omega, hwidth (by norm_num; omega) (by norm_num; omega)⟩
  · exact ⟨by omega, hwidth (by norm_num; omega) (by norm_num; omega)⟩

theorem isTag_filler (standard : Standard) (field : FieldNumber) (code : Low3) :
    IsTag standard field code
      (write64At (tagWord field code) (encodedLen32 (tagWord field lenCode))) := by
  have hcode := encodedLen32_tagWord field lenCode code
  have hle : encodedLen32 (tagWord field code) ≤ maxLen32 := by
    rw [encodedLen32_eq (tagWord_lt field code)]
    exact width_le (by decide) ((tagWord_lt field code).trans (by decide))
  apply isTag_write
  · rw [hcode]
    cases standard <;> simp [widthFits]
  · exact hcode ▸ hle

theorem fillerRecord_spec (standard : Standard) (hwidth : fillerNeed field ≤ width)
    (hle : width ≤ PayloadLen.max)
    (hgap : standard = .canonicalMinimal →
      gapSplit (width - encodedLen32 (tagWord field lenCode)) = false) :
    (fillerRecord standard width field).Lawful standard ∧
      (fillerRecord standard width field).bytes.length = width ∧
      (fillerRecord standard width field).field = field ∧
      Blank (fillerRecord standard width field).payload := by
  unfold fillerNeed at hwidth
  set t := encodedLen32 (tagWord field lenCode) with ht
  have hn : 0 < width - t := by omega
  have hzero : encodedLen64 0 = 1 := by decide
  unfold fillerRecord
  simp only [← ht]
  split
  · next hvarint =>
    have hfits : widthFits standard (Window.value.minimal 0) (width - t) = true ∧
        width - t ≤ maxLen64 := by
      cases standard with
      | tolerant =>
        refine ⟨decide_eq_true ?_, of_decide_eq_true hvarint⟩
        show encodedLen64 0 ≤ width - t
        omega
      | canonicalMinimal =>
        have h1 : width - t = 1 := of_decide_eq_true hvarint
        exact ⟨decide_eq_true (by rw [h1]; exact hzero), by rw [h1]; decide⟩
    refine ⟨⟨isTag_filler standard field varintCode, ?_⟩, ?_, rfl, ?_⟩
    · exact admits_write (encodedLen64_eq (by decide)) hfits.1 hfits.2 (by decide)
    · simp only [Record.bytes, Payload.bytes, List.length_append, write64At_length]
      omega
    · exact value_write (encodedLen64_eq (by decide)) hfits.1
  · next hvarint =>
    have hsolves : fillPrefix standard (width - t) ≤ width - t ∧
        fillPrefix standard (width - t) ≤ maxLen32 ∧
        widthFits standard (encodedLen32 (width - t - fillPrefix standard (width - t)))
          (fillPrefix standard (width - t)) = true := by
      cases standard with
      | tolerant =>
        have h10 : ¬ width - t ≤ 10 := fun h => hvarint (decide_eq_true h)
        have h32 : width - t - 5 < 2 ^ 32 := by unfold PayloadLen.max at hle; omega
        refine ⟨show 5 ≤ _ by omega, Nat.le_refl 5, decide_eq_true ?_⟩
        show encodedLen32 (width - t - 5) ≤ 5
        rw [encodedLen32_eq h32]
        exact width_le (by decide) (h32.trans (by decide))
      | canonicalMinimal =>
        have h1 : ¬ width - t = 1 := fun h => hvarint (decide_eq_true h)
        obtain ⟨hp, he⟩ := splitPrefix_solves (by omega) (hgap rfl) (show width - t ≤ _ by omega)
        refine ⟨hp, ?_, decide_eq_true he⟩
        show splitPrefix (width - t) ≤ maxLen32
        unfold splitPrefix
        split_ifs <;> decide
    generalize fillPrefix standard (width - t) = p at hsolves ⊢
    obtain ⟨hpn, hpcap, hpfits⟩ := hsolves
    have hlt : width - t - p < 2 ^ 31 := by unfold PayloadLen.max at hle; omega
    have hmin : Window.len.minimal (width - t - p) = Base128.width (width - t - p) :=
      encodedLen32_eq (hlt.trans (by decide))
    refine ⟨⟨isTag_filler standard field lenCode, ?_, ?_⟩, ?_, rfl, ?_⟩
    · exact admits_write hmin hpfits hpcap hlt
    · rw [List.length_replicate]
      exact value_write hmin hpfits
    · simp only [Record.bytes, Payload.bytes, List.length_append, write64At_length,
        List.length_replicate]
      omega
    · exact fun b hb => List.eq_of_mem_replicate hb

/-- A tombstone's extent is one or two lawful records of the filler field, with no content. -/
structure Filled (standard : Standard) (field : FieldNumber) (width : Nat) (records : List Record) :
    Prop where
  count : records.length = 1 ∨ records.length = 2
  lawful : ∀ r ∈ records, r.Lawful standard
  field : ∀ r ∈ records, r.field = field
  blank : ∀ r ∈ records, Blank r.payload
  width : (records.flatMap Record.bytes).length = width

theorem fillers_filled (standard : Standard) (hwidth : fillerNeed field ≤ width)
    (hle : width ≤ PayloadLen.max) :
    Filled standard field width (fillers standard width field) := by
  unfold fillers
  simp only
  split
  · next h =>
    obtain ⟨hcanonical, hgap⟩ := h
    set t := encodedLen32 (tagWord field lenCode) with ht
    have hneed : fillerNeed field = t + 1 := rfl
    have hcap : t ≤ 5 := by
      rw [ht, encodedLen32_eq (tagWord_lt field _)]
      exact width_le (by decide) ((tagWord_lt field _).trans (by decide))
    -- what the peeled filler leaves lies below the gap, and above the one before it
    have hrest : fillerNeed field ≤ width - (t + 1) ∧ gapSplit (width - (t + 1) - t) = false := by
      rw [hneed]
      simp only [gapSplit, decide_eq_true_eq, decide_eq_false_iff_not] at hgap ⊢
      omega
    obtain ⟨hlaw, hlen, hfield, hblank⟩ := fillerRecord_spec standard hrest.1
      (show width - (t + 1) ≤ _ by omega) fun _ => hrest.2
    have hone : Record.Lawful standard
        ⟨field, write64At (tagWord field varintCode) t, .varint (write64At 0 1)⟩ :=
      ⟨isTag_filler standard field varintCode, admits_write (encodedLen64_eq (by decide))
        (by subst hcanonical; rfl) (by decide) (by decide)⟩
    refine ⟨.inr rfl, ?_, ?_, ?_, ?_⟩
    · exact List.forall_mem_cons.mpr ⟨hone, List.forall_mem_singleton.mpr hlaw⟩
    · exact List.forall_mem_cons.mpr ⟨rfl, List.forall_mem_singleton.mpr hfield⟩
    · exact List.forall_mem_cons.mpr ⟨rfl, List.forall_mem_singleton.mpr hblank⟩
    · simp only [List.flatMap_cons, List.flatMap_nil, List.append_nil, List.length_append, hlen]
      simp only [Record.bytes, Payload.bytes, List.length_append, write64At_length]
      omega
  · next h =>
    obtain ⟨hlaw, hlen, hfield, hblank⟩ := fillerRecord_spec standard hwidth hle
      fun hc => Bool.eq_false_of_not_eq_true fun hg => h ⟨hc, hg⟩
    exact ⟨.inl rfl, List.forall_mem_singleton.mpr hlaw, List.forall_mem_singleton.mpr hfield,
      List.forall_mem_singleton.mpr hblank, by simpa using hlen⟩

end Fill

/-! ## The write loop -/

/-- Two writes with no byte in common. -/
def Clear (standard : Standard) (a b : Write) : Prop :=
  a.stop standard ≤ b.pos ∨ b.stop standard ≤ a.pos

/-- Writes whose extents lie between two positions, with no byte in common. -/
structure Apart (standard : Standard) (lo hi : Nat) (ws : List Write) : Prop where
  pairwise : ws.Pairwise (Clear standard)
  inside : ∀ w ∈ ws, lo ≤ w.pos ∧ w.stop standard ≤ hi

section Commit

variable {standard : Standard} {buf out : List UInt8} {w : Write} {ws ws' : List Write}

theorem Apart.nil (standard : Standard) (lo hi : Nat) : Apart standard lo hi [] := ⟨.nil, nofun⟩

theorem Apart.single {lo hi : Nat} (hlo : lo ≤ w.pos) (hhi : w.stop standard ≤ hi) :
    Apart standard lo hi [w] :=
  ⟨List.pairwise_singleton _ _, List.forall_mem_singleton.mpr ⟨hlo, hhi⟩⟩

theorem Apart.lower {lo lo' hi : Nat} (h : Apart standard lo hi ws) (hlo : lo' ≤ lo) :
    Apart standard lo' hi ws :=
  ⟨h.pairwise, fun w hw => ⟨hlo.trans (h.inside w hw).1, (h.inside w hw).2⟩⟩

theorem Apart.append {lo mid hi : Nat} (h : Apart standard lo mid ws)
    (h' : Apart standard mid hi ws') (hlo : lo ≤ mid) (hhi : mid ≤ hi) :
    Apart standard lo hi (ws ++ ws') := by
  refine ⟨List.pairwise_append.mpr ⟨h.pairwise, h'.pairwise, fun a ha b hb => ?_⟩, fun w hw => ?_⟩
  · have := (h.inside a ha).2
    have := (h'.inside b hb).1
    exact .inl (by omega)
  · rcases List.mem_append.mp hw with hw | hw
    · have := h.inside w hw
      omega
    · have := h'.inside w hw
      omega

theorem Clear.symm {a b : Write} (h : Clear standard a b) : Clear standard b a := Or.symm h

theorem Apart.perm {lo hi : Nat} (h : Apart standard lo hi ws) (hp : ws.Perm ws') :
    Apart standard lo hi ws' :=
  ⟨hp.pairwise h.pairwise fun h => h.symm, fun w hw => h.inside w (hp.mem_iff.mpr hw)⟩

theorem commit_append : commit standard buf (ws ++ ws') =
    (commit standard buf ws).bind fun out => commit standard out ws' :=
  List.foldlM_append

theorem commit_singleton : commit standard buf [w] = w.land standard buf := by
  rw [commit, List.foldlM_cons]
  cases w.land standard buf <;> rfl

/-- A write over some bytes' own extent puts its own in their place. -/
theorem land_between {before old after : List UInt8} (hpos : w.pos = before.length)
    (hlen : (w.bytes standard).length = old.length) :
    w.land standard (before ++ old ++ after) = some (before ++ w.bytes standard ++ after) := by
  have hstop : w.stop standard = (before ++ old).length := by
    rw [Write.stop, hpos, hlen, List.length_append]
  have hin : w.stop standard ≤ (before ++ old ++ after).length := by
    rw [hstop]
    simp only [List.length_append]
    omega
  rw [Write.land, if_pos hin, hstop, List.drop_left, hpos, List.append_assoc before old,
    List.take_left]

/-- The frame of the write loop: no byte outside the writes' extents changes. -/
theorem commit_frame (h : commit standard buf ws = some out) :
    out.length = buf.length ∧
      ∀ i, (∀ w ∈ ws, i < w.pos ∨ w.stop standard ≤ i) → out[i]? = buf[i]? := by
  induction ws generalizing buf with
  | nil =>
    cases h
    exact ⟨rfl, fun _ _ => rfl⟩
  | cons w ws ih =>
    obtain ⟨mid, hland, hrest⟩ := Option.bind_eq_some_iff.mp h
    obtain ⟨hlen, hframe⟩ := ih hrest
    unfold Write.land at hland
    split_ifs at hland with hin
    cases hland
    have hstop : w.pos + (w.bytes standard).length = w.stop standard := rfl
    have htake : (buf.take w.pos).length = w.pos := by
      rw [List.length_take]
      omega
    refine ⟨?_, fun i hi => ?_⟩
    · rw [hlen]
      simp only [List.length_append, htake, List.length_drop]
      omega
    · obtain ⟨hw, hws⟩ := List.forall_mem_cons.mp hi
      rw [hframe i hws, List.append_assoc]
      rcases hw with hlt | hge
      · rw [List.getElem?_append_left (by omega), List.getElem?_take_of_lt hlt]
      · rw [List.getElem?_append_right (by omega), List.getElem?_append_right (by omega),
          List.getElem?_drop]
        congr 1
        omega

end Commit

end ProtobufEdit.Inplace
