import ProtobufEdit.Editor.Stores

/-!
# Values commanded

Replacements and deletions, on the machine and on the document it stands for.
-/

namespace ProtobufEdit.Editor

open Wire Wire.Grouped Varint Arena

/-- The machine models a forest of the document's records. -/
def Machine.StandsFor (m : Machine) (d : Doc) : Prop := ∃ t, Models m t ∧ entries t = d

section Replace

variable {m m' : Machine} {t : Forest Node} {i : Nat} {c : Cell Row}

theorem Models.at_row (h : Models m t) (hc : m.rows[i]? = some c) :
    ∃ n kids, t.find i = some n ∧ t.kidsOf i = some kids ∧ c.body = n.row ∧
      NodeSound m i n kids := by
  obtain ⟨n, hn, he⟩ := h.find hc
  obtain ⟨kids, hkids, hs⟩ := h.nodes.find hn
  exact ⟨n, kids, hn, hkids, he, hs⟩

theorem gate_ok (h : m.gate i = .ok c) : m.rows[i]? = some c := by
  unfold Machine.gate at h
  split at h
  · next hc =>
    cases h
    exact hc
  · cases h

/-- What another row says does not hang on the words behind row `i`'s slot. -/
theorem Models.other_words (h : Models m t) (hc : m.rows[i]? = some c) {words : List Nat}
    (hwords : ∀ x < m.words.length, (c.body.ownsWord → x ≠ c.body.value) →
      words[x]? = m.words[x]?) {x : Nat} {c' : Cell Row} {e : Entry} (hx : x ≠ i)
    (hc' : m.rows[x]? = some c') (hs : Said m c'.body e) :
    Said { m with words := words } c'.body e := by
  refine hs.frame (fun ho => hwords _ (hs.word_lt ho) fun hown he => ?_) fun _ _ hp => hp
  exact hx (h.owns.word x i c' c hc' hc ho hown he)

theorem Models.other_payloads (h : Models m t) (hc : m.rows[i]? = some c) {payloads : PayloadStore}
    (hpayloads : ∀ x bytes, (c.body.ownsPayload → x ≠ c.body.value) → m.payloads.Holds x bytes →
      payloads.Holds x bytes) {x : Nat} {c' : Cell Row} {e : Entry} (hx : x ≠ i)
    (hc' : m.rows[x]? = some c') (hs : Said m c'.body e) :
    Said { m with payloads := payloads } c'.body e := by
  refine hs.frame (fun _ => rfl) fun ho bytes hp => hpayloads _ bytes (fun hown he => ?_) hp
  exact hx (h.owns.payload x i c' c hc' hc ho hown he)

theorem not_ownsPayload {r : Row} (hl : r.kind ≠ .len) : ¬ r.ownsPayload := fun ho => hl ho.2

theorem setRow_id (m : Machine) (i : Nat) : m.setRow i id = m := by
  unfold Machine.setRow
  have hid : (Cell.map id : Cell Row → Cell Row) = id := rfl
  rw [hid, List.modify_id]

/-! ## Scalars -/

/-- A scalar set is the record's value replaced. -/
theorem Models.setScalar (h : Models m t) {want : RecordKind} {value : Nat} (hl : want ≠ .len)
    (hg : want ≠ .group) (hv : value < 2 ^ 64) (h32 : want = .i32 → value < 2 ^ 32)
    (he : m.setScalar i want value = (m', .ok ())) :
    m'.StandsFor ((entries t).modify i (Doc.setWord value)) := by
  unfold Machine.setScalar at he
  split at he
  · cases he
  next c hgate =>
  have hc := gate_ok hgate
  obtain ⟨n, kids, hn, -, hrow, hs⟩ := h.at_row hc
  dsimp only at he
  split at he
  · cases he
  next hk =>
  have hkind : n.row.kind = want := hrow ▸ not_not.mp hk
  have hlen : n.row.kind ≠ .len := hkind ▸ hl
  have hgroup : n.row.kind ≠ .group := hkind ▸ hg
  split at he
  · cases he
  have hentry : Doc.setWord value n.entry = n.entry.recast (.word value) n.row.deleted := by
    rw [hs.sound.deleted]
    rfl
  have hlawful : (Doc.setWord value n.entry).Lawful m.standard :=
    ⟨hs.sound.lawful.met, by rintro v ⟨⟩; exact ⟨hv, fun hi => h32 (by rw [← hkind, ← hi]; exact hs.sound.kind)⟩, nofun⟩
  have hnopay : ∀ r : Row, r.kind = n.row.kind → Free Row.ownsPayload m.rows i r :=
    fun r hr ho => absurd ho (not_ownsPayload (hr ▸ hlen))
  have hauthored : n.row.base = .replaced ∨ n.row.base = .inserted →
      m' = ({ m with words := m.words.set n.row.value value } : Machine).markDirty (some i) →
      m'.StandsFor ((entries t).modify i (Doc.setWord value)) := by
    intro hb hm
    have hown : n.row.ownsWord := ⟨hb, hlen, hgroup⟩
    have hlt := hs.sound.said.word_lt hown
    rw [hm, ← setRow_id { m with words := m.words.set n.row.value value } i]
    have hrecast : id n.row =
        n.row.recast n.row.value n.row.base n.row.deleted n.row.faulted n.row.dirty := rfl
    refine h.amend hn (fun _ => rfl) hrecast hentry (.inl rfl) ⟨?_, hnopay _ rfl⟩
      (.word rfl hb hlen hgroup (List.getElem?_set_self hlt)) ?_ hlawful
    · exact h.owns.word.free hc (fun _ => hrow ▸ hown) (by rw [hrow]; rfl)
    · intro x c' e hx hc' hsaid
      refine h.other_words hc (fun y _ hy => ?_) hx hc' hsaid
      exact List.getElem?_set_ne fun hvy => hy (hrow ▸ hown) (by rw [hrow]; exact hvy.symm)
  rw [hrow] at he
  split at he
  · next hb =>
    cases he
    exact hauthored (.inl hb) rfl
  · next hb =>
    cases he
    exact hauthored (.inr hb) rfl
  · next hb =>
    split at he
    · cases he
    · next hm =>
      cases he
      rw [if_pos hb]
      have hslot := PayloadStore.mint_eq hm
      subst hslot
      have hrecast : Row.setReplaced { n.row with value := m.words.length } =
          n.row.recast m.words.length .replaced n.row.deleted n.row.faulted n.row.dirty := rfl
      refine h.amend hn (fun _ => rfl) hrecast hentry (.inr ⟨hb, rfl⟩)
        ⟨h.free_word i (Nat.le_refl _), hnopay _ rfl⟩
        (.word rfl (.inl rfl) hlen hgroup List.getElem?_concat_length) ?_ hlawful
      intro x c' e hx hc' hsaid
      exact h.other_words hc (fun y hy _ => List.getElem?_append_left hy) hx hc' hsaid
  · next hb => exact absurd (hrow ▸ hb) (h.plain i c hc).base

/-! ## Payloads -/

/-- The payload's bytes are in the slot: a new one, or the row's own. -/
inductive Supplied (s s' : PayloadStore) (r : Row) (slot : Nat) (bytes : List UInt8) : Prop where
  | pushed : r.base = .intact → slot = s.slots.length → s.Pushed s' bytes → Supplied s s' r slot bytes
  | reset : r.base = .replaced ∨ r.base = .inserted → slot = r.value → s.Reset s' slot bytes →
      Supplied s s' r slot bytes

/-- A payload committed is the record's payload replaced. -/
theorem Models.payloadSetCommit (h : Models m t) (hc : m.rows[i]? = some c)
    (hk : c.body.kind = .len) (ho : c.body.opened = false) {payloads : PayloadStore} {slot : Nat}
    {bytes : List UInt8} (hcap : bytes.length ≤ PayloadLen.max)
    (hp : Supplied m.payloads payloads c.body slot bytes) :
    (({ m with payloads } : Machine).payloadSetCommit i slot).StandsFor
      ((entries t).modify i (Doc.setPayload bytes)) := by
  obtain ⟨n, kids, hn, -, hrow, hs⟩ := h.at_row hc
  rw [hrow] at hk ho hp
  have hentry : Doc.setPayload bytes n.entry = n.entry.recast (.payload bytes) n.row.deleted := by
    rw [hs.sound.deleted]
    rfl
  have hlawful : (Doc.setPayload bytes n.entry).Lawful m.standard :=
    ⟨hs.sound.lawful.met, nofun, by rintro b ⟨⟩; exact hcap⟩
  have hnoword : ∀ r : Row, r.kind = n.row.kind → Free Row.ownsWord m.rows i r :=
    fun r hr hown => absurd (hr.trans hk) hown.2.1
  have hcast : ∀ base, n.row.reauthored = base →
      ({ n.row with value := slot, faulted := false, base := n.row.reauthored } : Row) =
        n.row.recast slot base n.row.deleted false n.row.dirty := by
    rintro base rfl
    rfl
  unfold Machine.payloadSetCommit
  rcases hp with ⟨hb, rfl, hp⟩ | ⟨hb, rfl, hp⟩
  · have hre : n.row.reauthored = .replaced := by
      unfold Row.reauthored
      rw [hb]
    refine h.amend hn (fun _ => rfl) (hcast _ hre) hentry (.inr ⟨hb, rfl⟩)
      ⟨hnoword _ rfl, h.free_payload i (Nat.le_refl _)⟩
      (.payload rfl (.inl hre) hk ho hp.holds) ?_ hlawful
    intro x c' e hx hc' hsaid
    exact h.other_payloads hc (fun y b _ hy => hp.keeps y b hy) hx hc' hsaid
  · have hre : n.row.reauthored = n.row.base := by
      unfold Row.reauthored
      rcases hb with hb | hb <;> rw [hb]
    have hown : n.row.ownsPayload := ⟨hb, hk⟩
    refine h.amend hn (fun _ => rfl) (hcast _ hre) hentry (.inl rfl) ⟨hnoword _ rfl, ?_⟩
      (.payload rfl (hre ▸ hb) hk ho hp.holds) ?_ hlawful
    · exact h.owns.payload.free hc (fun _ => hrow ▸ hown) (by rw [hrow])
    · intro x c' e hx hc' hsaid
      refine h.other_payloads hc (fun y b hy => hp.keeps y b ?_) hx hc' hsaid
      rw [← hrow]
      exact hy (hrow ▸ hown)

theorem payloadSetGate_ok {len : Nat} (he : m.payloadSetGate i len = .ok c) :
    m.rows[i]? = some c ∧ c.body.kind = .len ∧ c.body.opened = false ∧ len ≤ PayloadLen.max := by
  unfold Machine.payloadSetGate at he
  split at he
  · cases he
  next b hgate =>
  by_cases hk : b.body.kind = .len
  · by_cases hd : b.body.deleted = true
    · rw [if_neg (not_not.mpr hk), if_pos hd] at he
      cases he
    · by_cases ho : b.body.opened = true
      · rw [if_neg (not_not.mpr hk), if_neg hd, if_pos ho] at he
        cases he
      · rw [if_neg (not_not.mpr hk), if_neg hd, if_neg ho] at he
        split at he
        · cases he
        · next hcap =>
          cases he
          exact ⟨gate_ok hgate, hk, Bool.eq_false_of_not_eq_true ho, Nat.not_lt.mp hcap⟩
  · rw [if_pos hk] at he
    cases he

/-- A payload set is the record's payload replaced. -/
theorem Models.setPayload (h : Models m t) {supply : Supply}
    (he : m.setPayload i supply = (m', .ok ())) :
    m'.StandsFor ((entries t).modify i (Doc.setPayload supply.bytes)) := by
  unfold Machine.setPayload at he
  split at he
  · cases he
  next c hgate =>
  obtain ⟨hc, hk, ho, hcap⟩ := payloadSetGate_ok hgate
  obtain ⟨n, kids, -, -, hrow, hs⟩ := h.at_row hc
  have hreset : c.body.base = .replaced ∨ c.body.base = .inserted → ∀ payloads,
      m.payloads.set c.body.value supply = some payloads →
      Supplied m.payloads payloads c.body c.body.value supply.bytes := by
    intro hb payloads hset
    refine .reset hb rfl (PayloadStore.set_ok hset ?_)
    rw [hrow] at hb hk ⊢
    exact hs.sound.said.payload_lt ⟨hb, hk⟩
  have hpush : c.body.base = .intact → ∀ payloads slot,
      m.payloads.push supply = some (payloads, slot) →
      Supplied m.payloads payloads c.body slot supply.bytes := by
    intro hb payloads slot hpush
    obtain ⟨rfl, hp⟩ := PayloadStore.push_ok hpush
    exact .pushed hb rfl hp
  split at he
  · next hb =>
    split at he
    · cases he
    · next hp =>
      cases he
      exact h.payloadSetCommit hc hk ho hcap (hpush hb _ _ hp)
  · next hb => exact absurd hb (h.plain i c hc).base
  · next hb =>
    split at he
    · cases he
    · next hp =>
      cases he
      exact h.payloadSetCommit hc hk ho hcap (hreset (.inl hb) _ hp)
  · next hb =>
    split at he
    · cases he
    · next hp =>
      cases he
      exact h.payloadSetCommit hc hk ho hcap (hreset (.inr hb) _ hp)

/-! ## Deletions -/

theorem Models.delete (h : Models m t) (he : m.delete i = (m', .ok ())) :
    m'.StandsFor ((entries t).modify i Doc.setDeleted) := by
  unfold Machine.delete at he
  split at he
  · cases he
  next c hgate =>
  have hc := gate_ok hgate
  obtain ⟨n, kids, hn, -, hrow, hs⟩ := h.at_row hc
  split at he
  · cases he
  cases he
  have hsame : ∀ {owns : Row → Prop}, Distinct owns m.rows → (owns n.row.setDeleted → owns n.row) →
      Free owns m.rows i n.row.setDeleted :=
    fun hd ho => hd.free hc (fun hown => hrow ▸ ho hown) (by rw [hrow]; rfl)
  have hrecast : n.row.setDeleted =
      n.row.recast n.row.value n.row.base true n.row.faulted n.row.dirty := rfl
  have hentry : Doc.setDeleted n.entry = n.entry.recast n.entry.content true := rfl
  have hsaid : Said m n.row.setDeleted (Doc.setDeleted n.entry) := by
    rcases hs.sound.said with ⟨hk, hb⟩ | ⟨hk, hb, hl, hg, hw⟩ | ⟨hk, hb, hl, ho, hp⟩
    · exact .kept hk hb
    · exact .word hk hb hl hg hw
    · exact .payload hk hb hl ho hp
  exact h.amend hn (fun _ => rfl) hrecast hentry (.inl rfl)
    ⟨hsame h.owns.word fun hown => hown, hsame h.owns.payload fun hown => hown⟩ hsaid
    (fun _ _ _ _ _ hsaid => hsaid)
    ⟨hs.sound.lawful.met, hs.sound.lawful.word, hs.sound.lawful.payload⟩
end Replace

end ProtobufEdit.Editor
