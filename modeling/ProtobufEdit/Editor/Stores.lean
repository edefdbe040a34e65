import ProtobufEdit.Editor.Amend

/-!
# Payload stores

What a push, a set and a staged frame leave in the slots: the payload they took, and the
payloads that were there.
-/

namespace ProtobufEdit.Editor

open Wire Wire.Grouped Varint

namespace PayloadStore

variable {s s' : PayloadStore} {slot : Nat} {bytes : List UInt8} {supply : Supply}

/-- A slot holds what it held where the copied column grew. -/
theorem Holds.grow (h : s.Holds slot bytes) (hslot : s'.slots[slot]? = s.slots[slot]?)
    {more : List UInt8} (hcopied : s'.copied = s.copied ++ more) : s'.Holds slot bytes := by
  unfold Holds at h ⊢
  rw [hslot]
  cases hs : s.slots[slot]? with
  | none =>
    rw [hs] at h
    exact h
  | some entry =>
    rw [hs] at h
    cases entry with
    | borrowed b => exact h
    | borrowedParts parts => exact h
    | copied start len =>
      obtain ⟨hle, h⟩ := h
      rw [hcopied]
      refine ⟨by rw [List.length_append]; omega, ?_⟩
      rw [← h, List.drop_append_of_le_length (by omega), List.take_append_of_le_length]
      rw [List.length_drop]
      omega

/-- What an entry says. -/
def Says (s : PayloadStore) (entry : PayloadSlot) (bytes : List UInt8) : Prop :=
  match entry with
  | .borrowed b => b = bytes
  | .borrowedParts parts => parts.flatten = bytes
  | .copied start len => start + len ≤ s.copied.length ∧ (s.copied.drop start).take len = bytes

theorem holds_of_entry {entry : PayloadSlot} (hslot : s.slots[slot]? = some entry)
    (h : s.Says entry bytes) : s.Holds slot bytes := by
  unfold Holds
  rw [hslot]
  cases entry <;> exact h

/-- Bytes appended to the column are said by the extent they stand at. -/
theorem says_staged (s : PayloadStore) (staged : List UInt8) (slots : List PayloadSlot) :
    Says ⟨s.copied ++ staged, slots⟩ (.copied s.copied.length staged.length) staged := by
  refine ⟨by rw [List.length_append], ?_⟩
  rw [List.drop_left, List.take_length]

theorem shape_ok {entry : PayloadSlot} (h : s.shape supply = some (s', entry)) :
    s'.slots = s.slots ∧ (∃ more, s'.copied = s.copied ++ more) ∧
      ∀ slots, Says ⟨s'.copied, slots⟩ entry supply.bytes := by
  cases supply with
  | borrowed bytes =>
    cases h
    exact ⟨rfl, ⟨[], (List.append_nil _).symm⟩, fun _ => rfl⟩
  | parts pieces =>
    cases h
    exact ⟨rfl, ⟨[], (List.append_nil _).symm⟩, fun _ => rfl⟩
  | copied bytes =>
    unfold shape stage at h
    dsimp only at h
    split at h
    · cases h
      refine ⟨rfl, ⟨bytes, rfl⟩, fun slots => ?_⟩
      rw [Nat.add_sub_cancel]
      exact says_staged s bytes slots
    · cases h

/-- What a store took in a new slot. -/
structure Pushed (s s' : PayloadStore) (bytes : List UInt8) : Prop where
  slots : s'.slots.length = s.slots.length + 1
  holds : s'.Holds s.slots.length bytes
  keeps : ∀ slot bytes, s.Holds slot bytes → s'.Holds slot bytes

/-- What a store took in a slot it had. -/
structure Reset (s s' : PayloadStore) (slot : Nat) (bytes : List UInt8) : Prop where
  holds : s'.Holds slot bytes
  keeps : ∀ x bytes, x ≠ slot → s.Holds x bytes → s'.Holds x bytes

theorem pushed_of_entry {entry : PayloadSlot} {copied more : List UInt8}
    (hcopied : copied = s.copied ++ more) (h : Says ⟨copied, s.slots ++ [entry]⟩ entry bytes) :
    Pushed s ⟨copied, s.slots ++ [entry]⟩ bytes := by
  refine ⟨List.length_append, holds_of_entry List.getElem?_concat_length h, fun x b hx => ?_⟩
  exact hx.grow (List.getElem?_append_left hx.lt) hcopied

theorem reset_of_entry {entry : PayloadSlot} {copied more : List UInt8}
    (hslot : slot < s.slots.length) (hcopied : copied = s.copied ++ more)
    (h : Says ⟨copied, s.slots.set slot entry⟩ entry bytes) :
    Reset s ⟨copied, s.slots.set slot entry⟩ slot bytes := by
  refine ⟨holds_of_entry (List.getElem?_set_self hslot) h, fun x b hne hx => ?_⟩
  exact hx.grow (List.getElem?_set_ne (Ne.symm hne)) hcopied

theorem mint_eq {len x : Nat} (h : mint len = some x) : x = len := by
  unfold mint at h
  split at h
  · exact (Option.some.inj h).symm
  · cases h

theorem push_ok (h : s.push supply = some (s', slot)) :
    slot = s.slots.length ∧ Pushed s s' supply.bytes := by
  unfold push at h
  split at h
  · cases h
  · next hm =>
    split at h
    · cases h
    · next hs =>
      cases h
      obtain ⟨hslots, ⟨more, hcopied⟩, htells⟩ := shape_ok hs
      refine ⟨mint_eq hm, ?_⟩
      rw [hslots]
      exact pushed_of_entry hcopied (htells _)

theorem set_ok (h : s.set slot supply = some s') (hslot : slot < s.slots.length) :
    Reset s s' slot supply.bytes := by
  unfold set at h
  split at h
  · cases h
  · next hs =>
    cases h
    obtain ⟨hslots, ⟨more, hcopied⟩, htells⟩ := shape_ok hs
    rw [hslots]
    exact reset_of_entry hslot hcopied (htells _)

/-! ## Staged bytes -/

/-- The store while a frame stands open: the staged bytes are the column's tail. -/
def staged (s : PayloadStore) (bytes : List UInt8) : PayloadStore :=
  { s with copied := s.copied ++ bytes }

theorem staged_nil (s : PayloadStore) : s.staged [] = s := by
  unfold staged
  rw [List.append_nil]

@[simp] theorem stagedLen_staged (s : PayloadStore) (bytes : List UInt8) :
    (s.staged bytes).stagedLen s.stageMark = bytes.length := by
  unfold stagedLen staged stageMark
  rw [List.length_append, Nat.add_sub_cancel_left]

/-- A dropped frame leaves nothing. -/
@[simp] theorem stageAbandon_staged (s : PayloadStore) (bytes : List UInt8) :
    (s.staged bytes).stageAbandon s.stageMark = s := by
  unfold stageAbandon staged stageMark
  rw [List.take_left]

theorem stageFinishPush_ok (h : (s.staged bytes).stageFinishPush s.stageMark = some (s', slot)) :
    slot = s.slots.length ∧ Pushed s s' bytes := by
  unfold stageFinishPush at h
  rw [stagedLen_staged] at h
  split at h
  · cases h
  · next hm =>
    cases h
    exact ⟨mint_eq hm, pushed_of_entry rfl (says_staged s bytes _)⟩

theorem stageFinishSet_ok (hslot : slot < s.slots.length) :
    Reset s ((s.staged bytes).stageFinishSet slot s.stageMark) slot bytes := by
  unfold stageFinishSet
  rw [stagedLen_staged]
  exact reset_of_entry hslot rfl (says_staged s bytes _)

end PayloadStore

namespace Machine

open PayloadStore

/-- A write stages its chunk, or leaves the store. -/
theorem write_staged (s : PayloadStore) (declared : Option Nat) (bytes chunk : List UInt8) :
    (write s.stageMark declared (s.staged bytes) chunk).1 =
      s.staged (bytes ++ if (write s.stageMark declared (s.staged bytes) chunk).2.isOk then chunk
        else []) := by
  have hkeep : s.staged bytes = s.staged (bytes ++ []) := by rw [List.append_nil]
  have htake : ({ s.staged bytes with copied := (s.staged bytes).copied ++ chunk } : PayloadStore) =
      s.staged (bytes ++ chunk) := by
    unfold staged
    dsimp only
    rw [List.append_assoc]
  unfold write
  dsimp only
  cases declared with
  | none =>
    dsimp only
    split
    · exact hkeep
    · unfold stageChunk
      split
      · next he =>
        split at he
        · cases he
        · exact hkeep
      · next he =>
        split at he
        · cases he
          exact htake
        · cases he
  | some len =>
    dsimp only
    split
    · exact hkeep
    · exact htake

/-- A frame's writes stage the chunks they took. -/
theorem writes_staged (s : PayloadStore) (declared : Option Nat) (bytes : List UInt8)
    (chunks : List (List UInt8)) (handle : Option Nat) :
    (writes s.stageMark declared (s.staged bytes) chunks).1 =
      s.staged (bytes ++ Framed.staged
        ⟨(writes s.stageMark declared (s.staged bytes) chunks).2, handle⟩ chunks) := by
  induction chunks generalizing bytes with
  | nil =>
    show s.staged bytes = s.staged (bytes ++ [])
    rw [List.append_nil]
  | cons chunk chunks ih =>
    unfold writes
    dsimp only
    rw [write_staged, ih]
    unfold Framed.staged
    rw [List.zip_cons_cons, List.append_assoc, List.filter_cons]
    cases hok : (write s.stageMark declared (s.staged bytes) chunk).2 with
    | error fault => rfl
    | ok u => rfl

end Machine

end ProtobufEdit.Editor
