import ProtobufEdit.Loop

/-!
# Iterators as bounded loops

A pull runs a loop until it halts with an item, with the end, or with a fault. `Streams` is
what the pulls deliver one after another; `Emits` follows the turns through the pulls'
borders, so that runs compose.
-/

namespace Loop

section Pull

variable {σ ι ε : Type*}

/-- What a pull comes to: an item or the end, with the iterator behind it, or a fault. -/
abbrev Pull (ε ι σ : Type*) := Except ε (Option ι × σ)

variable (turn : σ → Turn σ (Pull ε ι σ))

/-- The turns from one state to another deliver the items. -/
inductive Emits : σ → List ι → σ → Prop where
  | refl (s : σ) : Emits s [] s
  | silent {s s₁ s' : σ} {items : List ι} : turn s = .next s₁ → Emits s₁ items s' →
      Emits s items s'
  | item {s s₁ s' : σ} {i : ι} {items : List ι} : turn s = .halt (.ok (some i, s₁)) →
      Emits s₁ items s' → Emits s (i :: items) s'

/-- Nothing more comes, and nothing changes. -/
def Spent (s : σ) : Prop := turn s = .halt (.ok (none, s))

/-- The pulls deliver the items, one each, and then the end for good. -/
inductive Streams (next : σ → Option (Pull ε ι σ)) : σ → List ι → Prop where
  | spent {s s' : σ} : next s = some (.ok (none, s')) → next s' = some (.ok (none, s')) →
      Streams next s []
  | item {s s' : σ} {i : ι} {items : List ι} : next s = some (.ok (some i, s')) →
      Streams next s' items → Streams next s (i :: items)

variable {turn} {s s' s'' : σ} {items items' : List ι}

theorem Emits.trans (h : Emits turn s items s') (h' : Emits turn s' items' s'') :
    Emits turn s (items ++ items') s'' := by
  induction h with
  | refl _ => exact h'
  | silent e _ ih => exact .silent e (ih h')
  | item e _ ih => exact .item e (ih h')

theorem Emits.next (h : Emits turn s items s') (e : turn s' = .next s'') :
    Emits turn s items s'' := by
  have := h.trans (.silent e (.refl s''))
  rwa [List.append_nil] at this

/-- The first pull over a run to a spent state. -/
theorem Emits.first (h : Emits turn s items s') (hs : Spent turn s') :
    match items with
    | [] => Yields turn s (.ok (none, s'))
    | i :: rest => ∃ s₁, Yields turn s (.ok (some i, s₁)) ∧ Emits turn s₁ rest s' := by
  induction h with
  | refl s => exact .halt hs
  | @silent s s₁ s' items e h ih =>
    have ih := ih hs
    cases items with
    | nil => exact .next e ih
    | cons i rest =>
      obtain ⟨s₂, hy, hrest⟩ := ih
      exact ⟨s₂, .next e hy, hrest⟩
  | item e h _ => exact ⟨_, .halt e, h⟩

/-- A run to a spent state is the whole of what the pulls deliver. -/
theorem Emits.streams {next : σ → Option (Pull ε ι σ)}
    (hnext : ∀ s r, Yields turn s r → next s = some r) (h : Emits turn s items s')
    (hs : Spent turn s') : Streams next s items := by
  induction items generalizing s with
  | nil => exact .spent (hnext _ _ (h.first hs)) (hnext _ _ (.halt hs))
  | cons i rest ih =>
    obtain ⟨s₁, hy, hrest⟩ := h.first hs
    exact .item (hnext _ _ hy) (ih hrest)

end Pull

end Loop
