import ProtobufEdit.Arena
import ProtobufEdit.Loop

/-!
# Walks over a forest in an arena

A walk goes from cell to cell along the links: past a node, or into its children and out again.
It keeps the way out in a context of its own, a stack or the parent links. What a walk's turns do
at a node is a `Visit`; the walk over a laid out forest then comes to what the visit comes to by
recursion over the forest.
-/

namespace Arena

open Loop

/-- What a walk does at a node. -/
inductive Met (σ ρ : Type) where
  | halted (r : ρ)
  | passed (s : σ)
  | entered (s : σ)

/-- What a walk does with its data: at a node, and behind the children of one it went into, given
the data in front of the node and the data behind the children. -/
structure Visit (σ ρ : Type) where
  meet : Nat → σ → Met σ ρ
  leave : Nat → σ → σ → Except ρ σ

namespace Visit

variable {σ ρ β : Type}

def fold (v : Visit σ ρ) : Forest β → σ → Except ρ σ
  | .nil, s => .ok s
  | .node id _ kids rest, s =>
    match v.meet id s with
    | .halted r => .error r
    | .passed s' => v.fold rest s'
    | .entered inner =>
      match v.fold kids inner with
      | .error r => .error r
      | .ok behind =>
        match v.leave id s behind with
        | .error r => .error r
        | .ok s' => v.fold rest s'

end Visit

section Follows

variable {α β σ ρ κ S : Type} {cells : List (Cell α)}

/-- The turns of a walk are those of a visit. `state` is the walk's state in a context, at a link,
with some data; `fits` says which contexts belong to the layers of a parent. -/
structure Follows (cells : List (Cell α)) (turn : S → Turn S ρ) (v : Visit σ ρ)
    (state : κ → Option Nat → σ → S) (push : κ → Nat → σ → κ) (fits : κ → Option Nat → Prop) :
    Prop where
  push_fits : ∀ context id s, fits (push context id s) (some id)
  halted : ∀ {context parent next kid a id s r}, fits context parent →
    cells[id]? = some ⟨parent, next, kid, a⟩ → v.meet id s = .halted r →
    turn (state context (some id) s) = .halt r
  passed : ∀ {context parent next kid a id s s'}, fits context parent →
    cells[id]? = some ⟨parent, next, kid, a⟩ → v.meet id s = .passed s' →
    turn (state context (some id) s) = .next (state context next s')
  entered : ∀ {context parent next kid a id s s'}, fits context parent →
    cells[id]? = some ⟨parent, next, kid, a⟩ → v.meet id s = .entered s' →
    turn (state context (some id) s) = .next (state (push context id s) kid s')
  refused : ∀ {context parent next kid a id s inner s' r}, fits context parent →
    cells[id]? = some ⟨parent, next, kid, a⟩ → v.meet id s = .entered inner →
    v.leave id s s' = .error r → turn (state (push context id s) none s') = .halt r
  left : ∀ {context parent next kid a id s inner s' behind}, fits context parent →
    cells[id]? = some ⟨parent, next, kid, a⟩ → v.meet id s = .entered inner →
    v.leave id s s' = .ok behind →
    turn (state (push context id s) none s') = .next (state context next behind)

variable {turn : S → Turn S ρ} {v : Visit σ ρ} {state : κ → Option Nat → σ → S}
  {push : κ → Nat → σ → κ} {fits : κ → Option Nat → Prop} {body : β → α}

/-- A walk over a layer: to its end, or to a halt. A node costs at most two turns. -/
inductive Walked (turn : S → Turn S ρ) (bound : Nat) (s : S) (ends : σ → S) :
    Except ρ σ → Prop where
  | ended {n : Nat} {s' : σ} : Takes turn n s (ends s') → n ≤ bound →
      Walked turn bound s ends (.ok s')
  | halted {n : Nat} {s' : S} {r : ρ} : Takes turn n s s' → n < bound → turn s' = .halt r →
      Walked turn bound s ends (.error r)

theorem Walked.behind {n bound bound' : Nat} {s s' : S} {ends : σ → S} {x : Except ρ σ}
    (h : Walked turn bound s' ends x) (ht : Takes turn n s s') (hb : n + bound ≤ bound') :
    Walked turn bound' s ends x := by
  cases h with
  | ended h hn => exact .ended (ht.trans h) (by omega)
  | halted h hn e => exact .halted (ht.trans h) (by omega) e

/-- A walk over a layer comes to what its visit comes to. -/
theorem Follows.layer (h : Follows cells turn v state push fits) {parent first : Option Nat}
    {t : Forest β} (hc : Chain body cells parent first t) {context : κ} (hf : fits context parent)
    (s : σ) : Walked turn (2 * t.size) (state context first s) (state context none)
      (v.fold t s) := by
  induction hc generalizing context s with
  | nil => exact .ended (.refl _) (Nat.zero_le _)
  | @node parent next kid id b kids rest hcell hkids hrest ihk ihr =>
    have hsize : (Forest.node id b kids rest).size = kids.size + rest.size + 1 := by
      simp only [Forest.size, Forest.ids, List.length_cons, List.length_append]
    rw [Visit.fold, hsize]
    cases hm : v.meet id s with
    | halted r => exact .halted (.refl _) (by omega) (h.halted hf hcell hm)
    | passed s' =>
      exact (ihr hf s').behind (.head (h.passed hf hcell hm) (.refl _)) (by omega)
    | entered inner =>
      have hin : Takes turn 1 (state context (some id) s) (state (push context id s) kid inner) :=
        .head (h.entered hf hcell hm) (.refl _)
      have hwalk := ihk (h.push_fits context id s) inner
      simp only
      cases hx : v.fold kids inner with
      | error r =>
        rw [hx] at hwalk
        cases hwalk with
        | halted hk hn e => exact .halted (hin.trans hk) (by omega) e
      | ok behind =>
        rw [hx] at hwalk
        cases hwalk with
        | ended hk hn =>
          simp only
          cases hl : v.leave id s behind with
          | error r =>
            exact .halted (hin.trans hk) (by omega) (h.refused hf hcell hm hl)
          | ok s' =>
            have hout := Takes.head (h.left hf hcell hm hl) (.refl _)
            exact (ihr hf s').behind ((hin.trans hk).trans hout) (by omega)

/-- A walk over a whole forest, run with the turns it takes. -/
theorem Follows.run (h : Follows cells turn v state push fits) {parent first : Option Nat}
    {t : Forest β} (hc : Chain body cells parent first t) (context : κ) (hf : fits context parent)
    (final : σ → ρ) (hend : ∀ s, turn (state context none s) = .halt (final s)) {fuel : Nat}
    (hfuel : 2 * t.size < fuel) (s : σ) :
    Loop.run turn fuel (state context first s) =
      some (match v.fold t s with | .ok s' => final s' | .error r => r) := by
  have hw := h.layer hc hf s
  cases hx : v.fold t s with
  | ok s' =>
    rw [hx] at hw
    cases hw with
    | ended ht hn => exact ht.halts (hend s') (by omega)
  | error r =>
    rw [hx] at hw
    cases hw with
    | halted ht hn e => exact ht.halts e (by omega)

/-- A forest laid out in an arena has no more nodes than the arena has cells. -/
theorem Chain.size_le {parent first : Option Nat} {t : Forest β}
    (h : Chain body cells parent first t) (hnodup : t.ids.Nodup) : t.size ≤ cells.length := by
  have hsub : t.ids ⊆ List.range cells.length := fun x hx => List.mem_range.mpr (h.lt hx)
  have hlen := (List.subperm_of_subset hnodup hsub).length_le
  rwa [List.length_range] at hlen

end Follows

end Arena
