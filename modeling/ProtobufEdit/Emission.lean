import Mathlib.Data.List.Basic
import Mathlib.Tactic.Common

/-!
# Edited documents

A document cut into what an edit keeps, drops, replaces and frames anew, with containers
whose interiors are edited in turn. `source` is the document it came from and `render` the
document it becomes; a container no edit touches renders as it stood. A length prefix is
kept while the interior keeps its length, and spelled anew (`spell`) otherwise.
-/

namespace Emission

/-- New symbols in pieces, their number known ahead. -/
structure Authored (α : Type) where
  size : Nat
  pieces : List (List α)
  size_eq : pieces.flatten.length = size

/-- A run of edited records, each with the mark of the edit that made it. -/
inductive Doc (α ι : Type) where
  | nil
  | copy (bytes : List α) (rest : Doc α ι)
  | drop (mark : ι) (bytes : List α) (rest : Doc α ι)
  | author (mark : ι) (old : List α) (new : Authored α) (rest : Doc α ι)
  | replace (mark : ι) (tag old : List α) (new : Authored α) (rest : Doc α ι)
  | frame (mark : ι) (old : List α) (opener : Authored α) (inner : Doc α ι)
      (closer : Authored α) (rest : Doc α ι)
  | cross (tag word : List α) (inner rest : Doc α ι)

/-- What a container's interior comes to: a new length, or how many containers it holds. -/
inductive Slot where
  | dirty (newLen : Nat)
  | clean (descendants : Nat)
  deriving DecidableEq, Repr

namespace Doc

variable {α ι τ : Type}

def source : Doc α ι → List α
  | nil => []
  | copy bytes rest => bytes ++ rest.source
  | drop _ bytes rest => bytes ++ rest.source
  | author _ old _ rest => old ++ rest.source
  | replace _ tag old _ rest => tag ++ old ++ rest.source
  | frame _ old _ inner _ rest => old ++ inner.source ++ rest.source
  | cross tag word inner rest => tag ++ word ++ inner.source ++ rest.source

def append : Doc α ι → Doc α ι → Doc α ι
  | nil, d => d
  | copy bytes rest, d => copy bytes (rest.append d)
  | drop mark bytes rest, d => drop mark bytes (rest.append d)
  | author mark old new rest, d => author mark old new (rest.append d)
  | replace mark tag old new rest, d => replace mark tag old new (rest.append d)
  | frame mark old opener inner closer rest, d =>
    frame mark old opener inner closer (rest.append d)
  | cross tag word inner rest, d => cross tag word inner (rest.append d)

/-- Some symbol was authored or dropped, here or inside. -/
def dirty : Doc α ι → Bool
  | nil => false
  | copy _ rest => rest.dirty
  | drop _ _ _ => true
  | author _ _ _ _ => true
  | replace _ _ _ _ _ => true
  | frame _ _ _ _ _ _ => true
  | cross _ _ inner rest => inner.dirty || rest.dirty

/-- The counts over the containers walked: all of them, or only those an edit touched. -/
def tally (note : ι → τ → τ) (descend : τ → τ) (all : Bool) : Doc α ι → τ → τ
  | nil, t => t
  | copy _ rest, t => tally note descend all rest t
  | drop mark _ rest, t => tally note descend all rest (note mark t)
  | author mark _ _ rest, t => tally note descend all rest (note mark t)
  | replace mark _ _ _ rest, t => tally note descend all rest (note mark t)
  | frame mark _ _ inner _ rest, t =>
    tally note descend all rest (tally note descend all inner (note mark t))
  | cross _ _ inner rest, t =>
    tally note descend all rest
      (if all || inner.dirty then tally note descend all inner (descend t) else t)

/-- The marks of the edits made, in order. -/
def marks : Doc α ι → List ι
  | nil => []
  | copy _ rest => rest.marks
  | drop mark _ rest => mark :: rest.marks
  | author mark _ _ rest => mark :: rest.marks
  | replace mark _ _ _ rest => mark :: rest.marks
  | frame mark _ _ inner _ rest => mark :: inner.marks ++ rest.marks
  | cross _ _ inner rest => inner.marks ++ rest.marks

/-- How many containers are walked: all of them, or only those an edit touched. -/
def crossings (all : Bool) : Doc α ι → Nat
  | nil => 0
  | copy _ rest => rest.crossings all
  | drop _ _ rest => rest.crossings all
  | author _ _ _ rest => rest.crossings all
  | replace _ _ _ _ rest => rest.crossings all
  | frame _ _ _ inner _ rest => inner.crossings all + rest.crossings all
  | cross _ _ inner rest =>
    (if all || inner.dirty then inner.crossings all + 1 else 0) + rest.crossings all

/-- Some container is touched by no edit. -/
def idle : Doc α ι → Bool
  | nil => false
  | copy _ rest => rest.idle
  | drop _ _ rest => rest.idle
  | author _ _ _ rest => rest.idle
  | replace _ _ _ _ rest => rest.idle
  | frame _ _ _ inner _ rest => inner.idle || rest.idle
  | cross _ _ inner rest => !inner.dirty || inner.idle || rest.idle

section Render

variable (spell : Nat → List α)

def render : Doc α ι → List α
  | nil => []
  | copy bytes rest => bytes ++ rest.render
  | drop _ _ rest => rest.render
  | author _ _ new rest => new.pieces.flatten ++ rest.render
  | replace _ tag _ new rest => tag ++ new.pieces.flatten ++ rest.render
  | frame _ _ opener inner closer rest =>
    opener.pieces.flatten ++ inner.render ++ closer.pieces.flatten ++ rest.render
  | cross tag word inner rest =>
    tag ++ (if inner.render.length = inner.source.length then word
      else spell inner.render.length) ++ inner.render ++ rest.render

/-- One slot a container, in pre-order. -/
def slots : Doc α ι → List Slot
  | nil => []
  | copy _ rest => rest.slots
  | drop _ _ rest => rest.slots
  | author _ _ _ rest => rest.slots
  | replace _ _ _ _ rest => rest.slots
  | frame _ _ _ inner _ rest => inner.slots ++ rest.slots
  | cross _ _ inner rest =>
    (if inner.dirty then .dirty (inner.render spell).length else .clean inner.slots.length) ::
      inner.slots ++ rest.slots

/-- Every container's interior stays in the class `cap` bounds. -/
def Fits (cap : Nat) : Doc α ι → Prop
  | nil => True
  | copy _ rest => rest.Fits cap
  | drop _ _ rest => rest.Fits cap
  | author _ _ _ rest => rest.Fits cap
  | replace _ _ _ _ rest => rest.Fits cap
  | frame _ _ _ inner _ rest => inner.Fits cap ∧ rest.Fits cap
  | cross _ _ inner rest =>
    inner.Fits cap ∧ (inner.render spell).length ≤ cap ∧ rest.Fits cap

end Render

/-- Every container is introduced by a tag and a length prefix. -/
def Tagged : Doc α ι → Prop
  | nil => True
  | copy _ rest => rest.Tagged
  | drop _ _ rest => rest.Tagged
  | author _ _ _ rest => rest.Tagged
  | replace _ _ _ _ rest => rest.Tagged
  | frame _ _ _ inner _ rest => inner.Tagged ∧ rest.Tagged
  | cross tag word inner rest => tag ≠ [] ∧ word ≠ [] ∧ inner.Tagged ∧ rest.Tagged

attribute [grind =] source append dirty tally marks crossings idle render slots Fits Tagged

section Laws

variable {spell : Nat → List α} {d e : Doc α ι} {cap : Nat}

/-- A document no edit touches renders as it stood. -/
theorem render_of_clean (h : d.dirty = false) : d.render spell = d.source := by
  induction d with
  | nil => rfl
  | copy bytes rest ih => rw [render, source, ih h]
  | drop | author | replace | frame => cases h
  | cross tag word inner rest ihi ihr =>
    obtain ⟨hi, hr⟩ := Bool.or_eq_false_iff.mp h
    simp only [render, source, ihi hi, ihr hr, if_true]

theorem marks_of_clean (h : d.dirty = false) : d.marks = [] := by
  induction d with
  | nil => rfl
  | copy bytes rest ih => exact ih h
  | drop | author | replace | frame => cases h
  | cross tag word inner rest ihi ihr =>
    obtain ⟨hi, hr⟩ := Bool.or_eq_false_iff.mp h
    rw [marks, ihi hi, ihr hr, List.append_nil]

/-- A count that ignores the containers is the marks' alone, whichever are walked. -/
theorem tally_marks {ρ : Type} {note : ι → τ → τ} {descend : τ → τ} {all : Bool}
    (count : τ → ρ) (next : ι → ρ → ρ) (hnote : ∀ mark t, count (note mark t) = next mark (count t))
    (hdescend : ∀ t, count (descend t) = count t) (t : τ) :
    count (d.tally note descend all t) = d.marks.foldl (fun r mark => next mark r) (count t) := by
  induction d generalizing t with
  | nil => rfl
  | copy bytes rest ih => exact ih t
  | drop mark bytes rest ih | author mark old new rest ih | replace mark tag old new rest ih =>
    simp only [tally, marks, List.foldl_cons, ih, hnote]
  | frame mark old opener inner closer rest ihi ihr =>
    simp only [tally, marks, List.foldl_append, List.foldl_cons, List.cons_append, ihr, ihi, hnote]
  | cross tag word inner rest ihi ihr =>
    simp only [tally, marks, List.foldl_append, ihr]
    split
    · rw [ihi, hdescend]
    · next h =>
      have hclean : inner.dirty = false := by
        cases hd : inner.dirty with
        | false => rfl
        | true => exact absurd (by simp [hd]) h
      rw [marks_of_clean hclean]
      rfl

/-- The containers walked are counted apart from the edits. -/
theorem tally_crossings {note : ι → τ → τ} {descend : τ → τ} {all : Bool} (count : τ → Nat)
    (hnote : ∀ mark t, count (note mark t) = count t)
    (hdescend : ∀ t, count (descend t) = count t + 1) (t : τ) :
    count (d.tally note descend all t) = count t + d.crossings all := by
  induction d generalizing t with
  | nil => rfl
  | copy bytes rest ih => exact ih t
  | drop mark bytes rest ih | author mark old new rest ih | replace mark tag old new rest ih =>
    rw [tally, ih, hnote, crossings]
  | frame mark old opener inner closer rest ihi ihr =>
    rw [tally, ihr, ihi, hnote, crossings, Nat.add_assoc]
  | cross tag word inner rest ihi ihr =>
    rw [tally, ihr, crossings]
    split
    · rw [ihi, hdescend]
      omega
    · rw [Nat.zero_add]

theorem crossings_le : d.crossings false ≤ d.crossings true := by
  induction d with
  | nil => exact Nat.le_refl _
  | copy bytes rest ih | drop mark bytes rest ih | author mark old new rest ih
    | replace mark tag old new rest ih => exact ih
  | frame mark old opener inner closer rest ihi ihr =>
    simp only [crossings]
    omega
  | cross tag word inner rest ihi ihr =>
    simp only [crossings, Bool.true_or, if_true]
    split <;> omega

/-- Walking only what was touched counts fewer containers exactly when some stands idle. -/
theorem crossings_eq : d.crossings false = d.crossings true ↔ d.idle = false := by
  induction d with
  | nil => exact ⟨fun _ => rfl, fun _ => rfl⟩
  | copy bytes rest ih | drop mark bytes rest ih | author mark old new rest ih
    | replace mark tag old new rest ih => exact ih
  | frame mark old opener inner closer rest ihi ihr =>
    have := @crossings_le _ _ inner
    have := @crossings_le _ _ rest
    rw [idle, Bool.or_eq_false_iff, ← ihi, ← ihr, crossings, crossings]
    omega
  | cross tag word inner rest ihi ihr =>
    have := @crossings_le _ _ inner
    have := @crossings_le _ _ rest
    rw [idle, Bool.or_eq_false_iff, Bool.or_eq_false_iff, ← ihi, ← ihr, crossings, crossings]
    cases inner.dirty <;> simp <;> omega

/-- Two symbols of the source for every slot. -/
theorem two_mul_slots (h : d.Tagged) : 2 * (d.slots spell).length ≤ d.source.length := by
  induction d with
  | nil => exact Nat.zero_le _
  | copy bytes rest ih | drop mark bytes rest ih | author mark old new rest ih =>
    have := ih h
    simp only [slots, source, List.length_append]
    omega
  | replace mark tag old new rest ih =>
    have := ih h
    simp only [slots, source, List.length_append]
    omega
  | frame mark old opener inner closer rest ihi ihr =>
    have := ihi h.1
    have := ihr h.2
    simp only [slots, source, List.length_append]
    omega
  | cross tag word inner rest ihi ihr =>
    obtain ⟨ht, hw, hi, hr⟩ := h
    have := ihi hi
    have := ihr hr
    have := List.length_pos_iff.mpr ht
    have := List.length_pos_iff.mpr hw
    simp only [slots, source, List.length_append, List.length_cons]
    omega

@[simp] theorem source_append : (d.append e).source = d.source ++ e.source := by
  induction d <;> simp [append, source, *]

@[simp] theorem render_append : (d.append e).render spell = d.render spell ++ e.render spell := by
  induction d <;> simp [append, render, *]

theorem tagged_append : (d.append e).Tagged ↔ d.Tagged ∧ e.Tagged := by
  induction d <;> simp [append, Tagged, and_assoc, *]

end Laws

end Doc

end Emission
