import ProtobufEdit.Revise.Core
import ProtobufEdit.Revise.Layer

/-!
# A descent

A descent into an interior that was never parsed keeps a fault in the slot, or lays the rows of
its records behind the arena.
-/

namespace ProtobufEdit.Revise

open Wire Wire.Groupless Varint Arena Cursor

/-- A row inside aliased bytes. -/
def Row.aliased (b : Bool) (r : Row) : Row := { r with isAlias := r.isAlias || b }

namespace Machine

variable {standard : Standard} {m : Machine standard}

def zoneOf (m : Machine standard) (w : Interior) : List UInt8 :=
  if w.authored then m.store.bytes else m.source

/-- The rows a descent lays. -/
def interiorRows (standard : Standard) (w : Interior) (isAlias : Bool) (records : List Record) :
    List Row :=
  (metRows standard w.authored w.start records).map (Row.aliased (w.isAlias || isAlias))

/-- A descent has parsed an interior. -/
structure Parsed (m : Machine standard) (id : Nat) (r : Row) (m' : Machine standard)
    (w : Interior) (records : List Record) : Prop where
  interior : m.interior r = .ok w
  lawful : ∀ r ∈ records, Record.Lawful standard r
  read : ((m.zoneOf w).take (w.start + w.len)).drop w.start = text records
  machine : ∃ layers runs run,
    m' = ({ m with
        rows := m.rows ++ laid (some id) m.rows.length (interiorRows standard w r.isAlias records)
        layers, runs } : Machine standard).setSlot id
      (.opened ⟨lastAt m.rows.length records.length, 0, 0, run⟩)
      (firstAt m.rows.length records.length)

/-- A descent has parked a fault. -/
def Parked (m : Machine standard) (id : Nat) (m' : Machine standard) : Prop :=
  ∃ faults index, m' = ({ m with faults } : Machine standard).setSlot id (.fault index) none

theorem park_cases (id : Nat) (fault : Editor.SlotFault) :
    (m.park id fault).1 = m ∨ m.Parked id (m.park id fault).1 := by
  unfold park
  cases Editor.mint m.faults.length with
  | none => exact .inl rfl
  | some index => exact .inr ⟨_, index, rfl⟩

theorem laid_map (parent : Option Nat) (base : Nat) (rows : List Row) (f : Row → Row) :
    (laid parent base rows).map (Cell.map f) = laid parent base (rows.map f) := by
  apply List.ext_getElem?
  intro i
  rw [List.getElem?_map, laid_getElem?, laid_getElem?, List.getElem?_map, List.length_map]
  cases rows[i]? <;> rfl

/-- The run that a descent mints: the rows are the document's own. -/
def Interior.run (w : Interior) (isAlias : Bool) (base n : Nat) : Option (Nat × Nat) :=
  if !w.authored && !(w.isAlias || isAlias) then (firstAt base n).map fun id => (id, base + n)
  else none

theorem sealScan_eq {id : Nat} {rows : List (Cell Row)} {first last : Option Nat} {source : Bool}
    {m' : Machine standard} (h : m.sealScan id rows first last source = some m') :
    ∃ layers runs, m' = ({ m with rows, layers, runs } : Machine standard).setSlot id
      (.opened ⟨last, 0, 0, if source then first.map fun id => (id, rows.length) else none⟩)
      first := by
  unfold sealScan at h
  extract_lets run at h
  by_cases hrun : run.isSome = true ∧ mint m.runs = none
  · rw [if_pos hrun] at h
    cases h
  · rw [if_neg hrun] at h
    by_cases hlayer : mint m.layers = none
    · rw [if_pos hlayer] at h
      cases h
    · rw [if_neg hlayer] at h
      exact ⟨_, _, (Option.some.inj h).symm⟩

/-- What a descent leaves, its run with it. -/
theorem enter_minted (id : Nat) (r : Row) :
    (m.enter id r).1 = m ∨ m.Parked id (m.enter id r).1 ∨
      ∃ w records layers runs, m.interior r = .ok w ∧
        (∀ r ∈ records, Record.Lawful standard r) ∧
        ((m.zoneOf w).take (w.start + w.len)).drop w.start = text records ∧
        (m.enter id r).1 = ({ m with
            rows := m.rows ++
              laid (some id) m.rows.length (interiorRows standard w r.isAlias records)
            layers, runs } : Machine standard).setSlot id
          (.opened ⟨lastAt m.rows.length records.length, 0, 0,
            w.run r.isAlias m.rows.length records.length⟩)
          (firstAt m.rows.length records.length) := by
  unfold enter
  cases hw : m.interior r with
  | error fault => exact .inl rfl
  | ok w =>
    simp only
    cases hscan : scanLayer standard m.rows (if w.authored = true then m.store.bytes else m.source)
        w.authored w.start (w.start + w.len) (some id) with
    | error halt =>
      cases halt with
      | wire fault => exact (park_cases id _).imp_right .inl
      | refused refusal => exact (park_cases id _).imp_right .inl
      | exhausted => exact .inl rfl
    | ok x =>
      obtain ⟨rows, first, last⟩ := x
      obtain ⟨records, hlaw, hread, rfl, rfl, rfl⟩ := scanLayer_ok hscan
      simp only [List.take_left, List.drop_left]
      rw [laid_map]
      split
      · exact .inl rfl
      · next m' hseal =>
        obtain ⟨layers, runs, he⟩ := sealScan_eq hseal
        rw [List.length_append, laid_length, List.length_map, metRows_length] at he
        exact .inr (.inr ⟨w, records, layers, runs, rfl, hlaw, hread, he⟩)

theorem enter_cases (id : Nat) (r : Row) :
    (m.enter id r).1 = m ∨ m.Parked id (m.enter id r).1 ∨
      ∃ w records, m.Parsed id r (m.enter id r).1 w records := by
  refine (enter_minted id r).imp_right (.imp_right ?_)
  rintro ⟨w, records, layers, runs, hw, hlaw, hread, he⟩
  exact ⟨w, records, hw, hlaw, hread, layers, runs, _, he⟩

end Machine

end ProtobufEdit.Revise
