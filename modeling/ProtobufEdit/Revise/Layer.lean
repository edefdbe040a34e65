import ProtobufEdit.Editor.Layer.Scan
import ProtobufEdit.Revise.Scan

/-!
# What a scan mints

A scan that gets to the end of its bytes has read records there, one behind the other, and its
rows are theirs, linked one to the next behind the arena's end.
-/

namespace ProtobufEdit.Revise

open Wire Wire.Groupless Varint Base128 Arena Loop Cursor
open Editor (Halt scanTag scanExtent scanTag_ok scanExtent_ok column)

/-- A record's row. -/
def Row.met (standard : Standard) (authored : Bool) (pos : Nat) (r : Record) : Row :=
  .scanned r.field r.payload.kind pos (pos + r.bytes.length) (column standard (some r.tag.length))
    (column standard (if r.payload.kind = .len then some r.payload.lenWidth else none)) authored

def metRows (standard : Standard) (authored : Bool) : Nat → List Record → List Row
  | _, [] => []
  | pos, r :: records =>
    .met standard authored pos r :: metRows standard authored (pos + r.bytes.length) records

/-- The records' bytes. -/
def text (records : List Record) : List UInt8 := (records.map Record.bytes).flatten

/-- Rows behind an arena of `base` cells, each linked to the next. -/
def laid (parent : Option Nat) (base : Nat) (rows : List Row) : List (Cell Row) :=
  rows.mapIdx fun i r =>
    ⟨parent, if i + 1 < rows.length then some (base + i + 1) else none, none, r⟩

/-- The first and the last of so many rows behind `base`. -/
def firstAt (base n : Nat) : Option Nat := if n = 0 then none else some base

def lastAt (base n : Nat) : Option Nat := if n = 0 then none else some (base + n - 1)

section Rows

variable {standard : Standard} {authored : Bool} {parent : Option Nat}

@[simp] theorem text_nil : text [] = [] := rfl

@[simp] theorem text_append (a b : List Record) : text (a ++ b) = text a ++ text b := by
  simp [text]

@[simp] theorem text_singleton (r : Record) : text [r] = r.bytes := by simp [text]

@[simp] theorem metRows_length (pos : Nat) (records : List Record) :
    (metRows standard authored pos records).length = records.length := by
  induction records generalizing pos with
  | nil => rfl
  | cons r records ih => simp [metRows, ih]

/-- A scanned row has an offset, and no edit. -/
theorem metRows_scanned {pos : Nat} {records : List Record} {r : Row}
    (h : r ∈ metRows standard authored pos records) : r.start ≠ none ∧ r.edit = .intact := by
  induction records generalizing pos with
  | nil => cases h
  | cons a records ih =>
    rcases List.mem_cons.mp h with rfl | h
    · exact ⟨nofun, rfl⟩
    · exact ih h

theorem metRows_append (pos : Nat) (a b : List Record) :
    metRows standard authored pos (a ++ b) =
      metRows standard authored pos a ++ metRows standard authored (pos + (text a).length) b := by
  induction a generalizing pos with
  | nil => rfl
  | cons r a ih =>
    simp only [List.cons_append, metRows, ih]
    simp [text, Nat.add_assoc]

@[simp] theorem laid_length (base : Nat) (rows : List Row) :
    (laid parent base rows).length = rows.length := List.length_mapIdx

theorem laid_getElem? (base i : Nat) (rows : List Row) :
    (laid parent base rows)[i]? =
      rows[i]?.map fun r =>
        ⟨parent, if i + 1 < rows.length then some (base + i + 1) else none, none, r⟩ :=
  List.getElem?_mapIdx

/-- A row laid behind the others. -/
theorem laid_push (cells : List (Cell Row)) (rows : List Row) (r : Row) (h : rows ≠ []) :
    (cells ++ laid parent cells.length rows).modify (cells.length + rows.length - 1)
        (fun c => { c with next := some (cells.length + rows.length) }) ++
      [⟨parent, none, none, r⟩] =
    cells ++ laid parent cells.length (rows ++ [r]) := by
  have hpos := List.length_pos_iff.mpr h
  have hbehind : ∀ (l : List (Cell Row)) k, (cells ++ l)[cells.length + k]? = l[k]? := fun l k => by
    rw [List.getElem?_append_right (Nat.le_add_right _ _), Nat.add_sub_cancel_left]
  apply List.ext_getElem?
  intro x
  rw [List.getElem?_append, List.length_modify, List.getElem?_modify, List.length_append,
    laid_length]
  rcases Nat.lt_or_ge x cells.length with hx | hx
  · rw [if_pos (by omega), List.getElem?_append_left hx, List.getElem?_append_left hx]
    cases cells[x]? with
    | none => rfl
    | some c => exact congrArg some (if_neg (by omega))
  · obtain ⟨k, rfl⟩ := Nat.exists_eq_add_of_le hx
    rw [hbehind, hbehind, laid_getElem?, laid_getElem?, List.length_append, List.length_singleton]
    rcases Nat.lt_trichotomy k rows.length with hk | hk | hk
    · rw [if_pos (by omega), List.getElem?_append_left hk, List.getElem?_eq_getElem hk]
      by_cases hend : k + 1 = rows.length
      · simp only [Option.map_some, Functor.map]
        rw [if_pos (by omega), if_pos (by omega), ← hend]
        rfl
      · simp only [Option.map_some, Functor.map]
        rw [if_neg (by omega), if_pos (by omega), if_pos (by omega)]
    · subst hk
      rw [if_neg (by omega), List.getElem?_append_right (Nat.le_refl _)]
      simp
    · rw [if_neg (by omega), List.getElem?_eq_none (by simp; omega),
        List.getElem?_eq_none (by simp; omega)]
      rfl

end Rows

/-! ## One record -/

section Record

variable {standard : Standard} {data : List UInt8} {authored : Bool} {pos : Nat} {row : Row}

theorem rowAt_ok : rowAt standard data authored pos = .ok row ↔
    ∃ r rest, data.drop pos = r.bytes ++ rest ∧ Record.Lawful standard r ∧
      row = .met standard authored pos r := by
  constructor
  · intro h
    unfold rowAt at h
    cases htag : scanTag standard data pos with
    | error halt => rw [htag] at h; cases h
    | ok x =>
      obtain ⟨field, low3, tagW⟩ := x
      obtain ⟨tag, rest, he, htagged, rfl⟩ := scanTag_ok.mp htag
      rw [htag] at h
      simp only at h
      cases hc : classify low3 with
      | groupCode => rw [hc] at h; cases h
      | unassigned => rw [hc] at h; cases h
      | record kind =>
        rw [hc] at h
        simp only at h
        cases hx : scanExtent standard data (pos + tag.length) field
            (Cursor.Grouped.ofBody kind) with
        | error halt => rw [hx] at h; cases h
        | ok e =>
          rw [hx] at h
          obtain ⟨p, rest', he', hlaw, rfl, rfl⟩ := scanExtent_ok.mp hx
          obtain rfl := low3_of_classify hc
          cases h
          refine ⟨⟨field, tag, p⟩, rest', ?_, ⟨htagged, hlaw⟩, ?_⟩
          · rw [he, ← drop_of_drop_eq he, he', Record.bytes, List.append_assoc]
          · simp only [Row.met, Editor.Extent.of, Record.bytes, List.length_append, Nat.add_assoc]
  · rintro ⟨r, rest, he, hlaw, rfl⟩
    have he' : data.drop pos = r.tag ++ (r.payload.bytes ++ rest) := by
      rw [he, Record.bytes, List.append_assoc]
    have hx := (@scanExtent_ok standard data _ r.field _ _).mpr
      ⟨r.payload, rest, drop_of_drop_eq he', hlaw.payload, rfl, rfl⟩
    unfold rowAt
    rw [scanTag_ok.mpr ⟨r.tag, _, he', hlaw.isTag, rfl⟩]
    simp only [classify_low3, hx, Row.met, Editor.Extent.of, Record.bytes, List.length_append,
      Nat.add_assoc]

end Record

/-! ## A layer -/

section Layer

variable {standard : Standard} {data : List UInt8} {authored : Bool} {parent : Option Nat}
  {cells : List (Cell Row)} {start : Nat} {done : List Record}

/-- A scan that has read some records from `start` on. -/
def Scan.behind (standard : Standard) (authored : Bool) (parent : Option Nat)
    (cells : List (Cell Row)) (start : Nat) (done : List Record) : Scan :=
  { rows := cells ++ laid parent cells.length (metRows standard authored start done)
    first := firstAt cells.length done.length
    last := lastAt cells.length done.length
    pos := start + (text done).length }

theorem push_behind {r : Record} {s : Scan}
    (h : (Scan.behind standard authored parent cells start done).push parent
      (.met standard authored (start + (text done).length) r) = .ok s) :
    s = .behind standard authored parent cells start (done ++ [r]) := by
  have hlen : (cells ++ laid parent cells.length (metRows standard authored start done)).length =
      cells.length + done.length := by simp
  unfold Scan.push at h
  cases hid : mintRow (Scan.behind standard authored parent cells start done).rows with
  | none => rw [hid] at h; cases h
  | some id =>
    have hid' : id = cells.length + done.length := by
      unfold mintRow at hid
      split at hid
      · exact (Option.some.inj hid).symm.trans hlen
      · cases hid
    rw [hid] at h
    subst hid'
    cases h
    have hrows : metRows standard authored start (done ++ [r]) =
        metRows standard authored start done ++
          [.met standard authored (start + (text done).length) r] := metRows_append _ _ _
    have hpos : start + (text done).length + r.bytes.length =
        start + (text (done ++ [r])).length := by simp [Nat.add_assoc]
    have hmet : (Row.met standard authored (start + (text done).length) r).stop =
        start + (text done).length + r.bytes.length := rfl
    unfold Scan.behind firstAt lastAt
    rw [hmet, hpos, hrows, List.length_append, List.length_singleton, if_neg (Nat.succ_ne_zero _)]
    by_cases hd : done = []
    · subst hd
      simp [metRows, laid]
    · have hcount : done.length ≠ 0 := fun e => hd (List.length_eq_zero_iff.mp e)
      have hne : metRows standard authored start done ≠ [] := fun e =>
        hcount ((metRows_length start done).symm.trans (congrArg List.length e))
      have hpush := @laid_push parent cells _
        (.met standard authored (start + (text done).length) r) hne
      rw [metRows_length] at hpush
      rw [if_neg hcount, if_neg hcount]
      simp only [hpush]
      rfl

/-- A scan that gets to the end has read records alone. -/
theorem yields_behind {rows' : List (Cell Row)} {first last : Option Nat} {s : Scan}
    (hy : Yields (Scan.turn standard data authored parent) s (.ok (rows', first, last)))
    (hs : s = .behind standard authored parent cells start done) :
    ∃ records, (∀ r ∈ records, Record.Lawful standard r) ∧
      data.drop (start + (text done).length) = text records ∧
      (⟨rows', first, last, start + (text (done ++ records)).length⟩ : Scan) =
        .behind standard authored parent cells start (done ++ records) := by
  generalize hr : (Except.ok (rows', first, last) : Scanned) = r at hy
  induction hy generalizing done with
  | @halt s r e =>
    subst hr hs
    unfold Scan.turn at e
    split at e
    · cases hrec : (Scan.behind standard authored parent cells start done).record standard data
        authored parent <;> rw [hrec] at e <;> cases e
    · next hend =>
      cases e
      refine ⟨[], nofun, List.drop_eq_nil_iff.mpr (Nat.not_lt.mp hend), ?_⟩
      rw [List.append_nil]
      rfl
  | @next s s' r e hy ih =>
    subst hs
    unfold Scan.turn at e
    split at e
    · cases hrec : (Scan.behind standard authored parent cells start done).record standard data
        authored parent with
      | error halt => rw [hrec] at e; cases e
      | ok s'' =>
        rw [hrec] at e
        cases e
        unfold Scan.record at hrec
        cases hrow : rowAt standard data authored
            (Scan.behind standard authored parent cells start done).pos with
        | error halt => rw [hrow] at hrec; cases hrec
        | ok row =>
          rw [hrow] at hrec
          obtain ⟨a, rest, he, hlaw, rfl⟩ := rowAt_ok.mp hrow
          obtain ⟨records, hall, hdrop, hbehind⟩ := ih (push_behind hrec) hr
          refine ⟨a :: records, ?_, ?_, ?_⟩
          · rintro b (_ | ⟨_, hb⟩)
            · exact hlaw
            · exact hall b hb
          · have he' : data.drop (start + (text done).length) = a.bytes ++ rest := he
            rw [text_append, text_singleton, List.length_append, ← Nat.add_assoc,
              drop_of_drop_eq he'] at hdrop
            rw [he', hdrop]
            simp [text]
          · rwa [List.append_assoc] at hbehind
    · cases e

/-- What a layer's scan comes to. -/
structure Scans (standard : Standard) (authored : Bool) (parent : Option Nat)
    (cells : List (Cell Row)) (data : List UInt8) (start : Nat) (rows : List (Cell Row))
    (first last : Option Nat) (records : List Record) : Prop where
  lawful : ∀ r ∈ records, Record.Lawful standard r
  read : data.drop start = text records
  rows : rows = cells ++ laid parent cells.length (metRows standard authored start records)
  first : first = firstAt cells.length records.length
  last : last = lastAt cells.length records.length

theorem scanLayer_ok {zone : List UInt8} {stop : Nat} {rows : List (Cell Row)}
    {first last : Option Nat}
    (h : scanLayer standard cells zone authored start stop parent = .ok (rows, first, last)) :
    ∃ records, Scans standard authored parent cells (zone.take stop) start rows first last
      records := by
  unfold scanLayer at h
  cases hrun : run (Scan.turn standard (zone.take stop) authored parent) (stop - start + 1)
      ⟨cells, none, none, start⟩ with
  | none => rw [hrun] at h; cases h
  | some r =>
    rw [hrun] at h
    have hr : r = .ok (rows, first, last) := h
    subst hr
    have hnil : (⟨cells, none, none, start⟩ : Scan) =
        .behind standard authored parent cells start [] := by
      simp [Scan.behind, metRows, laid, firstAt, lastAt]
    obtain ⟨records, hall, hdrop, hbehind⟩ := yields_behind (yields_of_run hrun) hnil
    exact ⟨records, hall, hdrop, congrArg Scan.rows hbehind, congrArg Scan.first hbehind,
      congrArg Scan.last hbehind⟩

end Layer

end ProtobufEdit.Revise
