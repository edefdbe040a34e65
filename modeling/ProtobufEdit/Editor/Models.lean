import ProtobufEdit.Editor.Layer.Sound
import ProtobufEdit.Editor.Price

/-!
# What a machine stands for

A machine models a forest of nodes where its arena lays the forest out and every node is sound
over its children. A machine that models a forest saves the reference emission of its records.
-/

namespace ProtobufEdit.Editor

open Wire Wire.Grouped Varint Arena

/-- The row's value column is its own: a word slot, or a payload slot. -/
def Row.ownsWord (r : Row) : Prop :=
  (r.base = .replaced ∨ r.base = .inserted) ∧ r.kind ≠ .len ∧ r.kind ≠ .group

def Row.ownsPayload (r : Row) : Prop := (r.base = .replaced ∨ r.base = .inserted) ∧ r.kind = .len

/-- No two of the rows that own a slot share it. -/
def Distinct (owns : Row → Prop) (cells : List (Cell Row)) : Prop :=
  ∀ (x y : Nat) (c c' : Cell Row), cells[x]? = some c → cells[y]? = some c' →
    owns c.body → owns c'.body → c.body.value = c'.body.value → x = y

structure Owns (cells : List (Cell Row)) : Prop where
  word : Distinct Row.ownsWord cells
  payload : Distinct Row.ownsPayload cells

/-- A plain editor's row: it designates nothing, and stands in the document. -/
structure Row.Plain (r : Row) : Prop where
  base : r.base ≠ .src
  zone : r.zone = .document

structure Models (m : Machine) (t : Forest Node) : Prop where
  chain : Chain Node.row m.rows none m.top t
  nodup : t.ids.Nodup
  full : ∀ x < m.rows.length, x ∈ t.ids
  nodes : t.All (NodeSound m)
  closed : t.Closed fun n => n.row.dirty
  abuts : Abuts m.standard none t
  latch : m.dirty = false → (entries t).touched = false
  source : (entries t).source = m.source
  sourceLen : m.source.length ≤ PayloadLen.max
  rowsLen : m.rows.length ≤ rowMax + 1
  owns : Owns m.rows
  plain : ∀ (x : Nat) (c : Cell Row), m.rows[x]? = some c → c.body.Plain

theorem zoneOf_plain {m : Machine} {c : Cell Row} (h : c.body.Plain) : m.zoneOf c = m.source := by
  unfold Machine.zoneOf Row.importZone
  rw [h.zone]
  rfl

section Models

variable {m : Machine} {t : Forest Node}

theorem rows_of_chain {parent first : Option Nat} (h : Chain Node.row m.rows parent first t) :
    Rows m t := by
  refine h.all.imp ?_
  rintro x n kids ⟨parent, next, kid, hcell⟩
  rw [Machine.row_of_cell hcell]

/-- What every node's row has, every row has. -/
theorem cell_of_all {cells : List (Cell Row)} {first : Option Nat} {p : Row → Prop}
    (h : Chain Node.row cells none first t) (hfull : ∀ x < cells.length, x ∈ t.ids)
    (hall : t.All fun _ n _ => p n.row) {x : Nat} {c : Cell Row} (hc : cells[x]? = some c) :
    p c.body := by
  obtain ⟨n, hn, he⟩ := h.body_of (hfull x (List.getElem?_eq_some_iff.mp hc).1) hc
  obtain ⟨-, -, hp⟩ := hall.find hn
  rw [he]
  exact hp

/-- A machine prices what it saves. -/
theorem Models.saveLen (h : Models m t) : m.save.Prices m.saveLen :=
  have hrows := rows_of_chain h.chain
  Machine.saveLen_eq h.chain (bounded_of_sound h.nodes hrows) h.nodup
    (abut_of_abuts h.abuts hrows fun _ hl => nomatch hl)

/-- A machine saves what it models. -/
theorem Models.save (h : Models m t) : m.save = (entries t).saved := by
  have hrows := rows_of_chain h.chain
  cases hdirty : m.dirty with
  | false =>
    have hcap : ¬ PayloadLen.max < m.source.length := Nat.not_lt.mpr h.sourceLen
    unfold Machine.save Doc.saved
    rw [if_pos hdirty, Doc.emitted_of_untouched (h.latch hdirty), h.source]
    dsimp only
    rw [if_neg hcap]
  | true =>
    rw [Machine.save_eq h.chain (bounded_of_sound h.nodes hrows) h.nodup
      (abut_of_abuts h.abuts hrows (fun _ hl => nomatch hl)) hdirty]
    unfold Doc.saved
    rw [emitted_eq h.nodes hrows]
    cases m.overCap t <;> rfl

end Models

/-! ## Opening -/

section Open

variable {dialect : Dialect} {standard : Standard} {source : List UInt8} {limit : DepthLimit}

/-- The forest a source is opened as. -/
noncomputable def opening (dialect : Dialect) (standard : Standard) (source : List UInt8)
    (limit : DepthLimit) : Forest Node :=
  (layerOf dialect standard limit.asInner source).forest standard 0 0

theorem slice_whole (bytes : List UInt8) : Machine.slice bytes 0 bytes.length = bytes := by
  unfold Machine.slice
  rw [List.take_length, List.drop_zero]

/-- The rows of a fresh machine. -/
theorem models_fresh {m : Machine} {layer : Layer}
    (hr : layer.Reads dialect m.standard limit.asInner m.source) (hcut : layer.cut = false)
    (hchain : Chain Node.row m.rows none m.top (layer.forest m.standard 0 0))
    (hlen : m.rows.length = layer.size) (hcap : m.source.length ≤ PayloadLen.max)
    (hfit : layer.size ≤ rowMax + 1) : Models m (layer.forest m.standard 0 0) := by
  have hids := Layer.ids_forest hr.lawful hcut 0 0
  have hfull : ∀ x < m.rows.length, x ∈ (layer.forest m.standard 0 0).ids := by
    intro x hx
    rw [hids, List.mem_range'_1]
    omega
  have hintact : ∀ (x : Nat) (c : Cell Row), m.rows[x]? = some c →
      c.body.base = .intact ∧ c.body.zone = .document :=
    fun x c hc => cell_of_all (p := fun r => r.base = .intact ∧ r.zone = .document) hchain hfull
      (intact_forest _ _ _ _) hc
  have hplain : ∀ (x : Nat) (c : Cell Row), m.rows[x]? = some c → c.body.Plain := by
    intro x c hc
    obtain ⟨hb, hz⟩ := hintact x c hc
    exact ⟨by rw [hb]; decide, hz⟩
  have hzone : ∀ x ∈ (layer.forest m.standard 0 0).ids, m.zoneOf (m.row x) = m.source := by
    intro x hx
    have hlt := hchain.lt hx
    have hc := List.getElem?_eq_getElem hlt
    rw [Machine.row_of_cell hc]
    exact zoneOf_plain (hplain x _ hc)
  have he : m.source.drop 0 = layer.bytes ++ [] := by
    rw [List.drop_zero, List.append_nil, hr.bytes]
  have hsource := source_forest hr.lawful hcut 0 0
  refine ⟨hchain, ?_, hfull, sound_forest hr.lawful hcut he hzone, closed_forest _ _ _ _,
    abuts_forest hr.lawful (fun _ hl => nomatch hl), fun _ => touched_forest _ _ _ _, hsource.trans hr.bytes, hcap,
    by omega, ⟨?_, ?_⟩, hplain⟩
  · rw [hids]
    exact List.nodup_range'
  · rintro x y c c' hc - ⟨hb, -⟩
    rw [(hintact x c hc).1] at hb
    rcases hb with hb | hb <;> cases hb
  · rintro x y c c' hc - ⟨hb, -⟩
    rw [(hintact x c hc).1] at hb
    rcases hb with hb | hb <;> cases hb

/-- An opened machine stands for its source's layer. -/
theorem openSource_models {m : Machine} (h : openSource dialect standard source limit = .ok m) :
    (layerOf dialect standard limit.asInner source).cut = false ∧
      Models m (opening dialect standard source limit) ∧ m.dialect = dialect ∧
      m.standard = standard ∧ m.source = source ∧ m.limit = limit := by
  have hr := layerOf_reads dialect standard limit.asInner source
  have hr' : (layerOf dialect standard limit.asInner source).Reads dialect standard
      (limit.asInner - 0) (Machine.slice source 0 source.length) := by
    rw [slice_whole]
    exact hr
  unfold openSource at h
  split at h
  · cases h
  · next hcap =>
    by_cases hbad : (layerOf dialect standard limit.asInner source).cut = true ∨
        rowMax + 1 < ([] : List (Cell Row)).length +
          (layerOf dialect standard limit.asInner source).size
    · obtain ⟨halt, he⟩ : ∃ halt, scanLayer dialect standard [] source 0 source.length none 0
          limit = .error halt :=
        scanLayer_error hr' (Nat.zero_le _) nofun (Nat.zero_le _) hbad
      rw [he] at h
      cases halt <;> cases h
    · rw [not_or, Nat.not_lt] at hbad
      have hcut := Bool.eq_false_of_not_eq_true hbad.1
      obtain ⟨rows, he, hlen, -, hchain⟩ : ∃ rows, scanLayer dialect standard [] source 0
          source.length none 0 limit = .ok (rows, _) ∧ _ :=
        scanLayer_ok hr' (Nat.zero_le _) nofun hcut hbad.2
      rw [he] at h
      cases h
      refine ⟨hcut, models_fresh hr hcut hchain ?_ (Nat.not_lt.mp hcap) ?_, rfl, rfl, rfl, rfl⟩
      · rw [hlen]
        exact Nat.zero_add _
      · have := hbad.2
        rwa [List.length_nil, Nat.zero_add] at this

end Open

end ProtobufEdit.Editor
