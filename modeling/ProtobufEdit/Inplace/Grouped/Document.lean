import ProtobufEdit.Construct.Recover
import ProtobufEdit.Loop

/-!
# Documents of records and groups

`Doc` is a document under the grouped table, byte for byte; a lawful one is recovered by the
cursor as the tree it tells. `Plain` is a loop that steps a cursor and only counts the groups
open, and `Plain.interior` what such a loop finds inside one.
-/

namespace ProtobufEdit.Inplace.Grouped

open Wire Wire.Grouped Varint Base128 Cursor Cursor.Grouped Loop
open Construct (Told)
open Construct.Grouped (Recovers)

/-! ## Documents -/

/-- Records and groups in order; a `crossed` record is a LEN whose payload is a document. -/
inductive Doc where
  | nil
  | record (r : Record) (rest : Doc)
  | crossed (field : FieldNumber) (tag word : List UInt8) (interior rest : Doc)
  | group (field : FieldNumber) (opener : List UInt8) (inner : Doc) (closer : List UInt8)
      (rest : Doc)

namespace Doc

def bytes : Doc → List UInt8
  | nil => []
  | record r rest => r.bytes ++ rest.bytes
  | crossed field tag word interior rest =>
    Record.bytes ⟨field, tag, .len word interior.bytes⟩ ++ rest.bytes
  | group _ opener inner closer rest => opener ++ inner.bytes ++ closer ++ rest.bytes

def append : Doc → Doc → Doc
  | nil, d => d
  | record r rest, d => record r (rest.append d)
  | crossed field tag word interior rest, d => crossed field tag word interior (rest.append d)
  | group field opener inner closer rest, d => group field opener inner closer (rest.append d)

/-- Records one behind the other. -/
def ofRecords (rs : List Record) : Doc := rs.foldr record nil

/-- Exactly one record or group. -/
def Single : Doc → Prop
  | record _ nil => True
  | group _ _ _ _ nil => True
  | _ => False

/-- Nothing is crossed. -/
def Closed : Doc → Prop
  | nil => True
  | record _ rest => rest.Closed
  | crossed _ _ _ _ _ => False
  | group _ _ inner _ rest => inner.Closed ∧ rest.Closed

/-- Lawful records and tags, the groups and the crossings nesting within `room` together. -/
def Lawful (standard : Standard) : Nat → Doc → Prop
  | _, nil => True
  | room, record r rest => r.Lawful standard ∧ rest.Lawful standard room
  | room, crossed field tag word interior rest =>
    0 < room ∧ Record.Lawful standard ⟨field, tag, .len word interior.bytes⟩ ∧
      interior.Lawful standard (room - 1) ∧ rest.Lawful standard room
  | room, group field opener inner closer rest =>
    0 < room ∧ IsTag standard field 3 opener ∧ IsTag standard field 4 closer ∧
      inner.Lawful standard (room - 1) ∧ rest.Lawful standard room

/-- The tree a walk of the document delivers. -/
def told : Doc → Told
  | nil => .nil
  | record r rest => .value r.field r.payload.value rest.told
  | crossed field _ _ interior rest => .message field interior.told rest.told
  | group field _ inner _ rest => .group field inner.told rest.told

variable {standard : Standard} {room : Nat} {d d' : Doc}

theorem bytes_append (d d' : Doc) : (d.append d').bytes = d.bytes ++ d'.bytes := by
  induction d with
  | nil => rfl
  | record r rest ih => rw [append, bytes, bytes, ih, List.append_assoc]
  | crossed field tag word interior rest _ ih => rw [append, bytes, bytes, ih, List.append_assoc]
  | group field opener inner closer rest _ ih =>
    rw [append, bytes, bytes, ih, List.append_assoc (opener ++ inner.bytes ++ closer)]

theorem Lawful.append (h : d.Lawful standard room) (h' : d'.Lawful standard room) :
    (d.append d').Lawful standard room := by
  induction d with
  | nil => exact h'
  | record r rest ih => exact ⟨h.1, ih h.2⟩
  | crossed field tag word interior rest _ ih => exact ⟨h.1, h.2.1, h.2.2.1, ih h.2.2.2⟩
  | group field opener inner closer rest _ ih =>
    exact ⟨h.1, h.2.1, h.2.2.1, h.2.2.2.1, ih h.2.2.2.2⟩

theorem bytes_ofRecords (rs : List Record) : (ofRecords rs).bytes = rs.flatMap Record.bytes := by
  induction rs with
  | nil => rfl
  | cons r rs ih => rw [List.flatMap_cons, ← ih]; rfl

theorem lawful_ofRecords {rs : List Record} (h : ∀ r ∈ rs, r.Lawful standard) :
    (ofRecords rs).Lawful standard room := by
  induction rs with
  | nil => trivial
  | cons r rs ih =>
    obtain ⟨hr, hrs⟩ := List.forall_mem_cons.mp h
    exact ⟨hr, ih hrs⟩

/-! ### Recovered -/

theorem Lawful.spelled (h : d.Lawful standard room) : d.told.Spelled standard d.bytes := by
  induction d generalizing room with
  | nil => exact .nil
  | record r rest ih => exact .value h.1 (ih h.2)
  | crossed field tag word interior rest ihi ih =>
    obtain ⟨-, hr, hin, hrest⟩ := h
    have hspelled := Told.Spelled.message hr (ihi hin) (ih hrest)
    rw [bytes, Record.bytes, Payload.bytes, ← List.append_assoc]
    exact hspelled
  | group field opener inner closer rest ihi ih =>
    obtain ⟨-, hopen, hclose, hin, hrest⟩ := h
    exact .group hopen hclose (ihi hin) (ih hrest)

/-- What nests within the shared account nests within every window's own. -/
theorem Lawful.fits (h : d.Lawful standard room) {own limit : Nat} (hown : room ≤ own)
    (hlimit : own ≤ limit) : d.told.Fits limit own := by
  induction d generalizing room own with
  | nil => trivial
  | record r rest ih => exact ih h.2 hown hlimit
  | crossed field tag word interior rest ihi ih =>
    obtain ⟨-, -, hin, hrest⟩ := h
    exact ⟨ihi hin (by omega) (Nat.le_refl limit), ih hrest hown hlimit⟩
  | group field opener inner closer rest ihi ih =>
    obtain ⟨hroom, -, -, hin, hrest⟩ := h
    exact ⟨by omega, ihi hin (by omega) (by omega), ih hrest hown hlimit⟩

theorem Lawful.recovers {limit : DepthLimit} (h : d.Lawful standard limit.asInner)
    (hle : d.bytes.length ≤ PayloadLen.max) : Recovers standard limit d.bytes d.told :=
  Construct.Grouped.recovers_spelled h.spelled hle (h.fits (Nat.le_refl _) (Nat.le_refl _))

end Doc

/-! ## The cursor behind a stretch -/

/-- A cursor some bytes further: the window, the limit and the open groups as they were. -/
structure Reaches (c : Cursor) (bytes : List UInt8) (c' : Cursor) : Prop where
  data : c'.data = c.data
  limit : c'.limit = c.limit
  opens : c'.opens = c.opens
  pos : c'.pos = c.pos + bytes.length

section Reaches

variable {c c' c'' : Cursor} {bytes bytes' rest : List UInt8} {r : Record} {field : FieldNumber}
  {opener closer : List UInt8}

theorem Reaches.nil (c : Cursor) : Reaches c [] c := ⟨rfl, rfl, rfl, rfl⟩

theorem Reaches.past (c : Cursor) (r : Record) : Reaches c r.bytes (c.past r) :=
  ⟨rfl, rfl, rfl, rfl⟩

theorem Reaches.trans (h : Reaches c bytes c') (h' : Reaches c' bytes' c'') :
    Reaches c (bytes ++ bytes') c'' :=
  ⟨h'.data.trans h.data, h'.limit.trans h.limit, h'.opens.trans h.opens,
    by rw [h'.pos, h.pos, List.length_append, Nat.add_assoc]⟩

/-- Behind a whole group the open groups are as before it. -/
theorem Reaches.group
    (h : Reaches (c.framed ((field, c.pos) :: c.opens) opener) bytes c') :
    Reaches c (opener ++ bytes ++ closer) (c'.framed c.opens closer) :=
  ⟨h.data, h.limit, rfl, by
    show c'.pos + closer.length = _
    rw [h.pos]
    simp only [Cursor.framed, List.length_append]
    omega⟩

theorem Reaches.drop (h : Reaches c bytes c') (he : c.data.drop c.pos = bytes ++ rest) :
    c'.data.drop c'.pos = rest := by
  rw [h.data, h.pos]
  exact drop_of_drop_eq he

end Reaches

/-! ## A loop that only counts -/

/-- A loop that steps a cursor with `depth` groups of its own open, never fewer than one and never
more than `bound`. -/
structure Plain {σ ρ : Type} (standard : Standard) (turn : σ → Turn σ ρ)
    (place : Cursor → Nat → σ) (bound : Nat) (Refused : ρ → Prop) : Prop where
  value : ∀ {c c' : Cursor} {depth : Nat} {field : FieldNumber} {v : Value}, 0 < depth →
    step standard c = (some (.ok ⟨field, .value v⟩), c') →
    turn (place c depth) = .next (place c' depth)
  enter : ∀ {c c' : Cursor} {depth : Nat} {field : FieldNumber}, 0 < depth → depth < bound →
    step standard c = (some (.ok ⟨field, .groupEnter⟩), c') →
    turn (place c depth) = .next (place c' (depth + 1))
  full : ∀ {c c' : Cursor} {field : FieldNumber}, 0 < bound →
    step standard c = (some (.ok ⟨field, .groupEnter⟩), c') →
    ∃ refusal, turn (place c bound) = .halt refusal ∧ Refused refusal
  exit : ∀ {c c' : Cursor} {depth : Nat} {field : FieldNumber}, 0 < depth →
    step standard c = (some (.ok ⟨field, .groupExit⟩), c') →
    turn (place c (depth + 1)) = .next (place c' depth)
  error : ∀ {c c' : Cursor} {depth : Nat} {fault : Cursor.Grouped.Fault},
    step standard c = (some (.error fault), c') →
    ∃ refusal, turn (place c depth) = .halt refusal ∧ Refused refusal

section Interior

variable {σ ρ : Type} {standard : Standard} {turn : σ → Turn σ ρ} {place : Cursor → Nat → σ}
  {bound : Nat} {Refused : ρ → Prop}

/-- What a counting loop finds inside an open group: its end tag behind a lawful interior, or a
refusal. -/
inductive Found (standard : Standard) (turn : σ → Turn σ ρ) (place : Cursor → Nat → σ)
    (bound : Nat) (Refused : ρ → Prop) (c : Cursor) (depth : Nat) (field : FieldNumber)
    (bytes : List UInt8) : Prop where
  | closes (inner : Doc) (closer rest : List UInt8) (c' : Cursor) (n : Nat) :
      bytes = inner.bytes ++ (closer ++ rest) → IsTag standard field 4 closer → inner.Closed →
      inner.Lawful standard (bound - depth) → Takes turn n (place c depth) (place c' depth) →
      n ≤ inner.bytes.length → Reaches c inner.bytes c' →
      Found standard turn place bound Refused c depth field bytes
  | refuses (s : σ) (refusal : ρ) (n : Nat) : Takes turn n (place c depth) s →
      turn s = .halt refusal → Refused refusal → n ≤ bytes.length →
      Found standard turn place bound Refused c depth field bytes

/-- The interior of an open group, by the length of what is left of the window. -/
theorem Plain.interior (h : Plain standard turn place bound Refused) {c : Cursor}
    {bytes : List UInt8} {field : FieldNumber} {openedAt depth : Nat}
    {opens : List (FieldNumber × Nat)} (hdata : c.data.drop c.pos = bytes)
    (hopens : c.opens = (field, openedAt) :: opens) (hdepth : 0 < depth) (hbound : depth ≤ bound) :
    Found standard turn place bound Refused c depth field bytes := by
  induction hlen : bytes.length using Nat.strong_induction_on
    generalizing c bytes field openedAt depth opens with
  | _ len ih =>
    subst hlen
    rcases step_stands standard c with
      ⟨-, ho⟩ | ⟨fault, c', hs⟩ | ⟨r, rest, he, hlaw⟩ | ⟨f, tag, rest, he, htag, hroom⟩ |
        ⟨f, at', os, tag, rest, he, htag, ho⟩
    · rw [hopens] at ho
      cases ho
    · obtain ⟨refusal, hhalt, hrefused⟩ := @Plain.error _ _ _ _ _ _ _ h c c' depth fault hs
      exact .refuses _ refusal 0 (.refl _) hhalt hrefused (Nat.zero_le _)
    · -- a record, and the interior behind it
      have hpos := hlaw.length_pos
      have hsplit : bytes = r.bytes ++ rest := hdata.symm.trans he
      have hlen : bytes.length = r.bytes.length + rest.length := by rw [hsplit, List.length_append]
      have hturn := h.value hdepth (step_record he hlaw)
      cases ih rest.length (by omega) (c := c.past r) (drop_of_drop_eq he) hopens hdepth hbound
          rfl with
      | closes inner closer behind c' n hrest hcloser hclosed hlawful hsteps hn hreach =>
        refine .closes (.record r inner) closer behind c' (n + 1) ?_ hcloser hclosed
          ⟨hlaw, hlawful⟩ (.head hturn hsteps) ?_ ((Reaches.past c r).trans hreach)
        · rw [hsplit, hrest, Doc.bytes, List.append_assoc]
        · rw [Doc.bytes, List.length_append]
          omega
      | refuses s refusal n hsteps hhalt hrefused hn =>
        exact .refuses s refusal (n + 1) (.head hturn hsteps) hhalt hrefused (by omega)
    · have hpos := htag.admits.isWord.length_pos
      have hsplit : bytes = tag ++ rest := hdata.symm.trans he
      have hlen : bytes.length = tag.length + rest.length := by rw [hsplit, List.length_append]
      have hs := step_opener he htag hroom
      rcases Nat.lt_or_ge depth bound with hlt | hge
      · -- a group: its interior, its end tag, and the interior behind it
        have hturn := h.enter hdepth hlt hs
        cases ih rest.length (by omega) (c := c.framed ((f, c.pos) :: c.opens) tag)
            (drop_of_drop_eq he) rfl (Nat.succ_pos depth) hlt rfl with
        | closes inner closer behind c₁ n hrest hcloser hclosed hlawful hsteps hn hreach =>
          have hdrop₁ := hreach.drop ((drop_of_drop_eq he).trans hrest)
          have hpos₁ := hcloser.admits.isWord.length_pos
          have hturn₁ := h.exit hdepth (step_closer hdrop₁ hcloser hreach.opens)
          have hlen₁ : rest.length = inner.bytes.length + (closer.length + behind.length) := by
            rw [hrest, List.length_append, List.length_append]
          have hdrop₂ : (c₁.framed c.opens closer).data.drop (c₁.framed c.opens closer).pos =
              behind := drop_of_drop_eq hdrop₁
          have hstretch := hsteps.trans (.head hturn₁ (.refl _))
          cases ih behind.length (by omega) hdrop₂ hopens hdepth hbound rfl with
          | closes inner₂ closer₂ behind₂ c₂ n₂ hrest₂ hcloser₂ hclosed₂ hlawful₂ hsteps₂ hn₂
              hreach₂ =>
            refine .closes (.group f tag inner closer inner₂) closer₂ behind₂ c₂ (n + 1 + n₂ + 1) ?_
              hcloser₂ ⟨hclosed, hclosed₂⟩
              ⟨by omega, htag, hcloser, by rw [Nat.sub_sub]; exact hlawful, hlawful₂⟩
              (.head hturn (hstretch.trans hsteps₂)) ?_ (hreach.group.trans hreach₂)
            · rw [hsplit, hrest, hrest₂, Doc.bytes]
              simp only [List.append_assoc]
            · simp only [Doc.bytes, List.length_append]
              omega
          | refuses s refusal n₂ hsteps₂ hhalt hrefused hn₂ =>
            exact .refuses s refusal (n + 1 + n₂ + 1) (.head hturn (hstretch.trans hsteps₂)) hhalt
              hrefused (by omega)
        | refuses s refusal n hsteps hhalt hrefused hn =>
          exact .refuses s refusal (n + 1) (.head hturn hsteps) hhalt hrefused (by omega)
      · obtain rfl : depth = bound := Nat.le_antisymm hbound hge
        obtain ⟨refusal, hhalt, hrefused⟩ := h.full hdepth hs
        exact .refuses _ refusal 0 (.refl _) hhalt hrefused (Nat.zero_le _)
    · -- the end tag
      rw [hopens] at ho
      cases ho
      exact .closes .nil tag rest c 0 (hdata.symm.trans he) htag trivial trivial (.refl _)
        (Nat.le_refl 0) (.nil c)

end Interior

end ProtobufEdit.Inplace.Grouped
