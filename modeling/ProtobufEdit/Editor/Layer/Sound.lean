import ProtobufEdit.Editor.Layer.Scan
import ProtobufEdit.Editor.Sound

/-!
# Scanned records are sound

The forest of a layer is sound over the bytes the layer was read in, and is met as they are.
-/

namespace ProtobufEdit.Editor

open Wire Wire.Grouped Varint Base128 Arena Cursor

/-! ## Widths -/

section Widths

variable {standard : Standard} {field : FieldNumber} {kind : RecordKind} {pos : Nat} {met : Met}

theorem len_width {word : List UInt8} (h : Window.len.Admits .canonicalMinimal word) :
    word.length = encodedLen32 (value word) := by
  have hw := h.width
  unfold Window.padded widthPadded at hw
  have hw : word.length = Window.len.minimal (value word) := by simpa using hw
  exact hw

theorem tagW_scanned (h : met.Lawful standard field kind) :
    (Node.scanned standard field kind pos met).row.tagW standard = met.tag.length :=
  tagW_column h.tag rfl rfl rfl

theorem delimW_scanned (h : met.Lawful standard field kind) :
    (Node.scanned standard field kind pos met).row.delimW standard = met.delim.length := by
  have hb := h.body
  cases standard with
  | tolerant =>
    cases kind <;> first | rfl | exact (congrArg List.length hb.1).symm
  | canonicalMinimal =>
    cases kind with
    | varint => exact (congrArg List.length hb.1).symm
    | i64 => exact (congrArg List.length hb.1).symm
    | i32 => exact (congrArg List.length hb.1).symm
    | len =>
      show encodedLen32 met.content.length = _
      rw [len_width hb.1, hb.2]
    | group =>
      show encodedLen32 (tagWord field 3) = _
      rw [isTag_width hb, encodedLen32_tagWord _ 4 3]

theorem spanEnd_scanned (h : met.Lawful standard field kind) :
    (Node.scanned standard field kind pos met).row.spanEnd standard =
      pos + (met.verbatim kind).length := by
  unfold Row.spanEnd
  rw [tagW_scanned h, delimW_scanned h, Met.verbatim_length]
  show pos + met.tag.length + met.delim.length + met.content.length = _
  omega

theorem stands_scanned {zone : List UInt8} {rest : List UInt8} (h : met.Lawful standard field kind)
    (he : zone.drop pos = met.verbatim kind ++ rest) :
    Stands standard zone (Node.scanned standard field kind pos met).row met :=
  ⟨⟨rest, he⟩, tagW_scanned h, delimW_scanned h, rfl⟩

end Widths

/-! ## Records -/

theorem Record.met_lawful {standard : Standard} {r : Record} (h : r.Lawful standard) :
    (Record.met r).Lawful standard r.field (recordKind r) := by
  obtain ⟨htag, hlaw⟩ := h
  unfold Record.met recordKind
  cases hp : r.payload with
  | varint word =>
    rw [hp] at htag hlaw
    exact ⟨htag, rfl, hlaw⟩
  | i64 bits =>
    rw [hp] at htag hlaw
    exact ⟨htag, rfl, hlaw⟩
  | i32 bits =>
    rw [hp] at htag hlaw
    exact ⟨htag, rfl, hlaw⟩
  | len word payload =>
    rw [hp] at htag hlaw
    exact ⟨htag, hlaw⟩

theorem Record.met_verbatim (r : Record) : (Record.met r).verbatim (recordKind r) = r.bytes := by
  unfold Record.met recordKind Record.bytes Met.verbatim
  cases r.payload with
  | len word payload => exact List.append_assoc ..
  | _ => exact congrArg (· ++ _) (List.append_nil _)

/-! ## Forests -/

section Forest

variable {dialect : Dialect} {standard : Standard} {opened : Option FieldNumber} {room : Nat}
  {layer : Layer}

theorem source_forest (hlaw : layer.Lawful dialect standard opened room) (hcut : layer.cut = false)
    (base pos : Nat) : (entries (layer.forest standard base pos)).source = layer.bytes := by
  induction layer generalizing base pos opened room with
  | nil => rfl
  | record r rest ih =>
    show (Record.met r).verbatim (recordKind r) ++ Doc.source (entries (rest.forest _ _ _)) = _
    rw [ih hlaw.2 hcut, Record.met_verbatim]
    rfl
  | group field opener inner closer rest _ ihr =>
    show (opener ++ inner.bytes ++ closer) ++ Doc.source (entries (rest.forest _ _ _)) = _
    rw [ihr hlaw.2.2.2.2.2.2 hcut]
    rfl
  | refused unread => cases hcut
  | torn field opener inner => cases hcut

theorem touched_forest (layer : Layer) (standard : Standard) (base pos : Nat) :
    (entries (layer.forest standard base pos)).touched = false := by
  induction layer generalizing base pos with
  | record r rest ih =>
    show (false || false || false || Doc.touched (entries (rest.forest _ _ _))) = false
    rw [ih]
    rfl
  | group field opener inner closer rest ihi ihr =>
    show (false || false || Doc.touched (entries (inner.forest _ _ _)) ||
      Doc.touched (entries (rest.forest _ _ _))) = false
    rw [ihi, ihr]
    rfl
  | _ => rfl

/-- A scanned row is clean. -/
theorem clean_forest (layer : Layer) (standard : Standard) (base pos : Nat) :
    (layer.forest standard base pos).any (fun n => n.row.dirty) = false := by
  induction layer generalizing base pos with
  | record r rest ih => exact ih _ _
  | group field opener inner closer rest _ ihr => exact ihr _ _
  | _ => rfl

/-- A scanned row speaks for the document. -/
theorem intact_forest (layer : Layer) (standard : Standard) (base pos : Nat) :
    (layer.forest standard base pos).All fun _ n _ =>
      n.row.base = .intact ∧ n.row.zone = .document := by
  induction layer generalizing base pos with
  | record r rest ih => exact ⟨⟨rfl, rfl⟩, trivial, ih _ _⟩
  | group field opener inner closer rest ihi ihr => exact ⟨⟨rfl, rfl⟩, ihi _ _, ihr _ _⟩
  | _ => exact trivial

theorem closed_forest (layer : Layer) (standard : Standard) (base pos : Nat) :
    (layer.forest standard base pos).Closed fun n => n.row.dirty := by
  induction layer generalizing base pos with
  | record r rest ih => exact ⟨nofun, trivial, ih _ _⟩
  | group field opener inner closer rest ihi ihr =>
    refine ⟨fun h => ?_, ihi _ _, ihr _ _⟩
    rw [clean_forest] at h
    cases h
  | _ => exact trivial

theorem abuts_forest (hlaw : layer.Lawful dialect standard opened room) {base pos : Nat}
    {last : Option Row} (hlast : ∀ r, last = some r → r.spanEnd standard = pos) :
    Abuts standard last (layer.forest standard base pos) := by
  induction layer generalizing base pos last opened room with
  | record r rest ih =>
    refine ⟨fun prev hp _ _ => (hlast prev hp).symm, ih hlaw.2 fun row hrow => ?_⟩
    cases hrow
    rw [spanEnd_scanned (Record.met_lawful hlaw.1), Record.met_verbatim]
  | group field opener inner closer rest _ ihr =>
    obtain ⟨-, hto, -, -, -, htc, hlr⟩ := hlaw
    refine ⟨fun prev hp _ _ => (hlast prev hp).symm, ihr hlr fun row hrow => ?_⟩
    cases hrow
    exact spanEnd_scanned ⟨hto, htc⟩
  | _ => exact trivial

/-- A record, or a group, as a scan finds it is sound. -/
theorem nodeSound_scanned {m : Machine} {i pos : Nat} {field : FieldNumber} {kind : RecordKind}
    {met : Met} {rest : List UInt8} {kids : Forest Node}
    (hlaw : met.Lawful m.standard field kind)
    (he : (m.zoneOf (m.row i)).drop pos = met.verbatim kind ++ rest)
    (hkids : kind ≠ .group → kids = .nil)
    (hgroup : kind = .group → (entries kids).source = met.content)
    (htouched : (entries kids).touched = false) :
    NodeSound m i (.scanned m.standard field kind pos met) kids := by
  refine ⟨⟨rfl, rfl, rfl, rfl, .met (.inl rfl) rfl (stands_scanned hlaw he),
    .kept rfl (.inl rfl), ?_, nofun, nofun⟩, fun _ _ => rfl, fun h => ?_, fun met' h ho => ?_,
    fun _ => ⟨rfl, htouched⟩⟩
  · rintro _ ⟨⟩
    exact hlaw
  · exact hkids fun hk => by
      have h : (kind == RecordKind.group) = false := h
      rw [hk] at h
      cases h
  · cases h
    exact hgroup (beq_iff_eq.mp ho)

theorem sound_forest {m : Machine} {zone tail : List UInt8} {base pos : Nat}
    (hlaw : layer.Lawful dialect m.standard opened room) (hcut : layer.cut = false)
    (he : zone.drop pos = layer.bytes ++ tail)
    (hzone : ∀ x ∈ (layer.forest m.standard base pos).ids, m.zoneOf (m.row x) = zone) :
    (layer.forest m.standard base pos).All (NodeSound m) := by
  induction layer generalizing base pos opened room tail with
  | record r rest ih =>
    unfold Layer.forest at hzone
    simp only [Forest.mem_ids_node] at hzone
    have he' : zone.drop pos = r.bytes ++ (rest.bytes ++ tail) := by
      rw [he, Layer.bytes, List.append_assoc]
    have hhere : (m.zoneOf (m.row base)).drop pos =
        (Record.met r).verbatim (recordKind r) ++ (rest.bytes ++ tail) := by
      rw [hzone base (.inl rfl), Record.met_verbatim]
      exact he'
    exact ⟨nodeSound_scanned (Record.met_lawful hlaw.1) hhere (fun _ => rfl)
      (fun hk => absurd hk (recordKind_ne r)) rfl, trivial,
      ih hlaw.2 hcut (drop_of_drop_eq he') fun x hx => hzone x (.inr (.inr hx))⟩
  | group field opener inner closer rest ihi ihr =>
    obtain ⟨-, hto, -, hinner, hli, htc, hlr⟩ := hlaw
    unfold Layer.forest at hzone
    simp only [Forest.mem_ids_node] at hzone
    have he' : zone.drop pos = (opener ++ inner.bytes ++ closer) ++ (rest.bytes ++ tail) := by
      rw [he, Layer.bytes, List.append_assoc]
    have hin : zone.drop pos = opener ++ (inner.bytes ++ (closer ++ (rest.bytes ++ tail))) := by
      rw [he']
      simp only [List.append_assoc]
    have hhere : (m.zoneOf (m.row base)).drop pos =
        (Met.mk opener closer inner.bytes).verbatim .group ++ (rest.bytes ++ tail) := by
      rw [hzone base (.inl rfl)]
      exact he'
    exact ⟨nodeSound_scanned ⟨hto, htc⟩ hhere (fun h => absurd rfl h)
      (fun _ => source_forest hli hinner _ _) (touched_forest _ _ _ _),
      ihi hli hinner (drop_of_drop_eq hin) fun x hx => hzone x (.inr (.inl hx)),
      ihr hlr hcut (drop_of_drop_eq he') fun x hx => hzone x (.inr (.inr hx))⟩
  | _ => exact trivial

end Forest

end ProtobufEdit.Editor
