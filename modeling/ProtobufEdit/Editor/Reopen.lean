import ProtobufEdit.Editor.Run

/-!
# Saved documents open

What a machine saves is the bytes of a layer: every record it emits is lawful under the
machine's standard, and its groups are whole.
-/

namespace ProtobufEdit.Editor

open Wire Wire.Grouped Varint Base128 Arena Cursor

/-! ## Emitted records -/

section Records

variable {standard : Standard} {e : Entry}

/-- Some bytes are one lawful record. -/
def IsRecord (standard : Standard) (bytes : List UInt8) : Prop :=
  ∃ r : Record, r.bytes = bytes ∧ r.Lawful standard

theorem Entry.Lawful.tagBytes (h : e.Lawful standard) :
    IsTag standard e.field e.kind.low3 e.tagBytes := by
  unfold Entry.tagBytes
  cases hm : e.met with
  | some met => exact (h.met met hm).tag
  | none => exact isTag_minimal standard e.field e.kind.low3

theorem Entry.Lawful.endBytes (h : e.Lawful standard) (hk : e.kind = .group) :
    IsTag standard e.field 4 e.endBytes := by
  unfold Entry.endBytes
  cases hm : e.met with
  | some met =>
    have hmet := h.met met hm
    rw [hk] at hmet
    exact hmet.body
  | none => exact isTag_minimal standard e.field 4

theorem isRecord_met {field : FieldNumber} {kind : RecordKind} {met : Met}
    (h : met.Lawful standard field kind) (hk : kind ≠ .group) :
    IsRecord standard (met.verbatim kind) := by
  obtain ⟨htag, hbody⟩ := h
  unfold Met.verbatim
  cases kind with
  | varint =>
    refine ⟨⟨field, met.tag, .varint met.content⟩, ?_, htag, hbody.2⟩
    show _ = met.tag ++ met.delim ++ met.content
    rw [hbody.1, List.append_nil]
    rfl
  | i64 =>
    refine ⟨⟨field, met.tag, .i64 met.content⟩, ?_, htag, hbody.2⟩
    show _ = met.tag ++ met.delim ++ met.content
    rw [hbody.1, List.append_nil]
    rfl
  | i32 =>
    refine ⟨⟨field, met.tag, .i32 met.content⟩, ?_, htag, hbody.2⟩
    show _ = met.tag ++ met.delim ++ met.content
    rw [hbody.1, List.append_nil]
    rfl
  | len =>
    exact ⟨⟨field, met.tag, .len met.delim met.content⟩, (List.append_assoc ..).symm, htag, hbody⟩
  | group => exact absurd rfl hk

theorem isRecord_word (h : e.Lawful standard) (hl : e.kind ≠ .len) (hg : e.kind ≠ .group) {v : Nat}
    (hc : e.content = .word v) : IsRecord standard (e.tagBytes ++ valueBytes e.kind v) := by
  have htag := h.tagBytes
  obtain ⟨hv, -⟩ := h.word v hc
  unfold valueBytes
  cases hk : e.kind with
  | varint =>
    rw [hk] at htag
    exact ⟨⟨e.field, e.tagBytes, .varint (minimal v)⟩, rfl, htag, admits_minimal_value standard hv⟩
  | i64 =>
    rw [hk] at htag
    exact ⟨⟨e.field, e.tagBytes, .i64 (toLeBytes 8 v)⟩, rfl, htag, toLeBytes_length ..⟩
  | i32 =>
    rw [hk] at htag
    exact ⟨⟨e.field, e.tagBytes, .i32 (toLeBytes 4 v)⟩, rfl, htag, toLeBytes_length ..⟩
  | len => exact absurd hk hl
  | group => exact absurd hk hg

theorem isRecord_body (h : e.Lawful standard) (hk : e.kind = .len) {body : List UInt8}
    (hcap : body.length ≤ PayloadLen.max) :
    IsRecord standard (e.tagBytes ++ e.prefixBytes body.length ++ body) := by
  have htag := h.tagBytes
  rw [hk] at htag
  have hprefix : Window.len.Admits standard (e.prefixBytes body.length) ∧
      value (e.prefixBytes body.length) = body.length := by
    have hminimal := And.intro (admits_minimal_len standard hcap) (value_minimal body.length)
    unfold Entry.prefixBytes
    cases hm : e.met with
    | none => exact hminimal
    | some met =>
      dsimp only
      split
      · next hlen =>
        have hmet := h.met met hm
        rw [hk] at hmet
        exact ⟨hmet.body.1, hmet.body.2.trans hlen.symm⟩
      · exact hminimal
  exact ⟨⟨e.field, e.tagBytes, .len (e.prefixBytes body.length) body⟩, (List.append_assoc ..).symm,
    htag, hprefix⟩

end Records

section Emitted

variable {m : Machine} {i : Nat} {n : Node} {kids : Forest Node}

/-- What a sound node emits: nothing, a record, or a group around what its interior emits. -/
inductive Emits (standard : Standard) (e : Entry) (inner : Except SaveFault (List UInt8)) :
    List UInt8 → Prop where
  | nothing : e.deleted = true → Emits standard e inner []
  | record {bytes : List UInt8} : IsRecord standard bytes → Emits standard e inner bytes
  | group {body : List UInt8} : e.deleted = false → e.kind = .group → inner = .ok body →
      IsTag standard e.field 3 e.tagBytes → IsTag standard e.field 4 e.endBytes →
      Emits standard e inner (e.tagBytes ++ body ++ e.endBytes)

theorem NodeSound.emits_group (h : NodeSound m i n kids) (hk : n.entry.kind = .group)
    (hd : n.entry.deleted = false) {out : List UInt8}
    (he : n.entry.settled (entries kids).touched (entries kids).emitted = .ok out) :
    Emits m.standard n.entry (entries kids).emitted out := by
  have htag := h.sound.lawful.tagBytes
  rw [hk] at htag
  have hend := h.sound.lawful.endBytes hk
  have hkept : n.entry.content = .kept := by
    rcases h.sound.said with ⟨hc, -⟩ | ⟨-, -, -, hg, -⟩ | ⟨-, -, hl, -, -⟩
    · exact hc
    · exact absurd (h.sound.kind.trans hk) hg
    · rw [h.sound.kind, hk] at hl
      cases hl
  by_cases hclean : n.entry.edited = false ∧ (entries kids).touched = false
  · rw [Entry.settled_clean hd hclean.1 hclean.2] at he
    cases he
    have hmet : ∃ met, n.entry.met = some met := by
      cases hm : n.entry.met with
      | some met => exact ⟨met, rfl⟩
      | none =>
        rw [Entry.edited_of_authored hm] at hclean
        cases hclean.1
    obtain ⟨met, hmet⟩ := hmet
    have hsource := h.tiled met hmet (by rw [h.sound.opened, h.sound.kind, hk]; simp)
    have hinner := Doc.emitted_of_untouched hclean.2
    rw [hsource] at hinner
    have hbytes : n.entry.verbatim = n.entry.tagBytes ++ met.content ++ n.entry.endBytes := by
      unfold Entry.verbatim Entry.tagBytes Entry.endBytes Met.verbatim
      rw [hmet, hk]
      rfl
    rw [hbytes]
    exact .group hd hk hinner htag hend
  · have hdirty : n.entry.edited = true ∨ (entries kids).touched = true := by
      by_contra hn
      rw [not_or, Bool.not_eq_true, Bool.not_eq_true] at hn
      exact hclean hn
    rw [Entry.settled_group hd hkept hdirty hk] at he
    cases hinner : (entries kids).emitted with
    | error fault =>
      rw [hinner] at he
      cases he
    | ok body =>
      rw [hinner] at he
      cases he
      exact .group hd hk rfl htag hend

theorem NodeSound.emits (h : NodeSound m i n kids) {out : List UInt8}
    (he : n.entry.settled (entries kids).touched (entries kids).emitted = .ok out) :
    Emits m.standard n.entry (entries kids).emitted out := by
  have hlaw := h.sound.lawful
  cases hd : n.entry.deleted with
  | true =>
    rw [Entry.settled_deleted hd] at he
    cases he
    exact .nothing hd
  | false =>
    by_cases hg : n.entry.kind = .group
    · exact h.emits_group hg hd he
    · rcases h.sound.said with ⟨hc, hb⟩ | ⟨hc, -, hl, -, -⟩ | ⟨hc, -, hl, -, -⟩
      · have hmet : ∃ met, n.entry.met = some met := by
          rcases h.sound.spelt with ⟨-, hm, -⟩ | ⟨hb', -⟩
          · exact ⟨_, hm⟩
          · rcases hb with hb | ⟨-, hk⟩
            · rw [hb] at hb'
              cases hb'
            · exact absurd (h.sound.kind ▸ hk) hg
        obtain ⟨met, hmet⟩ := hmet
        have hverbatim : IsRecord m.standard n.entry.verbatim := by
          unfold Entry.verbatim
          rw [hmet]
          exact isRecord_met (hlaw.met met hmet) hg
        by_cases hl : n.entry.kind = .len
        · by_cases hclean : n.entry.edited = false ∧ (entries kids).touched = false
          · rw [Entry.settled_clean hd hclean.1 hclean.2] at he
            cases he
            exact .record hverbatim
          · have hdirty : n.entry.edited = true ∨ (entries kids).touched = true := by
              by_contra hn
              rw [not_or, Bool.not_eq_true, Bool.not_eq_true] at hn
              exact hclean hn
            rw [Entry.settled_len hd hc hdirty hl] at he
            cases hinner : (entries kids).emitted with
            | error fault =>
              rw [hinner] at he
              cases he
            | ok body =>
              rw [hinner] at he
              have he : (if PayloadLen.max < body.length then .error (.bodyOverCap n.entry.pos)
                  else .ok (n.entry.tagBytes ++ n.entry.prefixBytes body.length ++ body) :
                    Except SaveFault (List UInt8)) = .ok out := he
              split at he
              · cases he
              · next hcap =>
                cases he
                exact .record (isRecord_body hlaw hl (Nat.not_lt.mp hcap))
        · rw [Entry.settled_scalar hd hc hl hg] at he
          cases he
          exact .record hverbatim
      · rw [Entry.settled_word hd hc] at he
        cases he
        exact .record (isRecord_word hlaw (h.sound.kind ▸ hl) hg hc)
      · rw [Entry.settled_payload hd hc] at he
        cases he
        exact .record (isRecord_body hlaw (h.sound.kind ▸ hl) (hlaw.payload _ hc))

end Emitted

/-! ## Emitted documents -/

/-- How deep groups nest in what is emitted. -/
def Doc.nesting : Doc → Nat
  | .nil => 0
  | .node _ e kids rest =>
    max (if e.deleted = false ∧ e.kind = .group then nesting kids + 1 else 0) (nesting rest)

section Layers

variable {m : Machine} {t : Forest Node}

/-- What sound nodes emit is a whole layer, read wherever its groups have room. -/
theorem layer_emitted (h : t.All (NodeSound m)) {out : List UInt8}
    (he : (entries t).emitted = .ok out) {room : Nat} (hroom : (entries t).nesting ≤ room)
    (opened : Option FieldNumber) : ∃ layer : Layer,
      layer.bytes = out ∧ layer.cut = false ∧ layer.Lawful .grouped m.standard opened room := by
  induction t generalizing out room opened with
  | nil =>
    cases he
    exact ⟨.nil, rfl, rfl, trivial⟩
  | node i n kids rest ihk ihr =>
    obtain ⟨hn, hk, hr⟩ := h
    have he : ((n.entry.settled (entries kids).touched (entries kids).emitted).bind fun here =>
      (entries rest).emitted.map fun behind => here ++ behind) = .ok out := he
    have hroom : max (if n.entry.deleted = false ∧ n.entry.kind = .group then
        (entries kids).nesting + 1 else 0) (entries rest).nesting ≤ room := hroom
    cases hhere : n.entry.settled (entries kids).touched (entries kids).emitted with
    | error fault =>
      rw [hhere] at he
      cases he
    | ok here =>
      rw [hhere] at he
      cases hbehind : (entries rest).emitted with
      | error fault =>
        rw [hbehind] at he
        cases he
      | ok behind =>
        rw [hbehind] at he
        cases he
        obtain ⟨layer, rfl, hcut, hlaw⟩ :=
          ihr hr hbehind (Nat.le_trans (Nat.le_max_right _ _) hroom) opened
        rcases hn.emits hhere with hd | ⟨r, rfl, hlr⟩ | ⟨hd, hg, hin, ho, hc⟩
        · exact ⟨layer, rfl, hcut, hlaw⟩
        · exact ⟨.record r layer, rfl, hcut, hlr, hlaw⟩
        · rw [if_pos ⟨hd, hg⟩] at hroom
          have hdeep : (entries kids).nesting + 1 ≤ room :=
            Nat.le_trans (Nat.le_max_left _ _) hroom
          obtain ⟨inner, rfl, hcut', hlaw'⟩ :=
            ihk hk hin (Nat.le_sub_of_add_le hdeep) (some n.entry.field)
          exact ⟨.group n.entry.field n.entry.tagBytes inner n.entry.endBytes layer, rfl, hcut, rfl,
            ho, Nat.lt_of_lt_of_le (Nat.succ_pos _) hdeep, hcut', hlaw', hc, hlaw⟩

/-- Every record takes a byte. -/
theorem Layer.size_le {dialect : Dialect} {standard : Standard} {layer : Layer}
    {opened : Option FieldNumber} {room : Nat} (h : layer.Lawful dialect standard opened room) :
    layer.size ≤ layer.bytes.length := by
  induction layer generalizing opened room with
  | record r rest ih =>
    have hpos := h.1.length_pos
    have hrest := ih h.2
    unfold Layer.size Layer.bytes
    rw [List.length_append]
    omega
  | group field opener inner closer rest ihi ihr =>
    obtain ⟨-, ho, -, -, hli, -, hlr⟩ := h
    have hpos := ho.admits.isWord.length_pos
    have hinner := ihi hli
    have hrest := ihr hlr
    unfold Layer.size Layer.bytes
    simp only [List.length_append]
    omega
  | torn field opener inner ih =>
    obtain ⟨-, ho, -, -, hli⟩ := h
    have hpos := ho.admits.isWord.length_pos
    have hinner := ih hli
    unfold Layer.size Layer.bytes
    rw [List.length_append]
    omega
  | _ => exact Nat.zero_le _

/-- A source opens where its layer is whole, on the layer's own forest. -/
theorem openSource_layer {dialect : Dialect} {standard : Standard} {source : List UInt8}
    {limit : DepthLimit} {layer : Layer} (hr : layer.Reads dialect standard limit.asInner source) :
    (∀ m, openSource dialect standard source limit = .ok m →
      m.rows.length = layer.size ∧
        Chain Node.row m.rows none m.top (layer.forest standard 0 0)) ∧
    ((∃ m, openSource dialect standard source limit = .ok m) ↔
      layer.cut = false ∧ source.length ≤ PayloadLen.max) := by
  have hr' : layer.Reads dialect standard (limit.asInner - 0)
      (Machine.slice source 0 source.length) := by
    rw [slice_whole]
    exact hr
  have hsize : source.length ≤ PayloadLen.max → layer.size ≤ rowMax + 1 := by
    intro hcap
    have := Layer.size_le hr.lawful
    rw [hr.bytes] at this
    exact Nat.le_trans this hcap
  by_cases hcap : PayloadLen.max < source.length
  · have he : openSource dialect standard source limit = .error (.tooLarge source.length) :=
      if_pos hcap
    rw [he]
    exact ⟨nofun, ⟨fun ⟨_, hm⟩ => (nomatch hm), fun hn => absurd hn.2 (Nat.not_le.mpr hcap)⟩⟩
  · have hle := Nat.not_lt.mp hcap
    cases hcut : layer.cut with
    | true =>
      obtain ⟨halt, he⟩ : ∃ halt, scanLayer dialect standard [] source 0 source.length none 0
          limit = .error halt :=
        scanLayer_error hr' (Nat.zero_le _) nofun (Nat.zero_le _) (.inl hcut)
      have hnone : ∀ m, openSource dialect standard source limit ≠ .ok m := by
        intro m hm
        unfold openSource at hm
        rw [if_neg hcap, he] at hm
        cases halt <;> cases hm
      exact ⟨fun m hm => absurd hm (hnone m), ⟨fun ⟨m, hm⟩ => absurd hm (hnone m),
        fun hn => nomatch hn.1⟩⟩
    | false =>
      obtain ⟨rows, he, hlen, -, hchain⟩ : ∃ rows, scanLayer dialect standard [] source 0
          source.length none 0 limit = .ok (rows, _) ∧ _ :=
        scanLayer_ok hr' (Nat.zero_le _) nofun hcut (by
          rw [List.length_nil, Nat.zero_add]
          exact hsize hle)
      have hok : openSource dialect standard source limit = .ok ⟨dialect, standard, source, limit,
          rows, [], .new, [], (layer.forest standard 0 0).first, false⟩ := by
        unfold openSource
        rw [if_neg hcap, he]
        rfl
      rw [hok]
      refine ⟨fun m hm => ?_, ⟨fun _ => ⟨rfl, hle⟩, fun _ => ⟨_, rfl⟩⟩⟩
      cases hm
      exact ⟨hlen.trans (Nat.zero_add _), hchain⟩

/-- A saved document opens again, where the limit lets its groups nest. -/
theorem Machine.StandsFor.reopens {d : Doc} (h : m.StandsFor d) {out : List UInt8}
    (hsave : m.save = .saved out) (limit : DepthLimit) (hlimit : d.nesting ≤ limit.asInner) :
    ∃ m', openSource .grouped m.standard out limit = .ok m' := by
  rw [h.save] at hsave
  obtain ⟨t, ht, rfl⟩ := h
  unfold Doc.saved at hsave
  cases he : (entries t).emitted with
  | error fault =>
    rw [he] at hsave
    cases hsave
  | ok bytes =>
    rw [he] at hsave
    dsimp only at hsave
    split at hsave
    · cases hsave
    · next hcap =>
      cases hsave
      obtain ⟨layer, hbytes, hcut, hlaw⟩ := layer_emitted ht.nodes he hlimit none
      have hr : layer.Reads .grouped m.standard limit.asInner out := ⟨hbytes, hlaw⟩
      exact (openSource_layer hr).2.mpr ⟨hcut, Nat.not_lt.mp hcap⟩

end Layers

/-- The grouped editor opens a source's forest, saves what was commanded of it and prices what it
saves, and its output opens again. -/
theorem save_grouped {standard : Standard} {source : List UInt8} {limit : DepthLimit}
    {layer : Layer} (hr : layer.Reads .grouped standard limit.asInner source) :
    ((∃ m, openSource .grouped standard source limit = .ok m) ↔
      layer.cut = false ∧ source.length ≤ PayloadLen.max) ∧
    ∀ m, openSource .grouped standard source limit = .ok m →
      Chain Node.row m.rows none m.top (layer.forest standard 0 0) ∧
      m.rows.length = layer.size ∧
      ∀ commands,
        (m.performAll commands).1.save =
            (Doc.commanded .grouped standard source limit m commands).saved ∧
          (m.performAll commands).1.save ≠ .panicked ∧
          (m.performAll commands).1.save.Prices (m.performAll commands).1.saveLen ∧
          ∀ out, (m.performAll commands).1.save = .saved out → ∀ limit' : DepthLimit,
            (Doc.commanded .grouped standard source limit m commands).nesting ≤ limit'.asInner →
              ∃ m', openSource .grouped standard out limit' = .ok m' := by
  obtain ⟨hchain, hok⟩ := openSource_layer hr
  refine ⟨hok, fun m hm => ⟨(hchain m hm).2, (hchain m hm).1, ?_⟩⟩
  intro commands
  have hstands := standsFor_run hm commands
  have hsave := hstands.save
  have hstd : (m.performAll commands).1.standard = standard := by
    obtain ⟨-, -, -, rfl, -, -⟩ := openSource_models hm
    exact performAll_standard m commands
  refine ⟨hsave, hsave ▸ Doc.saved_ne_panicked _, hstands.saveLen, fun out hout limit' hlimit => ?_⟩
  have := hstands.reopens hout limit' hlimit
  rwa [hstd] at this

/-- A group's interior edited in place. -/
theorem save_grouped_interior :
    ((∃ m, openSource .grouped .tolerant [0x0b, 0x08, 0x01, 0x0c] ⟨1, by decide, by decide⟩ =
        .ok m) ↔
      (layerOf .grouped .tolerant 1 [0x0b, 0x08, 0x01, 0x0c]).cut = false ∧
        [0x0b, 0x08, 0x01, (0x0c : UInt8)].length ≤ PayloadLen.max) ∧
    ∀ m, openSource .grouped .tolerant [0x0b, 0x08, 0x01, 0x0c] ⟨1, by decide, by decide⟩ =
        .ok m →
      (m.performAll [.setVarint 1 5]).1.save ≠ .panicked := by
  have h := @save_grouped .tolerant [0x0b, 0x08, 0x01, 0x0c] ⟨1, by decide, by decide⟩ _
    (layerOf_reads .grouped .tolerant 1 [0x0b, 0x08, 0x01, 0x0c])
  exact ⟨h.1, fun m hm => ((h.2 m hm).2.2 [.setVarint 1 5]).2.1⟩

example : (openSource .grouped .tolerant [0x0b, 0x08, 0x01, 0x0c] ⟨1, by decide, by decide⟩).map
    (fun m => (m.performAll [.setVarint 1 5]).1.save) =
      .ok (.saved [0x0b, 0x08, 0x05, 0x0c]) := by decide

end ProtobufEdit.Editor
