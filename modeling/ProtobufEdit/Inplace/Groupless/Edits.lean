import ProtobufEdit.Inplace.Actions
import ProtobufEdit.Inplace.Groupless

/-!
# What a rule set makes of a document

`Edits` is a document with what each record becomes, `revise` the edits a rule set commands,
and `Edits.commits` says that landing the planned writes turns the document into the edited
one, byte for byte.
-/

namespace ProtobufEdit.Inplace.Groupless

open Wire Wire.Groupless Varint Base128 ProtobufEdit.Path Cursor

/-! ## Parsing -/

/-- The records some bytes parse into; `none` where they do not parse to their end. -/
def records (standard : Standard) (bytes : List UInt8) : Option (List Record) :=
  if bytes = [] then some []
  else
    match _hf : first standard bytes with
    | none => none
    | some (r, rest) => (records standard rest).map (r :: ·)
termination_by bytes.length
decreasing_by exact first_rest_lt _hf

/-- Lawful records one behind the other parse into themselves. -/
theorem records_of_lawful {standard : Standard} {rs : List Record}
    (h : ∀ r ∈ rs, r.Lawful standard) : records standard (rs.flatMap Record.bytes) = some rs := by
  induction rs with
  | nil => rw [List.flatMap_nil, records, if_pos rfl]
  | cons r rs ih =>
    obtain ⟨hr, hrs⟩ := List.forall_mem_cons.mp h
    have hf := @first_iff standard _ (rs.flatMap Record.bytes) r |>.mpr ⟨rfl, hr⟩
    have hne : r.bytes ++ rs.flatMap Record.bytes ≠ [] := by
      intro e
      rw [e, first_nil] at hf
      cases hf
    rw [List.flatMap_cons, records, if_neg hne]
    split
    · next hf' => rw [hf] at hf'; cases hf'
    · next hf' =>
      rw [hf] at hf'
      cases hf'
      rw [ih hrs]
      rfl

/-! ## One record -/

/-- What a record becomes under an action; `none` where the action does not fit it. -/
def become (standard : Standard) (r : Record) : Action → Option (List Record)
  | .replaceRecord bytes =>
    if bytes.length = r.bytes.length then
      match first standard bytes with
      | some (r', []) => some [r']
      | _ => none
    else none
  | action => recast standard r action

section Become

variable {standard : Standard} {r : Record} {out : List Record} {a : Action}

theorem become_recast (ha : ∀ bytes, a ≠ .replaceRecord bytes) :
    become standard r a = recast standard r a := by
  cases a with
  | replaceRecord bytes => exact absurd rfl (ha bytes)
  | _ => rfl

/-- An action that fits a lawful record keeps its promise, and its write lands it. -/
theorem become_spec (hr : r.Lawful standard) (hle : r.bytes.length ≤ PayloadLen.max)
    (h : become standard r a = some out) (head : Nat) :
    (∀ r' ∈ out, r'.Lawful standard) ∧ Does standard r out a ∧
      Lands standard r.bytes (out.flatMap Record.bytes) head (planned head r a) := by
  cases a with
  | replaceRecord bytes =>
    simp only [become] at h
    split_ifs at h with hlen
    split at h
    · next r' hfirst =>
      cases h
      obtain ⟨hbytes, hlaw⟩ := first_iff.mp hfirst
      rw [List.append_nil] at hbytes
      exact ⟨List.forall_mem_singleton.mpr hlaw, ⟨r', hbytes.symm, rfl⟩,
        .whole rfl hlen (by simpa [planned, Write.bytes] using hbytes.symm)⟩
    · cases h
  | _ =>
    rw [become_recast (by intro _ e; cases e)] at h
    exact recast_spec hr hle h head

end Become

/-! ## A document's edits -/

/-- A document's records, each with what stands in its extent behind the job: records whose
interior the job leaves alone, with the action over them, and records it crosses, with the
field it renumbers them to and the edits of their interior. -/
inductive Edits where
  | nil
  | record (r : Record) (action : Option Action) (became : List Record) (rest : Edits)
  | crossed (field : FieldNumber) (tag word : List UInt8) (renumbered : Option FieldNumber)
      (became : List Record) (interior rest : Edits)

/-- One record of a layer: as met, with its interior's own edits made, and what it became. -/
structure Node where
  met : Record
  carried : Record
  action : Option Action
  became : List Record

namespace Edits

def source : Edits → List UInt8
  | nil => []
  | record r _ _ rest => r.bytes ++ rest.source
  | crossed field tag word _ _ interior rest =>
    Record.bytes ⟨field, tag, .len word interior.source⟩ ++ rest.source

def output : Edits → List UInt8
  | nil => []
  | record _ _ became rest => became.flatMap Record.bytes ++ rest.output
  | crossed _ _ _ _ became _ rest => became.flatMap Record.bytes ++ rest.output

/-- The layer's records, in order. -/
def nodes : Edits → List Node
  | nil => []
  | record r action became rest => ⟨r, r, action, became⟩ :: rest.nodes
  | crossed field tag word renumbered became interior rest =>
    ⟨⟨field, tag, .len word interior.source⟩, ⟨field, tag, .len word interior.output⟩,
      renumbered.map .renumber, became⟩ :: rest.nodes

/-- Every crossed interior, at any depth. -/
def interiors : Edits → List Edits
  | nil => []
  | record _ _ _ rest => rest.interiors
  | crossed _ _ _ _ _ interior rest => interior :: (interior.interiors ++ rest.interiors)

/-- The writes planned, the layer's first byte standing at `head`. -/
def writes (head : Nat) : Edits → List Write
  | nil => []
  | record r action _ rest =>
    (action.map (planned head r)).toList ++ rest.writes (head + r.bytes.length)
  | crossed field tag word renumbered _ interior rest =>
    let r : Record := ⟨field, tag, .len word interior.source⟩
    (renumbered.map fun new => planned head r (.renumber new)).toList ++
      (interior.writes (head + (tag ++ word).length) ++ rest.writes (head + r.bytes.length))

/-- The actions landed, in order. -/
def actions : Edits → List Action
  | nil => []
  | record _ action _ rest => action.toList ++ rest.actions
  | crossed _ _ _ renumbered _ interior rest =>
    (renumbered.map .renumber).toList ++ (interior.actions ++ rest.actions)

end Edits

/-! ## What the rules command -/

/-- What a record becomes under what is commanded of it, if anything. -/
def outcome (standard : Standard) (r : Record) : Option Action → Option (List Record)
  | none => some [r]
  | some action => become standard r action

/-- The edits a rule set commands of a layer; `none` where it refuses the document. -/
def revise (standard : Standard) (set : RuleSet) (remaining : Nat) (chain : List FieldNumber)
    (bytes : List UInt8) : Option Edits :=
  if bytes = [] then some .nil
  else
    match _hf : first standard bytes with
    | none => none
    | some (r, rest) =>
      match commanded set chain r.field with
      | none => none
      | some action =>
        match _hp : entered set chain r action with
        | none => do
          let became ← outcome standard r action
          let behind ← revise standard set remaining chain rest
          some (.record r action became behind)
        | some (word, payload, renumbered) =>
          match remaining with
          | 0 => none
          | below + 1 => do
            let interior ← revise standard set below (chain ++ [r.field]) payload
            let became ← outcome standard ⟨r.field, r.tag, .len word interior.output⟩ action
            let behind ← revise standard set (below + 1) chain rest
            some (.crossed r.field r.tag word renumbered became interior behind)
termination_by bytes.length
decreasing_by
  all_goals
    first
      | exact first_rest_lt _hf
      | exact first_payload_lt _hf (entered_some _ _ _hp).1

/-- Edits whose every record is lawful and became what its action makes of it. -/
def Edits.Sound (standard : Standard) : Edits → Prop
  | nil => True
  | record r action became rest =>
    r.Lawful standard ∧ outcome standard r action = some became ∧ rest.Sound standard
  | crossed field tag word renumbered became interior rest =>
    Record.Lawful standard ⟨field, tag, .len word interior.source⟩ ∧
      outcome standard ⟨field, tag, .len word interior.output⟩ (renumbered.map .renumber) =
        some became ∧
      interior.Sound standard ∧ rest.Sound standard

section Revised

variable {standard : Standard} {set : RuleSet} {remaining : Nat} {chain : List FieldNumber}
  {bytes : List UInt8} {t : Edits}

/-- What is revised is the document itself, and every edit of it is sound. -/
theorem revise_spec (h : revise standard set remaining chain bytes = some t) :
    t.source = bytes ∧ t.Sound standard := by
  fun_induction revise standard set remaining chain bytes generalizing t with
  | case1 => cases h; exact ⟨rfl, trivial⟩
  | case2 | case3 | case5 => cases h
  | case4 remaining chain bytes hne r rest hfirst action hcommand hentered ih =>
    obtain ⟨became, hbecame, h⟩ := Option.bind_eq_some_iff.mp h
    obtain ⟨behind, hbehind, h⟩ := Option.bind_eq_some_iff.mp h
    cases h
    obtain ⟨hbytes, hlaw⟩ := first_iff.mp hfirst
    obtain ⟨hsource, hsound⟩ := ih hbehind
    exact ⟨by rw [Edits.source, hsource, hbytes], hlaw, hbecame, hsound⟩
  | case6 chain bytes hne r rest hfirst action hcommand word payload renumbered hentered below
    ihi ihr =>
    obtain ⟨interior, hinterior, h⟩ := Option.bind_eq_some_iff.mp h
    obtain ⟨became, hbecame, h⟩ := Option.bind_eq_some_iff.mp h
    obtain ⟨behind, hbehind, h⟩ := Option.bind_eq_some_iff.mp h
    cases h
    obtain ⟨hbytes, hlaw⟩ := first_iff.mp hfirst
    obtain ⟨hp, rfl, -⟩ := entered_some _ _ hentered
    obtain ⟨hin, hinsound⟩ := ihi hinterior
    obtain ⟨hsource, hsound⟩ := ihr hbehind
    have hr : r = ⟨r.field, r.tag, .len word interior.source⟩ := by rw [hin, ← hp]
    exact ⟨by rw [Edits.source, hsource, ← hr, hbytes], hr ▸ hlaw, hbecame, hinsound, hsound⟩

end Revised

/-! ## What sound edits come to -/

/-- What is commanded of a record is done. -/
def Done (standard : Standard) (r : Record) (became : List Record) : Option Action → Prop
  | none => became = [r]
  | some action => Does standard r became action

/-- Where a record and what became of it agree with the action. -/
structure Node.Exact (standard : Standard) (n : Node) : Prop where
  met : n.met.Lawful standard
  carried : n.carried = n.met ∨ ∃ word old new, n.met.payload = .len word old ∧
    n.carried = { n.met with payload := .len word new } ∧ new.length = old.length
  lawful : ∀ r ∈ n.became, r.Lawful standard
  extent : (n.became.flatMap Record.bytes).length = n.met.bytes.length
  done : Done standard n.carried n.became n.action

namespace Edits

variable {standard : Standard} {t : Edits}

theorem source_nodes (t : Edits) : t.source = (t.nodes.map Node.met).flatMap Record.bytes := by
  induction t with
  | nil => rfl
  | record r action became rest ih =>
    rw [source, ih]
    rfl
  | crossed field tag word renumbered became interior rest _ ih =>
    rw [source, ih]
    rfl

theorem output_nodes (t : Edits) :
    t.output = (t.nodes.flatMap Node.became).flatMap Record.bytes := by
  induction t with
  | nil => rfl
  | record r action became rest ih => rw [output, ih, nodes, List.flatMap_cons, List.flatMap_append]
  | crossed field tag word renumbered became interior rest _ ih =>
    rw [output, ih, nodes, List.flatMap_cons, List.flatMap_append]

/-- What became of a record fits it, whatever is commanded. -/
theorem outcome_spec {r : Record} {action : Option Action} {became : List Record}
    (hr : r.Lawful standard) (hle : r.bytes.length ≤ PayloadLen.max)
    (h : outcome standard r action = some became) :
    (∀ r' ∈ became, r'.Lawful standard) ∧ (became.flatMap Record.bytes).length = r.bytes.length ∧
      Done standard r became action := by
  cases action with
  | none =>
    cases h
    exact ⟨List.forall_mem_singleton.mpr hr, by rw [List.flatMap_singleton], rfl⟩
  | some a =>
    obtain ⟨hlaw, hdoes, hlands⟩ := become_spec hr hle h 0
    exact ⟨hlaw, hlands.extent, hdoes⟩

/-- Sound edits keep the layer's extents, and each of its records is as commanded. -/
theorem Sound.keeps (h : t.Sound standard) (hle : t.source.length ≤ PayloadLen.max) :
    t.output.length = t.source.length ∧ ∀ n ∈ t.nodes, n.Exact standard := by
  induction t with
  | nil => exact ⟨rfl, nofun⟩
  | record r action became rest ih =>
    obtain ⟨hr, hbecame, hrest⟩ := h
    rw [source, List.length_append] at hle
    obtain ⟨hlaw, hextent, hdoes⟩ := outcome_spec hr (by omega) hbecame
    obtain ⟨hlen, hnodes⟩ := ih hrest (by omega)
    refine ⟨?_, List.forall_mem_cons.mpr ⟨⟨hr, .inl rfl, hlaw, hextent, hdoes⟩, hnodes⟩⟩
    rw [output, source, List.length_append, List.length_append, hextent, hlen]
  | crossed field tag word renumbered became interior rest ihi ih =>
    obtain ⟨hr, hbecame, hinterior, hrest⟩ := h
    have hsize : ∀ payload, (Record.bytes ⟨field, tag, .len word payload⟩).length =
        tag.length + (word.length + payload.length) := fun payload => by
      simp only [Record.bytes, Payload.bytes, List.length_append]
    rw [source, List.length_append, hsize] at hle
    obtain ⟨hin, -⟩ := ihi hinterior (by omega)
    have hcarried : Record.Lawful standard ⟨field, tag, .len word interior.output⟩ :=
      ⟨hr.isTag, hr.payload.1, hr.payload.2.trans hin.symm⟩
    obtain ⟨hlaw, hextent, hdoes⟩ := outcome_spec hcarried (by rw [hsize]; omega) hbecame
    rw [hsize, hin, ← hsize interior.source] at hextent
    obtain ⟨hlen, hnodes⟩ := ih hrest (by omega)
    refine ⟨?_, List.forall_mem_cons.mpr
      ⟨⟨hr, .inr ⟨word, _, _, rfl, rfl, hin⟩, hlaw, hextent, hdoes⟩, hnodes⟩⟩
    rw [output, source, List.length_append, List.length_append, hextent, hlen]

/-- A crossed interior is sound, and no longer than what it is crossed in. -/
theorem Sound.interior (h : t.Sound standard) :
    ∀ l ∈ t.interiors, l.Sound standard ∧ l.source.length ≤ t.source.length := by
  induction t with
  | nil => exact nofun
  | record r action became rest ih =>
    intro l hl
    obtain ⟨hs, hle⟩ := ih h.2.2 l hl
    exact ⟨hs, by rw [source, List.length_append]; omega⟩
  | crossed field tag word renumbered became interior rest ihi ih =>
    obtain ⟨-, -, hinterior, hrest⟩ := h
    have hsize : (crossed field tag word renumbered became interior rest).source.length =
        tag.length + (word.length + interior.source.length) + rest.source.length := by
      simp only [source, Record.bytes, Payload.bytes, List.length_append]
    intro l hl
    rw [hsize]
    rcases List.mem_cons.mp hl with rfl | hl
    · exact ⟨hinterior, by omega⟩
    rcases List.mem_append.mp hl with hl | hl
    · obtain ⟨hs, hle⟩ := ihi hinterior l hl
      exact ⟨hs, by omega⟩
    · obtain ⟨hs, hle⟩ := ih hrest l hl
      exact ⟨hs, by omega⟩

/-! ### The writes -/

theorem outcome_lands {r : Record} {action : Option Action} {became : List Record}
    (hr : r.Lawful standard) (hle : r.bytes.length ≤ PayloadLen.max)
    (h : outcome standard r action = some became) (before after : List UInt8) :
    commit standard (before ++ r.bytes ++ after) (action.map (planned before.length r)).toList =
        some (before ++ became.flatMap Record.bytes ++ after) ∧
      Apart standard before.length (before.length + r.bytes.length)
        (action.map (planned before.length r)).toList := by
  cases action with
  | none =>
    cases h
    rw [List.flatMap_singleton]
    exact ⟨rfl, .nil _ _ _⟩
  | some a =>
    obtain ⟨-, -, hlands⟩ := become_spec hr hle h before.length
    exact hlands.commits after

/-- A crossing keeps its prefix, and its payload whatever it is. -/
theorem outcome_crossed {field : FieldNumber} {tag word payload : List UInt8}
    {renumbered : Option FieldNumber} {became : List Record}
    (h : outcome standard ⟨field, tag, .len word payload⟩ (renumbered.map .renumber) =
      some became) :
    ∃ (field' : FieldNumber) (tag' : List UInt8), tag'.length = tag.length ∧
      became = [⟨field', tag', .len word payload⟩] ∧
      ∀ payload, outcome standard ⟨field, tag, .len word payload⟩ (renumbered.map .renumber) =
        some [⟨field', tag', .len word payload⟩] := by
  cases renumbered with
  | none =>
    cases h
    exact ⟨field, tag, rfl, rfl, fun _ => rfl⟩
  | some new =>
    have h : (if _ then _ else _) = some became := h
    split_ifs at h with hfits
    cases h
    exact ⟨new, _, write64At_length _ _, rfl, fun _ => if_pos hfits⟩

/-- A renumbering writes the tag alone. -/
theorem renumbered_apart (renumbered : Option FieldNumber) (head : Nat) (r : Record) :
    Apart standard head (head + r.tag.length)
      (renumbered.map fun new => planned head r (.renumber new)).toList := by
  cases renumbered with
  | none => exact .nil _ _ _
  | some new =>
    have hstop : (planned head r (.renumber new)).stop standard = head + r.tag.length := by
      simp [planned, Write.stop, Write.pos, Write.bytes]
    exact .single (Nat.le_refl head) (Nat.le_of_eq hstop)

/-- The write loop over planned writes makes the edited document of the one met; the extents
lie inside the document. -/
theorem Sound.commits (h : t.Sound standard) (hle : t.source.length ≤ PayloadLen.max)
    (before after : List UInt8) :
    commit standard (before ++ t.source ++ after) (t.writes before.length) =
        some (before ++ t.output ++ after) ∧
      Apart standard before.length (before ++ t.source).length (t.writes before.length) := by
  induction t generalizing before after with
  | nil => exact ⟨rfl, .nil _ _ _⟩
  | record r action became rest ih =>
    obtain ⟨hr, hbecame, hrest⟩ := h
    rw [source, List.length_append] at hle
    have hlen : (before ++ became.flatMap Record.bytes).length =
        before.length + r.bytes.length := by
      rw [List.length_append, (outcome_spec hr (by omega) hbecame).2.1]
    obtain ⟨hcommit, hapart⟩ := ih hrest (by omega) (before ++ became.flatMap Record.bytes) after
    rw [@List.length_append _ _ rest.source, hlen] at hapart
    rw [hlen] at hcommit
    have hhead : commit standard (before ++ r.bytes ++ (rest.source ++ after))
          (action.map (planned before.length r)).toList =
          some (before ++ became.flatMap Record.bytes ++ (rest.source ++ after)) ∧
        Apart standard before.length (before.length + r.bytes.length)
          (action.map (planned before.length r)).toList :=
      outcome_lands hr (by omega) hbecame before (rest.source ++ after)
    refine ⟨?_, ?_⟩
    · rw [source, writes, commit_append, ← List.append_assoc before,
        List.append_assoc _ rest.source, hhead.1, Option.bind_some, ← List.append_assoc, hcommit,
        output]
      simp only [List.append_assoc]
    · rw [writes, source, List.length_append, List.length_append, ← Nat.add_assoc]
      exact hhead.2.append hapart (Nat.le_add_right _ _) (Nat.le_add_right _ _)
  | crossed field tag word renumbered became interior rest ihi ih =>
    obtain ⟨hr, hbecame, hinterior, hrest⟩ := h
    obtain ⟨field', tag', htag, rfl, hevery⟩ := outcome_crossed hbecame
    have hsize : ∀ {f : FieldNumber} {tag payload : List UInt8},
        Record.bytes ⟨f, tag, .len word payload⟩ = tag ++ word ++ payload := fun {_ _ _} =>
      (List.append_assoc _ _ _).symm
    have hhead := outcome_lands hr (by rw [source, List.length_append] at hle; omega)
      (hevery interior.source) before (rest.source ++ after)
    rw [source, hsize, List.length_append, List.length_append] at hle
    have hin := (hinterior.keeps (by omega)).1
    obtain ⟨hicommit, hiapart⟩ := ihi hinterior (by omega) (before ++ (tag' ++ word))
      (rest.source ++ after)
    obtain ⟨hcommit, hapart⟩ := ih hrest (by omega)
      (before ++ (tag' ++ word ++ interior.output)) after
    simp only [hsize, List.flatMap_singleton, List.length_append, htag, hin, List.append_assoc,
      Option.map_map] at hhead hicommit hiapart hcommit hapart
    have hwrites : (fun new => planned before.length ⟨field, tag, .len word interior.source⟩
        (.renumber new)) =
      planned before.length ⟨field, tag, .len word interior.source⟩ ∘ Action.renumber := rfl
    refine ⟨?_, ?_⟩
    · simp only [source, writes, output, hsize, commit_append, List.flatMap_singleton,
        List.length_append, List.append_assoc]
      rw [hwrites, hhead.1, Option.bind_some, hicommit, Option.bind_some]
      exact hcommit
    · simp only [source, writes, hsize, List.length_append, Nat.add_assoc]
      have hbehind := hiapart.append hapart (by omega) (by omega)
      have hspan : before.length + tag.length ≤ before.length + (tag.length + word.length) := by
        omega
      have hfront : Apart standard before.length (before.length + tag.length) _ :=
        renumbered_apart renumbered before.length ⟨field, tag, .len word interior.source⟩
      exact hfront.append (hbehind.lower hspan) (by omega) (by omega)

end Edits

end ProtobufEdit.Inplace.Groupless
