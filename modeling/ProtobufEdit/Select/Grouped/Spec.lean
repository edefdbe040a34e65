import ProtobufEdit.Select.Grouped.Walk

/-!
# The selector is its specification

Every pull ends, and the pulls over a document deliver what its paths select of the committed
document, each record's extent exact and no record twice for a path.
-/

namespace ProtobufEdit.Select.Grouped

open Wire Wire.Grouped Varint ProtobufEdit.Path Cursor Cursor.Grouped Loop

/-! ## Every pull ends -/

section Pulls

variable {standard : Standard} {m m' : Matches} {layer : Layer} {below : List Layer} {head : Nat}
  {entry : Entry}

def layersLeft (layers : List Layer) : Nat :=
  (layers.map fun layer => 2 * (layer.cursor.data.length - layer.cursor.pos) + 1).sum

theorem layersLeft_cons (layer : Layer) (below : List Layer) : layersLeft (layer :: below) =
    2 * (layer.cursor.data.length - layer.cursor.pos) + 1 + layersLeft below := rfl

/-- What a payload adds to what is left, if it opens. -/
def payloadLeft : EntryKind → Nat
  | .value (.len payload) => 2 * payload.length + 1
  | _ => 0

theorem step_left {c c' : Cursor.Grouped.Cursor} (h : step standard c = (some (.ok entry), c')) :
    2 * (c'.data.length - c'.pos) + payloadLeft entry.kind < 2 * (c.data.length - c.pos) := by
  obtain ⟨hdata, -, hlt, hle⟩ := step_advances h
  rw [hdata]
  obtain ⟨field, kind⟩ := entry
  cases kind with
  | groupEnter | groupExit =>
    simp only [payloadLeft]
    omega
  | value v =>
    cases v with
    | varint _ | i64 _ | i32 _ =>
      simp only [payloadLeft]
      omega
    | len payload =>
      obtain ⟨r, rest, -, hlaw, -, hv, rfl⟩ := step_value h
      cases hp : r.payload with
      | varint _ | i64 _ | i32 _ => rw [hp] at hv; cases hv
      | len word payload' =>
        rw [hp] at hv
        cases hv
        have htag := hlaw.isTag.admits.isWord.length_pos
        have hword : 0 < word.length := by
          have := hlaw.payload
          rw [hp] at this
          exact this.1.isWord.length_pos
        simp only [Cursor.Grouped.Cursor.past, Record.bytes, hp, Payload.bytes,
          List.length_append, payloadLeft] at hle ⊢
        omega

theorem enterLen_left {stop : Nat} {field : FieldNumber} {payload : List UInt8}
    (h : m.enterLen layer head stop field payload = .next m') :
    m'.left ≤ layersLeft m.layers + (2 * payload.length + 1) := by
  unfold Matches.enterLen at h
  simp only at h
  split at h
  · cases h
    exact Nat.le_add_right _ _
  · split at h
    · cases h
      exact Nat.le_add_right _ _
    · split at h
      · cases h
      · next cursor hwithin =>
        cases h
        simp only [Cursor.Grouped.Cursor.within, Option.ite_none_right_eq_some,
          Option.some.injEq] at hwithin
        obtain ⟨-, rfl⟩ := hwithin
        show layersLeft (_ :: m.layers) ≤ _
        rw [layersLeft_cons]
        simp only
        omega

theorem deliver_left (h : m.deliver layer below head entry = .next m') :
    m'.left ≤ layersLeft (layer :: below) + payloadLeft entry.kind := by
  obtain ⟨field, kind⟩ := entry
  cases kind with
  | groupExit =>
    simp only [Matches.deliver, Matches.exitGroup] at h
    split at h
    · split at h
      · split at h
        · cases h
          exact le_refl _
        · cases h
      · cases h
        exact le_refl _
    · cases h
  | groupEnter =>
    simp only [Matches.deliver, Matches.enterGroup] at h
    split at h
    · cases h
    · cases h
      exact le_refl _
  | value v =>
    cases v with
    | varint _ | i64 _ | i32 _ =>
      cases h
      exact le_refl _
    | len payload => exact enterLen_left h

theorem turn_left (h : m.turn standard = .next m') : m'.left < m.left := by
  unfold Matches.turn at h
  split at h
  case h_1 => cases h
  case h_2 =>
    split at h
    case h_1 => cases h
    case h_2 =>
      split at h
      case h_1 => cases h
      case h_2 layer below hlayers =>
        have hleft : m.left = layersLeft (layer :: below) := by
          rw [Matches.left, hlayers]
          rfl
        rw [hleft, layersLeft_cons]
        split at h
        case h_1 =>
          split at h
          · cases h
          · cases h
            show layersLeft below < _
            omega
        case h_2 => cases h
        case h_3 entry cursor hstep =>
          have hle := deliver_left h
          have hlt := step_left hstep
          rw [layersLeft_cons] at hle
          simp only at hle
          omega

/-- A pull's bound is enough. -/
theorem next_yields {r : Pulled} (h : Yields (Matches.turn standard) m r) :
    m.next standard = some r :=
  run_eq_of_yields (fun _ => True) Matches.left (fun _ _ _ e => ⟨trivial, turn_left e⟩) trivial
    (Nat.lt_succ_self _) h

end Pulls

/-! ## The specification -/

/-- The walk at the head of an admitted input. -/
theorem over_stands {program : Program} {limit : DepthLimit} {input : List UInt8} {m : Matches}
    (h : Matches.over input program limit = some m) :
    Stands program ⟨[], none, limit.asInner⟩ [] 0 input (heads program.provider)
      ⟨⟨input, [], 0, limit, 0, 0⟩, 0, none, limit.asInner, 0⟩ [] m := by
  unfold Matches.over Cursor.over at h
  split at h
  case h_1 => cases h
  case h_2 root hroot =>
    simp only [Option.ite_none_left_eq_some, Option.some.injEq] at hroot
    obtain ⟨hfit, rfl⟩ := hroot
    cases h
    exact ⟨rfl, rfl, rfl, rfl, rfl, rfl, rfl, Nat.zero_add _, le_rfl, rfl, rfl,
      .root (Matcher.new program.provider).staged, ⟨[], (List.append_nil _).symm⟩,
      Nat.le_of_not_lt hfit⟩

/-- The pulls over a document deliver what the paths select of its committed tree. -/
theorem over_streams {program : Program} {standard : Standard} {limit : DepthLimit}
    {input : List UInt8} {m : Matches} (h : Matches.over input program limit = some m)
    {tree : Tree} (hparse : tree.Parses program standard limit input) :
    Streams (Matches.next standard) m (selected program tree) := by
  have hwalk := walk_tree tree hparse.lawful (fun _ => rfl)
    (hparse.bytes.symm.trans (List.append_nil _).symm) (over_stands h)
  unfold selected
  cases hfault : tree.fault [] 0 with
  | some fault =>
    rw [hfault] at hwalk
    obtain ⟨m', hemits, hspent⟩ := hwalk
    exact hemits.streams (fun _ _ => next_yields) hspent
  | none =>
    rw [hfault] at hwalk
    obtain ⟨cursor, staged, pending, nextHit, hopens, hemits, hend⟩ := hwalk
    have hspent : Spent (Matches.turn standard) (m.onward _ [] cursor staged pending nextHit) :=
      hend.turn_end (step_end hend.ahead hopens)
    rw [Option.map_none, Option.toList_none, List.append_nil]
    exact hemits.streams (fun _ _ => next_yields) hspent

/-- A record's matches name ascending paths. -/
theorem matchesOf_ascending (program : Program) (o : Occurrence) :
    (matchesOf program o).Pairwise (fun a b => a.path < b.path) :=
  List.pairwise_map.mpr (List.pairwise_lt_range.filter _)

theorem matchesOf_span {program : Program} {o : Occurrence} {a : Match}
    (h : a ∈ matchesOf program o) : a.span = o.span := by
  obtain ⟨id, -, rfl⟩ := List.mem_map.mp h
  rfl

/-- No path is delivered one record twice. -/
theorem selected_once {program : Program} {os : List Occurrence}
    (h : os.Pairwise Occurrence.Ahead) :
    (os.flatMap (matchesOf program)).Pairwise
      (fun a b => ¬ (a.path = b.path ∧ a.span.start = b.span.start)) := by
  refine List.pairwise_flatMap.mpr ⟨fun o _ => ?_, ?_⟩
  · exact (matchesOf_ascending program o).imp fun hlt he => absurd he.1 (Nat.ne_of_lt hlt)
  · refine h.imp fun hahead a ha b hb he => ?_
    rw [matchesOf_span ha, matchesOf_span hb] at he
    exact hahead.2 he.2

/-- For every input within the cap, whatever the program, the standard and the limit: the input
has a committed document, and the iterator over it delivers that document's selection, the
refusal last, and nothing more. Each record delivered is exact, records complete in order, and
no path gets one twice. -/
theorem matches_are_selected (program : Program) (standard : Standard) (limit : DepthLimit)
    (input : List UInt8) :
    match Matches.over input program limit with
    | none => PayloadLen.max < input.length
    | some m => (∃ tree : Tree, tree.Parses program standard limit input) ∧
        ∀ tree : Tree, tree.Parses program standard limit input →
          Streams (Matches.next standard) m (selected program tree) ∧
          (∀ o ∈ tree.completed [] 0, o.Exact standard input) ∧
          (tree.completed [] 0).Pairwise (fun a b => a.completes < b.completes) ∧
          ((tree.completed [] 0).flatMap (matchesOf program)).Pairwise
            (fun a b => ¬ (a.path = b.path ∧ a.span.start = b.span.start)) := by
  cases h : Matches.over input program limit with
  | none =>
    unfold Matches.over Cursor.over at h
    split at h
    case h_1 hover => simpa using hover
    case h_2 => cases h
  | some m =>
    refine ⟨exists_parse program standard limit input, fun tree hparse => ?_⟩
    obtain ⟨horder, -⟩ := completed_order hparse.lawful [] 0
    have hb : input.drop 0 = tree.bytes ++ [] := by
      rw [hparse.bytes, List.append_nil, List.drop_zero]
    exact ⟨over_streams h hparse, completed_exact hparse.lawful hb [],
      horder.imp And.left, selected_once horder⟩

/-- A group and a field inside it, both selected: the interior's match comes first. -/
theorem matches_are_selected_group :
    let f2 : FieldNumber := ⟨2, by decide, by decide⟩
    let f3 : FieldNumber := ⟨3, by decide, by decide⟩
    let program : Program := ⟨[[.field f2], [.field f2, .field f3]], by decide⟩
    ∃ m, Matches.over [0x13, 0x18, 0x01, 0x14] program ⟨1, by decide, by decide⟩ = some m ∧
      Streams (Matches.next .tolerant) m [.ok ⟨1, f3, ⟨1, 2⟩, .varint 1⟩,
        .ok ⟨0, f2, ⟨0, 4⟩, .group [0x18, 0x01]⟩] := by
  intro f2 f3 program
  have hwalk := matches_are_selected program .tolerant ⟨1, by decide, by decide⟩
    [0x13, 0x18, 0x01, 0x14]
  let tree : Tree := .group f2 [0x13] (.leaf ⟨f3, [0x18], .varint [0x01]⟩ .nil) [0x14] .nil
  have hparse : tree.Parses program .tolerant ⟨1, by decide, by decide⟩
      [0x13, 0x18, 0x01, 0x14] := by
    have hone : Window.value.Admits .tolerant [0x01] := @admits_minimal_value .tolerant 1 (by decide)
    have hopener : IsTag .tolerant f2 3 [0x13] := isTag_minimal .tolerant ⟨2, _, _⟩ 3
    have hcloser : IsTag .tolerant f2 4 [0x14] := isTag_minimal .tolerant ⟨2, _, _⟩ 4
    have htag : IsTag .tolerant f3 0 [0x18] := isTag_minimal .tolerant ⟨3, _, _⟩ 0
    exact ⟨rfl, hopener, by decide, rfl, ⟨⟨htag, hone⟩, .inl rfl, trivial⟩, hcloser, trivial⟩
  exact ⟨_, rfl, (hwalk.2 tree hparse).1⟩

end ProtobufEdit.Select.Grouped
