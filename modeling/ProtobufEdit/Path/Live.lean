import ProtobufEdit.Path.Matcher

/-!
# Layers and their languages

`Layer` is what the live states of one chain put into the tables, `Denotes` says that the
live states spell the paths' languages behind the chain, and `Live` follows a matcher
through its descents and exits.
-/

namespace ProtobufEdit.Path

open Wire Pattern

/-! ## Collapsed runs -/

section Collapse

variable {α : Type} [LinearOrder α] [DecidableEq α] {l : List α} {last : Option α}

/-- A sorted run collapses to its members, each once. -/
theorem collapse_spec (h : l.Pairwise (· ≤ ·)) (hlast : ∀ a ∈ last, ∀ b ∈ l, a ≤ b) :
    (collapse last l).Pairwise (· < ·) ∧ (∀ b, b ∈ collapse last l ↔ b ∈ l ∧ last ≠ some b) ∧
      ∀ a ∈ last, ∀ b ∈ collapse last l, a < b := by
  induction l generalizing last with
  | nil => simp [collapse]
  | cons c l ih =>
    obtain ⟨hc, hl⟩ := List.pairwise_cons.mp h
    rw [collapse]
    split_ifs with he
    · obtain rfl := he
      obtain ⟨hp, hm, hlt⟩ := @ih (some c) hl (fun a ha b hb => by cases ha; exact hc b hb)
      refine ⟨hp, fun b => ?_, hlt⟩
      rw [hm, List.mem_cons]
      constructor
      · rintro ⟨hb, hne⟩
        exact ⟨.inr hb, hne⟩
      · rintro ⟨rfl | hb, hne⟩
        · exact absurd rfl hne
        · exact ⟨hb, hne⟩
    · obtain ⟨hp, hm, hlt⟩ := @ih (some c) hl (fun a ha b hb => by cases ha; exact hc b hb)
      have hbelow : ∀ a ∈ last, a < c := fun a ha =>
        lt_of_le_of_ne (hlast a ha c List.mem_cons_self) fun e => he (e ▸ ha)
      refine ⟨List.pairwise_cons.mpr ⟨fun b hb => hlt c rfl b hb, hp⟩, fun b => ?_, ?_⟩
      · rw [List.mem_cons, hm, List.mem_cons]
        constructor
        · rintro (rfl | ⟨hb, -⟩)
          · exact ⟨.inl rfl, he⟩
          · refine ⟨.inr hb, fun e => ?_⟩
            exact absurd (hc b hb) (not_le.mpr (hbelow b e))
        · rintro ⟨rfl | hb, -⟩
          · exact .inl rfl
          · rcases eq_or_ne c b with rfl | hne
            · exact .inl rfl
            · exact .inr ⟨hb, fun e => hne (Option.some.inj e)⟩
      · intro a ha b hb
        rcases List.mem_cons.mp hb with rfl | hb
        · exact hbelow a ha
        · exact (hbelow a ha).trans (hlt c rfl b hb)

theorem collapse_sorted (h : l.Pairwise (· ≤ ·)) :
    (collapse none l).Pairwise (· < ·) ∧ ∀ b, b ∈ collapse none l ↔ b ∈ l := by
  obtain ⟨hp, hm, -⟩ := @collapse_spec α _ _ l none h nofun
  exact ⟨hp, fun b => by rw [hm]; simp⟩

end Collapse

/-! ## Layers -/

/-- The table entries of some live states. -/
structure Layer where
  targets : List (FieldNumber × Nat)
  stages : List (FieldNumber × State)
  wilds : List (List FieldNumber × State)
  gaps : List (FieldNumber × Nat × Lane)

namespace Layer

def empty : Layer := ⟨[], [], [], []⟩

def append (l l' : Layer) : Layer :=
  ⟨l.targets ++ l'.targets, l.stages ++ l'.stages, l.wilds ++ l'.wilds, l.gaps ++ l'.gaps⟩

/-- The states continuing into a field. -/
def next (l : Layer) (field : FieldNumber) : List State :=
  (l.stages.filter fun e => e.1 = field).map Prod.snd ++
    (l.wilds.filter fun e => field ∈ e.1).map Prod.snd

end Layer

def Matcher.push (m : Matcher) (l : Layer) : Matcher := { m with
  targets := m.targets ++ l.targets
  stages := m.stages ++ l.stages
  wilds := m.wilds ++ l.wilds
  gaps := { m.gaps with entries := m.gaps.entries ++ l.gaps } }

/-- What `flattenFrom` pushes. -/
def layerFrom (paths : Paths) (id : Nat) : Nat → Segments → Layer
  | _, [] => .empty
  | i, .field f :: rest =>
    if rest = [] then
      if paths.laned = true ∧ paths.lane id ≠ .target then
        { Layer.empty with gaps := [(f, id, paths.lane id)] }
      else { Layer.empty with targets := [(f, id)] }
    else { Layer.empty with stages := [(f, ⟨id, i + 1⟩)] }
  | i, .anyDepth descend :: rest =>
    { Layer.empty with wilds := [(descend, ⟨id, i⟩)] }.append (layerFrom paths id (i + 1) rest)

/-- The pattern a live state still has to match. -/
def suffix (paths : Paths) (s : State) : Segments := (paths.path s.path).drop s.seg

def layerAt (paths : Paths) (s : State) : Layer := layerFrom paths s.path s.seg (suffix paths s)

def layerOf (paths : Paths) : List State → Layer
  | [] => .empty
  | s :: live => (layerAt paths s).append (layerOf paths live)

attribute [grind =] layerFrom layerAt layerOf

section Push

variable {m : Matcher} {paths : Paths}

@[simp] theorem push_paths (l : Layer) : (m.push l).paths = m.paths := rfl

theorem push_empty (m : Matcher) : m.push .empty = m := by
  simp [Matcher.push, Layer.empty]

theorem push_append (l l' : Layer) : (m.push l).push l' = m.push (l.append l') := by
  simp [Matcher.push, Layer.append]

theorem flattenFrom_eq (id : Nat) {i : Nat} {p : Segments} :
    Matcher.flattenFrom id i p m = m.push (layerFrom m.paths id i p) := by
  induction p generalizing i m with
  | nil => exact (push_empty m).symm
  | cons s p ih =>
    cases s with
    | field f =>
      simp only [Matcher.flattenFrom, layerFrom]
      split_ifs <;> simp [Matcher.push, Layer.empty, GapTable.push]
    | anyDepth descend =>
      simp only [Matcher.flattenFrom, layerFrom, ih, ← push_append]
      simp [Matcher.push, Layer.empty]

theorem flatten_foldl (live : List State) :
    live.foldl Matcher.flatten m = m.push (layerOf m.paths live) := by
  induction live generalizing m with
  | nil => exact (push_empty m).symm
  | cons s live ih =>
    rw [List.foldl_cons, ih, Matcher.flatten, flattenFrom_eq, push_paths, push_append]
    rfl

end Push

/-! ## A state's entries are its first symbols -/

section Entries

variable {paths : Paths} {id i : Nat} {p : Segments} {f : FieldNumber}

/-- A path's terminal field is a target entry, or a gap entry in the path's lane. -/
def Ends (l : Layer) (paths : Paths) (f : FieldNumber) (id : Nat) : Prop :=
  if paths.laned = true ∧ paths.lane id ≠ .target then (f, id, paths.lane id) ∈ l.gaps
  else (f, id) ∈ l.targets

/-- A chain of one symbol is matched exactly by a terminal entry. -/
theorem ends_iff (h : EndsSym (pattern p) ∨ p = []) :
    Matches (pattern p) [f] ↔ Ends (layerFrom paths id i p) paths f id := by
  induction p generalizing i with
  | nil => simp [Ends, layerFrom, Layer.empty, matches_nil_iff]
  | cons s p ih =>
    have h := h.resolve_right (List.cons_ne_nil s p)
    cases s with
    | field g =>
      rcases eq_or_ne p [] with rfl | hp
      · have : Matches (pattern [.field g]) [f] ↔ f = g :=
          matches_sym_iff.trans ⟨And.left, fun e => ⟨e, .nil⟩⟩
        rw [this]
        by_cases hl : paths.laned = true ∧ paths.lane id ≠ .target <;>
          simp [Ends, layerFrom, hl, Layer.empty]
      · have hends : EndsSym (pattern p) :=
          (endsSym_sym.mp h).resolve_left fun e => hp (List.map_eq_nil_iff.mp e)
        refine ⟨fun hm => absurd (matches_sym_iff.mp hm).2 hends.not_matches_nil, fun hm => ?_⟩
        simp [Ends, layerFrom, hp, Layer.empty] at hm
    | anyDepth d =>
      have hends : EndsSym (pattern p) := endsSym_run.mp h
      have hrun : Matches (pattern (.anyDepth d :: p)) [f] ↔ Matches (pattern p) [f] := by
        refine matches_run_cons.trans (or_iff_right fun hm => ?_)
        exact hends.not_matches_nil (matches_run_nil.mp hm.2)
      rw [hrun, ih (.inl hends) (i := i + 1)]
      simp only [Ends, layerFrom, Layer.append, Layer.empty, List.nil_append]

/-- A longer chain goes on in one of the states continuing into its first symbol. -/
theorem next_iff {path : Segments} (hp : p = path.drop i) (hends : EndsSym (pattern p) ∨ p = [])
    {g : FieldNumber} {w : List FieldNumber} :
    Matches (pattern p) (f :: g :: w) ↔
      ∃ s ∈ (layerFrom paths id i p).next f, Matches (pattern (path.drop s.seg)) (g :: w) := by
  induction p generalizing i with
  | nil => simp [layerFrom, Layer.next, Layer.empty, matches_nil_iff]
  | cons s p ih =>
    have h := hends.resolve_right (List.cons_ne_nil s p)
    have hrest : p = path.drop (i + 1) := by rw [← List.tail_drop, ← hp]; rfl
    cases s with
    | field f' =>
      refine matches_sym_iff.trans ?_
      rcases eq_or_ne p [] with rfl | hne
      · constructor
        · rintro ⟨-, hm⟩
          cases hm
        · rintro ⟨s, hs, -⟩
          rw [layerFrom, if_pos rfl] at hs
          split_ifs at hs <;> simp [Layer.next, Layer.empty] at hs
      · rw [layerFrom, if_neg hne]
        simp only [Layer.next, Layer.empty, List.filter_nil, List.map_nil, List.append_nil]
        rw [List.filter_singleton]
        constructor
        · rintro ⟨rfl, hm⟩
          exact ⟨⟨id, i + 1⟩, by simp, hrest ▸ hm⟩
        · rintro ⟨s, hs, hm⟩
          by_cases he : f' = f
          · simp only [he, decide_true, cond_true, List.map_cons, List.map_nil,
              List.mem_singleton] at hs
            subst hs
            exact ⟨he.symm, hrest ▸ hm⟩
          · simp [he] at hs
    | anyDepth d =>
      have hmem : ∀ s, s ∈ (layerFrom paths id i (.anyDepth d :: p)).next f ↔
          (f ∈ d ∧ s = ⟨id, i⟩) ∨ s ∈ (layerFrom paths id (i + 1) p).next f := by
        intro s
        simp only [layerFrom, Layer.next, Layer.append, Layer.empty, List.nil_append,
          List.mem_append, List.singleton_append, List.filter_cons]
        by_cases hf : f ∈ d <;> simp [hf]
        tauto
      refine matches_run_cons.trans ?_
      rw [show (pattern p : List (Item FieldNumber)) = List.map Segment.item p from rfl] at ih
      rw [ih hrest (.inl (endsSym_run.mp h))]
      simp only [hmem]
      constructor
      · rintro (⟨hf, hm⟩ | ⟨s, hs, hm⟩)
        · exact ⟨⟨id, i⟩, .inl ⟨hf, rfl⟩, by rw [← hp]; exact hm⟩
        · exact ⟨s, .inr hs, hm⟩
      · rintro ⟨s, ⟨hf, rfl⟩ | hs, hm⟩
        · exact .inl ⟨hf, by rw [← hp] at hm; exact hm⟩
        · exact .inr ⟨s, hs, hm⟩

/-- The states continuing into a field are of the same path, further along or still on a
wildcard, and still to end on a field. -/
theorem next_valid {path : Segments} (hp : p = path.drop i) (hends : EndsSym (pattern p) ∨ p = [])
    {s : State} (hs : s ∈ (layerFrom paths id i p).next f) :
    s.path = id ∧ EndsSym (pattern (path.drop s.seg)) := by
  induction p generalizing i with
  | nil => simp [layerFrom, Layer.next, Layer.empty] at hs
  | cons seg p ih =>
    have h := hends.resolve_right (List.cons_ne_nil seg p)
    have hrest : p = path.drop (i + 1) := by rw [← List.tail_drop, ← hp]; rfl
    cases seg with
    | field f' =>
      rcases eq_or_ne p [] with rfl | hne
      · rw [layerFrom, if_pos rfl] at hs
        split_ifs at hs <;> simp [Layer.next, Layer.empty] at hs
      · have hends' : EndsSym (pattern p) :=
          (endsSym_sym.mp h).resolve_left fun e => hne (List.map_eq_nil_iff.mp e)
        rw [layerFrom, if_neg hne] at hs
        simp only [Layer.next, Layer.empty, List.filter_nil, List.map_nil, List.append_nil,
          List.mem_map, List.mem_filter, List.mem_singleton] at hs
        obtain ⟨e, ⟨rfl, -⟩, rfl⟩ := hs
        exact ⟨rfl, hrest ▸ hends'⟩
    | anyDepth d =>
      simp only [layerFrom, Layer.next, Layer.append, Layer.empty, List.nil_append,
        List.mem_append, List.singleton_append, List.filter_cons] at hs
      have hself : EndsSym (pattern (path.drop i)) := hp ▸ h
      by_cases hf : f ∈ d
      · simp only [hf, decide_true, if_true, List.map_cons, List.mem_cons] at hs
        rcases hs with hs | rfl | hs
        · exact ih hrest (.inl (endsSym_run.mp h)) (List.mem_append_left _ hs)
        · exact ⟨rfl, hself⟩
        · exact ih hrest (.inl (endsSym_run.mp h)) (List.mem_append_right _ hs)
      · simp only [hf, decide_false, Bool.false_eq_true, if_false] at hs
        exact ih hrest (.inl (endsSym_run.mp h)) (List.mem_append.mpr hs)

/-- A state lands at most one terminal entry, under its own path. -/
theorem terminal_entries :
    (layerFrom paths id i p).targets.Pairwise (fun _ _ => False) ∧
      (layerFrom paths id i p).gaps.Pairwise (fun _ _ => False) ∧
      (∀ e ∈ (layerFrom paths id i p).targets,
        e.2 = id ∧ ¬ (paths.laned = true ∧ paths.lane id ≠ .target)) ∧
      ∀ e ∈ (layerFrom paths id i p).gaps,
        e.2 = (id, paths.lane id) ∧ paths.laned = true ∧ paths.lane id ≠ .target := by
  induction p generalizing i with
  | nil => simp [layerFrom, Layer.empty]
  | cons seg p ih =>
    cases seg with
    | field g =>
      rw [layerFrom]
      split_ifs with hp hl
      · simp [Layer.empty, hl]
      · simpa [Layer.empty] using hl
      · simp [Layer.empty]
    | anyDepth d => simpa only [layerFrom, Layer.append, Layer.empty, List.nil_append] using ih

end Entries

/-! ## What the live states of a chain denote -/

section Denotation

variable {paths : Paths}

theorem Paths.lawful_path (paths : Paths) (id : Nat) :
    EndsSym (pattern (paths.path id)) ∨ paths.path id = [] := by
  unfold Paths.path
  rw [List.getD_eq_getElem?_getD]
  cases h : paths.entries[id]? with
  | none => exact .inr rfl
  | some e => exact (paths.lawful e (List.mem_of_getElem? h)).imp_right And.right

/-- The live states behind a chain: in order, and spelling every path's language there. -/
structure Denotes (paths : Paths) (chain : List FieldNumber) (live : List State) : Prop where
  sorted : live.Pairwise (· < ·)
  inside : ∀ s ∈ live, s.path < paths.count
  valid : ∀ s ∈ live, EndsSym (pattern (suffix paths s)) ∨ suffix paths s = []
  spells : ∀ id < paths.count, ∀ f w, Selects (paths.path id) (chain ++ f :: w) ↔
    ∃ s ∈ live, s.path = id ∧ Matches (pattern (suffix paths s)) (f :: w)

def heads (paths : Paths) : List State := (List.range paths.count).map fun id => ⟨id, 0⟩

theorem denotes_heads (paths : Paths) : Denotes paths [] (heads paths) := by
  refine ⟨?_, ?_, ?_, ?_⟩
  · refine List.pairwise_map.mpr ((List.pairwise_lt_range).imp fun {a b} h => ?_)
    exact Prod.Lex.toLex_lt_toLex.mpr (.inl h)
  · intro s hs
    obtain ⟨id, hid, rfl⟩ := List.mem_map.mp hs
    exact List.mem_range.mp hid
  · intro s hs
    obtain ⟨id, -, rfl⟩ := List.mem_map.mp hs
    exact paths.lawful_path id
  · intro id hid f w
    constructor
    · intro h
      exact ⟨⟨id, 0⟩, List.mem_map.mpr ⟨id, List.mem_range.mpr hid, rfl⟩, rfl, h⟩
    · rintro ⟨s, hs, rfl, h⟩
      obtain ⟨id', -, rfl⟩ := List.mem_map.mp hs
      exact h

theorem mem_layerOf_next {live : List State} {f : FieldNumber} {s' : State} :
    s' ∈ (layerOf paths live).next f ↔ ∃ s ∈ live, s' ∈ (layerAt paths s).next f := by
  induction live with
  | nil => simp [layerOf, Layer.empty, Layer.next]
  | cons s live ih =>
    rw [List.exists_mem_cons_iff, ← ih]
    simp only [layerOf, Layer.append, Layer.next, List.filter_append, List.map_append,
      List.mem_append]
    tauto

/-- The states staged for a descent, as `commitDescent` compiles them. -/
def descend (paths : Paths) (live : List State) (f : FieldNumber) : List State :=
  collapse none (((layerOf paths live).next f).insertionSort (· ≤ ·))

theorem descend_spec (paths : Paths) (live : List State) (f : FieldNumber) :
    (descend paths live f).Pairwise (· < ·) ∧
      ∀ s', s' ∈ descend paths live f ↔ ∃ s ∈ live, s' ∈ (layerAt paths s).next f := by
  obtain ⟨hp, hm⟩ := collapse_sorted
    (List.pairwise_insertionSort (· ≤ ·) ((layerOf paths live).next f))
  refine ⟨hp, fun s' => ?_⟩
  rw [descend, hm, List.mem_insertionSort, mem_layerOf_next]

theorem Denotes.descend {chain : List FieldNumber} {live : List State}
    (h : Denotes paths chain live) (f : FieldNumber) :
    Denotes paths (chain ++ [f]) (descend paths live f) := by
  obtain ⟨hsorted, hmem⟩ := descend_spec paths live f
  have hnext : ∀ s' ∈ Path.descend paths live f, ∃ s ∈ live, s'.path = s.path ∧
      EndsSym (pattern (suffix paths s')) := by
    intro s' hs'
    obtain ⟨s, hs, hn⟩ := (hmem s').mp hs'
    obtain ⟨he, hends⟩ := next_valid rfl (h.valid s hs) hn
    exact ⟨s, hs, he, by rw [suffix, he]; exact hends⟩
  refine ⟨hsorted, fun s' hs' => ?_, fun s' hs' => ?_, fun id hid g w => ?_⟩
  · obtain ⟨s, hs, he, -⟩ := hnext s' hs'
    exact he ▸ h.inside s hs
  · obtain ⟨s, -, -, hends⟩ := hnext s' hs'
    exact .inl hends
  · rw [List.append_assoc, List.singleton_append, h.spells id hid]
    constructor
    · rintro ⟨s, hs, rfl, hm⟩
      obtain ⟨s', hs', hm'⟩ := (next_iff rfl (h.valid s hs)).mp hm
      obtain ⟨he, -⟩ := next_valid rfl (h.valid s hs) hs'
      exact ⟨s', (hmem s').mpr ⟨s, hs, hs'⟩, he, by rw [suffix, he]; exact hm'⟩
    · rintro ⟨s', hs', rfl, hm⟩
      obtain ⟨s, hs, hn⟩ := (hmem s').mp hs'
      obtain ⟨he, -⟩ := next_valid rfl (h.valid s hs) hn
      refine ⟨s, hs, he.symm, (next_iff rfl (h.valid s hs)).mpr ⟨s', hn, ?_⟩⟩
      rw [suffix, he] at hm
      exact hm

end Denotation

/-! ## The matcher at a chain -/

/-- Whether the provider holds any insertion. -/
def Paths.gapped (paths : Paths) : Bool :=
  paths.laned && paths.entries.any fun e => e.2 ≠ .target

/-- The matcher's current layer is the live states behind the chain. -/
structure At (paths : Paths) (chain : List FieldNumber) (m : Matcher) (live : List State) :
    Prop where
  provider : m.paths = paths
  denotes : Denotes paths chain live
  targets : m.targets.drop m.layer.targets = (layerOf paths live).targets
  stages : m.stages.drop m.layer.stages = (layerOf paths live).stages
  wilds : m.wilds.drop m.layer.wilds = (layerOf paths live).wilds
  gaps : m.gaps.current = (layerOf paths live).gaps
  any : m.gaps.any = paths.gapped

def Matcher.restage (m : Matcher) (staged : List State) : Matcher := { m with staged := staged }

theorem restage_self (m : Matcher) : m.restage m.staged = m := rfl

/-- What commits the staged states `live`: a new layer. -/
def Matcher.opened (m : Matcher) (live : List State) : Matcher :=
  Matcher.push { m with
    staged := live
    levels := m.layer :: m.levels
    layer := ⟨m.targets.length, m.stages.length, m.wilds.length⟩
    gaps := m.gaps.enter } (layerOf m.paths live)

section Reach

variable {paths : Paths} {chain : List FieldNumber} {m : Matcher} {live : List State}
  {f : FieldNumber}

theorem Paths.lane_of_unlaned (h : paths.laned = false) (id : Nat) : paths.lane id = .target := by
  unfold Paths.lane
  rw [List.getD_eq_getElem?_getD]
  cases hg : paths.entries[id]? with
  | none => rfl
  | some e => exact paths.unlaned h e (List.mem_of_getElem? hg)

/-- A provider without insertions fills no gap table. -/
theorem layerOf_gaps_nil (h : paths.gapped = false) (live : List State) :
    (layerOf paths live).gaps = [] := by
  induction live with
  | nil => rfl
  | cons s live ih =>
    simp only [layerOf, Layer.append, ih, List.append_nil]
    by_contra hne
    obtain ⟨e, he⟩ := List.exists_mem_of_ne_nil _ hne
    obtain ⟨-, -, -, hgap⟩ := @terminal_entries paths s.path s.seg (suffix paths s)
    obtain ⟨-, hl, hlane⟩ := hgap e he
    simp only [Paths.gapped, hl, Bool.true_and, List.any_eq_false, decide_eq_true_eq,
      not_not] at h
    refine hlane ?_
    unfold Paths.lane
    rw [List.getD_eq_getElem?_getD]
    cases hg : paths.entries[s.path]? with
    | none => rfl
    | some e => exact h e (List.mem_of_getElem? hg)

theorem at_new (paths : Paths) : At paths [] (Matcher.new paths) (heads paths) := by
  have e : Matcher.new paths =
      Matcher.push ⟨paths, [], [], [], ⟨[], [], 0, paths.gapped⟩, ⟨0, 0, 0⟩, [], []⟩
        (layerOf paths (heads paths)) := flatten_foldl _
  rw [e]
  refine ⟨rfl, denotes_heads paths, ?_, ?_, ?_, ?_, rfl⟩ <;>
    simp [Matcher.push, GapTable.current]

theorem At.restage (h : At paths chain m live) (st : List State) :
    At paths chain (m.restage st) live :=
  ⟨h.provider, h.denotes, h.targets, h.stages, h.wilds, h.gaps, h.any⟩

theorem At.probeRoutes (h : At paths chain m live) (f : FieldNumber) :
    m.probeRoutes f = (!((layerOf paths live).next f).isEmpty,
      m.restage ((layerOf paths live).next f)) := by
  simp only [Matcher.probeRoutes, h.stages, h.wilds]
  rfl

/-- A committed probe opens the layer of the states it staged. -/
theorem At.commitDescent (h : At paths chain m live) (f : FieldNumber) :
    (m.probeRoutes f).2.commitDescent = m.opened (descend paths live f) := by
  rw [h.probeRoutes, Matcher.commitDescent, flatten_foldl]
  rfl

theorem At.opened (h : At paths chain m live) (f : FieldNumber) :
    At paths (chain ++ [f]) (m.opened (descend paths live f)) (descend paths live f) := by
  have hany := h.any
  refine ⟨h.provider, h.denotes.descend f, ?_, ?_, ?_, ?_, ?_⟩
  · simp [Matcher.opened, Matcher.push, h.provider]
  · simp [Matcher.opened, Matcher.push, h.provider]
  · simp [Matcher.opened, Matcher.push, h.provider]
  · cases hg : m.gaps.any with
    | true => simp [Matcher.opened, Matcher.push, GapTable.current, GapTable.enter, hg, h.provider]
    | false =>
      have hnil := h.gaps
      rw [hg] at hany
      rw [layerOf_gaps_nil hany.symm] at hnil ⊢
      simpa [Matcher.opened, Matcher.push, GapTable.current, GapTable.enter, hg, h.provider,
        layerOf_gaps_nil hany.symm] using hnil
  · simp only [Matcher.opened, Matcher.push, GapTable.enter]
    split <;> exact hany

/-- An exit undoes a descent, whatever was staged in between. -/
theorem At.exit_opened (h : At paths chain m live) (live' st : List State) :
    ((m.opened live').restage st).exit = m.restage st := by
  have hany := h.any
  obtain ⟨ps, targets, stages, wilds, ⟨entries, marks, layer, any⟩, mk, levels, staged⟩ := m
  cases any with
  | true => simp [Matcher.restage, Matcher.opened, Matcher.push, Matcher.exit, GapTable.enter,
      GapTable.exit]
  | false =>
    obtain rfl : ps = paths := h.provider
    simp [Matcher.restage, Matcher.opened, Matcher.push, Matcher.exit, GapTable.enter,
      GapTable.exit, layerOf_gaps_nil (show ps.gapped = false from hany.symm)]

end Reach

/-! ## The probes -/

/-- The paths of a lane that select the field behind the chain, in order. -/
def Paths.hits (paths : Paths) (lane : Lane) (chain : List FieldNumber) (f : FieldNumber) :
    List Nat :=
  (List.range paths.count).filter fun id =>
    paths.lane id = lane ∧ Selects (paths.path id) (chain ++ [f])

/-- The insertions, of either lane, into the field behind the chain. -/
def Paths.gapHits (paths : Paths) (chain : List FieldNumber) (f : FieldNumber) : List Nat :=
  (List.range paths.count).filter fun id =>
    paths.lane id ≠ .target ∧ Selects (paths.path id) (chain ++ [f])

/-- Whether some path goes on through the field behind the chain. -/
def Paths.routes (paths : Paths) (chain : List FieldNumber) (f : FieldNumber) : Bool :=
  paths.entries.any fun e => continues (pattern e.1) (chain ++ [f])

/-- The write fold's verdict over the ids hit. -/
def Hits.of : List Nat → Hits
  | [] => .none
  | [a] => .one a
  | a :: b :: _ => .conflict a b

section Probes

variable {paths : Paths} {chain : List FieldNumber} {m : Matcher} {live : List State}
  {f : FieldNumber}

theorem collapse_head {α : Type} [DecidableEq α] (l : List α) :
    (collapse none l).head? = l.head? := by
  cases l <;> simp [collapse]

theorem targetFrom_eq (found : Option Nat) (l : List (FieldNumber × Nat)) :
    Matcher.targetFrom f found l =
      Hits.of (found.toList ++ collapse found ((l.filter fun e => e.1 = f).map Prod.snd)) := by
  induction l generalizing found with
  | nil => cases found <;> rfl
  | cons e l ih =>
    obtain ⟨g, id⟩ := e
    by_cases hf : g = f
    · cases found with
      | none => simp [Matcher.targetFrom, hf, ih, collapse]
      | some a => by_cases ha : a = id <;> simp [Matcher.targetFrom, hf, ha, ih, collapse, Hits.of]
    · simp [Matcher.targetFrom, hf, ih]

theorem probeTarget_eq (m : Matcher) (f : FieldNumber) :
    m.probeTarget f = Hits.of (m.visitTargets f) := targetFrom_eq none _

theorem firstTarget_eq (m : Matcher) (f : FieldNumber) :
    m.firstTarget f = (m.visitTargets f).head? := by
  rw [Matcher.firstTarget, Matcher.visitTargets, collapse_head, List.head?_map, List.head?_filter]

theorem lane_target_iff {id : Nat} :
    ¬ (paths.laned = true ∧ paths.lane id ≠ .target) ↔ paths.lane id = .target := by
  constructor
  · intro h
    cases hl : paths.laned with
    | false => exact Paths.lane_of_unlaned hl id
    | true => exact not_not.mp fun hne => h ⟨hl, hne⟩
  · exact fun h hn => hn.2 h

theorem mem_layerOf {live : List State} :
    (∀ e, e ∈ (layerOf paths live).targets ↔ ∃ s ∈ live, e ∈ (layerAt paths s).targets) ∧
      ∀ e, e ∈ (layerOf paths live).gaps ↔ ∃ s ∈ live, e ∈ (layerAt paths s).gaps := by
  induction live with
  | nil => simp [layerOf, Layer.empty]
  | cons s live ih => simp [layerOf, Layer.append, ih.1, ih.2]

theorem state_path_le {s t : State} (h : s < t) : s.path ≤ t.path := by
  rcases Prod.Lex.toLex_lt_toLex.mp h with h | h
  · exact h.le
  · exact h.1.le

/-- Terminal entries stand in path order. -/
theorem layerOf_ordered {live : List State} (h : live.Pairwise (· < ·)) :
    (layerOf paths live).targets.Pairwise (fun e e' => e.2 ≤ e'.2) ∧
      (layerOf paths live).gaps.Pairwise (fun e e' => e.2.1 ≤ e'.2.1) := by
  induction live with
  | nil => exact ⟨.nil, .nil⟩
  | cons s live ih =>
    obtain ⟨hs, hl⟩ := List.pairwise_cons.mp h
    obtain ⟨hit, hig⟩ := ih hl
    obtain ⟨ht, hg, hmt, hmg⟩ := @terminal_entries paths s.path s.seg (suffix paths s)
    simp only [layerOf, Layer.append, List.pairwise_append]
    refine ⟨⟨ht.imp nofun, hit, fun e he e' he' => ?_⟩, ⟨hg.imp nofun, hig, fun e he e' he' => ?_⟩⟩
    · obtain ⟨t, hmem, het⟩ := (mem_layerOf.1 e').mp he'
      obtain ⟨-, -, hmt', -⟩ := @terminal_entries paths t.path t.seg (suffix paths t)
      rw [(hmt e he).1, (hmt' e' het).1]
      exact state_path_le (hs t hmem)
    · obtain ⟨t, hmem, het⟩ := (mem_layerOf.2 e').mp he'
      obtain ⟨-, -, -, hmg'⟩ := @terminal_entries paths t.path t.seg (suffix paths t)
      rw [(hmg e he).1, (hmg' e' het).1]
      exact state_path_le (hs t hmem)

/-- The table's terminal entries are the paths that select the field behind the chain. -/
theorem Denotes.terminals (h : Denotes paths chain live) (f : FieldNumber) (id : Nat) :
    ((f, id) ∈ (layerOf paths live).targets ↔ id ∈ paths.hits .target chain f) ∧
      ∀ lane, (f, id, lane) ∈ (layerOf paths live).gaps ↔
        lane ≠ .target ∧ id ∈ paths.hits lane chain f := by
  have hsel : ∀ s ∈ live, (Matches (pattern (suffix paths s)) [f] ↔
      Ends (layerAt paths s) paths f s.path) := fun s hs => ends_iff (h.valid s hs)
  have hspell : id < paths.count → (Selects (paths.path id) (chain ++ [f]) ↔
      ∃ s ∈ live, s.path = id ∧ Ends (layerAt paths s) paths f id) := by
    intro hid
    rw [h.spells id hid]
    constructor
    · rintro ⟨s, hs, rfl, hm⟩
      exact ⟨s, hs, rfl, (hsel s hs).mp hm⟩
    · rintro ⟨s, hs, rfl, he⟩
      exact ⟨s, hs, rfl, (hsel s hs).mpr he⟩
  refine ⟨?_, fun lane => ?_⟩
  · simp only [mem_layerOf.1, Paths.hits, List.mem_filter, List.mem_range, decide_eq_true_eq]
    constructor
    · rintro ⟨s, hs, he⟩
      obtain ⟨-, -, hmt, -⟩ := @terminal_entries paths s.path s.seg (suffix paths s)
      obtain ⟨rfl, hl⟩ := hmt _ he
      have hid := h.inside s hs
      exact ⟨hid, lane_target_iff.mp hl, (hspell hid).mpr ⟨s, hs, rfl, by rwa [Ends, if_neg hl]⟩⟩
    · rintro ⟨hid, hl, hm⟩
      obtain ⟨s, hs, -, he⟩ := (hspell hid).mp hm
      rw [Ends, if_neg (lane_target_iff.mpr hl)] at he
      exact ⟨s, hs, he⟩
  · simp only [mem_layerOf.2, Paths.hits, List.mem_filter, List.mem_range, decide_eq_true_eq]
    constructor
    · rintro ⟨s, hs, he⟩
      obtain ⟨-, -, -, hmg⟩ := @terminal_entries paths s.path s.seg (suffix paths s)
      obtain ⟨heq, hl⟩ := hmg _ he
      obtain ⟨rfl, rfl⟩ := Prod.mk.inj heq
      have hid := h.inside s hs
      exact ⟨hl.2, hid, rfl, (hspell hid).mpr ⟨s, hs, rfl, by rwa [Ends, if_pos hl]⟩⟩
    · rintro ⟨hne, hid, rfl, hm⟩
      obtain ⟨s, hs, -, he⟩ := (hspell hid).mp hm
      have hl : paths.laned = true ∧ paths.lane id ≠ .target :=
        not_not.mp fun hn => hne (lane_target_iff.mp hn)
      rw [Ends, if_pos hl] at he
      exact ⟨s, hs, he⟩

theorem ascending_filter_range (n : Nat) (p : Nat → Bool) :
    ((List.range n).filter p).Pairwise (· < ·) := List.pairwise_lt_range.filter _

theorem At.visitTargets (h : At paths chain m live) (f : FieldNumber) :
    m.visitTargets f = paths.hits .target chain f := by
  have hle : (((layerOf paths live).targets.filter fun e => e.1 = f).map Prod.snd).Pairwise
      (· ≤ ·) :=
    List.pairwise_map.mpr ((layerOf_ordered h.denotes.sorted).1.filter _)
  obtain ⟨hp, hm⟩ := collapse_sorted hle
  rw [Matcher.visitTargets, h.targets]
  refine hp.eq_of_mem_iff (ascending_filter_range _ _) fun {id} => ?_
  rw [hm, ← (h.denotes.terminals f id).1]
  simp

theorem At.visitGaps (h : At paths chain m live) (f : FieldNumber) {lane : Lane}
    (hl : lane ≠ .target) : m.visitGaps f lane = paths.hits lane chain f := by
  have hle : (((layerOf paths live).gaps.filter fun e => e.1 = f ∧ e.2.2 = lane).map
      (·.2.1)).Pairwise (· ≤ ·) :=
    List.pairwise_map.mpr ((layerOf_ordered h.denotes.sorted).2.filter _)
  obtain ⟨hp, hm⟩ := collapse_sorted hle
  rw [Matcher.visitGaps, h.gaps]
  refine hp.eq_of_mem_iff (ascending_filter_range _ _) fun {id} => ?_
  have := (h.denotes.terminals f id).2 lane
  simp only [hl, ne_eq, not_false_iff, true_and] at this
  exact (hm id).trans (Iff.trans (by simp) this)

theorem At.firstTarget (h : At paths chain m live) (f : FieldNumber) :
    m.firstTarget f = (paths.hits .target chain f).head? := by
  rw [firstTarget_eq, h.visitTargets]

theorem At.probeTarget (h : At paths chain m live) (f : FieldNumber) :
    m.probeTarget f = Hits.of (paths.hits .target chain f) := by
  rw [probeTarget_eq, h.visitTargets]

theorem At.firstInteriorGap (h : At paths chain m live) (f : FieldNumber) :
    m.firstInteriorGap f = (paths.gapHits chain f).head? := by
  have hle : (((layerOf paths live).gaps.filter fun e => e.1 = f).map (·.2.1)).Pairwise
      (· ≤ ·) :=
    List.pairwise_map.mpr ((layerOf_ordered h.denotes.sorted).2.filter _)
  obtain ⟨hp, hm⟩ := collapse_sorted hle
  have : paths.gapHits chain f =
      collapse none (((layerOf paths live).gaps.filter fun e => e.1 = f).map (·.2.1)) := by
    refine (hp.eq_of_mem_iff (ascending_filter_range _ _) fun {id} => ?_).symm
    have hg := (h.denotes.terminals f id).2
    rw [hm]
    simp only [Paths.hits, List.mem_filter, List.mem_range, decide_eq_true_eq] at hg ⊢
    constructor
    · intro hmem
      obtain ⟨⟨f', id', lane⟩, he, rfl⟩ := List.mem_map.mp hmem
      simp only [List.mem_filter, decide_eq_true_eq] at he
      obtain ⟨he, rfl⟩ := he
      obtain ⟨hne, hid, hl, hs⟩ := (hg lane).mp he
      exact ⟨hid, hl ▸ hne, hs⟩
    · rintro ⟨hid, hne, hs⟩
      exact List.mem_map.mpr ⟨_, List.mem_filter.mpr ⟨(hg _).mpr ⟨hne, hid, rfl, hs⟩, by simp⟩,
        rfl⟩
  rw [Matcher.firstInteriorGap, h.gaps, this, collapse_head, List.head?_map, List.head?_filter]

theorem At.probeGaps (h : At paths chain m live) (f : FieldNumber) :
    m.probeGaps f =
      (!(paths.hits .head chain f).isEmpty, !(paths.hits .tail chain f).isEmpty) := by
  have hany : ∀ lane, lane ≠ .target → (m.gaps.current.any fun e => e.1 = f ∧ e.2.2 = lane) =
      !(paths.hits lane chain f).isEmpty := by
    intro lane hl
    rw [h.gaps, Bool.eq_iff_iff, List.any_eq_true, Bool.not_eq_true', List.isEmpty_eq_false_iff]
    constructor
    · rintro ⟨⟨f', id, lane'⟩, he, hd⟩
      simp only [decide_eq_true_eq] at hd
      obtain ⟨rfl, rfl⟩ := hd
      exact List.ne_nil_of_mem (((h.denotes.terminals f' id).2 lane').mp he).2
    · intro hne
      obtain ⟨id, hid⟩ := List.exists_mem_of_ne_nil _ hne
      exact ⟨(f, id, lane), ((h.denotes.terminals f id).2 lane).mpr ⟨hl, hid⟩, by simp⟩
  rw [Matcher.probeGaps, hany .head nofun, hany .tail nofun]

/-- The route question: some path goes on through the field. -/
theorem At.routes (h : At paths chain m live) (f : FieldNumber) :
    (m.probeRoutes f).1 = paths.routes chain f := by
  rw [h.probeRoutes, Bool.eq_iff_iff, Paths.routes, List.any_eq_true, Bool.not_eq_true',
    List.isEmpty_eq_false_iff]
  have hcont : (∃ e ∈ paths.entries, continues (pattern e.1) (chain ++ [f]) = true) ↔
      ∃ id < paths.count, ∃ g w, Selects (paths.path id) (chain ++ f :: g :: w) := by
    have hpath : ∀ {id : Nat} {e : Segments × Lane}, paths.entries[id]? = some e →
        paths.path id = e.1 := by
      intro id e he
      rw [Paths.path, List.getD_eq_getElem?_getD, he]
      rfl
    have hiff : ∀ e ∈ paths.entries, (continues (pattern e.1) (chain ++ [f]) = true ↔
        ∃ g w, Selects e.1 (chain ++ f :: g :: w)) := by
      intro e he
      rcases paths.lawful e he with hends | ⟨-, hnil⟩
      · rw [continues_iff hends]
        simp
      · have hno : ∀ w, w ≠ [] → ¬ Selects [] w := fun w hw hm => hw (matches_nil_iff.mp hm)
        rw [hnil]
        cases chain <;> simp [continues, residuals, after, hno]
    constructor
    · rintro ⟨e, he, hc⟩
      obtain ⟨id, hid, hget⟩ := List.mem_iff_getElem.mp he
      refine ⟨id, hid, ?_⟩
      rw [hpath (List.getElem?_eq_some_iff.mpr ⟨hid, hget⟩)]
      exact (hiff e he).mp hc
    · rintro ⟨id, hid, hs⟩
      have hget : paths.entries[id]? = some (paths.entries.get ⟨id, hid⟩) := List.getElem?_eq_getElem hid
      rw [hpath hget] at hs
      have he := List.mem_of_getElem? hget
      exact ⟨_, he, (hiff _ he).mpr hs⟩
  rw [hcont]
  constructor
  · intro hne
    obtain ⟨s', hs'⟩ := List.exists_mem_of_ne_nil _ hne
    obtain ⟨s, hs, hn⟩ := mem_layerOf_next.mp hs'
    obtain ⟨-, hends⟩ := next_valid rfl (h.denotes.valid s hs) hn
    obtain ⟨g, w, hm⟩ := hends.exists_match
    refine ⟨s.path, h.denotes.inside s hs, g, w, (h.denotes.spells _ (h.denotes.inside s hs) _ _).mpr
      ⟨s, hs, rfl, (next_iff rfl (h.denotes.valid s hs)).mpr ⟨s', hn, hm⟩⟩⟩
  · rintro ⟨id, hid, g, w, hsel⟩
    obtain ⟨s, hs, -, hm⟩ := (h.denotes.spells id hid _ _).mp hsel
    obtain ⟨s', hn, -⟩ := (next_iff rfl (h.denotes.valid s hs)).mp hm
    exact List.ne_nil_of_mem (mem_layerOf_next.mpr ⟨s, hs, hn⟩)

end Probes

end ProtobufEdit.Path
