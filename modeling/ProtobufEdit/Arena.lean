import Mathlib.Data.List.Nodup
import Mathlib.Data.List.Perm.Subperm

/-!
# Forests in an arena

An arena is a list of cells that link to their parent, their next sibling and their first
child. `Chain` says that the cells from a first one on lay out a forest. A body changed, a
layer spliced and a path climbed in the cells are the same in the forest.
-/

namespace Arena

/-- A cell: its links, and what it holds. -/
structure Cell (α : Type) where
  parent : Option Nat
  next : Option Nat
  kid : Option Nat
  body : α
  deriving DecidableEq, Repr

def Cell.map {α : Type} (f : α → α) (c : Cell α) : Cell α := { c with body := f c.body }

/-- A layer of nodes: the first one, its children, and its later siblings. -/
inductive Forest (α : Type) where
  | nil
  | node (id : Nat) (a : α) (kids rest : Forest α)
  deriving DecidableEq, Repr

namespace Forest

variable {α β : Type}

def ids : Forest α → List Nat
  | nil => []
  | node id _ kids rest => id :: (kids.ids ++ rest.ids)

def map (f : α → β) : Forest α → Forest β
  | nil => nil
  | node id a kids rest => node id (f a) (kids.map f) (rest.map f)

/-- What a node holds. -/
def find (id : Nat) : Forest α → Option α
  | nil => none
  | node x a kids rest => if x = id then some a else (kids.find id).or (rest.find id)

/-- A node's children. -/
def kidsOf (id : Nat) : Forest α → Option (Forest α)
  | nil => none
  | node x _ kids rest => if x = id then some kids else (kids.kidsOf id).or (rest.kidsOf id)

/-- The nodes from a node up to its root. -/
def path (id : Nat) : Forest α → List Nat
  | nil => []
  | node x _ kids rest =>
    if x = id then [x] else if id ∈ kids.ids then kids.path id ++ [x] else rest.path id

/-- The layer from a node on replaced, and what is above the node changed. -/
def graft (id : Nat) (here : α → Forest α → Forest α → Forest α) (up : α → α) :
    Forest α → Forest α
  | nil => nil
  | node x a kids rest =>
    if x = id then here a kids rest
    else if id ∈ kids.ids then node x (up a) (kids.graft id here up) rest
    else node x a kids (rest.graft id here up)

/-- The layer's last node. -/
def last : Forest α → Option Nat
  | nil => none
  | node id _ _ rest => some (rest.last.getD id)

/-- The layer's first node. -/
def first : Forest α → Option Nat
  | nil => none
  | node id .. => some id

def size (t : Forest α) : Nat := t.ids.length

/-- Some node of the layer itself has the property. -/
def any (p : α → Bool) : Forest α → Bool
  | nil => false
  | node _ a _ rest => p a || rest.any p

/-- A property of every node, given its children. -/
def All (p : Nat → α → Forest α → Prop) : Forest α → Prop
  | nil => True
  | node id a kids rest => p id a kids ∧ kids.All p ∧ rest.All p

attribute [grind =] ids map find kidsOf path graft last first any All

theorem All.imp {p q : Nat → α → Forest α → Prop} {t : Forest α}
    (h : t.All p) (himp : ∀ x a kids, p x a kids → q x a kids) : t.All q := by
  induction t with
  | nil => exact trivial
  | node x a kids rest ihk ihr => exact ⟨himp _ _ _ h.1, ihk h.2.1, ihr h.2.2⟩

theorem All.and {p q : Nat → α → Forest α → Prop} {t : Forest α} (hp : t.All p) (hq : t.All q) :
    t.All fun x a kids => p x a kids ∧ q x a kids := by
  induction t with
  | nil => exact trivial
  | node x a kids rest ihk ihr =>
    exact ⟨⟨hp.1, hq.1⟩, ihk hp.2.1 hq.2.1, ihr hp.2.2 hq.2.2⟩

theorem All.below {p : Nat → α → Forest α → Prop} {t : Forest α} (h : t.All p) :
    t.All fun x a kids => p x a kids ∧ kids.All p := by
  induction t with
  | nil => exact trivial
  | node x a kids rest ihk ihr => exact ⟨⟨h.1, h.2.1⟩, ihk h.2.1, ihr h.2.2⟩

/-- What a child has, its parent has. -/
def Closed (p : α → Bool) (t : Forest α) : Prop :=
  t.All fun _ a kids => kids.any p = true → p a = true

end Forest

section Facts

variable {α β : Type} {t : Forest α} {id x : Nat}

namespace Forest

@[simp] theorem mem_ids_node {a : α} {kids rest : Forest α} :
    id ∈ (node x a kids rest).ids ↔ id = x ∨ id ∈ kids.ids ∨ id ∈ rest.ids := by
  rw [ids, List.mem_cons, List.mem_append]

/-- A node's id stands nowhere below it or behind it, and the two parts share none. -/
structure Apart (x : Nat) (kids rest : Forest α) : Prop where
  notKids : x ∉ kids.ids
  notRest : x ∉ rest.ids
  inKids : kids.ids.Nodup
  inRest : rest.ids.Nodup
  disjoint : ∀ y ∈ kids.ids, y ∉ rest.ids

theorem nodup_node {a : α} {kids rest : Forest α} :
    (node x a kids rest).ids.Nodup ↔ Apart x kids rest := by
  rw [ids, List.nodup_cons, List.mem_append, List.nodup_append, not_or]
  constructor
  · rintro ⟨⟨hk, hr⟩, hnk, hnr, hd⟩
    exact ⟨hk, hr, hnk, hnr, fun y hy hy' => hd y hy y hy' rfl⟩
  · rintro ⟨hk, hr, hnk, hnr, hd⟩
    exact ⟨⟨hk, hr⟩, hnk, hnr, fun y hy z hz e => hd y hy (e ▸ hz)⟩

@[simp] theorem ids_map (f : α → β) : (t.map f).ids = t.ids := by
  induction t with
  | nil => rfl
  | node id a kids rest ihk ihr => rw [map, ids, ihk, ihr, ids]

theorem find_none (h : id ∉ t.ids) : t.find id = none := by
  induction t with
  | nil => rfl
  | node x a kids rest ihk ihr =>
    simp only [mem_ids_node, not_or] at h
    rw [find, if_neg (Ne.symm h.1), ihk h.2.1, ihr h.2.2]
    rfl

theorem find_isSome : (t.find id).isSome ↔ id ∈ t.ids := by
  induction t with
  | nil => exact ⟨nofun, nofun⟩
  | node x a kids rest ihk ihr =>
    rw [find, mem_ids_node]
    by_cases hx : x = id
    · rw [if_pos hx]
      exact ⟨fun _ => .inl hx.symm, fun _ => rfl⟩
    · rw [if_neg hx, Option.isSome_or, Bool.or_eq_true, ihk, ihr]
      exact ⟨.inr, fun h => h.resolve_left (Ne.symm hx)⟩

theorem mem_of_find {a : α} (h : t.find id = some a) : id ∈ t.ids :=
  find_isSome.mp (h ▸ rfl)

theorem exists_find (h : id ∈ t.ids) : ∃ a, t.find id = some a :=
  Option.isSome_iff_exists.mp (find_isSome.mpr h)

@[simp] theorem find_map (f : α → β) : (t.map f).find id = (t.find id).map f := by
  induction t with
  | nil => rfl
  | node x a kids rest ihk ihr =>
    rw [map, find, find, ihk, ihr]
    split
    · rfl
    · cases kids.find id <;> rfl

theorem kidsOf_absent (h : id ∉ t.ids) : t.kidsOf id = none := by
  induction t with
  | nil => rfl
  | node x a kids rest ihk ihr =>
    simp only [mem_ids_node, not_or] at h
    rw [kidsOf, if_neg (Ne.symm h.1), ihk h.2.1, ihr h.2.2]
    rfl

theorem exists_kidsOf (h : id ∈ t.ids) : ∃ u, t.kidsOf id = some u := by
  induction t with
  | nil => cases h
  | node x a kids rest ihk ihr =>
    rw [kidsOf]
    by_cases hx : x = id
    · exact ⟨kids, if_pos hx⟩
    · rw [if_neg hx]
      rcases (mem_ids_node.mp h).resolve_left (Ne.symm hx) with h | h
      · obtain ⟨u, hu⟩ := ihk h
        exact ⟨u, by rw [hu]; rfl⟩
      · cases hk : kids.kidsOf id with
        | some u => exact ⟨u, rfl⟩
        | none => exact ihr h

theorem kidsOf_sublist {u : Forest α} (h : t.kidsOf id = some u) : u.ids.Sublist t.ids := by
  induction t with
  | nil => cases h
  | node x a kids rest ihk ihr =>
    unfold kidsOf at h
    rw [ids]
    split at h
    · cases h
      exact (List.sublist_append_left _ _).cons _
    · rcases Option.or_eq_some_iff.mp h with h | ⟨-, h⟩
      · exact ((ihk h).trans (List.sublist_append_left _ _)).cons _
      · exact ((ihr h).trans (List.sublist_append_right _ _)).cons _

@[simp] theorem kidsOf_map (f : α → β) : (t.map f).kidsOf id = (t.kidsOf id).map (map f) := by
  induction t with
  | nil => rfl
  | node x a kids rest ihk ihr =>
    rw [map, kidsOf, kidsOf, ihk, ihr]
    split
    · rfl
    · cases kids.kidsOf id <;> rfl

@[simp] theorem last_map (f : α → β) : (t.map f).last = t.last := by
  induction t with
  | nil => rfl
  | node x a kids rest _ ihr => rw [map, last, ihr, last]

theorem path_subset {y : Nat} (h : y ∈ t.path id) : y ∈ t.ids := by
  induction t with
  | nil => cases h
  | node x a kids rest ihk ihr =>
    rw [path] at h
    rw [mem_ids_node]
    split at h
    · exact .inl (List.mem_singleton.mp h)
    · split at h
      · rcases List.mem_append.mp h with h | h
        · exact .inr (.inl (ihk h))
        · exact .inl (List.mem_singleton.mp h)
      · exact .inr (.inr (ihr h))

@[simp] theorem path_map (f : α → β) : (t.map f).path id = t.path id := by
  induction t with
  | nil => rfl
  | node x a kids rest ihk ihr => rw [map, path, path, ihk, ihr, ids_map]

theorem any_of_path {p : α → Bool} (h : t.Closed p) (hnodup : t.ids.Nodup)
    (hx : x ∈ t.path id) {a : α} (ha : t.find x = some a) (hp : p a = true) :
    t.any p = true := by
  induction t with
  | nil => cases hx
  | node y b kids rest ihk ihr =>
    obtain ⟨hb, hck, hcr⟩ := h
    have hap := nodup_node.mp hnodup
    have hhere : x = y → p b = true := by
      rintro rfl
      rw [find, if_pos rfl] at ha
      cases ha
      exact hp
    unfold path at hx
    show (p b || rest.any p) = true
    split at hx
    · rw [hhere (List.mem_singleton.mp hx), Bool.true_or]
    · split at hx
      · rcases List.mem_append.mp hx with hx | hx
        · have hmem := path_subset hx
          have hne : y ≠ x := fun e => hap.notKids (e ▸ hmem)
          obtain ⟨a', ha'⟩ := exists_find hmem
          rw [find, if_neg hne, ha', Option.some_or] at ha
          rw [hb (ihk hck hap.inKids hx (ha'.trans ha)), Bool.true_or]
        · rw [hhere (List.mem_singleton.mp hx), Bool.true_or]
      · have hmem := path_subset hx
        have hne : y ≠ x := fun e => hap.notRest (e ▸ hmem)
        rw [find, if_neg hne, find_none fun hk => hap.disjoint x hk hmem, Option.none_or] at ha
        rw [ihr hcr hap.inRest hx ha, Bool.or_true]

theorem path_nodup (h : t.ids.Nodup) : (t.path id).Nodup := by
  induction t with
  | nil => exact List.nodup_nil
  | node x a kids rest ihk ihr =>
    have hap := nodup_node.mp h
    rw [path]
    split
    · exact List.nodup_singleton _
    · split
      · refine List.nodup_append.mpr ⟨ihk hap.inKids, List.nodup_singleton _, ?_⟩
        intro y hy z hz e
        rw [List.mem_singleton.mp hz] at e
        exact hap.notKids (e ▸ path_subset hy)
      · exact ihr hap.inRest

theorem mem_path_self (h : id ∈ t.ids) : id ∈ t.path id := by
  induction t with
  | nil => cases h
  | node x a kids rest ihk ihr =>
    rw [path]
    split
    · next hx => exact List.mem_singleton.mpr hx.symm
    · next hx =>
      split
      · next hk => exact List.mem_append_left _ (ihk hk)
      · next hk =>
        exact ihr ((mem_ids_node.mp h).resolve_left (Ne.symm hx) |>.resolve_left hk)

theorem All.find {p : Nat → α → Forest α → Prop} (h : t.All p) {a : α}
    (ha : t.find id = some a) : ∃ kids, t.kidsOf id = some kids ∧ p id a kids := by
  induction t with
  | nil => cases ha
  | node x b kids rest ihk ihr =>
    unfold Forest.find at ha
    unfold kidsOf
    split at ha
    · next hx =>
      cases ha
      subst hx
      exact ⟨kids, if_pos rfl, h.1⟩
    · next hx =>
      rw [if_neg hx]
      rcases Option.or_eq_some_iff.mp ha with ha | ⟨hn, ha⟩
      · obtain ⟨u, hu, hp⟩ := ihk h.2.1 ha
        exact ⟨u, by rw [hu]; rfl, hp⟩
      · have hk : id ∉ kids.ids := fun hk => by
          obtain ⟨b, hb⟩ := exists_find hk
          rw [hb] at hn
          cases hn
        obtain ⟨u, hu, hp⟩ := ihr h.2.2 ha
        exact ⟨u, by rw [kidsOf_absent hk, hu]; rfl, hp⟩

theorem all_of_absent (h : id ∉ t.ids) : t.All fun x _ _ => x ≠ id := by
  induction t with
  | nil => exact trivial
  | node x a kids rest ihk ihr =>
    simp only [mem_ids_node, not_or] at h
    exact ⟨Ne.symm h.1, ihk h.2.1, ihr h.2.2⟩

theorem all_ids (t : Forest α) : t.All fun x _ _ => x ∈ t.ids := by
  induction t with
  | nil => exact trivial
  | node x a kids rest ihk ihr =>
    simp only [mem_ids_node]
    exact ⟨.inl rfl, ihk.imp fun _ _ _ h => .inr (.inl h), ihr.imp fun _ _ _ h => .inr (.inr h)⟩

/-- A node stands once. -/
theorem all_at (hnodup : t.ids.Nodup) {a : α} (ha : t.find id = some a) :
    ∃ u, t.kidsOf id = some u ∧ t.All fun x b kids => x = id → b = a ∧ kids = u := by
  induction t with
  | nil => cases ha
  | node x b kids rest ihk ihr =>
    have hap := nodup_node.mp hnodup
    have habsent : ∀ {u : Forest α} (v : Forest α), id ∉ v.ids →
        v.All fun y c kids => y = id → c = a ∧ kids = u :=
      fun v hv => (all_of_absent hv).imp fun y _ _ hy he => absurd he hy
    unfold find at ha
    unfold kidsOf
    by_cases hx : x = id
    · subst hx
      rw [if_pos rfl] at ha
      cases ha
      exact ⟨kids, if_pos rfl, fun _ => ⟨rfl, rfl⟩, habsent _ hap.notKids, habsent _ hap.notRest⟩
    · rw [if_neg hx] at ha ⊢
      rcases Option.or_eq_some_iff.mp ha with ha | ⟨hn, ha⟩
      · obtain ⟨u, hu, hall⟩ := ihk hap.inKids ha
        exact ⟨u, by rw [hu]; rfl, fun he => absurd he hx, hall,
          habsent _ (hap.disjoint id (mem_of_find ha))⟩
      · have hk : id ∉ kids.ids := fun hk => hap.disjoint id hk (mem_of_find ha)
        obtain ⟨u, hu, hall⟩ := ihr hap.inRest ha
        exact ⟨u, by rw [kidsOf_absent hk, hu]; rfl, fun he => absurd he hx, habsent _ hk, hall⟩

/-! ### Grafts -/

section Graft

variable {here : α → Forest α → Forest α → Forest α} {up : α → α}

theorem graft_absent (h : id ∉ t.ids) : t.graft id here up = t := by
  induction t with
  | nil => rfl
  | node x a kids rest ihk ihr =>
    simp only [mem_ids_node, not_or] at h
    rw [graft, if_neg (Ne.symm h.1), if_neg h.2.1, ihr h.2.2]

theorem graft_id : t.graft id (fun a kids rest => node id a kids rest) (fun a => a) = t := by
  induction t with
  | nil => rfl
  | node x a kids rest ihk ihr =>
    unfold graft
    split
    · next hx => rw [hx]
    · split
      · rw [ihk]
      · rw [ihr]

theorem graft_map {here' : β → Forest β → Forest β → Forest β} {up' : β → β} (f : α → β)
    (hhere : ∀ a kids rest, (here a kids rest).map f = here' (f a) (kids.map f) (rest.map f))
    (hup : ∀ a, f (up a) = up' (f a)) :
    (t.graft id here up).map f = (t.map f).graft id here' up' := by
  induction t with
  | nil => rfl
  | node x a kids rest ihk ihr =>
    rw [graft, map, graft, ids_map]
    split
    · exact hhere a kids rest
    · split
      · rw [map, ihk, hup]
      · rw [map, ihr]

/-- What a graft at a node makes of a property of every node. -/
theorem All.graft {p q : Nat → α → Forest α → Prop} (h : t.All p) (hnodup : t.ids.Nodup)
    (hother : ∀ x a kids, x ∈ t.ids → x ≠ id → id ∉ kids.ids → p x a kids → q x a kids)
    (hup : ∀ x a kids, x ∈ t.ids → x ≠ id → id ∈ kids.ids → p x a kids →
      q x (up a) (kids.graft id here up))
    (hhere : ∀ a kids rest, p id a kids → kids.All q → rest.All q → (here a kids rest).All q) :
    (t.graft id here up).All q := by
  induction t with
  | nil => exact trivial
  | node x a kids rest ihk ihr =>
    obtain ⟨ha, hk, hr⟩ := h
    have hap := nodup_node.mp hnodup
    have hkids := ihk hk hap.inKids
      (fun y b u hy => hother y b u (mem_ids_node.mpr (.inr (.inl hy))))
      (fun y b u hy => hup y b u (mem_ids_node.mpr (.inr (.inl hy))))
    have hrest := ihr hr hap.inRest
      (fun y b u hy => hother y b u (mem_ids_node.mpr (.inr (.inr hy))))
      (fun y b u hy => hup y b u (mem_ids_node.mpr (.inr (.inr hy))))
    have hself : x ∈ (node x a kids rest).ids := mem_ids_node.mpr (.inl rfl)
    unfold Forest.graft
    split
    · next hx =>
      subst hx
      rw [graft_absent hap.notKids] at hkids
      rw [graft_absent hap.notRest] at hrest
      exact hhere a kids rest ha hkids hrest
    · next hx =>
      split
      · next hin =>
        rw [graft_absent fun hr => hap.disjoint id hin hr] at hrest
        exact ⟨hup x a kids hself hx hin ha, hkids, hrest⟩
      · next hout =>
        rw [graft_absent hout] at hkids
        exact ⟨hother x a kids hself hx hout ha, hkids, hrest⟩

/-- The ids a graft adds. -/
theorem ids_graft {p : Nat → α → Forest α → Prop} (h : t.All p) {new : List Nat}
    (hid : id ∈ t.ids)
    (hhere : ∀ a kids rest, p id a kids → (here a kids rest).ids.Perm (new ++ id :: (kids.ids ++ rest.ids))) :
    (t.graft id here up).ids.Perm (new ++ t.ids) := by
  induction t with
  | nil => cases hid
  | node x a kids rest ihk ihr =>
    obtain ⟨ha, hk, hr⟩ := h
    unfold graft
    split
    · next hx =>
      subst hx
      exact hhere a kids rest ha
    · next hx =>
      split
      · next hin =>
        unfold ids
        refine ((List.Perm.append_right _ (ihk hk hin)).cons x).trans ?_
        rw [List.append_assoc]
        exact List.perm_middle.symm
      · next hout =>
        unfold ids
        have hin := ((mem_ids_node.mp hid).resolve_left (Ne.symm hx)).resolve_left hout
        refine ((List.Perm.append_left _ (ihr hr hin)).cons x).trans ?_
        refine List.Perm.trans ?_ List.perm_middle.symm
        refine List.Perm.cons x ?_
        rw [← List.append_assoc, ← List.append_assoc]
        exact List.Perm.append_right _ List.perm_append_comm

theorem any_graft {p : Nat → α → Forest α → Prop} {f : α → Bool} (h : t.All p)
    (hup : ∀ a, f (up a) = f a)
    (hhere : ∀ a kids rest, p id a kids → (here a kids rest).any f = (node id a kids rest).any f) :
    (t.graft id here up).any f = t.any f := by
  induction t with
  | nil => rfl
  | node x a kids rest ihk ihr =>
    unfold graft
    split
    · next hx => exact hx ▸ hhere a kids rest (hx ▸ h.1)
    · split
      · show (f (up a) || _) = (f a || _)
        rw [hup]
      · show (f a || _) = (f a || _)
        rw [ihr h.2.2]

end Graft

end Forest

end Facts

/-! ## Layouts -/

section Layout

variable {α β : Type}

/-- The cells from `first` on, under `parent`, lay out the forest, which keeps more on its nodes:
`body` is what the cell has of it. -/
inductive Chain (body : β → α) (cells : List (Cell α)) :
    Option Nat → Option Nat → Forest β → Prop where
  | nil {parent : Option Nat} : Chain body cells parent none .nil
  | node {parent next kid : Option Nat} {id : Nat} {b : β} {kids rest : Forest β} :
      cells[id]? = some ⟨parent, next, kid, body b⟩ → Chain body cells (some id) kid kids →
      Chain body cells parent next rest → Chain body cells parent (some id) (.node id b kids rest)

variable {body : β → α} {cells cells' : List (Cell α)} {parent first : Option Nat} {t : Forest β}
  {id : Nat}

theorem Chain.frame (h : Chain body cells parent first t)
    (he : ∀ x ∈ t.ids, cells'[x]? = cells[x]?) : Chain body cells' parent first t := by
  induction h with
  | nil => exact .nil
  | node hcell _ _ ihk ihr =>
    refine .node ((he _ List.mem_cons_self).trans hcell) (ihk fun x hx => he x ?_)
      (ihr fun x hx => he x ?_)
    · exact List.mem_cons_of_mem _ (List.mem_append_left _ hx)
    · exact List.mem_cons_of_mem _ (List.mem_append_right _ hx)

theorem Chain.lt (h : Chain body cells parent first t) {x : Nat} (hx : x ∈ t.ids) :
    x < cells.length := by
  induction h with
  | nil => cases hx
  | node hcell _ _ ihk ihr =>
    rcases List.mem_cons.mp hx with rfl | hx
    · exact (List.getElem?_eq_some_iff.mp hcell).1
    · exact (List.mem_append.mp hx).elim ihk ihr

/-- A node's cell. -/
theorem Chain.find (h : Chain body cells parent first t) {b : β} (hf : t.find id = some b) :
    ∃ parent next kid, cells[id]? = some ⟨parent, next, kid, body b⟩ := by
  induction h with
  | nil => cases hf
  | @node _ _ _ x _ _ _ hcell _ _ ihk ihr =>
    unfold Forest.find at hf
    split at hf
    · next hx =>
      cases hf
      exact ⟨_, _, _, hx ▸ hcell⟩
    · rcases Option.or_eq_some_iff.mp hf with hf | ⟨-, hf⟩
      · exact ihk hf
      · exact ihr hf

theorem Chain.all (h : Chain body cells parent first t) :
    t.All fun x b _ => ∃ parent next kid, cells[x]? = some ⟨parent, next, kid, body b⟩ := by
  induction h with
  | nil => exact trivial
  | node hcell _ _ ihk ihr => exact ⟨⟨_, _, _, hcell⟩, ihk, ihr⟩

/-- A graft laid out: the cells above the node change their bodies alone. -/
theorem Chain.graft {here : β → Forest β → Forest β → Forest β} {up : β → β}
    (h : Chain body cells parent first t) (hnodup : t.ids.Nodup)
    (hup : ∀ x ∈ t.path id, x ≠ id → ∀ parent next kid b, cells[x]? = some ⟨parent, next, kid, body b⟩ →
      cells'[x]? = some ⟨parent, next, kid, body (up b)⟩)
    (hother : ∀ x ∈ t.ids, x ∉ t.path id → cells'[x]? = cells[x]?)
    (hhere : ∀ {parent : Option Nat} {b : β} {kids rest : Forest β},
      Chain body cells parent (some id) (.node id b kids rest) →
      (∀ x, x ∈ kids.ids ∨ x ∈ rest.ids → cells'[x]? = cells[x]?) →
      Chain body cells' parent (some id) (here b kids rest)) :
    Chain body cells' parent first (t.graft id here up) := by
  induction h with
  | nil => exact .nil
  | @node parent next kid x b kids rest hcell hk hr ihk ihr =>
    have hap := Forest.nodup_node.mp hnodup
    unfold Forest.path at hup hother
    unfold Forest.graft
    simp only [Forest.mem_ids_node] at hother
    split
    · next hx =>
      subst hx
      rw [if_pos rfl] at hother
      refine hhere (.node hcell hk hr) fun y hy => hother y (.inr hy) ?_
      rw [List.mem_singleton]
      rintro rfl
      exact hy.elim hap.notKids hap.notRest
    · next hx =>
      rw [if_neg hx] at hup hother
      split
      · next hin =>
        rw [if_pos hin] at hup hother
        simp only [List.mem_append, List.mem_singleton, not_or] at hup hother
        refine .node (hup x (.inr rfl) hx _ _ _ _ hcell)
          (ihk hap.inKids (fun y hy => hup y (.inl hy)) fun y hy hn => ?_)
          (hr.frame fun y hy => ?_)
        · exact hother y (.inr (.inl hy)) ⟨hn, fun e => hap.notKids (e ▸ hy)⟩
        · exact hother y (.inr (.inr hy))
            ⟨fun hp => hap.disjoint y (Forest.path_subset hp) hy, fun e => hap.notRest (e ▸ hy)⟩
      · next hout =>
        rw [if_neg hout] at hup hother
        have hx' := hother x (.inl rfl) fun hp => hap.notRest (Forest.path_subset hp)
        refine .node (hx'.trans hcell) (hk.frame fun y hy => ?_)
          (ihr hap.inRest hup fun y hy => hother y (.inr (.inr hy)))
        exact hother y (.inr (.inl hy)) fun hp => hap.disjoint y hy (Forest.path_subset hp)

/-- The cells from one up its parents are the listed ones, and then comes the last link. -/
inductive Up (cells : List (Cell α)) : Option Nat → List Nat → Option Nat → Prop where
  | nil {top : Option Nat} : Up cells top [] top
  | cons {id : Nat} {c : Cell α} {l : List Nat} {top : Option Nat} : cells[id]? = some c →
      Up cells c.parent l top → Up cells (some id) (id :: l) top

theorem Up.concat {top : Option Nat} {l : List Nat} {c : Cell α} {o : Option Nat}
    (h : Up cells o l (some id)) (hc : cells[id]? = some c) (ht : c.parent = top) :
    Up cells o (l ++ [id]) top := by
  generalize hs : some id = s at h
  induction h with
  | nil => exact hs ▸ .cons hc (ht ▸ .nil)
  | cons hcell _ ih => exact .cons hcell (ih hs)

theorem Chain.up (h : Chain body cells parent first t) (hid : id ∈ t.ids) :
    Up cells (some id) (t.path id) parent := by
  induction h with
  | nil => cases hid
  | @node parent next kid x b kids rest hcell _ _ ihk ihr =>
    unfold Forest.path
    split
    · next hx =>
      subst hx
      exact .cons hcell .nil
    · next hx =>
      split
      · next hk => exact (ihk hk).concat hcell rfl
      · next hk =>
        exact ihr ((Forest.mem_ids_node.mp hid).resolve_left (Ne.symm hx) |>.resolve_left hk)

/-- A node's children hang off its cell. -/
theorem Chain.kids {u : Forest β} (h : Chain body cells parent first t)
    (hu : t.kidsOf id = some u) :
    ∃ c, cells[id]? = some c ∧ Chain body cells (some id) c.kid u := by
  induction h with
  | nil => cases hu
  | @node _ _ _ x _ _ _ hcell hk _ ihk ihr =>
    unfold Forest.kidsOf at hu
    split at hu
    · next hx =>
      cases hu
      subst hx
      exact ⟨_, hcell, hk⟩
    · rcases Option.or_eq_some_iff.mp hu with hu | ⟨-, hu⟩
      · exact ihk hu
      · exact ihr hu

theorem Chain.last_parent (h : Chain body cells parent first t) {y : Nat}
    (hy : t.last = some y) : ∃ c, cells[y]? = some c ∧ c.parent = parent := by
  induction h with
  | nil => cases hy
  | @node _ _ _ x _ _ rest hcell _ _ _ ihr =>
    unfold Forest.last at hy
    cases hr : rest.last with
    | none =>
      rw [hr] at hy
      cases hy
      exact ⟨_, hcell, rfl⟩
    | some z =>
      rw [hr] at hy
      exact ihr (hr.trans hy)

/-- The way up from a node begins at the node. -/
theorem Chain.up_tail (h : Chain body cells parent first t) (hid : id ∈ t.ids) :
    ∃ c l, cells[id]? = some c ∧ t.path id = id :: l ∧ Up cells c.parent l parent := by
  have hup := h.up hid
  have hmem := Forest.mem_path_self hid
  generalize t.path id = p at hup hmem
  cases hup with
  | nil => cases hmem
  | cons hcell hup => exact ⟨_, _, hcell, rfl, hup⟩

/-- The cells that stand still but for their bodies lead up the same way. -/
theorem Up.bodies {o top : Option Nat} {l : List Nat} (h : Up cells o l top)
    (he : ∀ (x : Nat) (c : Cell α), cells[x]? = some c →
      ∃ c' : Cell α, cells'[x]? = some c' ∧ c'.parent = c.parent) :
    Up cells' o l top := by
  induction h with
  | nil => exact .nil
  | cons hcell _ ih =>
    obtain ⟨c', hc', hp⟩ := he _ _ hcell
    exact .cons hc' (hp ▸ ih)

/-- Climbs from a cell, changing bodies, up to the first that is `done`. -/
def climb (done : α → Bool) (f : α → α) : Nat → Option Nat → List (Cell α) → List (Cell α)
  | 0, _, cells => cells
  | _ + 1, none, cells => cells
  | fuel + 1, some id, cells =>
    match cells[id]? with
    | none => cells
    | some c =>
      if done c.body then cells else climb done f fuel c.parent (cells.modify id (Cell.map f))

/-- Where what is done is done all the way up, the climb changes the whole path. -/
theorem climb_eq {done : α → Bool} {f : α → α} (hf : ∀ a, done a = true → f a = a)
    {fuel : Nat} {o : Option Nat} {l : List Nat} (h : Up cells o l none) (hnodup : l.Nodup)
    (hfuel : l.length < fuel)
    (hdone : l.Pairwise fun x y => ∀ c, cells[x]? = some c → done c.body = true →
      ∀ c', cells[y]? = some c' → done c'.body = true) (x : Nat) :
    (climb done f fuel o cells)[x]? =
      if x ∈ l then cells[x]?.map (Cell.map f) else cells[x]? := by
  induction l generalizing fuel cells o with
  | nil =>
    cases h
    cases fuel <;> rfl
  | cons id l ih =>
    obtain ⟨hid, hnodup⟩ := List.nodup_cons.mp hnodup
    obtain ⟨hhead, hdone⟩ := List.pairwise_cons.mp hdone
    cases h with
    | @cons _ c _ _ hcell hup =>
      cases fuel with
      | zero => cases hfuel
      | succ fuel =>
        unfold climb
        rw [hcell]
        show (if done c.body then _ else _)[x]? = _
        split
        · next hd =>
          have hkeep : ∀ y ∈ id :: l, cells[y]?.map (Cell.map f) = cells[y]? := by
            intro y hy
            cases hc : cells[y]? with
            | none => rfl
            | some c' =>
              have hdy : done c'.body = true := by
                rcases List.mem_cons.mp hy with rfl | hy
                · rw [hcell] at hc
                  cases hc
                  exact hd
                · exact hhead y hy c hcell hd c' hc
              rw [Option.map_some, Cell.map, hf _ hdy]
          split
          · next hx => exact (hkeep x hx).symm
          · rfl
        · have hother : ∀ y ∈ l, (cells.modify id (Cell.map f))[y]? = cells[y]? := by
            intro y hy
            exact List.getElem?_modify_ne _ _ fun e : id = y => hid (e ▸ hy)
          rw [ih (hup.bodies fun y c' hc' => ?_) hnodup (by simpa using hfuel) ?_]
          · by_cases hx : x = id
            · subst hx
              rw [if_neg hid, if_pos List.mem_cons_self, List.getElem?_modify_eq]
              rfl
            · rw [List.getElem?_modify_ne _ _ (Ne.symm hx)]
              simp only [List.mem_cons, hx, false_or]
          · refine hdone.imp_of_mem fun {y z} hy hz himp => ?_
            rwa [hother y hy, hother z hz]
          · by_cases hy : y = id
            · subst hy
              exact ⟨Cell.map f c', by rw [List.getElem?_modify_eq, hc']; rfl, rfl⟩
            · exact ⟨c', by rw [List.getElem?_modify_ne _ _ (Ne.symm hy), hc'], rfl⟩

theorem Chain.body_of (h : Chain body cells parent first t) (hid : id ∈ t.ids) {c : Cell α}
    (hc : cells[id]? = some c) : ∃ b, t.find id = some b ∧ c.body = body b := by
  obtain ⟨b, hb⟩ := Forest.exists_find hid
  obtain ⟨_, _, _, hcell⟩ := h.find hb
  rw [hcell] at hc
  cases hc
  exact ⟨b, hb, rfl⟩

theorem Chain.path_closed {done : α → Bool} (h : Chain body cells parent first t)
    (hnodup : t.ids.Nodup) (hclosed : t.Closed fun b => done (body b)) :
    (t.path id).Pairwise fun x y => ∀ c, cells[x]? = some c → done c.body = true →
      ∀ c', cells[y]? = some c' → done c'.body = true := by
  induction h with
  | nil => exact List.Pairwise.nil
  | @node parent next kid x b kids rest hcell hk _ ihk ihr =>
    obtain ⟨hx, hck, hcr⟩ := hclosed
    have hap := Forest.nodup_node.mp hnodup
    unfold Forest.path
    split
    · exact List.pairwise_singleton _ _
    · split
      · refine List.pairwise_append.mpr ⟨ihk hap.inKids hck, List.pairwise_singleton _ _, ?_⟩
        intro y hy z hz c hc hd c' hc'
        rw [List.mem_singleton.mp hz, hcell] at hc'
        cases hc'
        obtain ⟨b', hb', he⟩ := hk.body_of (Forest.path_subset hy) hc
        exact hx (Forest.any_of_path hck hap.inKids hy hb' (he ▸ hd))
      · exact ihr hap.inRest hcr

end Layout

end Arena
