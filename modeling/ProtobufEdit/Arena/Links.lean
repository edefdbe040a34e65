import Mathlib.Logic.Relation
import ProtobufEdit.Arena

/-!
# The forest of an arena's links

The links alone, read as a forest: its layers, and what new children and a new sibling make of
them. A layer is the list of the nodes that hang off one parent, in their order.
-/

namespace Arena

section Links

variable {α β : Type}

/-- The cells' links alone. -/
def links (cells : List (Cell α)) : List (Cell Unit) :=
  cells.map fun c => ⟨c.parent, c.next, c.kid, ()⟩

theorem links_getElem? (cells : List (Cell α)) (id : Nat) :
    (links cells)[id]? = cells[id]?.map fun c => ⟨c.parent, c.next, c.kid, ()⟩ :=
  List.getElem?_map

theorem links_of_cell {cells : List (Cell α)} {id : Nat} {c : Cell α} (h : cells[id]? = some c) :
    (links cells)[id]? = some ⟨c.parent, c.next, c.kid, ()⟩ := by
  rw [links_getElem?, h]
  rfl

theorem cell_of_links {cells : List (Cell α)} {id : Nat} {c : Cell Unit}
    (h : (links cells)[id]? = some c) :
    ∃ b, cells[id]? = some b ∧ b.parent = c.parent ∧ b.next = c.next ∧ b.kid = c.kid := by
  rw [links_getElem?] at h
  obtain ⟨b, hb, rfl⟩ := Option.map_eq_some_iff.mp h
  exact ⟨b, hb, rfl, rfl, rfl⟩

@[simp] theorem links_length (cells : List (Cell α)) : (links cells).length = cells.length :=
  List.length_map _

/-- A body changed leaves the links. -/
theorem links_modify (cells : List (Cell α)) (id : Nat) (f : α → α) :
    links (cells.modify id (Cell.map f)) = links cells := by
  apply List.ext_getElem?
  intro x
  rw [links_getElem?, links_getElem?, List.getElem?_modify]
  cases cells[x]? with
  | none => rfl
  | some c =>
    by_cases hx : id = x
    · simp [hx, Cell.map]
    · simp [hx]

end Links

/-! ## Layers -/

namespace Forest

variable {α : Type}

/-- The nodes of the layer itself. -/
def tops : Forest α → List Nat
  | nil => []
  | node id _ _ rest => id :: rest.tops

/-- The children of a node, or the top nodes. -/
def layer (t : Forest α) : Option Nat → List Nat
  | none => t.tops
  | some id => (t.kidsOf id).elim [] tops

variable {t : Forest α} {id x : Nat}

theorem layer_none : t.layer none = t.tops := rfl

theorem layer_some : t.layer (some id) = (t.kidsOf id).elim [] tops := rfl

theorem tops_sublist : t.tops.Sublist t.ids := by
  induction t with
  | nil => exact List.Sublist.refl _
  | node x a kids rest _ ihr =>
    exact (ihr.trans (List.sublist_append_right _ _)).cons_cons x

theorem layer_sublist (o : Option Nat) : (t.layer o).Sublist t.ids := by
  cases o with
  | none => exact tops_sublist
  | some id =>
    rw [layer_some]
    cases hk : t.kidsOf id with
    | none => exact List.nil_sublist _
    | some u => exact tops_sublist.trans (kidsOf_sublist hk)

/-- A node is none of its descendants. -/
theorem not_mem_kidsOf (h : t.ids.Nodup) {u : Forest α} (hu : t.kidsOf id = some u) :
    id ∉ u.ids := by
  induction t with
  | nil => cases hu
  | node x a kids rest ihk ihr =>
    have hap := nodup_node.mp h
    unfold kidsOf at hu
    split at hu
    · next hx =>
      cases hu
      exact hx ▸ hap.notKids
    · rcases Option.or_eq_some_iff.mp hu with hu | ⟨-, hu⟩
      · exact ihk hap.inKids hu
      · exact ihr hap.inRest hu

theorem layer_absent (h : id ∉ t.ids) : t.layer (some id) = [] := by
  rw [layer_some, kidsOf_absent h]
  rfl

theorem mem_of_kidsOf {u : Forest α} (hu : t.kidsOf id = some u) : id ∈ t.ids :=
  not_not.mp fun h => nomatch (kidsOf_absent h).symm.trans hu

/-- A descendant's children are those of the node. -/
theorem kidsOf_kidsOf (h : t.ids.Nodup) {u : Forest α} (hu : t.kidsOf id = some u)
    (hx : x ∈ u.ids) : t.kidsOf x = u.kidsOf x := by
  induction t with
  | nil => cases hu
  | node y a kids rest ihk ihr =>
    have hap := nodup_node.mp h
    unfold kidsOf at hu
    rw [kidsOf]
    split at hu
    · cases hu
      obtain ⟨v, hv⟩ := exists_kidsOf hx
      rw [if_neg fun e : y = x => hap.notKids (e ▸ hx), hv]
      rfl
    · rcases Option.or_eq_some_iff.mp hu with hu | ⟨-, hu⟩
      · have hk := (kidsOf_sublist hu).subset hx
        obtain ⟨v, hv⟩ := exists_kidsOf hx
        rw [if_neg fun e : y = x => hap.notKids (e ▸ hk), ihk hap.inKids hu, hv]
        rfl
      · have hr := (kidsOf_sublist hu).subset hx
        rw [if_neg fun e : y = x => hap.notRest (e ▸ hr),
          kidsOf_absent fun hk => hap.disjoint x hk hr, ihr hap.inRest hu]
        rfl

theorem mem_of_layer (h : x ∈ t.layer (some id)) : id ∈ t.ids := by
  by_contra hn
  rw [layer_absent hn] at h
  cases h

/-- A layer among a node's descendants is one of the forest's. -/
theorem layer_kids {a : α} {kids rest : Forest α} (h : (node x a kids rest).ids.Nodup)
    (hid : id ∈ kids.ids) : (node x a kids rest).layer (some id) = kids.layer (some id) := by
  have hne : x ≠ id := fun e => (nodup_node.mp h).notKids (e ▸ hid)
  obtain ⟨u, hu⟩ := exists_kidsOf hid
  rw [layer_some, layer_some, kidsOf, if_neg hne, hu]
  rfl

theorem layer_rest {a : α} {kids rest : Forest α} (h : (node x a kids rest).ids.Nodup)
    (hid : id ∈ rest.ids) : (node x a kids rest).layer (some id) = rest.layer (some id) := by
  have hap := nodup_node.mp h
  have hne : x ≠ id := fun e => hap.notRest (e ▸ hid)
  have hout : id ∉ kids.ids := fun hk => hap.disjoint id hk hid
  rw [layer_some, layer_some, kidsOf, if_neg hne, kidsOf_absent hout]
  rfl

/-- Every node stands in a layer. -/
theorem exists_layer (h : t.ids.Nodup) (hx : x ∈ t.ids) : ∃ o, x ∈ t.layer o := by
  induction t with
  | nil => cases hx
  | node y a kids rest ihk ihr =>
    have hap := nodup_node.mp h
    rcases mem_ids_node.mp hx with rfl | hx | hx
    · exact ⟨none, List.mem_cons_self⟩
    · obtain ⟨o, ho⟩ := ihk hap.inKids hx
      cases o with
      | none => exact ⟨some y, by rw [layer, kidsOf, if_pos rfl]; exact ho⟩
      | some z => exact ⟨some z, (layer_kids h (mem_of_layer ho)).symm ▸ ho⟩
    · obtain ⟨o, ho⟩ := ihr hap.inRest hx
      cases o with
      | none => exact ⟨none, List.mem_cons_of_mem _ ho⟩
      | some z => exact ⟨some z, (layer_rest h (mem_of_layer ho)).symm ▸ ho⟩

theorem layer_nodup (h : t.ids.Nodup) (o : Option Nat) : (t.layer o).Nodup :=
  h.sublist (layer_sublist o)

theorem tops_eq_nil : t.tops = [] ↔ t = .nil := by
  cases t <;> simp [tops]

/-! ### New children and a new sibling -/

/-- A node's children and later siblings changed. -/
def hang (id : Nat) (K R : Forest α → Forest α) (t : Forest α) : Forest α :=
  t.graft id (fun a kids rest => .node id a (K kids) (R rest)) fun a => a

/-- New children in place of the old ones. -/
def rekid (id : Nat) (t u : Forest α) : Forest α := t.hang id (fun _ => u) fun rest => rest

/-- A new first child. -/
def putUnder (id new : Nat) (a : α) (t : Forest α) : Forest α :=
  t.hang id (.node new a .nil) fun rest => rest

/-- A new next sibling. -/
def putBehind (id new : Nat) (a : α) (t : Forest α) : Forest α :=
  t.hang id (fun kids => kids) (.node new a .nil)

/-- One more behind another. -/
def insertBehind (id new : Nat) (l : List Nat) : List Nat :=
  l.flatMap fun x => if x = id then [x, new] else [x]

variable {K R : Forest α → Forest α}

theorem hang_absent (h : id ∉ t.ids) : t.hang id K R = t := graft_absent h

theorem tops_hang (hR : ∀ u, R u = u) : (t.hang id K R).tops = t.tops := by
  induction t with
  | nil => rfl
  | node x a kids rest _ ihr =>
    unfold hang graft
    split
    · next hx => rw [tops, tops, hR, hx]
    · split
      · rfl
      · exact congrArg (x :: ·) ihr

theorem insertBehind_absent {new : Nat} {l : List Nat} (h : id ∉ l) : insertBehind id new l = l := by
  induction l with
  | nil => rfl
  | cons x l ih =>
    rw [List.mem_cons, not_or] at h
    rw [insertBehind, List.flatMap_cons, if_neg (Ne.symm h.1)]
    exact congrArg (x :: ·) (ih h.2)

/-- The last one behind an insertion. -/
theorem getLast?_insertBehind {new : Nat} {l : List Nat} (hl : l.Nodup) :
    (insertBehind id new l).getLast? = if l.getLast? = some id then some new else l.getLast? := by
  induction l with
  | nil => rfl
  | cons x l ih =>
    obtain ⟨hx, hl⟩ := List.nodup_cons.mp hl
    have hcons : insertBehind id new (x :: l) =
        (if x = id then [x, new] else [x]) ++ insertBehind id new l := List.flatMap_cons
    rw [hcons]
    cases l with
    | nil =>
      by_cases he : x = id
      · simp [he, insertBehind]
      · simp [he, insertBehind]
    | cons y l =>
      have hne : insertBehind id new (y :: l) ≠ [] := by
        rw [insertBehind, List.flatMap_cons]
        split <;> simp
      rw [List.getLast?_append_of_ne_nil _ hne, ih hl, List.getLast?_cons_cons]

theorem tops_putBehind {new : Nat} {a : α} (hnodup : t.ids.Nodup) :
    (t.putBehind id new a).tops = insertBehind id new t.tops := by
  induction t with
  | nil => rfl
  | node x b kids rest _ ihr =>
    have hap := nodup_node.mp hnodup
    unfold putBehind hang graft
    rw [tops, insertBehind, List.flatMap_cons]
    split
    · next hx =>
      subst hx
      have hn : x ∉ rest.tops := fun h => hap.notRest (tops_sublist.subset h)
      exact congrArg (fun l => x :: new :: l) (insertBehind_absent hn).symm
    · split
      · next hk =>
        have hn : id ∉ rest.tops := fun h => hap.disjoint id hk (tops_sublist.subset h)
        exact congrArg (x :: ·) (insertBehind_absent hn).symm
      · exact congrArg (x :: ·) (ihr hap.inRest)

theorem kidsOf_hang_self (h : id ∈ t.ids) :
    (t.hang id K R).kidsOf id = (t.kidsOf id).map K := by
  induction t with
  | nil => cases h
  | node x a kids rest ihk ihr =>
    unfold hang graft
    by_cases hx : x = id
    · rw [if_pos hx, kidsOf, if_pos rfl, kidsOf, if_pos hx]
      rfl
    · rw [if_neg hx]
      split
      · next hk =>
        obtain ⟨u, hu⟩ := exists_kidsOf hk
        have hih := ihk hk
        unfold hang at hih
        rw [kidsOf, if_neg hx, hih, kidsOf, if_neg hx, hu]
        rfl
      · next hk =>
        have hr := ((mem_ids_node.mp h).resolve_left (Ne.symm hx)).resolve_left hk
        have hih := ihr hr
        unfold hang at hih
        rw [kidsOf, if_neg hx, hih, kidsOf, if_neg hx, kidsOf_absent hk]
        rfl

theorem kidsOf_hang (hnodup : t.ids.Nodup) (hx : x ≠ id)
    (hK : ∀ u, t.kidsOf id = some u → (K u).kidsOf x = u.kidsOf x)
    (hR : ∀ u, (R u).kidsOf x = u.kidsOf x) :
    (t.hang id K R).kidsOf x = (t.kidsOf x).map (hang id K R) := by
  have habsent : ∀ {u : Forest α}, id ∉ u.ids →
      u.kidsOf x = (u.kidsOf x).map (hang id K R) := by
    intro u hu
    cases hk : u.kidsOf x with
    | none => rfl
    | some v => exact congrArg some (hang_absent fun h => hu ((kidsOf_sublist hk).subset h)).symm
  have hnode : ∀ {y : Nat} {a b : α} {kids rest kids' rest' : Forest α},
      (y = x → kids' = kids.hang id K R) →
      (y ≠ x → (kids'.kidsOf x).or (rest'.kidsOf x) =
        ((kids.kidsOf x).or (rest.kidsOf x)).map (hang id K R)) →
      (node y b kids' rest').kidsOf x = ((node y a kids rest).kidsOf x).map (hang id K R) := by
    intro y a b kids rest kids' rest' heq hne
    show (if y = x then _ else _) = Option.map _ (if y = x then _ else _)
    split
    · next e => exact congrArg some (heq e)
    · next e => exact hne e
  induction t with
  | nil => rfl
  | node y a kids rest ihk ihr =>
    have hap := nodup_node.mp hnodup
    have hself : (node y a kids rest).kidsOf id =
        if y = id then some kids else (kids.kidsOf id).or (rest.kidsOf id) := rfl
    rw [hself] at hK
    rw [hang, graft]
    by_cases hy : y = id
    · rw [if_pos hy] at hK ⊢
      subst hy
      refine hnode (fun e => absurd e.symm hx) fun _ => ?_
      rw [hK _ rfl, hR, Option.map_or, ← habsent hap.notKids, ← habsent hap.notRest]
    · rw [if_neg hy] at hK ⊢
      split
      · next hk =>
        have hrest : id ∉ rest.ids := hap.disjoint id hk
        refine hnode (fun _ => rfl) fun _ => ?_
        rw [Option.map_or, ← habsent hrest]
        exact congrArg (Option.or · _) (ihk hap.inKids fun v hv => hK v (by rw [hv]; rfl))
      · next hk =>
        refine hnode (fun _ => (hang_absent hk).symm) fun _ => ?_
        rw [Option.map_or, ← habsent hk]
        exact congrArg (Option.or _)
          (ihr hap.inRest fun v hv => hK v (by rw [kidsOf_absent hk, hv]; rfl))

theorem layer_hang (hnodup : t.ids.Nodup) (hx : x ≠ id)
    (hK : ∀ u, t.kidsOf id = some u → (K u).kidsOf x = u.kidsOf x)
    (hR : ∀ u, (R u).kidsOf x = u.kidsOf x) {f : List Nat → List Nat} (hnil : f [] = [])
    (htops : ∀ u : Forest α, u.ids.Nodup → (u.hang id K R).tops = f u.tops) :
    (t.hang id K R).layer (some x) = f (t.layer (some x)) := by
  rw [layer_some, layer_some, kidsOf_hang hnodup hx hK hR]
  cases hu : t.kidsOf x with
  | none => exact hnil.symm
  | some u => exact htops u (hnodup.sublist (kidsOf_sublist hu))

theorem layer_hang_self (h : id ∈ t.ids) {f : List Nat → List Nat}
    (htops : ∀ u : Forest α, (K u).tops = f u.tops) :
    (t.hang id K R).layer (some id) = f (t.layer (some id)) := by
  obtain ⟨u, hu⟩ := exists_kidsOf h
  rw [layer_some, layer_some, kidsOf_hang_self h, hu]
  exact htops u

theorem layer_rekid (hnodup : t.ids.Nodup) {u : Forest α} (hu : x ∉ u.ids)
    (hx : x ∉ (t.kidsOf id).elim [] ids) (hid : x ≠ id) :
    (t.rekid id u).layer (some x) = t.layer (some x) := by
  refine layer_hang hnodup hid (fun v hv => ?_) (fun _ => rfl) (f := fun l => l) rfl
    fun v _ => tops_hang fun _ => rfl
  rw [hv] at hx
  rw [kidsOf_absent hu, kidsOf_absent hx]

theorem layer_rekid_self {u : Forest α} (h : id ∈ t.ids) :
    (t.rekid id u).layer (some id) = u.tops :=
  layer_hang_self h (f := fun _ => u.tops) fun _ => rfl

theorem kidsOf_new {new : Nat} {a : α} (hx : x ≠ new) (u : Forest α) :
    (node new a .nil u).kidsOf x = u.kidsOf x ∧ (node new a u .nil).kidsOf x = u.kidsOf x := by
  have hnode : ∀ v w : Forest α, (node new a v w).kidsOf x = (v.kidsOf x).or (w.kidsOf x) :=
    fun v w => if_neg (Ne.symm hx)
  rw [hnode, hnode]
  exact ⟨rfl, Option.or_none⟩

theorem layer_putUnder {new : Nat} {a : α} (hnodup : t.ids.Nodup) (hx : x ≠ new)
    (hid : x ≠ id) : (t.putUnder id new a).layer (some x) = t.layer (some x) :=
  layer_hang hnodup hid (fun u _ => (kidsOf_new hx u).1) (fun _ => rfl) (f := fun l => l) rfl
    fun _ _ => tops_hang fun _ => rfl

theorem layer_putUnder_self {new : Nat} {a : α} (h : id ∈ t.ids) :
    (t.putUnder id new a).layer (some id) = new :: t.layer (some id) :=
  layer_hang_self h (f := fun l => new :: l) fun _ => rfl

theorem layer_putBehind {new : Nat} {a : α} (hnodup : t.ids.Nodup) {o : Option Nat}
    (ho : o ≠ some new) :
    (t.putBehind id new a).layer o = insertBehind id new (t.layer o) := by
  cases o with
  | none => exact tops_putBehind hnodup
  | some x =>
    have hx : x ≠ new := fun e => ho (congrArg some e)
    by_cases hid : x = id
    · subst hid
      by_cases hmem : x ∈ t.ids
      · rw [putBehind, layer_hang_self hmem (f := fun l => l) fun _ => rfl]
        refine (insertBehind_absent fun hself => ?_).symm
        obtain ⟨u, hu⟩ := exists_kidsOf hmem
        rw [layer_some, hu] at hself
        exact not_mem_kidsOf hnodup hu (tops_sublist.subset hself)
      · rw [putBehind, hang_absent hmem, layer_absent hmem]
        rfl
    · exact layer_hang hnodup hid (fun _ _ => rfl) (fun u => (kidsOf_new hx u).1)
        (f := insertBehind id new) rfl fun _ h => tops_putBehind h

/-! ### Ids -/

theorem ids_hang (new : List Nat) (h : id ∈ t.ids)
    (hids : ∀ (a : α) kids rest, (node id a (K kids) (R rest)).ids.Perm
      (new ++ id :: (kids.ids ++ rest.ids))) :
    (t.hang id K R).ids.Perm (new ++ t.ids) := by
  have hall : ∀ u : Forest α, u.All fun _ _ _ => True := fun u =>
    (all_ids u).imp fun _ _ _ _ => trivial
  exact ids_graft (hall t) h fun a kids rest _ => hids a kids rest

theorem ids_putUnder {new : Nat} {a : α} (h : id ∈ t.ids) :
    (t.putUnder id new a).ids.Perm (new :: t.ids) :=
  ids_hang [new] h fun _ kids rest => List.Perm.swap new id (kids.ids ++ rest.ids)

theorem ids_putBehind {new : Nat} {a : α} (h : id ∈ t.ids) :
    (t.putBehind id new a).ids.Perm (new :: t.ids) :=
  ids_hang [new] h fun _ _ _ => (List.perm_middle.cons id).trans (List.Perm.swap new id _)

/-- The ids behind a change of children. -/
theorem ids_rekid (hnodup : t.ids.Nodup) {u v : Forest α} (hv : t.kidsOf id = some v) :
    x ∈ (t.rekid id u).ids ↔ (x ∈ t.ids ∧ x ∉ v.ids) ∨ x ∈ u.ids := by
  induction t with
  | nil => cases hv
  | node y a kids rest ihk ihr =>
    have hap := nodup_node.mp hnodup
    unfold kidsOf at hv
    unfold rekid hang graft
    by_cases hy : y = id
    · subst hy
      rw [if_pos rfl] at hv ⊢
      cases hv
      simp only [mem_ids_node]
      constructor
      · rintro (rfl | h | h)
        · exact .inl ⟨.inl rfl, hap.notKids⟩
        · exact .inr h
        · exact .inl ⟨.inr (.inr h), fun hk => hap.disjoint x hk h⟩
      · rintro (⟨rfl | h | h, hn⟩ | h)
        · exact .inl rfl
        · exact absurd h hn
        · exact .inr (.inr h)
        · exact .inr (.inl h)
    · rw [if_neg hy] at hv ⊢
      simp only [mem_ids_node]
      rcases Option.or_eq_some_iff.mp hv with hv | ⟨hn, hv⟩
      · have hmem : id ∈ kids.ids := not_not.mp fun h => by
          rw [kidsOf_absent h] at hv
          cases hv
        have hsub := kidsOf_sublist hv
        have hih := ihk hap.inKids hv
        unfold rekid hang at hih
        rw [if_pos hmem, mem_ids_node, hih]
        constructor
        · rintro (rfl | (⟨h, hn⟩ | h) | h)
          · exact .inl ⟨.inl rfl, fun h => hap.notKids (hsub.subset h)⟩
          · exact .inl ⟨.inr (.inl h), hn⟩
          · exact .inr h
          · exact .inl ⟨.inr (.inr h), fun hk => hap.disjoint x (hsub.subset hk) h⟩
        · rintro (⟨rfl | h | h, hn⟩ | h)
          · exact .inl rfl
          · exact .inr (.inl (.inl ⟨h, hn⟩))
          · exact .inr (.inr h)
          · exact .inr (.inl (.inr h))
      · have hmem : id ∈ rest.ids := not_not.mp fun h => by
          rw [kidsOf_absent h] at hv
          cases hv
        have hout : id ∉ kids.ids := fun h => hap.disjoint id h hmem
        have hsub := kidsOf_sublist hv
        have hih := ihr hap.inRest hv
        unfold rekid hang at hih
        rw [if_neg hout, mem_ids_node, hih]
        constructor
        · rintro (rfl | h | ⟨h, hn⟩ | h)
          · exact .inl ⟨.inl rfl, fun h => hap.notRest (hsub.subset h)⟩
          · exact .inl ⟨.inr (.inl h), fun hk => hap.disjoint x h (hsub.subset hk)⟩
          · exact .inl ⟨.inr (.inr h), hn⟩
          · exact .inr h
        · rintro (⟨rfl | h | h, hn⟩ | h)
          · exact .inl rfl
          · exact .inr (.inl h)
          · exact .inr (.inr (.inl ⟨h, hn⟩))
          · exact .inr (.inr (.inr h))

/-- Children taken away. -/
theorem rekid_nil_sublist : (t.rekid id .nil).ids.Sublist t.ids := by
  induction t with
  | nil => exact List.Sublist.refl _
  | node x a kids rest ihk ihr =>
    unfold rekid hang graft
    split
    · next hx =>
      subst hx
      exact (List.sublist_append_right kids.ids rest.ids).cons_cons x
    · split
      · exact ((ihk.append (List.Sublist.refl rest.ids))).cons_cons x
      · exact ((List.Sublist.refl kids.ids).append ihr).cons_cons x

theorem nodup_rekid (hnodup : t.ids.Nodup) {u : Forest α} (hu : u.ids.Nodup)
    (hnew : ∀ x ∈ u.ids, x ∉ t.ids) : (t.rekid id u).ids.Nodup := by
  induction t with
  | nil => exact List.nodup_nil
  | node y a kids rest ihk ihr =>
    have hap := nodup_node.mp hnodup
    simp only [mem_ids_node, not_or] at hnew
    have hkids := ihk hap.inKids fun x hx => (hnew x hx).2.1
    have hrest := ihr hap.inRest fun x hx => (hnew x hx).2.2
    have hsub : ∀ {w : Forest α} {x}, w.ids.Nodup → x ∈ (w.rekid id u).ids → x ∈ w.ids ∨ x ∈ u.ids := by
      intro w x hw hx
      by_cases hin : id ∈ w.ids
      · obtain ⟨v, hv⟩ := exists_kidsOf hin
        exact ((ids_rekid hw hv).mp hx).imp_left And.left
      · rw [rekid, hang_absent hin] at hx
        exact .inl hx
    unfold rekid hang graft
    split
    · next hy =>
      subst hy
      exact nodup_node.mpr ⟨fun h => (hnew y h).1 rfl, hap.notRest, hu, hap.inRest,
        fun x hx => (hnew x hx).2.2⟩
    · split
      · refine nodup_node.mpr ⟨fun h => ?_, hap.notRest, hkids, hap.inRest, fun x hx hr => ?_⟩
        · exact (hsub hap.inKids h).elim hap.notKids fun h => (hnew y h).1 rfl
        · exact (hsub hap.inKids hx).elim (fun h => hap.disjoint x h hr)
            fun h => (hnew x h).2.2 hr
      · refine nodup_node.mpr ⟨hap.notKids, fun h => ?_, hap.inKids, hrest, fun x hx hr => ?_⟩
        · exact (hsub hap.inRest h).elim hap.notRest fun h => (hnew y h).1 rfl
        · exact (hsub hap.inRest hr).elim (hap.disjoint x hx) fun h => (hnew x h).2.1 hx

end Forest

/-! ## Layouts behind a change -/

section Layout

variable {cells cells' : List (Cell Unit)} {parent first : Option Nat} {t : Forest Unit} {id : Nat}

/-- A layout: the cells' links are the forest. -/
abbrev Laid (cells : List (Cell Unit)) := Chain (fun u : Unit => u) cells

theorem Chain.hang {K R : Forest Unit → Forest Unit} (h : Laid cells parent first t)
    (hnodup : t.ids.Nodup)
    (hother : ∀ x ∈ t.ids, x ≠ id → cells'[x]? = cells[x]?)
    (hhere : ∀ {parent next kid : Option Nat} {kids rest : Forest Unit},
      cells[id]? = some ⟨parent, next, kid, ()⟩ → Laid cells (some id) kid kids →
      Laid cells' parent next rest → (∀ x ∈ kids.ids, cells'[x]? = cells[x]?) →
      Laid cells' parent (some id) (.node id () (K kids) (R rest))) :
    Laid cells' parent first (t.hang id K R) := by
  refine h.graft hnodup (fun x hx hne p n k b hcell => ?_) (fun x hx hn => ?_) fun hchain he => ?_
  · exact (hother x (Forest.path_subset hx) hne).trans hcell
  · refine hother x hx fun e => hn ?_
    subst e
    exact Forest.mem_path_self hx
  · cases hchain with
    | node hcell hkids hrest =>
      exact hhere hcell hkids (hrest.frame fun x hx => he x (.inr hx)) fun x hx => he x (.inl hx)

theorem Chain.rekid {u : Forest Unit} {kid : Option Nat} {c : Cell Unit}
    (h : Laid cells parent first t) (hnodup : t.ids.Nodup)
    (hother : ∀ x ∈ t.ids, x ≠ id → cells'[x]? = cells[x]?) (hc : cells[id]? = some c)
    (hself : cells'[id]? = some { c with kid }) (hu : Laid cells' (some id) kid u) :
    Laid cells' parent first (t.rekid id u) := by
  refine h.hang hnodup hother fun hcell _ hrest _ => ?_
  obtain rfl := Option.some.inj (hc.symm.trans hcell)
  exact .node hself hu hrest

theorem Chain.putUnder {new : Nat} {c : Cell Unit} (h : Laid cells parent first t)
    (hnodup : t.ids.Nodup) (hother : ∀ x ∈ t.ids, x ≠ id → cells'[x]? = cells[x]?)
    (hc : cells[id]? = some c) (hself : cells'[id]? = some { c with kid := some new })
    (hnew : cells'[new]? = some ⟨some id, c.kid, none, ()⟩) :
    Laid cells' parent first (t.putUnder id new ()) := by
  refine h.hang hnodup hother fun hcell hkids hrest he => ?_
  obtain rfl := Option.some.inj (hc.symm.trans hcell)
  exact .node hself (.node hnew .nil (hkids.frame he)) hrest

theorem Chain.putBehind {new : Nat} {c : Cell Unit} (h : Laid cells parent first t)
    (hnodup : t.ids.Nodup) (hother : ∀ x ∈ t.ids, x ≠ id → cells'[x]? = cells[x]?)
    (hc : cells[id]? = some c) (hself : cells'[id]? = some { c with next := some new })
    (hnew : cells'[new]? = some ⟨c.parent, c.next, none, ()⟩) :
    Laid cells' parent first (t.putBehind id new ()) := by
  refine h.hang hnodup hother fun hcell hkids hrest he => ?_
  obtain rfl := Option.some.inj (hc.symm.trans hcell)
  exact .node hself (hkids.frame he) (.node hnew .nil hrest)

/-- A layer's nodes hang off its parent. -/
theorem Chain.parent_layer (h : Laid cells parent first t) {x : Nat} {o : Option Nat}
    (hx : x ∈ t.layer o) : ∃ c, cells[x]? = some c ∧ c.parent = o.or parent := by
  have htops : ∀ {p f} {u : Forest Unit}, Laid cells p f u → x ∈ u.tops →
      ∃ c, cells[x]? = some c ∧ c.parent = p := by
    intro p f u hu hx
    induction hu with
    | nil => cases hx
    | node hcell _ _ _ ihr =>
      rcases List.mem_cons.mp hx with rfl | hx
      · exact ⟨_, hcell, rfl⟩
      · exact ihr hx
  cases o with
  | none => exact htops h hx
  | some y =>
    rw [Forest.layer_some] at hx
    cases hu : t.kidsOf y with
    | none =>
      rw [hu] at hx
      cases hx
    | some u =>
      rw [hu] at hx
      obtain ⟨_, -, hchain⟩ := h.kids hu
      exact htops hchain hx

/-- A layer holds the nodes with its parent. -/
theorem Chain.mem_layer (h : Laid cells none first t) (hnodup : t.ids.Nodup) {x : Nat}
    {o : Option Nat} : x ∈ t.layer o ↔ x ∈ t.ids ∧ ∃ c, cells[x]? = some c ∧ c.parent = o := by
  constructor
  · intro hx
    obtain ⟨c, hc, hp⟩ := h.parent_layer hx
    exact ⟨(Forest.layer_sublist o).subset hx, c, hc, hp.trans (Option.or_none)⟩
  · rintro ⟨hx, c, hc, rfl⟩
    obtain ⟨o, ho⟩ := Forest.exists_layer hnodup hx
    obtain ⟨c', hc', hp⟩ := h.parent_layer ho
    rw [hc] at hc'
    cases hc'
    rwa [hp, Option.or_none]

/-- The last of a layer is the one that links to none. -/
theorem Chain.next_none (h : Laid cells parent first t) (hnodup : t.ids.Nodup) {x : Nat}
    {o : Option Nat} (hx : x ∈ t.layer o) {c : Cell Unit} (hc : cells[x]? = some c) :
    c.next = none ↔ (t.layer o).getLast? = some x := by
  have htops : ∀ {p f} {u : Forest Unit}, Laid cells p f u → u.ids.Nodup → x ∈ u.tops →
      (c.next = none ↔ u.tops.getLast? = some x) := by
    intro p f u hu hn hx
    induction hu with
    | nil => cases hx
    | @node p next kid y b kids rest hcell hk hr _ ihr =>
      have hap := Forest.nodup_node.mp hn
      rw [Forest.tops]
      by_cases hy : x = y
      · subst hy
        obtain rfl := Option.some.inj (hc.symm.trans hcell)
        cases hr with
        | nil => simp [Forest.tops]
        | @node _ _ _ z _ kids' rest' _ _ _ =>
          refine ⟨nofun, fun hl => ?_⟩
          rw [Forest.tops, List.getLast?_cons_cons] at hl
          have hin : x ∈ (Forest.node z () kids' rest').tops := List.mem_of_getLast? hl
          exact absurd (Forest.tops_sublist.subset hin) hap.notRest
      · have hin : x ∈ rest.tops := (List.mem_cons.mp hx).resolve_left hy
        have hne : rest.tops ≠ [] := List.ne_nil_of_mem hin
        rw [List.getLast?_cons_of_ne_nil hne]
        exact ihr hap.inRest hin
  cases o with
  | none => exact htops h hnodup hx
  | some y =>
    rw [Forest.layer_some] at hx ⊢
    cases hu : t.kidsOf y with
    | none =>
      rw [hu] at hx
      cases hx
    | some u =>
      rw [hu] at hx
      obtain ⟨_, -, hchain⟩ := h.kids hu
      exact htops hchain (hnodup.sublist (Forest.kidsOf_sublist hu)) hx

end Layout

/-! ## What hangs beneath a node -/

section Beneath

variable {cells : List (Cell Unit)} {parent first : Option Nat} {t : Forest Unit} {id x y : Nat}

/-- A cell's parent. -/
def Hangs (cells : List (Cell Unit)) (x p : Nat) : Prop :=
  ∃ c, cells[x]? = some c ∧ c.parent = some p

/-- One cell stands above the other. -/
def Beneath (cells : List (Cell Unit)) : Nat → Nat → Prop := Relation.TransGen (Hangs cells)

/-- A child stands behind its parent in the arena. -/
def Grown (cells : List (Cell Unit)) : Prop := ∀ x p, Hangs cells x p → p < x

theorem Grown.lt (h : Grown cells) (hb : Beneath cells x y) : y < x := by
  induction hb with
  | single hp => exact h _ _ hp
  | tail _ hp ih => exact Nat.lt_trans (h _ _ hp) ih

theorem Chain.hung (h : Laid cells parent first t) (hp : parent = some y) (hx : x ∈ t.ids) :
    Beneath cells x y := by
  induction h generalizing y with
  | nil => cases hx
  | node hcell _ _ ihk ihr =>
    subst hp
    rcases Forest.mem_ids_node.mp hx with rfl | hx | hx
    · exact .single ⟨_, hcell, rfl⟩
    · exact (ihk rfl hx).tail ⟨_, hcell, rfl⟩
    · exact ihr rfl hx

theorem Chain.hangs (h : Laid cells none first t) (hnodup : t.ids.Nodup) (hx : x ∈ t.ids)
    (hp : Hangs cells x y) : ∃ u, t.kidsOf y = some u ∧ x ∈ u.tops := by
  obtain ⟨c, hc, hcp⟩ := hp
  have hmem := (h.mem_layer hnodup).mpr ⟨hx, c, hc, hcp⟩
  rw [Forest.layer_some] at hmem
  cases hu : t.kidsOf y with
  | none =>
    rw [hu] at hmem
    cases hmem
  | some u =>
    rw [hu] at hmem
    exact ⟨u, rfl, hmem⟩

/-- What hangs beneath a node of the forest is its descendants. -/
theorem Chain.beneath_iff (h : Laid cells none first t) (hnodup : t.ids.Nodup) (hx : x ∈ t.ids) :
    Beneath cells x y ↔ ∃ u, t.kidsOf y = some u ∧ x ∈ u.ids := by
  constructor
  · intro hb
    induction hb with
    | single hp =>
      obtain ⟨u, hu, hmem⟩ := h.hangs hnodup hx hp
      exact ⟨u, hu, Forest.tops_sublist.subset hmem⟩
    | @tail y z _ hp ih =>
      obtain ⟨u, hu, hmem⟩ := ih
      have hy : y ∈ t.ids := Forest.mem_of_kidsOf hu
      obtain ⟨v, hv, hy'⟩ := h.hangs hnodup hy hp
      have hin := Forest.kidsOf_kidsOf hnodup hv (Forest.tops_sublist.subset hy')
      exact ⟨v, hv, (Forest.kidsOf_sublist (hin.symm.trans hu)).subset hmem⟩
  · rintro ⟨u, hu, hmem⟩
    obtain ⟨_, -, hchain⟩ := h.kids hu
    exact hchain.hung rfl hmem

end Beneath

end Arena
