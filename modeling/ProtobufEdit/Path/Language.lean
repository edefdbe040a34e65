import ProtobufEdit.Path.Live

/-!
# The matcher implements the paths' languages

Over any history of probes, descents and exits the matcher stands at the chain of the
containers still open, and its folds deliver the paths that select the field there.
-/

namespace ProtobufEdit.Path

open Wire Pattern

/-- A matcher's histories: probes, descents committed behind a probe that routed, and exits
of containers entered. -/
inductive Reachable (paths : Paths) : Matcher → List FieldNumber → Prop where
  | new : Reachable paths (.new paths) []
  | probe {m : Matcher} {chain : List FieldNumber} (f : FieldNumber) :
      Reachable paths m chain → Reachable paths (m.probeRoutes f).2 chain
  | enter {m : Matcher} {chain : List FieldNumber} {f : FieldNumber} :
      Reachable paths m chain → (m.probeRoutes f).1 = true →
      Reachable paths (m.probeRoutes f).2.commitDescent (chain ++ [f])
  | exit {m : Matcher} {chain : List FieldNumber} {f : FieldNumber} :
      Reachable paths m (chain ++ [f]) → Reachable paths m.exit chain

/-- The matchers of a chain, layer by layer; what is staged never matters. -/
inductive Live (paths : Paths) : Matcher → List FieldNumber → List State → Prop where
  | root (staged : List State) : Live paths ((Matcher.new paths).restage staged) [] (heads paths)
  | enter {m : Matcher} {chain : List FieldNumber} {live : List State} (f : FieldNumber)
      (staged : List State) : Live paths m chain live →
      Live paths ((m.opened (descend paths live f)).restage staged) (chain ++ [f])
        (descend paths live f)

section Histories

variable {paths : Paths} {m : Matcher} {chain : List FieldNumber} {live : List State}

theorem Live.at (h : Live paths m chain live) : At paths chain m live := by
  induction h with
  | root staged => exact (at_new paths).restage staged
  | enter f staged _ ih => exact (ih.opened f).restage staged

theorem Live.restage (h : Live paths m chain live) (staged : List State) :
    Live paths (m.restage staged) chain live := by
  cases h with
  | root => exact .root staged
  | enter f _ h => exact .enter f staged h

theorem Live.exit {f : FieldNumber} (h : Live paths m (chain ++ [f]) live) :
    ∃ live', Live paths m.exit chain live' := by
  generalize hc : chain ++ [f] = chain' at h
  cases h with
  | root => exact absurd hc (by simp)
  | enter g staged h =>
    obtain ⟨rfl, -⟩ := List.append_inj' hc rfl
    exact ⟨_, h.at.exit_opened _ staged ▸ h.restage staged⟩

theorem Reachable.layered (h : Reachable paths m chain) : ∃ live, Live paths m chain live := by
  induction h with
  | new => exact ⟨_, show Live paths (Matcher.new paths) [] _ from .root (Matcher.new paths).staged⟩
  | probe f _ ih =>
    obtain ⟨live, h⟩ := ih
    exact ⟨live, h.at.probeRoutes f ▸ h.restage _⟩
  | @enter m chain f _ _ ih =>
    obtain ⟨live, h⟩ := ih
    refine ⟨descend paths live f, ?_⟩
    rw [h.at.commitDescent f]
    exact Live.enter f (m.opened (descend paths live f)).staged h
  | exit h ih =>
    obtain ⟨live, h⟩ := ih
    exact h.exit

end Histories

/-- The ids of a program's paths that select a chain. -/
theorem mem_hits {program : Program} {chain : List FieldNumber} {f : FieldNumber} {id : Nat} :
    id ∈ program.provider.hits .target chain f ↔
      ∃ path, program.paths[id]? = some path ∧ Selects path (chain ++ [f]) := by
  have hget : program.provider.entries[id]? =
      program.paths[id]?.map fun path => (path, Lane.target) := List.getElem?_map
  simp only [Paths.hits, List.mem_filter, List.mem_range, decide_eq_true_eq,
    @Paths.lane_of_unlaned program.provider rfl, true_and, Paths.path, Paths.count,
    List.getD_eq_getElem?_getD, hget]
  rw [show program.provider.entries.length = program.paths.length from List.length_map _]
  constructor
  · rintro ⟨hid, hs⟩
    refine ⟨_, List.getElem?_eq_getElem hid, ?_⟩
    simpa [List.getElem?_eq_getElem hid] using hs
  · rintro ⟨path, hp, hs⟩
    refine ⟨(List.getElem?_eq_some_iff.mp hp).1, ?_⟩
    simpa [hp] using hs

theorem routes_iff {program : Program} {chain : List FieldNumber} {f : FieldNumber} :
    program.provider.routes chain f = true ↔
      ∃ path ∈ program.paths, ∃ g w, Selects path (chain ++ f :: g :: w) := by
  simp only [Paths.routes, List.any_eq_true, Program.provider, List.mem_map]
  constructor
  · rintro ⟨_, ⟨path, hp, rfl⟩, hc⟩
    obtain ⟨g, w, hm⟩ := (continues_iff (judgePath_ends (program.shaped hp).2)).mp hc
    exact ⟨path, hp, g, w, by simpa using hm⟩
  · rintro ⟨path, hp, g, w, hm⟩
    exact ⟨_, ⟨path, hp, rfl⟩, (continues_iff (judgePath_ends (program.shaped hp).2)).mpr
      ⟨g, w, by simpa using hm⟩⟩

/-- At any point of any history the read fold delivers the ids of the paths selecting the
chain's field, each once and ascending, and the route question is whether some path goes on. -/
theorem matcher_language (program : Program) {m : Matcher} {chain : List FieldNumber}
    (h : Reachable program.provider m chain) (f : FieldNumber) :
    (m.visitTargets f).Pairwise (· < ·) ∧
      (∀ id, id ∈ m.visitTargets f ↔
        ∃ path, program.paths[id]? = some path ∧ Selects path (chain ++ [f])) ∧
      ((m.probeRoutes f).1 = true ↔
        ∃ path ∈ program.paths, ∃ g w, Selects path (chain ++ f :: g :: w)) := by
  obtain ⟨live, hlive⟩ := h.layered
  rw [hlive.at.visitTargets, hlive.at.routes]
  exact ⟨ascending_filter_range _ _, fun _ => mem_hits, routes_iff⟩

/-- One wildcard path: a descent, a sub-descent exited, and the question behind it. -/
theorem matcher_language_wildcard :
    let f1 : FieldNumber := ⟨1, by decide, by decide⟩
    let program : Program := ⟨[[.anyDepth [f1], .field f1]], by decide⟩
    let root := Matcher.new program.provider
    let inner := (root.probeRoutes f1).2.commitDescent
    let back := (inner.probeRoutes f1).2.commitDescent.exit
    (back.visitTargets f1).Pairwise (· < ·) ∧
      (∀ id, id ∈ back.visitTargets f1 ↔
        ∃ path, program.paths[id]? = some path ∧ Selects path [f1, f1]) ∧
      ((back.probeRoutes f1).1 = true ↔
        ∃ path ∈ program.paths, ∃ g w, Selects path (f1 :: f1 :: g :: w)) := by
  intro f1 program root inner back
  have hinner : Reachable program.provider inner [f1] := .enter .new (by decide)
  have hback : Reachable program.provider back [f1] :=
    @Reachable.exit _ _ [f1] f1 (.enter hinner (by decide))
  exact matcher_language program hback f1

end ProtobufEdit.Path
