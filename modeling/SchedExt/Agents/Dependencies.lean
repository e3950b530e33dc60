import SchedExt.Agents.ArtifactStore
import SchedExt.Foundations.DepthFirst

/-!
# Dependency chains

The manifest is a graph whose edges lead from an entry to the paths it depends
on.  Paths that are not in the manifest have no edges, and nothing keeps the
lists from being cyclic or naming a path twice.
-/

namespace SchedExt.Agents.ArtifactStore

open Foundations

/-- The entry of a path names another one in `depends_on`. -/
def DependsOn (self : ArtifactStore) (p q : String) : Prop :=
  ∃ entry, self.manifest.get? p = some entry ∧ q ∈ entry.dependsOn

/-- `depends_on` of a path that is in the manifest. -/
def dependencies (self : ArtifactStore) (p : String) : List String :=
  match self.manifest.get? p with
  | some entry => entry.dependsOn
  | none => []

theorem dependencies_of_not_mem (self : ArtifactStore) {p : String}
    (absent : p ∉ self.manifest.keys) : self.dependencies p = [] := by
  unfold dependencies
  rw [Dict.get?_eq_none absent]

/-- The manifest as a graph. -/
def dependencyGraph (self : ArtifactStore) : FiniteGraph String where
  nodes := self.manifest.keys
  successors := self.dependencies
  outside _ absent := self.dependencies_of_not_mem absent

theorem edge_iff {self : ArtifactStore} {p q : String} :
    self.dependencyGraph.Edge p q ↔ self.DependsOn p q := by
  show q ∈ self.dependencies p ↔ _
  unfold dependencies DependsOn
  cases self.manifest.get? p with
  | none => exact iff_of_false List.not_mem_nil fun ⟨_, impossible, _⟩ => nomatch impossible
  | some entry =>
      constructor
      · exact fun member => ⟨entry, rfl, member⟩
      · rintro ⟨other, found, member⟩
        obtain rfl := Option.some.inj found
        exact member

/-- `get_dependency_chain`: the stack grows and shrinks at its end. -/
def getDependencyChain (self : ArtifactStore) (path : String) : List String :=
  self.dependencyGraph.walk [] [path]

/--
Whatever the manifest holds, the loop ends with the dependency chain, which
begins with the path, names every path once, and names exactly what the path
leads to.
-/
theorem getDependencyChain_reachable (self : ArtifactStore) (path : String) :
    Relation.ReflTransGen self.dependencyGraph.Turn ([], [path])
        (self.getDependencyChain path, []) ∧
      (self.getDependencyChain path).head? = some path ∧
      (self.getDependencyChain path).Nodup ∧
        ∀ q, q ∈ self.getDependencyChain path ↔
          Relation.ReflTransGen self.DependsOn path q := by
  refine ⟨FiniteGraph.turns_walk _ _ _, FiniteGraph.head?_walk _ path,
    FiniteGraph.nodup_walk List.nodup_nil _, fun q => ?_⟩
  have sameEdges : self.dependencyGraph.Edge = self.DependsOn := by
    funext p q
    exact propext edge_iff
  rw [← sameEdges]
  exact FiniteGraph.mem_walk_iff path

end SchedExt.Agents.ArtifactStore
