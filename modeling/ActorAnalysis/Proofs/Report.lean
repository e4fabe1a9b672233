import ActorAnalysis.Proofs.Stack.Occupation
import Mathlib.Algebra.GroupWithZero.Nat
import Mathlib.Data.List.Perm.Basic

/-! Coverage reports as a partition of the task locations. Names of actors, scripts and relations
may repeat; the ids of relations keep the locations of a program apart, so that the counts by name
add up to the number of uncovered locations. -/
namespace ActorAnalysis

namespace SortedSet

variable {α : Type} [LT α] [DecidableLT α] [TotalLT α]

theorem length_place {a : α} {l : List α} (new : a ∉ l) : (place a l).length = l.length + 1 := by
  induction l with
  | nil => rfl
  | cons b rest ih =>
    obtain ⟨apart, later⟩ := List.ne_and_not_mem_of_not_mem_cons new
    unfold place
    by_cases below : a < b
    · rw [if_pos below]
      rfl
    · by_cases above : b < a
      · rw [if_neg below, if_pos above, List.length_cons, ih later, List.length_cons]
      · exact absurd (TotalLT.connected below above) apart

theorem size_foldl_insert {l : List α} (distinct : l.Nodup) {s : SortedSet α}
    (new : ∀ a ∈ l, a ∉ s) : (l.foldl insert s).size = s.size + l.length := by
  induction l generalizing s with
  | nil => rfl
  | cons a rest ih =>
    obtain ⟨head, tail⟩ := List.nodup_cons.mp distinct
    have grown : (s.insert a).size = s.size + 1 := length_place (new a List.mem_cons_self)
    have later : ∀ x ∈ rest, x ∉ s.insert a := by
      intro x hx inside
      rcases mem_insert.mp inside with rfl | inside
      · exact head hx
      · exact new x (List.mem_cons_of_mem _ hx) inside
    rw [List.foldl_cons, ih tail later, grown, List.length_cons]
    omega

end SortedSet

namespace SortedMap

variable {κ : Type} [LT κ]

def sum (m : SortedMap κ Nat) : Nat := (m.entries.map Prod.snd).sum

variable [DecidableEq κ] [DecidableLT κ] [TotalLT κ]

theorem sum_place (k : κ) (n : Nat) {l : List (κ × Nat)}
    (ascending : l.Pairwise (fun a b => a.1 < b.1)) :
    ((place k n l).map Prod.snd).sum + (l.lookup k).getD 0 = (l.map Prod.snd).sum + n := by
  induction l with
  | nil => simp [place]
  | cons e rest ih =>
    obtain ⟨key, count⟩ := e
    obtain ⟨first, later⟩ := List.pairwise_cons.mp ascending
    have apart {x y : κ} (below : x < y) : x ≠ y := fun same => TotalLT.irrefl y (same ▸ below)
    unfold place
    by_cases below : k < key
    · -- the keys ascend, so that none of them is `k`
      have none : rest.lookup k = none := by
        rw [List.lookup_eq_none_iff]
        intro p hp
        simpa using apart (TotalLT.trans below (first p hp))
      simp only [below, if_true, lookup_cons_eq, apart below, if_false, none, List.map_cons,
        List.sum_cons, Option.getD_none]
      omega
    · by_cases above : key < k
      · have shorter := ih later
        simp only [below, above, if_true, if_false, lookup_cons_eq, (apart above).symm,
          List.map_cons, List.sum_cons]
        omega
      · obtain rfl : k = key := TotalLT.connected below above
        simp only [below, if_false, lookup_cons_eq, if_true, List.map_cons, List.sum_cons,
          Option.getD_some]
        omega

theorem sum_insert (m : SortedMap κ Nat) (k : κ) (n : Nat) :
    (m.insert k n).sum + (m.get? k).getD 0 = m.sum + n :=
  sum_place k n m.ascending

end SortedMap

namespace CoverageReport

def Balanced (r : CoverageReport) : Prop := r.uncoveredPerRelation.sum = r.uncovered.size

end CoverageReport

namespace Program

variable {p : Program} {views more : List View} {l : TaskLocation}

/-- A location of a relation of the program, neither one of its entries nor one of its exits. -/
def Task (p : Program) (l : TaskLocation) : Prop :=
  ∃ a ∈ p.actors, a.name = l.actor ∧ ∃ r ∈ a.relations, r.id = l.relation ∧
    l.location ∈ r.locations ∧ l.location ∉ r.entry ∧ l.location ∉ r.exit

theorem mem_taskLocations_iff {actor : String} {r : Relation} :
    l ∈ taskLocations actor r ↔ actor = l.actor ∧ r.id = l.relation ∧
      l.location ∈ r.locations ∧ l.location ∉ r.entry ∧ l.location ∉ r.exit := by
  obtain ⟨name, id, loc⟩ := l
  simp only [taskLocations, List.mem_map, List.mem_filter, SortedSet.mem_toList,
    TaskLocation.mk.injEq, Relation.isEntry, Relation.isExit, Bool.not_eq_true',
    Bool.or_eq_false_iff, decide_eq_false_iff_not]
  constructor
  · rintro ⟨_, ⟨inside, inner⟩, rfl, rfl, rfl⟩
    exact ⟨rfl, rfl, inside, inner⟩
  · rintro ⟨rfl, rfl, inside, inner⟩
    exact ⟨loc, ⟨inside, inner⟩, rfl, rfl, rfl⟩

theorem task_iff : p.Task l ↔ ∃ e ∈ p.relations, l ∈ taskLocations e.1 e.2 := by
  simp only [relations, List.mem_flatMap, List.mem_map, mem_taskLocations_iff]
  constructor
  · rintro ⟨a, ha, name, r, hr, task⟩
    exact ⟨(a.name, r), ⟨a, ha, r, hr, rfl⟩, name, task⟩
  · rintro ⟨_, ⟨a, ha, r, hr, rfl⟩, name, task⟩
    exact ⟨a, ha, name, r, hr, task⟩

theorem nodup_taskLocations (actor : String) (r : Relation) : (taskLocations actor r).Nodup := by
  apply (r.locations.nodup_toList.filter _).map
  intro a b same
  exact congrArg TaskLocation.location same

theorem coverage_eq : p.coverage views = p.relations.foldl (fun report e =>
    coverRelation (p.visited views) report e.1 e.2) ⟨∅, ∅, ∅⟩ := rfl

theorem mem_covered :
    l ∈ (p.coverage views).covered ↔ p.Task l ∧ l ∈ p.visited views := by
  rw [coverage_eq, (mem_coverRelations _ _).1, task_iff]
  simp

theorem mem_uncovered :
    l ∈ (p.coverage views).uncovered ↔ p.Task l ∧ l ∉ p.visited views := by
  rw [coverage_eq, (mem_coverRelations _ _).2, task_iff]
  simp

theorem script_apart_from_method {a b : Actor} (ha : a ∈ p.actors) (hb : b ∈ p.actors)
    {script : Script} {method : Method} (hs : script ∈ a.scripts) (hm : method ∈ b.methods) :
    script.body.id ≠ method.body.id := by
  have split : (p.actors.flatMap (fun a => a.scripts.map Script.body) ++
      p.actors.flatMap (fun a => a.methods.map Method.body)).Perm
        (p.actors.flatMap Actor.relations) :=
    List.flatMap_append_perm p.actors _ _
  have distinct := (split.map Relation.id).nodup_iff.mpr p.distinct
  rw [List.map_append] at distinct
  have apart := List.disjoint_of_nodup_append distinct
  intro same
  apply apart (a := script.body.id)
  · apply List.mem_map_of_mem
    exact List.mem_flatMap.mpr ⟨a, ha, List.mem_map_of_mem hs⟩
  · rw [same]
    apply List.mem_map_of_mem
    exact List.mem_flatMap.mpr ⟨b, hb, List.mem_map_of_mem hm⟩

/-- A visited location belongs to a script, whichever one its look-up finds. -/
theorem script_of_visited (visited : l ∈ p.visited views) :
    ∃ a ∈ p.actors, ∃ script ∈ a.scripts, script.body.id = l.relation := by
  obtain ⟨v, -, x, -, script, found, rfl⟩ := mem_visited.mp visited
  obtain ⟨a, named, own⟩ := Option.bind_eq_some_iff.mp found
  exact ⟨a, List.mem_of_find?_eq_some named, script, List.mem_of_find?_eq_some own, rfl⟩

section Step

variable {visited : SortedSet TaskLocation} {report : CoverageReport} {actor : String}
  {r : Relation}

theorem sum_coverRelation : (coverRelation visited report actor r).uncoveredPerRelation.sum =
    report.uncoveredPerRelation.sum +
      ((taskLocations actor r).filter (fun l => decide (l ∉ visited))).length := by
  have counted := report.uncoveredPerRelation.sum_insert r.name
    ((report.uncoveredPerRelation.get? r.name).getD 0 +
      ((taskLocations actor r).filter (fun l => decide (l ∉ visited))).length)
  unfold coverRelation
  dsimp only
  omega

theorem size_coverRelation (new : ∀ l ∈ report.uncovered, l.relation ≠ r.id) :
    (coverRelation visited report actor r).uncovered.size = report.uncovered.size +
      ((taskLocations actor r).filter (fun l => decide (l ∉ visited))).length := by
  apply SortedSet.size_foldl_insert ((nodup_taskLocations actor r).filter _)
  intro l hl known
  have own := mem_taskLocations_iff.mp (List.mem_filter.mp hl).1
  exact new l known own.2.1.symm

theorem balanced_coverRelation (balanced : report.Balanced)
    (new : ∀ l ∈ report.uncovered, l.relation ≠ r.id) :
    (coverRelation visited report actor r).Balanced := by
  rw [CoverageReport.Balanced, sum_coverRelation, size_coverRelation new, balanced]

end Step

theorem balanced_coverRelations {visited : SortedSet TaskLocation}
    (relations : List (String × Relation)) (distinct : (relations.map (fun e => e.2.id)).Nodup)
    {report : CoverageReport} (balanced : report.Balanced)
    (new : ∀ l ∈ report.uncovered, l.relation ∉ relations.map (fun e => e.2.id)) :
    (relations.foldl (fun report e => coverRelation visited report e.1 e.2) report).Balanced := by
  induction relations generalizing report with
  | nil => exact balanced
  | cons e rest ih =>
    obtain ⟨head, tail⟩ := List.nodup_cons.mp distinct
    rw [List.foldl_cons]
    apply ih tail
    · apply balanced_coverRelation balanced
      intro l hl same
      exact new l hl (same ▸ List.mem_cons_self)
    · intro l hl
      rcases mem_coverRelation.2.mp hl with old | ⟨task, -⟩
      · exact fun later => new l old (List.mem_cons_of_mem _ later)
      · rw [← (mem_taskLocations_iff.mp task).2.1]
        exact head

theorem balanced_coverage (p : Program) (views : List View) : (p.coverage views).Balanced := by
  apply balanced_coverRelations p.relations
  · have ids : p.relations.map (fun e => e.2.id) = relationIds p.actors := by
      simp [relations, relationIds, List.map_flatMap, Function.comp_def]
    rw [ids]
    exact p.distinct
  · rfl
  · intro l hl
    exact absurd hl (SortedSet.not_mem_empty l)

theorem visited_mono (kept : ∀ v ∈ views, v ∈ more) (visited : l ∈ p.visited views) :
    l ∈ p.visited more := by
  obtain ⟨v, hv, place⟩ := mem_visited.mp visited
  exact mem_visited.mpr ⟨v, kept v hv, place⟩

/-- A report splits the task locations of the program, and those of methods are uncovered. Its
counts by name add up, and further views cover no less. -/
theorem coverage_partitions_tasks (p : Program) (views : List View) :
    (∀ l, ¬(l ∈ (p.coverage views).covered ∧ l ∈ (p.coverage views).uncovered)) ∧
    (∀ l, l ∈ (p.coverage views).covered ∨ l ∈ (p.coverage views).uncovered ↔ p.Task l) ∧
    (∀ a ∈ p.actors, ∀ m ∈ a.methods, ∀ l ∈ (p.coverage views).covered,
      l.relation ≠ m.body.id) ∧
    ((p.coverage views).uncoveredPerRelation.entries.map Prod.snd).sum =
      (p.coverage views).uncovered.size ∧
    ∀ more, (∀ v ∈ views, v ∈ more) →
      ∀ l ∈ (p.coverage views).covered, l ∈ (p.coverage more).covered := by
  refine ⟨?_, ?_, ?_, balanced_coverage p views, ?_⟩
  · rintro l ⟨covered, uncovered⟩
    exact (mem_uncovered.mp uncovered).2 (mem_covered.mp covered).2
  · intro l
    rw [mem_covered, mem_uncovered, ← and_or_left]
    exact and_iff_left (Classical.em _)
  · intro b hb m hm l covered same
    obtain ⟨a, ha, script, hs, id⟩ := script_of_visited (mem_covered.mp covered).2
    exact script_apart_from_method ha hb hs hm (id.trans same)
  · intro more kept l covered
    obtain ⟨task, visited⟩ := mem_covered.mp covered
    exact mem_covered.mpr ⟨task, visited_mono kept visited⟩

end Program

namespace Namesakes

/-- Two actors of one name, each with a script of the same id, and three relations of one name. -/
def actors : List Actor :=
  [⟨"Cat", [⟨0, .bootstrap, .sequence 0 "main" [.skip, .skip]⟩],
      [⟨"helper", .sequence 1 "main" [.skip, .skip]⟩]⟩,
    ⟨"Cat", [⟨0, .bootstrap, .sequence 2 "main" [.skip, .skip]⟩], []⟩]

theorem distinct : (relationIds actors).Nodup := by decide

def program : Program := ⟨actors, ∅, distinct⟩

def started : View := .schedule [.start 0 "Cat" 0 0] (.singleton 0) ∅ (.data "")

def stepped : View := .schedule [.start 0 "Cat" 0 1] (.singleton 0) ∅ (.data "")

theorem counts : (program.coverage [stepped]).uncoveredPerRelation.entries = [("main", 2)] := by
  decide +kernel

theorem covered : ⟨"Cat", 0, 1⟩ ∈ (program.coverage [stepped]).covered := by decide +kernel

end Namesakes

/-- The look-up finds the first script, so that the second one and the method stay uncovered. -/
theorem Program.namesakes_are_counted_apart :
    (Namesakes.program.coverage [Namesakes.stepped]).uncoveredPerRelation.entries =
      [("main", 2)] ∧
    (Namesakes.program.coverage [Namesakes.stepped]).uncovered.size = 2 ∧
    ⟨"Cat", 0, 1⟩ ∈
      (Namesakes.program.coverage [Namesakes.started, Namesakes.stepped]).covered := by
  obtain ⟨-, -, -, total, further⟩ :=
    coverage_partitions_tasks Namesakes.program [Namesakes.stepped]
  refine ⟨Namesakes.counts, ?_, further _ ?_ _ Namesakes.covered⟩
  · rw [← total, Namesakes.counts]
    rfl
  · intro v hv
    exact List.mem_cons_of_mem _ hv

end ActorAnalysis
