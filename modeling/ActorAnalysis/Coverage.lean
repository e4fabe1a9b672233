import ActorAnalysis.View

/-! Coverage of the task locations of a program: all locations of its relations but their entries
and exits. A location counts as covered if a thread was stepped onto it in a viewed state. -/
namespace ActorAnalysis

structure TaskLocation where
  actor : String
  relation : Nat
  location : Nat
deriving DecidableEq

namespace TaskLocation

def text (l : TaskLocation) : String := l.actor ++ s!":R{l.relation}:L{l.location}"

instance : LT TaskLocation :=
  ⟨fun a b => a.actor < b.actor ∨ a.actor = b.actor ∧
    (a.relation < b.relation ∨ a.relation = b.relation ∧ a.location < b.location)⟩

instance : DecidableLT TaskLocation := fun a b =>
  inferInstanceAs (Decidable (a.actor < b.actor ∨ a.actor = b.actor ∧
    (a.relation < b.relation ∨ a.relation = b.relation ∧ a.location < b.location)))

instance : TotalLT TaskLocation where
  irrefl a h := by
    rcases h with h | ⟨_, h⟩
    · exact TotalLT.irrefl _ h
    · omega
  trans {a b c} hab hbc := by
    rcases hab with hab | ⟨sab, hab⟩ <;> rcases hbc with hbc | ⟨sbc, hbc⟩
    · exact .inl (TotalLT.trans hab hbc)
    · exact .inl (sbc ▸ hab)
    · exact .inl (sab ▸ hbc)
    · exact .inr ⟨sab.trans sbc, by omega⟩
  connected {a b} hab hba := by
    have actors : a.actor = b.actor :=
      TotalLT.connected (fun h => hab (.inl h)) (fun h => hba (.inl h))
    have numbers : a.relation = b.relation ∧ a.location = b.location := by
      have notBelow : ¬ (a.relation < b.relation ∨
          a.relation = b.relation ∧ a.location < b.location) := fun h => hab (.inr ⟨actors, h⟩)
      have notAbove : ¬ (b.relation < a.relation ∨
          b.relation = a.relation ∧ b.location < a.location) := fun h => hba (.inr ⟨actors.symm, h⟩)
      omega
    cases a
    cases b
    simp_all

end TaskLocation

structure CoverageReport where
  covered : SortedSet TaskLocation
  uncovered : SortedSet TaskLocation
  /-- How many locations of the relations of a name are uncovered. -/
  uncoveredPerRelation : SortedMap String Nat

namespace CoverageReport

def total (r : CoverageReport) : Nat := r.covered.size + r.uncovered.size

/-- The covered share; none if there is nothing to cover. -/
def ratio? (r : CoverageReport) : Option Float :=
  if r.total = 0 then none else some (Float.ofNat r.covered.size / Float.ofNat r.total)

end CoverageReport

namespace Program

def visited (p : Program) (views : List View) : SortedSet TaskLocation :=
  .ofList ((views.flatMap View.locations).filterMap (fun l =>
    (p.script? l.ref.actor l.ref.script).map (fun script =>
      ⟨l.ref.actor, script.body.id, l.location⟩)))

def taskLocations (actor : String) (r : Relation) : List TaskLocation :=
  (r.locations.toList.filter (fun loc => !(r.isEntry loc || r.isExit loc))).map
    (fun loc => ⟨actor, r.id, loc⟩)

def coverRelation (visited : SortedSet TaskLocation) (report : CoverageReport)
    (actor : String) (r : Relation) : CoverageReport :=
  let tasks := taskLocations actor r
  let covered := tasks.filter (fun l => decide (l ∈ visited))
  let uncovered := tasks.filter (fun l => decide (l ∉ visited))
  let before := (report.uncoveredPerRelation.get? r.name).getD 0
  { covered := covered.foldl SortedSet.insert report.covered
    uncovered := uncovered.foldl SortedSet.insert report.uncovered
    uncoveredPerRelation :=
      report.uncoveredPerRelation.insert r.name (before + uncovered.length) }

def coverage (p : Program) (views : List View) : CoverageReport :=
  p.relations.foldl (fun report (actor, r) => coverRelation (p.visited views) report actor r)
    ⟨∅, ∅, ∅⟩

end Program
end ActorAnalysis
