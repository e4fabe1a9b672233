import ActorAnalysis.Program.Relation
import ActorAnalysis.Sorted.Map

/-! Programs: actors with event-triggered scripts and with methods, over shared variables.
Actor names and script ids may repeat, and a look-up finds the first; ids of relations are
distinct. -/
namespace ActorAnalysis

structure Script where
  id : Nat
  event : Event
  body : Relation
deriving DecidableEq

structure Method where
  name : String
  body : Relation
deriving DecidableEq

structure Actor where
  name : String
  scripts : List Script
  methods : List Method
deriving DecidableEq

def Actor.relations (a : Actor) : List Relation :=
  a.scripts.map Script.body ++ a.methods.map Method.body

def Actor.script? (a : Actor) (id : Nat) : Option Script :=
  a.scripts.find? (fun s => decide (s.id = id))

def relationIds (actors : List Actor) : List Nat :=
  (actors.flatMap Actor.relations).map Relation.id

structure Program where
  actors : List Actor
  vars : SortedMap String Int64
  distinct : (relationIds actors).Nodup
deriving DecidableEq

def firstRepeat? (seen : List Nat) : List Nat → Option Nat
  | [] => none
  | n :: rest => if n ∈ seen then some n else firstRepeat? (n :: seen) rest

theorem nodup_of_firstRepeat?_eq_none {seen l : List Nat} (h : firstRepeat? seen l = none) :
    l.Nodup ∧ ∀ n ∈ l, n ∉ seen := by
  induction l generalizing seen with
  | nil => simp
  | cons n rest ih =>
    unfold firstRepeat? at h
    split at h
    · contradiction
    · rename_i fresh
      have ⟨nodup, apart⟩ := ih h
      have head : n ∉ rest := fun hn => apart n hn List.mem_cons_self
      refine ⟨List.nodup_cons.mpr ⟨head, nodup⟩, fun m hm => ?_⟩
      rcases List.mem_cons.mp hm with rfl | hm
      · exact fresh
      · exact fun seen => apart m hm (List.mem_cons_of_mem _ seen)

namespace Program

/-- Refuses actors of which two relations share an id. -/
def ofActors (actors : List Actor) (vars : SortedMap String Int64) : Except Error Program :=
  match h : firstRepeat? [] (relationIds actors) with
  | some id => .error (.repeatedRelation id)
  | none => .ok ⟨actors, vars, (nodup_of_firstRepeat?_eq_none h).1⟩

def actor? (p : Program) (name : String) : Option Actor :=
  p.actors.find? (fun a => decide (a.name = name))

def script? (p : Program) (actor : String) (script : Nat) : Option Script :=
  (p.actor? actor).bind (fun a => a.script? script)

def relations (p : Program) : List (String × Relation) :=
  p.actors.flatMap (fun a => a.relations.map (fun r => (a.name, r)))

def relation? (p : Program) (id : Nat) : Option Relation :=
  (p.relations.map Prod.snd).find? (fun r => decide (r.id = id))

end Program
end ActorAnalysis
