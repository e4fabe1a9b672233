import ActorAnalysis.Proofs.Containment
import ActorAnalysis.Proofs.Graph.Linked

/-! The graph over whole explorations. Runs add nodes and merge them, also the node that is just
being expanded; checks drop violations that turn out to be spurious, or refine them. The graph stays
well formed all the same: a violation that a check examines has been added by the last expansion,
behind which nothing is merged any more, so it has no successor yet. -/
namespace ActorAnalysis

namespace Analysis

structure Numbers {S W : Type} (A : Analysis S) (node : S → Node W) : Prop where
  initial : ∀ {program ids out after}, (A.initial program).run ids = (.ok out, after) →
    Node.Born ids after ∅ (out.map node)
  succ : ∀ {s ids out after}, (A.succ s).run ids = (.ok out, after) →
    Node.Born ids after (.singleton (node s).id) (out.map node)
  merge : ∀ {s t m ids after}, (A.merge s t).run ids = (.ok m, after) →
    Node.Unites ids after (node s) (node t) (node m)
  widen : ∀ {s t}, A.widen s = .ok t → (node t).SamePlace (node s)
  refine : ∀ {s t}, A.refiner.refine s = .ok (some t) → (node t).SamePlace (node s)

end Analysis

theorem Refiner.refine_through {O I : Type} {w : Wrapping O I} {r : Refiner I} {o t : O}
    (done : (Refiner.through w r).refine o = .ok (some t)) :
    ∃ i, r.refine (w.unwrap o) = .ok (some i) ∧ w.wrap o i = t := by
  obtain ⟨refined, ran, same⟩ := except_map_ok done
  obtain ⟨i, found, same⟩ := Option.map_eq_some_iff.mp same
  exact ⟨i, found ▸ ran, same⟩

theorem Node.numbers {W : Type} (config : GraphConfig) (A : Analysis W) :
    (Node.analysis config A).Numbers (fun n => n) where
  initial done := by
    rw [List.map_id']
    exact initial_born done
  succ done := by
    rw [List.map_id']
    exact succ_born done
  merge done := merge_unites done
  widen done := widen_ok done
  refine done := by
    obtain ⟨inner, -, rfl⟩ := Refiner.refine_through done
    exact ⟨rfl, rfl, rfl⟩

theorem Timed.numbers {S W : Type} {A : Analysis S} {node : S → Node W} (config : TimeConfig)
    (numbers : A.Numbers node) :
    (Timed.analysis config A).Numbers (fun s => node s.inner) where
  initial done := by
    obtain ⟨mid, ran, later⟩ := (lifts config A).initial done
    have born := numbers.initial ran
    rw [List.map_map] at born
    exact born.within (Ids.le_refl _) later
  succ done := by
    obtain ⟨mid, ran, later⟩ := (lifts config A).succ done
    have born := numbers.succ ran
    rw [List.map_map] at born
    exact born.within (Ids.le_refl _) later
  merge done := by
    obtain ⟨mid, ran, later⟩ := (lifts config A).merge done
    exact (numbers.merge ran).within (Ids.le_refl _) later
  widen done := by
    obtain ⟨inner, ran, rfl⟩ := except_map_ok done
    exact numbers.widen ran
  refine done := by
    obtain ⟨inner, ran, rfl⟩ := Refiner.refine_through done
    exact numbers.refine ran

variable {S W : Type} [DecidableEq S] [Hashable S]

namespace Space

structure Linked (node : S → Node W) (space : Space S) : Prop where
  contained : space.Contained
  nodes : Node.Linked node space.ids space.reached.toList

/-- A space amid an expansion: the successors in `pending` are still to come, and those in `targets`
are violations, which nothing has been derived from. -/
structure Amid (node : S → Node W) (pending targets : List S) (space : Space S) : Prop where
  linked : space.Linked node
  awaits : Node.Awaits node space.ids space.reached.toList pending
  unused : Node.Unused node targets space.reached.toList pending

variable {node : S → Node W} {space after : Space S}

theorem Linked.empty (ids : Ids) : (⟨ids, ∅, ∅⟩ : Space S).Linked node := by
  refine ⟨⟨valid_empty ids, fun _ waits => absurd waits List.not_mem_nil⟩, ?_⟩
  rw [Reached.toList_empty]
  exact ⟨nofun, nofun, nofun, nofun⟩

theorem Linked.withIds (linked : space.Linked node) {ids : Ids} (later : space.ids ≤ ids) :
    (space.withIds ids).Linked node :=
  ⟨linked.contained.withIds ids, linked.nodes.later later⟩

theorem Linked.popped {s : S} (linked : space.Linked node) (taken : space.Popped s after) :
    after.Linked node := by
  refine ⟨linked.contained.popped taken, ?_⟩
  rw [taken.ids, taken.reached]
  exact linked.nodes

section Add

variable {t s : S} {rest targets : List S} (amid : space.Amid node (t :: rest) targets)
  (place : (node s).SamePlace (node t)) (keys : SortedSet PartitionKey)
include amid

theorem Amid.tail : space.Amid node rest targets :=
  ⟨amid.linked, amid.awaits.tail, amid.unused.tail⟩

include place

theorem Amid.add : (space.add s keys).Amid node rest targets := by
  have members (x : S) := mem_reached_add amid.linked.contained.valid s x keys
  refine ⟨⟨amid.linked.contained.add s keys, ?_⟩, ?_, ?_⟩
  · exact amid.linked.nodes.add amid.awaits place members
  · exact amid.awaits.add place members
  · exact amid.unused.add place members

theorem Amid.report : (space.add s keys).Amid node rest (targets ++ [s]) := by
  have members (x : S) := mem_reached_add amid.linked.contained.valid s x keys
  obtain ⟨linked, awaits, -⟩ := amid.add place keys
  exact ⟨linked, awaits, amid.unused.report amid.awaits place members amid.linked.nodes⟩

end Add

theorem Amid.drop {t : S} {rest : List S} (amid : space.Amid node [] (t :: rest)) :
    (space.drop t).Amid node [] rest := by
  have left := mem_reached_drop amid.linked.contained.valid t
  refine ⟨⟨amid.linked.contained.drop t, amid.linked.nodes.drop left fun s hs => ?_⟩, .nothing, ?_⟩
  · exact amid.unused.unused t List.mem_cons_self s (.inl hs)
  · exact amid.unused.drop left

theorem Amid.exchange {t s : S} {rest : List S} (amid : space.Amid node [] (t :: rest))
    (place : (node s).SamePlace (node t)) (keys : SortedSet PartitionKey) :
    ((space.drop t).add s keys).Amid node [] rest := by
  have valid := amid.linked.contained.valid
  have member : t ∈ space.reached.toList := amid.unused.members t List.mem_cons_self
  have added (x : S) := mem_reached_add (valid.drop t) s x keys
  obtain ⟨⟨contained, -⟩, -, unused⟩ := amid.drop
  refine ⟨⟨contained.add s keys, ?_⟩, .nothing, ?_⟩
  · apply amid.linked.nodes.exchange member place
    intro x
    rw [added, mem_reached_drop valid]
  · apply unused.extend added
    rw [place.predecessors]
    exact fun x hx => amid.unused.unused x (List.mem_cons_of_mem t hx) t (.inl member)

end Space

namespace Analysis

namespace Numbers

variable {A : Analysis S} {node : S → Node W} (numbers : A.Numbers node)
include numbers

omit [DecidableEq S] [Hashable S] in
theorem absorb {state final : S} {l absorbed : List S} {ids after : Ids}
    (numbered : ∀ s ∈ l, (node s).Numbered ids) (start : (node state).Numbered ids)
    (own : (node state).id ∈ (node state).mergeOf)
    (ran : (A.absorb state l).run ids = (.ok (final, absorbed), after)) :
    Node.Gathers node ids after (absorbed ++ [state]) final ∧ ∀ r ∈ absorbed, r ∈ l := by
  have step {mid later : Ids} {s r m : S} {done : List S}
      (gathers : Node.Gathers node ids mid (done ++ [state]) s) (hr : r ∈ l)
      (_ : A.shouldMerge s r = true) (merged : (A.merge s r).run mid = (.ok m, later)) :
      Node.Gathers node ids later (done ++ [r] ++ [state]) m := by
    apply gathers.unite (numbered r hr) _ (numbers.merge merged) (Alloc.le_of_run merged)
    intro x
    simp only [List.mem_append, List.mem_singleton]
    grind
  exact absorb_rule (fun mid s done => Node.Gathers node ids mid (done ++ [state]) s) step
    (fun _ hr => hr) [] (.self start own) ran

theorem merging {state : S} {pending : List S} {space after : Space S} {r : Except Error Nat}
    (amid : space.Amid node pending []) (member : state ∈ space.reached.toList)
    (merging : A.Merging state space (r, after)) : after.Amid node pending [] := by
  have linked := amid.linked
  have drawn {r : Except Error (S × List S)} {ids : Ids}
      (ran : (A.absorb state (A.candidates state space)).run space.ids = (r, ids)) :
      (space.withIds ids).Amid node pending [] := by
    have later := Alloc.le_of_run ran
    exact ⟨linked.withIds later,
      amid.awaits.later later (fun _ resolves => resolves) (fun _ _ resolves => resolves), .nothing⟩
  have kept := linked.contained.merging merging
  cases merging with
  | skipped => exact amid
  | failed _ ran => exact drawn ran
  | alone _ ran => exact drawn ran
  | @merged final absorbed ids _ _ ran =>
    have inside (r : S) (hr : r ∈ A.candidates state space) : r ∈ space.reached.toList :=
      mem_reached_of_mem_candidates hr
    obtain ⟨gathers, some⟩ := numbers.absorb (fun r hr => linked.nodes.numbered r (inside r hr))
      (linked.nodes.numbered state member) (linked.nodes.own state member) ran
    have parts : ∀ s ∈ absorbed ++ [state], s ∈ space.reached.toList := by
      intro s hs
      rcases List.mem_append.mp hs with hs | hs
      · exact inside s (some s hs)
      · exact List.mem_singleton.mp hs ▸ member
    have valid : (space.withIds ids).Valid := linked.contained.valid
    have members := mem_reached_replaced A state final absorbed valid
    refine ⟨⟨kept, ?_⟩, ?_, .nothing⟩
    · rw [ids_replaced A state final absorbed valid]
      exact gathers.linked parts members linked.nodes
    · rw [ids_replaced A state final absorbed valid]
      exact amid.awaits.later gathers.later (fun _ => (gathers.replaces members).resolves)
        (fun _ => gathers.resolved parts members)

theorem visited {config : RunConfig} {p : Progress S} {t : S} {rest : List S}
    {space after : Space S} {r : Except Error (Progress S)}
    (amid : space.Amid node (t :: rest) p.targets)
    (visited : A.Visited config p t space (r, after)) :
    after.Linked node ∧ ∀ p', r = .ok p' → after.Amid node rest p'.targets := by
  have widened {s : S} (wide : A.Widens config t s) : (node s).SamePlace (node t) := by
    rcases wide.cases with rfl | wide
    · exact .refl (node s)
    · exact numbers.widen wide
  have merged {s : S} (wide : A.Widens config t s) (quiet : p.targets = []) {r : Except Error Nat}
      (merging : A.Merging s (space.add s (A.keys s)) (r, after)) : after.Amid node rest [] := by
    -- violations that are pending would be merged away, but then nothing is merged
    have added := amid.add (widened wide) (A.keys s)
    rw [quiet] at added
    exact numbers.merging added
      ((Space.mem_reached_add amid.linked.contained.valid s s _).mpr (.inl rfl)) merging
  cases visited with
  | failed => exact ⟨amid.linked, fun _ same => nomatch same⟩
  | covered => exact ⟨amid.linked, fun _ same => Except.ok.inj same ▸ amid.tail⟩
  | @target s _ wide =>
    have added := amid.report (widened wide) (A.keys s)
    exact ⟨added.linked, fun _ same => Except.ok.inj same ▸ added⟩
  | @pending s _ wide =>
    have added := amid.add (widened wide) (A.keys s)
    exact ⟨added.linked, fun _ same => Except.ok.inj same ▸ added⟩
  | merging _ wide _ _ quiet merging =>
    have kept := merged wide quiet merging
    exact ⟨kept.linked, fun _ same => Except.ok.inj same ▸ kept⟩
  | unmerged wide _ quiet merging =>
    exact ⟨(merged wide quiet merging).linked, fun _ same => nomatch same⟩

theorem visit (config : RunConfig) (p : Progress S) (t : S) (rest : List S) :
    Explore.Contract (Space.Amid node (t :: rest) p.targets) (A.visit config p t)
      (fun p => Space.Amid node rest p.targets) (Space.Linked node) := by
  intro space amid
  have visited := A.visit_visited config p t space
  cases done : (A.visit config p t).on space with | mk r after =>
  rw [done] at visited
  obtain ⟨kept, rest⟩ := numbers.visited amid visited
  cases r with
  | error => exact kept
  | ok p' => exact rest p' rfl

theorem expand (config : RunConfig) (statistics : Statistics) {s : S} {popped : Space S}
    (linked : popped.Linked node) (source : s ∈ popped.reached.toList) :
    Explore.Contract (fun space => space = popped) (A.expand config statistics s)
      (fun p => Space.Amid node [] p.targets) (Space.Linked node) := by
  -- the state may be absorbed later on, but then others stand for its number
  have edges (p : NodeId) (hp : p ∈ SortedSet.singleton (node s).id) :
      Node.Resolves node popped.reached.toList p :=
    ⟨s, source, SortedSet.mem_singleton.mp hp ▸ linked.nodes.own s source⟩
  have steps := expand_contract statistics
    (fun _ pending p => Space.Amid node pending p.targets)
    (fun _ _ ran => linked.withIds (Alloc.le_of_run ran))
    (fun _ _ ran => ⟨linked.withIds (Alloc.le_of_run ran),
      (numbers.succ ran).awaits linked.nodes.numbered edges, .nothing⟩)
    (fun _ => numbers.visit config)
  exact steps.weaken fun _ _ done => done.choose_spec

theorem run (config : RunConfig) (fuel : Nat) :
    Explore.Contract (Space.Linked node) (A.run config fuel)
      (Ended (Space.Linked node) (Space.Amid node [])) (Space.Linked node) := by
  apply runFrom_contract (Space.Amid node []) (fun _ linked => linked.contained.valid)
  intro statistics s before popped linked taken
  have source : s ∈ popped.reached.toList :=
    taken.reached ▸ linked.contained.waiting s taken.waited
  exact (numbers.expand config statistics (linked.popped taken) source).weaken
    fun _ _ left => ⟨fun _ => left.linked, fun _ => left⟩

theorem retract {t : S} {rest : List S} :
    Explore.Contract (Space.Amid node [] (t :: rest)) (A.retract t)
      (fun _ => Space.Amid node [] rest) (Space.Linked node) := by
  intro space amid
  rcases A.retract_cases t space with ⟨e, done⟩ | done | ⟨r, refines, -, done⟩
  · rw [done]
    exact amid.drop.linked
  · rw [done]
    exact amid.drop
  · rw [done]
    exact amid.exchange (numbers.refine refines) (A.keys r)

theorem examine (refinements : Nat) (targets : List S) :
    Explore.Contract (Space.Amid node [] targets) (A.examine refinements targets)
      (fun _ => Space.Linked node) (Space.Linked node) := by
  induction targets generalizing refinements with
  | nil =>
    intro space amid
    exact amid.linked
  | cons t rest ih =>
    have asked : Explore.Contract (Space.Amid node [] (t :: rest))
        (Explore.ofExcept (A.refiner.feasible t) : Explore S Bool)
        (fun _ => Space.Amid node [] (t :: rest)) (Space.Linked node) := by
      intro space amid
      cases h : A.refiner.feasible t with
      | ok genuine => exact amid
      | error e => exact amid.linked
    apply asked.bind
    intro genuine
    split
    · intro space amid
      exact amid.linked
    · exact numbers.retract.bind fun _ => ih (refinements + 1)

theorem seed (program : Program) (ids : Ids) :
    ((A.seed program).on ⟨ids, ∅, ∅⟩).2.Linked node := by
  have seeded : Explore.Contract (fun space => space = ⟨ids, ∅, ∅⟩) (A.seed program)
      (fun _ space => ∃ _ : List S, space.Amid node [] []) (Space.Linked node) := by
    apply seed_contract (fun _ pending => Space.Amid node pending [])
    · intro _ after _
      exact .empty after
    · intro out after ran
      refine ⟨.empty after, (numbers.initial ran).awaits (fun s hs => ?_) (fun p hp => ?_),
        .nothing⟩
      · exact absurd hs List.not_mem_nil
      · exact absurd hp (SortedSet.not_mem_empty p)
    · intro out s rest before amid
      split
      · exact amid.tail
      · exact amid.add (.refl _) (A.keys s)
  exact (seeded.weaken fun _ _ done => done.choose_spec.linked).always rfl

end Numbers

/-- The spaces that an exploration can leave: behind its start, and behind each run or check that
follows, whether or not that succeeds. -/
inductive Session (A : Analysis S) (program : Program) : Space S → Prop where
  | seeded (ids : Ids) : Session A program ((A.seed program).on ⟨ids, ∅, ∅⟩).2
  | ran {space : Space S} (config : RunConfig) (fuel : Nat) :
      Session A program space → Session A program ((A.run config fuel).on space).2
  | checked {space : Space S} (config : RunConfig) (bounded : BoundedConfig) (fuel : Nat) :
      Session A program space → Session A program ((A.check config bounded fuel).on space).2

theorem Session.linked {A : Analysis S} {node : S → Node W} (numbers : A.Numbers node)
    {program : Program} {space : Space S} (session : A.Session program space) :
    space.Linked node := by
  have stronger (targets : List S) (space : Space S) (left : space.Amid node [] targets) :
      space.Linked node := left.linked
  induction session with
  | seeded ids => exact numbers.seed program ids
  | ran config fuel _ linked =>
    have ran := (numbers.run config fuel).weaken fun _ _ ended => (Ended.reports stronger ended).1
    exact ran.always linked
  | checked config bounded fuel _ linked =>
    have ran := (numbers.run (halting bounded config) fuel).weaken fun _ _ =>
      Ended.reports stronger
    exact checkRounds_restores ran numbers.examine bounded.maxRounds ⟨0, 0, {}⟩ linked

end Analysis

/-- States hold the nodes of a graph: with distinct numbers, disjoint merge sets, and edges whose
sources have been merged into exactly one state each. -/
structure Node.Graph (node : S → Node W) (l : List S) : Prop where
  distinct : (l.map fun s => (node s).id).Nodup
  disjoint : l.Pairwise fun s t => ∀ x ∈ (node s).mergeOf, x ∉ (node t).mergeOf
  resolved : ∀ s ∈ l, ∀ p ∈ (node s).predecessors,
    ∃ t ∈ l, p ∈ (node t).mergeOf ∧ ∀ r ∈ l, p ∈ (node r).mergeOf → r = t

theorem Space.Linked.graph {node : S → Node W} {space : Space S} (linked : space.Linked node) :
    Node.Graph node space.reached.toList := by
  have distinct := Reached.nodup_toList linked.contained.valid.2
  obtain ⟨-, own, apart, edges⟩ := linked.nodes
  have disjoint : space.reached.toList.Pairwise fun s t =>
      ∀ x ∈ (node s).mergeOf, x ∉ (node t).mergeOf :=
    distinct.imp_of_mem fun hs ht other x hxs hxt => other (apart _ hs _ ht x hxs hxt)
  refine ⟨?_, disjoint, fun s hs p hp => ?_⟩
  · apply List.pairwise_map.mpr
    refine disjoint.imp_of_mem fun {s t} hs ht apart same => ?_
    exact apart _ (own s hs) (same ▸ own t ht)
  · obtain ⟨t, ht, held⟩ := edges s hs p hp
    exact ⟨t, ht, held, fun r hr held' => apart r hr t ht p held' held⟩

/-- The graph is well formed behind every run and every check of an exploration, also under logical
time. -/
theorem graph_stays_well_formed [DecidableEq W] [Hashable W] (config : GraphConfig)
    (time : TimeConfig) (A : Analysis W) (program : Program) :
    (∀ space, (Node.analysis config A).Session program space →
      Node.Graph (fun n => n) space.reached.toList) ∧
      ∀ space, (Timed.analysis time (Node.analysis config A)).Session program space →
        Node.Graph Timed.inner space.reached.toList := by
  have numbers := Node.numbers config A
  constructor
  · intro space session
    exact (session.linked numbers).graph
  · intro space session
    exact (session.linked (Timed.numbers time numbers)).graph

namespace Chain

abbrev graph : Analysis (Node Table.State) := Node.analysis ⟨.never, .passThrough⟩ analysis

def root : Node Table.State := ⟨0, ∅, .singleton 0, first, analysis.keys first⟩

def leaf : Node Table.State := ⟨1, .singleton 0, .singleton 1, last, analysis.keys last⟩

theorem new_leaf (l : List (Node Table.State)) (only : ∀ r ∈ l, r = root) :
    graph.stop leaf l = false := by
  apply Bool.or_eq_false_iff.mpr
  constructor
  · apply List.any_eq_false.mpr
    intro r hr
    rw [only r hr]
    decide
  · apply stop_last
    intro r hr
    obtain ⟨n, hn, rfl⟩ := List.mem_map.mp hr
    rw [only n hn]
    decide

/-- The second node is reached by an edge from the first one. -/
theorem edge_has_one_source : ∃ space, graph.Session program space ∧
    leaf ∈ space.reached.toList ∧ ∃ m ∈ space.reached.toList, 0 ∈ m.mergeOf ∧
      ∀ r ∈ space.reached.toList, 0 ∈ r.mergeOf → r = m := by
  have valid : (⟨⟨0, 1⟩, ∅, ∅⟩ : Space (Node Table.State)).Valid := Space.valid_empty _
  have initial : (graph.initial program).run .start = (.ok [root], ⟨0, 1⟩) := rfl
  have succ : (graph.succ root).run ⟨0, 1⟩ = (.ok [leaf], ⟨0, 2⟩) := rfl
  have done : (graph.succ leaf).run ⟨0, 2⟩ = (.ok [], ⟨0, 2⟩) := rfl
  obtain ⟨count, seeded⟩ := Analysis.seed_one initial
  obtain ⟨statistics, after, ends, reached⟩ := Analysis.runFrom_chain ⟨.fifo, none, false, false⟩ 0
    {} (valid.add root _) (Analysis.queue_add valid rfl _) rfl rfl rfl rfl succ
    (fun l inside => new_leaf l fun r hr => by
      have found := (Space.mem_reached_add valid root r _).mp (inside r hr)
      rw [Reached.toList_empty] at found
      exact found.resolve_right List.not_mem_nil) done
  have session : graph.Session program _ :=
    (Analysis.Session.seeded .start).ran ⟨.fifo, none, false, false⟩ 3
  rw [seeded] at session
  change graph.Session program ((graph.runFrom _ 3 {}).on _).2 at session
  rw [ends] at session
  have formed :=
    (graph_stays_well_formed ⟨.never, .passThrough⟩ ⟨0⟩ analysis program).1 after session
  exact ⟨after, session, reached, formed.resolved leaf reached 0 (by decide)⟩

end Chain
end ActorAnalysis
