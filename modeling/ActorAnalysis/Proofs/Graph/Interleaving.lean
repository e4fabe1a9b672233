import ActorAnalysis.Proofs.Stack.Lens
import ActorAnalysis.Proofs.Stack.Unfailing

namespace ActorAnalysis

namespace Analysis

inductive Call (S : Type) where
  | initial (program : Program)
  | succ (s : S)
  | join (s t : S)
  | merge (s t : S)
  | widen (s : S)
  | refine (s : S)

namespace Call

variable {S T : Type}

def operands : Call S → List S
  | initial _ => []
  | succ s | widen s | refine s => [s]
  | join s t | merge s t => [s, t]

def map (f : S → T) : Call S → Call T
  | initial program => initial program
  | succ s => succ (f s)
  | join s t => join (f s) (f t)
  | merge s t => merge (f s) (f t)
  | widen s => widen (f s)
  | refine s => refine (f s)

def answer (A : Analysis S) : Call S → Alloc (List S)
  | initial program => A.initial program
  | succ s => A.succ s
  | join s t => do
    let u ← A.join s t
    return [u]
  | merge s t => do
    let u ← A.merge s t
    return [u]
  | widen s => do
    let u ← A.widen s
    return [u]
  | refine s => do
    let refined ← A.refiner.refine s
    return refined.toList

end Call

variable {S : Type} {A : Analysis S}

/-- What the analysis has made of a list of operands by one of its operations. -/
inductive Makes (A : Analysis S) (ids : Ids) : List S → Ids → S → Prop where
  | initial {program : Program} {out : List S} {after : Ids} {u : S} :
      (A.initial program).run ids = (.ok out, after) → u ∈ out → Makes A ids [] after u
  | succ {s : S} {out : List S} {after : Ids} {u : S} :
      (A.succ s).run ids = (.ok out, after) → u ∈ out → Makes A ids [s] after u
  | combine {s t : S} {after : Ids} {u : S} :
      A.Combines ids s t after u → Makes A ids [s, t] after u
  | widen {s u : S} : A.widen s = .ok u → Makes A ids [s] ids u
  | refine {s u : S} : A.refiner.refine s = .ok (some u) → Makes A ids [s] ids u

theorem Call.run_singleton_ok {x : Alloc S} {ids after : Ids} {out : List S} {u : S}
    (done : (x >>= fun s => pure [s]).run ids = (.ok out, after)) (member : u ∈ out) :
    x.run ids = (.ok u, after) := by
  obtain ⟨s, mid, ran, done⟩ := Alloc.run_bind_ok.mp done
  obtain ⟨rfl, rfl⟩ := Alloc.run_pure_ok.mp done
  obtain rfl := List.mem_singleton.mp member
  exact ran

theorem Call.makes {c : Call S} {ids after : Ids} {out : List S}
    (done : (c.answer A).run ids = (.ok out, after)) :
    ∀ u ∈ out, A.Makes ids c.operands after u := by
  intro u hu
  cases c with
  | initial program => exact .initial done hu
  | succ s => exact .succ done hu
  | join s t => exact .combine (.inl (run_singleton_ok done hu))
  | merge s t => exact .combine (.inr (run_singleton_ok done hu))
  | widen s =>
    obtain ⟨widened, rfl⟩ := Alloc.run_liftM_ok.mp (run_singleton_ok done hu)
    exact .widen widened
  | refine s =>
    obtain ⟨refined, mid, ran, done⟩ := Alloc.run_bind_ok.mp done
    obtain ⟨rfl, rfl⟩ := Alloc.run_pure_ok.mp done
    obtain ⟨found, rfl⟩ := Alloc.run_liftM_ok.mp ran
    obtain rfl := Option.mem_toList.mp hu
    exact .refine found

/-- The states made by calls one after the other, each on states made before. Numbers may be drawn
between the calls, also by calls that fail. -/
inductive Interleaved (A : Analysis S) : Ids → List S → Prop where
  | start (ids : Ids) : Interleaved A ids []
  | call {ids after : Ids} {made out : List S} {c : Call S} : Interleaved A ids made →
      (∀ s ∈ c.operands, s ∈ made) → (c.answer A).run ids = (.ok out, after) →
      Interleaved A after (made ++ out)
  | later {ids after : Ids} {made : List S} : Interleaved A ids made → ids ≤ after →
      Interleaved A after made

theorem Interleaved.rule (inv : Ids → S → Prop)
    (grows : ∀ {ids after s}, inv ids s → ids ≤ after → inv after s)
    (makes : ∀ {ids operands after u}, (∀ s ∈ operands, inv ids s) →
      A.Makes ids operands after u → inv after u)
    {ids : Ids} {made : List S} (interleaved : A.Interleaved ids made) :
    ∀ s ∈ made, inv ids s := by
  induction interleaved with
  | start ids => exact fun s hs => absurd hs List.not_mem_nil
  | call _ known done ih =>
    intro s hs
    rcases List.mem_append.mp hs with old | new
    · exact grows (ih s old) (Alloc.le_of_run done)
    · exact makes (fun t ht => ih t (known t ht)) (Call.makes done s new)
  | later _ later ih => exact fun s hs => grows (ih s hs) later

theorem Interleaved.produced {ids : Ids} {made : List S} (interleaved : A.Interleaved ids made) :
    ∀ s ∈ made, A.Produced s := by
  refine interleaved.rule (fun _ s => A.Produced s) (fun h _ => h) fun h makes => ?_
  cases makes with
  | initial done member => exact .initial done member
  | succ done member => exact .succ (h _ List.mem_cons_self) done member
  | combine done =>
    exact .combine (h _ List.mem_cons_self) (h _ (List.mem_cons_of_mem _ List.mem_cons_self)) done
  | widen done => exact .widen (h _ List.mem_cons_self) done
  | refine done => exact .refine (h _ List.mem_cons_self) done

end Analysis

namespace Node

variable {W : Type} {config : GraphConfig} {A : Analysis W}

/-- The node comes after its predecessors and after all that was merged into it, itself included.
No predecessor has been merged into it. -/
structure Ordered (n : Node W) : Prop where
  own : n.id ∈ n.mergeOf
  predecessors : ∀ p ∈ n.predecessors, p < n.id
  mergeOf : ∀ x ∈ n.mergeOf, x ≤ n.id
  apart : ∀ p ∈ n.predecessors, p ∉ n.mergeOf

section Ordered

variable {ids after : Ids} {m n united : Node W}

theorem Ordered.placed (ordered : n.Ordered) (drawn : n.id < ids.nodes) : n.Placed ids where
  numbered := ⟨drawn, fun x hx => Nat.lt_of_le_of_lt (ordered.mergeOf x hx) drawn⟩
  predecessors p hp := Nat.lt_trans (ordered.predecessors p hp) drawn

theorem SamePlace.ordered (same : m.SamePlace n) (ordered : n.Ordered) : m.Ordered := by
  obtain ⟨own, predecessors, mergeOf, apart⟩ := ordered
  rw [← same.id] at own predecessors mergeOf
  rw [← same.mergeOf] at own mergeOf apart
  rw [← same.predecessors] at predecessors apart
  exact ⟨own, predecessors, mergeOf, apart⟩

theorem Born.ordered {predecessors : SortedSet NodeId} {nodes : List (Node W)}
    (born : Born ids after predecessors nodes) (old : ∀ p ∈ predecessors, p < ids.nodes)
    (member : n ∈ nodes) : n.Ordered := by
  have earlier : ∀ p ∈ n.predecessors, p < n.id := by
    intro p hp
    rw [born.edges n member] at hp
    exact Nat.lt_of_lt_of_le (old p hp) (born.drawn n member).1
  refine ⟨(born.own n member _).mpr rfl, earlier, fun x hx => ?_, fun p hp inside => ?_⟩
  · exact Nat.le_of_eq ((born.own n member x).mp hx)
  · exact Nat.ne_of_lt (earlier p hp) ((born.own n member p).mp inside)

/-- The new number is larger than all that the two nodes hold. A predecessor of one of them that
was merged into either is left out. -/
theorem combine_ordered {x : Alloc W} (hm : m.Placed ids) (hn : n.Placed ids)
    (done : (x >>= combine A m n).run ids = (.ok united, after)) :
    united.Ordered ∧ united.id < after.nodes := by
  obtain ⟨inner, mid, ran, done⟩ := Alloc.run_bind_ok.mp done
  obtain ⟨rfl, rfl⟩ := run_fresh_ok done
  have hm := hm.grows (Alloc.le_of_run ran)
  have hn := hn.grows (Alloc.le_of_run ran)
  have edge {p : NodeId} (hp : p ∈ (m.predecessors.union n.predecessors).filter
      (fun p => decide (p ∉ m.mergeOf.union n.mergeOf))) :
      p < mid.nodes ∧ p ∉ m.mergeOf.union n.mergeOf := by
    obtain ⟨hp, apart⟩ := SortedSet.mem_filter.mp hp
    refine ⟨?_, of_decide_eq_true apart⟩
    rcases SortedSet.mem_union.mp hp with hp | hp
    · exact hm.predecessors p hp
    · exact hn.predecessors p hp
  refine ⟨⟨(SortedSet.mem_insert ..).mpr (.inl rfl), fun p hp => (edge hp).1, fun x hx => ?_,
    fun p hp inside => ?_⟩, Nat.lt_succ_self _⟩
  · rcases (SortedSet.mem_insert ..).mp hx with rfl | hx
    · exact Nat.le_refl _
    · rcases SortedSet.mem_union.mp hx with hx | hx
      · exact Nat.le_of_lt (hm.numbered.2 x hx)
      · exact Nat.le_of_lt (hn.numbered.2 x hx)
  · rcases (SortedSet.mem_insert ..).mp inside with rfl | inside
    · exact Nat.lt_irrefl _ (edge hp).1
    · exact (edge hp).2 inside

theorem makes_ordered {operands : List (Node W)}
    (old : ∀ m ∈ operands, m.Ordered ∧ m.id < ids.nodes)
    (makes : (analysis config A).Makes ids operands after n) :
    n.Ordered ∧ n.id < after.nodes := by
  cases makes with
  | initial done member =>
    have born := initial_born done
    refine ⟨born.ordered (fun p hp => ?_) member, (born.drawn n member).2⟩
    exact absurd hp (SortedSet.not_mem_empty p)
  | @succ s _ _ _ done member =>
    have born := succ_born done
    refine ⟨born.ordered (fun p hp => ?_) member, (born.drawn n member).2⟩
    rw [SortedSet.mem_singleton.mp hp]
    exact (old s List.mem_cons_self).2
  | @combine s t _ _ done =>
    have placed (m : Node W) (hm : m ∈ [s, t]) : m.Placed ids := (old m hm).1.placed (old m hm).2
    have hs := placed s List.mem_cons_self
    have ht := placed t (List.mem_cons_of_mem s List.mem_cons_self)
    rcases done with done | done
    · exact combine_ordered hs ht done
    · exact combine_ordered hs ht done
  | @widen s _ done =>
    have same := (numbers config A).widen done
    have kept := old s List.mem_cons_self
    exact ⟨same.ordered kept.1, same.id ▸ kept.2⟩
  | @refine s _ done =>
    have same := (numbers config A).refine done
    have kept := old s List.mem_cons_self
    exact ⟨same.ordered kept.1, same.id ▸ kept.2⟩

end Ordered

section Failure

variable {ids after : Ids} {e : Error} {m n : Node W}

theorem fresh_error {x : Alloc (List W)} {predecessors : SortedSet NodeId}
    (old : ∀ p ∈ predecessors, p < ids.nodes)
    (failed : (x >>= List.mapM (fresh A predecessors ∅)).run ids = (.error e, after)) :
    x.run ids = (.error e, after) := by
  refine Alloc.error_of_bind failed fun states mid ran => ?_
  have later := Alloc.le_of_run ran
  exact mapM_fresh_succeeds (fun p hp => Nat.lt_of_lt_of_le (old p hp) later.2) states

theorem combine_error {x : Alloc W} (hm : m.Placed ids) (hn : n.Placed ids)
    (failed : (x >>= combine A m n).run ids = (.error e, after)) :
    x.run ids = (.error e, after) := by
  refine Alloc.error_of_bind failed fun inner mid ran => ?_
  have later := Alloc.le_of_run ran
  obtain ⟨united, last, made, -⟩ := run_combine (A := A) inner (hm.grows later).predecessors
    (hn.grows later).predecessors
  exact ⟨united, last, made⟩

theorem widen_error (failed : (analysis config A).widen n = .error e) :
    A.widen n.inner = .error e := by
  cases widening : config.widening with
  | passThrough =>
    simp only [analysis, widening] at failed
    cases failed
  | delegate =>
    simp only [analysis, widening] at failed
    exact except_map_error failed

theorem call_error {c : Analysis.Call (Node W)} (placed : ∀ n ∈ c.operands, n.Placed ids)
    (failed : (c.answer (analysis config A)).run ids = (.error e, after)) :
    ((c.map Node.inner).answer A).run ids = (.error e, after) := by
  cases c with
  | initial program =>
    exact fresh_error (fun p hp => absurd hp (SortedSet.not_mem_empty p)) failed
  | succ n =>
    refine fresh_error (fun p hp => ?_) failed
    rw [SortedSet.mem_singleton.mp hp]
    exact (placed n List.mem_cons_self).numbered.1
  | join m n | merge m n =>
    have united := Alloc.error_of_bind failed fun u mid _ => ⟨[u], mid, rfl⟩
    have hm := placed m List.mem_cons_self
    have hn := placed n (List.mem_cons_of_mem m List.mem_cons_self)
    exact Alloc.run_bind_error (combine_error hm hn united)
  | widen n =>
    have widened := Alloc.error_of_bind failed fun u mid _ => ⟨[u], mid, rfl⟩
    obtain ⟨refused, rfl⟩ := Alloc.run_liftM_error.mp widened
    exact Alloc.run_bind_error (Alloc.run_liftM_error.mpr ⟨widen_error refused, rfl⟩)
  | refine n =>
    have refined := Alloc.error_of_bind failed fun u mid _ => ⟨u.toList, mid, rfl⟩
    obtain ⟨refused, rfl⟩ := Alloc.run_liftM_error.mp refined
    exact Alloc.run_bind_error (Alloc.run_liftM_error.mpr ⟨except_map_error refused, rfl⟩)

end Failure

/-- Whatever calls have been made before, every node has its place behind its predecessors and its
parts, and holds the keys of its inner state. So no call is refused a node: it fails only if the
analysis below fails in the same way. -/
theorem interleaved_calls_keep_order {ids : Ids} {made : List (Node W)}
    (interleaved : (analysis config A).Interleaved ids made) :
    (∀ n ∈ made, n.Ordered ∧ n.Placed ids ∧ n.keys = A.keys n.inner) ∧
      ∀ c : Analysis.Call (Node W), (∀ n ∈ c.operands, n ∈ made) → ∀ e after,
        (c.answer (analysis config A)).run ids = (.error e, after) →
          ((c.map Node.inner).answer A).run ids = (.error e, after) := by
  have ordered : ∀ n ∈ made, n.Ordered ∧ n.id < ids.nodes :=
    interleaved.rule (fun ids n => n.Ordered ∧ n.id < ids.nodes)
      (fun h later => ⟨h.1, Nat.lt_of_lt_of_le h.2 later.2⟩) makes_ordered
  have placed : ∀ n ∈ made, n.Placed ids := fun n hn => (ordered n hn).1.placed (ordered n hn).2
  constructor
  · intro n hn
    exact ⟨(ordered n hn).1, placed n hn, produced_keys (interleaved.produced n hn)⟩
  · intro c known e after failed
    exact call_error (fun n hn => placed n (known n hn)) failed

end Node

namespace Chain

abbrev strict : Analysis (Node Table.State) := Node.analysis ⟨.never, .delegate⟩ analysis

def united : Node Table.State := ⟨2, ∅, .ofList [0, 1, 2], last, analysis.keys last⟩

theorem joined : strict.Interleaved ⟨0, 3⟩ [root, leaf, united] := by
  have rooted : strict.Interleaved ⟨0, 1⟩ [root] :=
    (Analysis.Interleaved.start .start).call (c := .initial program) (by decide) rfl
  have grown : strict.Interleaved ⟨0, 2⟩ [root, leaf] :=
    rooted.call (c := .succ root) (by decide) rfl
  exact grown.call (c := .join leaf root) (by decide) rfl

/-- The joined node comes after both nodes. The leaf cannot be widened only because the state that it
holds cannot. -/
theorem joined_node_has_no_edge : strict.Interleaved ⟨0, 3⟩ [root, leaf, united] ∧
    united.Ordered ∧ united.Placed ⟨0, 3⟩ ∧ united.keys = analysis.keys united.inner ∧
      ((Analysis.Call.widen last).answer analysis).run ⟨0, 3⟩ =
        (.error (.refused "widen" 1), ⟨0, 3⟩) := by
  obtain ⟨ordered, only⟩ := Node.interleaved_calls_keep_order joined
  obtain ⟨behind, placed, keys⟩ := ordered united (by decide)
  exact ⟨joined, behind, placed, keys, only (.widen leaf) (by decide) _ _ rfl⟩

end Chain
end ActorAnalysis
