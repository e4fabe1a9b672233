import ActorAnalysis.Proofs.Run.Tally
import Mathlib.Data.Finset.Card

/-! Runs that come to an end. If nothing is merged and every state covers itself, then a run adds
only new states. The frontier may grow with every expansion; but as long as all states come from a
finite set, fewer are left that wait or are still to be found. -/
namespace ActorAnalysis

variable {S : Type} [DecidableEq S] [Hashable S]

/-- How many states are left to a run: those that wait, and those of `all` that are not reached. A
state may be both. -/
def Space.outstanding (all : Finset S) (space : Space S) : Nat :=
  space.frontier.queue.length + (all \ space.reached.toList.toFinset).card

/-- A space whose waiting states are in `all`, while those in `pending` are successors of such. -/
structure Space.Confined (A : Analysis S) (all : Finset S) (pending : List S) (space : Space S) :
    Prop where
  valid : space.Valid
  filed : space.reached.Filed A.keys
  waiting : ∀ s ∈ space.frontier.queue, s ∈ all
  pending : ∀ t ∈ pending, ∃ s ∈ all, t ∈ A.children s

namespace Space

variable {A : Analysis S} {all : Finset S} {space after : Space S} {s : S}

/-- A new state waits instead of being still to be found. -/
theorem outstanding_add (valid : space.Valid) (inside : s ∈ all)
    (new : s ∉ space.reached.toList) (keys : SortedSet PartitionKey) :
    (space.add s keys).outstanding all ≤ space.outstanding all := by
  have missing : s ∈ all \ space.reached.toList.toFinset := by simp [inside, new]
  have fewer := Finset.card_erase_add_one missing
  have found : all \ (space.add s keys).reached.toList.toFinset =
      (all \ space.reached.toList.toFinset).erase s := by
    ext x
    simp only [toList_add_new valid new keys, Finset.mem_sdiff, Finset.mem_erase,
      List.mem_toFinset, List.mem_append, List.mem_singleton]
    tauto
  have longer : (space.add s keys).frontier.queue.length ≤ space.frontier.queue.length + 1 := by
    by_cases waits : s ∈ space.frontier.queue
    · have queue : (space.add s keys).frontier.queue = _ := Frontier.queue_push valid.1 s
      rw [queue, if_pos waits]
      exact Nat.le_succ _
    · simp [queue_add_new valid waits keys]
  unfold outstanding
  rw [found]
  omega

theorem Popped.outstanding (taken : space.Popped s after) (valid : space.Valid) :
    after.outstanding all + 1 = space.outstanding all := by
  have length := (taken.queue_perm valid).length_eq
  simp only [List.length_cons] at length
  unfold Space.outstanding
  rw [taken.reached, length]
  omega

theorem Confined.tail {t : S} {rest : List S} (confined : space.Confined A all (t :: rest)) :
    space.Confined A all rest :=
  ⟨confined.valid, confined.filed, confined.waiting,
    fun u hu => confined.pending u (List.mem_cons_of_mem t hu)⟩

theorem Confined.add {pending : List S} (confined : space.Confined A all pending)
    (inside : s ∈ all) : (space.add s (A.keys s)).Confined A all pending where
  valid := confined.valid.add s (A.keys s)
  filed := confined.filed.insert s
  waiting x hx := by
    rcases (mem_frontier_add confined.valid s x (A.keys s)).mp hx with rfl | hx
    · exact inside
    · exact confined.waiting x hx
  pending := confined.pending

end Space

namespace Analysis

def ClosedUnder (A : Analysis S) (config : RunConfig) (all : Finset S) : Prop :=
  ∀ s ∈ all, ∀ t ∈ A.children s, ∀ u, A.Widens config t u → u ∈ all

/-- The successors of a state in `all` cannot be computed, or one of them cannot be widened. -/
def Falters (A : Analysis S) (config : RunConfig) (all : Finset S) : Prop :=
  ∃ s ∈ all, (∃ e ids after, (A.succ s).run ids = (.error e, after)) ∨
    config.widenSuccessors = true ∧ ∃ t ∈ A.children s, ∃ e, A.widen t = .error e

section Plain

variable {A : Analysis S} {config : RunConfig} {all : Finset S} (never : A.policy = .never)
  (covers : ∀ s l, s ∈ l → A.stop s l = true) (closed : A.ClosedUnder config all)
include never covers closed

theorem visit_confined (p : Progress S) (t : S) (rest : List S) {n left : Nat} :
    Explore.Contract
      (fun space => space.Confined A all (t :: rest) ∧ space.outstanding all ≤ left ∧
        p.statistics.iterations = n)
      (A.visit config p t)
      (fun q space => space.Confined A all rest ∧ space.outstanding all ≤ left ∧
        q.statistics.iterations = n) (fun _ => A.Falters config all) := by
  rintro space ⟨confined, few, counted⟩
  obtain ⟨s, hs, child⟩ := confined.pending t List.mem_cons_self
  have added {s : S} (wide : A.Widens config t s)
      (uncovered : A.stop s (space.reached.partitionOf (A.keys s)) = false) :
      (space.add s (A.keys s)).Confined A all rest ∧
        (space.add s (A.keys s)).outstanding all ≤ left := by
    have inside := closed _ hs t child s wide
    -- a reached state would be found under its keys, and cover itself
    have new : s ∉ space.reached.toList := fun reached => by
      have stops := covers s _ ((confined.filed.mem_partitionOf s).mpr reached)
      simp [stops] at uncovered
    exact ⟨confined.tail.add inside,
      Nat.le_trans (Space.outstanding_add confined.valid inside new _) few⟩
  have visited := A.visit_visited config p t space
  cases done : (A.visit config p t).on space with | mk r after =>
  rw [done] at visited
  cases visited with
  | @failed e widens refused => exact ⟨s, hs, .inr ⟨widens, t, child, e, refused⟩⟩
  | covered _ _ _ counts => exact ⟨confined.tail, few, by simpa [counts, dropCount] using counted⟩
  | target _ wide stop _ _ counts =>
    obtain ⟨kept, few⟩ := added wide stop
    exact ⟨kept, few, by simpa [counts, addCount] using counted⟩
  | pending _ wide stop _ _ counts =>
    obtain ⟨kept, few⟩ := added wide stop
    exact ⟨kept, few, by simpa [counts, addCount] using counted⟩
  | unmerged _ _ _ merging =>
    cases merging with
    | failed standard => simp [never] at standard
  | merging _ wide stop _ _ merging counts =>
    cases merging with
    | skipped =>
      obtain ⟨kept, few⟩ := added wide stop
      exact ⟨kept, few, by simpa [counts, addCount] using counted⟩
    | alone standard => simp [never] at standard
    | merged standard => simp [never] at standard

theorem expand_confined (pure : A.SuccPure) {n : Statistics} {s : S} {before popped : Space S}
    (confined : before.Confined A all []) (taken : before.Popped s popped) :
    Explore.Contract (fun space => space = popped)
      (A.expand config { n with iterations := n.iterations + 1 } s)
      (fun p space => space.Confined A all [] ∧
        space.outstanding all + 1 ≤ before.outstanding all ∧
        p.statistics.iterations = n.iterations + 1) (fun _ => A.Falters config all) := by
  have inside := confined.waiting s taken.waited
  have one : popped.outstanding all + 1 = before.outstanding all := taken.outstanding confined.valid
  have steps : Explore.Contract (fun space => space = popped)
      (A.expand config { n with iterations := n.iterations + 1 } s)
      (fun p space => ∃ _ : List S, space.Confined A all [] ∧
        space.outstanding all ≤ popped.outstanding all ∧
        p.statistics.iterations = n.iterations + 1) (fun _ => A.Falters config all) := by
    apply expand_contract _ (fun _ pending p space => space.Confined A all pending ∧
      space.outstanding all ≤ popped.outstanding all ∧ p.statistics.iterations = n.iterations + 1)
    · exact fun e ids failed => ⟨s, inside, .inl ⟨e, _, ids, failed⟩⟩
    · intro out ids ran
      refine ⟨⟨taken.valid, taken.reached ▸ confined.filed, fun x hx => ?_, fun t ht => ?_⟩,
        Nat.le_refl _, rfl⟩
      · exact confined.waiting x ((taken.frontier x).mp hx).1
      · exact ⟨s, inside, pure.children_eq ran ▸ ht⟩
    · exact fun _ p t rest => visit_confined never covers closed p t rest
  refine steps.weaken ?_
  rintro p space ⟨-, kept, few, counted⟩
  exact ⟨kept, by omega, counted⟩

end Plain

/-- A run ends behind at most `limit` expansions, whatever the fuel beyond: it completes or finds
violations, unless the analysis fails in one of them. -/
def EndsWithin (A : Analysis S) (config : RunConfig) (all : Finset S) (limit : Nat)
    (n : Statistics) (space : Space S) : Prop :=
  (A.Falters config all ∧ ∃ e after, ∀ fuel, limit ≤ fuel →
      (A.runFrom config fuel n).on space = (.error e, after)) ∨
  ∃ status counts after, (∀ fuel, limit < fuel →
      (A.runFrom config fuel n).on space = (.ok (some ⟨status, counts⟩), after)) ∧
    counts.iterations ≤ n.iterations + limit ∧
    (status = .completed ∧ after.frontier.queue = [] ∨ ∃ targets, status = .targetsFound targets)

section Ends

variable {A : Analysis S} {config : RunConfig} {all : Finset S} {limit : Nat} {n : Statistics}
  {space : Space S}

theorem EndsWithin.of_empty (valid : space.Valid) (empty : space.frontier.queue = []) :
    A.EndsWithin config all limit n space := by
  refine .inr ⟨.completed, n, space, fun fuel enough => ?_, Nat.le_add_right _ _, .inl ⟨rfl, empty⟩⟩
  obtain ⟨fuel, rfl⟩ := Nat.exists_eq_add_one.mpr (Nat.zero_lt_of_lt enough)
  exact runFrom_empty valid empty

theorem EndsWithin.of_next {m : Statistics} {after : Space S}
    (counted : m.iterations = n.iterations + 1)
    (next : ∀ fuel, (A.runFrom config (fuel + 1) n).on space = (A.runFrom config fuel m).on after)
    (ends : A.EndsWithin config all limit m after) :
    A.EndsWithin config all (limit + 1) n space := by
  rcases ends with ⟨falters, e, last, fails⟩ | ⟨status, counts, last, ends, few, how⟩
  · refine .inl ⟨falters, e, last, fun fuel enough => ?_⟩
    obtain ⟨fuel, rfl⟩ := Nat.exists_eq_add_one.mpr (Nat.zero_lt_of_lt enough)
    rw [next]
    exact fails fuel (Nat.le_of_succ_le_succ enough)
  · refine .inr ⟨status, counts, last, fun fuel enough => ?_, by omega, how⟩
    obtain ⟨fuel, rfl⟩ := Nat.exists_eq_add_one.mpr (Nat.zero_lt_of_lt enough)
    rw [next]
    exact ends fuel (Nat.lt_of_succ_lt_succ enough)

theorem endsWithin_of_confined (pure : A.SuccPure) (never : A.policy = .never)
    (covers : ∀ s l, s ∈ l → A.stop s l = true) (unbounded : config.maxIterations = none)
    (closed : A.ClosedUnder config all) (confined : space.Confined A all [])
    (few : space.outstanding all ≤ limit) : A.EndsWithin config all limit n space := by
  induction limit generalizing n space with
  | zero =>
    have none := Nat.le_zero.mp (Nat.le_trans (Nat.le_add_right _ _) few)
    exact .of_empty confined.valid (List.length_eq_zero_iff.mp none)
  | succ limit ih =>
    rcases A.popNext_cases config.order confined.valid with ⟨-, empty⟩ | ⟨s, popped, pops, taken⟩
    · exact .of_empty confined.valid empty
    · have expanded := expand_confined never covers closed pure (n := n) confined taken popped rfl
      cases expands : (A.expand config { n with iterations := n.iterations + 1 } s).on popped with
        | mk result after =>
      rw [expands] at expanded
      cases result with
      | error e =>
        refine .inl ⟨expanded, e, after, fun fuel enough => ?_⟩
        obtain ⟨fuel, rfl⟩ := Nat.exists_eq_add_one.mpr (Nat.zero_lt_of_lt enough)
        exact runFrom_fails n fuel unbounded pops expands
      | ok p =>
        obtain ⟨kept, fewer, counted⟩ := expanded
        have next (fuel : Nat) := runFrom_pop n fuel unbounded pops expands
        by_cases quiet : p.targets.isEmpty = true
        · simp only [if_pos quiet] at next
          exact .of_next counted next (ih kept (by omega))
        · simp only [if_neg quiet] at next
          refine .inr ⟨.targetsFound p.targets, p.statistics, after, fun fuel enough => ?_,
            by omega, .inr ⟨_, rfl⟩⟩
          obtain ⟨fuel, rfl⟩ := Nat.exists_eq_add_one.mpr (Nat.zero_lt_of_lt enough)
          exact next fuel

/-- An exploration of finitely many states ends, in whatever order it proceeds and from whatever
sets it starts: no state is expanded but those that wait at first and those that are found. -/
theorem run_ends_within_outstanding (pure : A.SuccPure) (never : A.policy = .never)
    (covers : ∀ s l, s ∈ l → A.stop s l = true) (unbounded : config.maxIterations = none)
    (valid : space.Valid) (filed : space.reached.Filed A.keys)
    (waiting : ∀ s ∈ space.frontier.queue, s ∈ all) (closed : A.ClosedUnder config all) :
    A.EndsWithin config all
      (space.frontier.queue.length + (all \ space.reached.toList.toFinset).card) {} space := by
  have confined : space.Confined A all [] :=
    ⟨valid, filed, waiting, fun t ht => absurd ht List.not_mem_nil⟩
  exact endsWithin_of_confined pure never covers unbounded closed confined (Nat.le_refl _)

end Ends
end Analysis

namespace Diamond

/-- The first state waits without being reached, so that it is found again and expanded twice. -/
def unreached : Space Table.State := ⟨.start, ((∅ : Frontier Table.State).push ⟨0⟩).2, ∅⟩

theorem queue_unreached : unreached.frontier.queue = [⟨0⟩] :=
  Frontier.queue_push Frontier.valid_empty (⟨0⟩ : Table.State)

theorem valid_unreached : unreached.Valid :=
  ⟨Frontier.valid_push Frontier.valid_empty (⟨0⟩ : Table.State), Reached.valid_empty⟩

theorem closed (order : FrontierOrder) :
    analysis.ClosedUnder ⟨order, none, false, false⟩ all.toFinset := by
  intro s hs t ht u same
  obtain ⟨out, ran, inside⟩ := succ_all (List.mem_toFinset.mp hs) .start
  rw [table.succPure.children_eq ran] at ht
  obtain rfl : u = t := same
  exact List.mem_toFinset.mpr (inside u ht)

theorem five_expansions_suffice : unreached.reached.toList = [] ∧ ∃ status counts after,
    (analysis.run ⟨.lifo, none, false, false⟩ 6).on unreached =
      (.ok (some ⟨status, counts⟩), after) ∧ counts.iterations ≤ 5 := by
  have ends := Analysis.run_ends_within_outstanding table.succPure rfl
    (fun s l member => (Table.stopExact rfl s l).mpr member) rfl valid_unreached
    (Reached.filed_empty analysis.keys) (by rw [queue_unreached]; decide) (closed .lifo)
  have limit : unreached.frontier.queue.length +
      (all.toFinset \ unreached.reached.toList.toFinset).card = 5 := by
    rw [queue_unreached]
    rfl
  rw [limit] at ends
  refine ⟨rfl, ?_⟩
  rcases ends with ⟨⟨s, -, falters⟩, -⟩ | ⟨status, counts, after, ends, few, -⟩
  · rcases falters with ⟨e, ids, last, failed⟩ | ⟨widens, -⟩
    · cases failed
    · cases widens
  · exact ⟨status, counts, after, ends 6 (by decide), few.trans (by decide)⟩

end Diamond
end ActorAnalysis
