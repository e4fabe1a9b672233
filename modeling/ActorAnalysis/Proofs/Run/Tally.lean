import ActorAnalysis.Proofs.Run.Closure
import ActorAnalysis.Proofs.Run.Invariant
import Mathlib.Data.List.Perm.Subperm

/-! What a complete exploration counts. If states are neither merged nor widened, and only those
already reached are dropped, then each reachable state is expanded once, in whatever order. So the
counters depend on the set of reachable states alone. -/
namespace ActorAnalysis

variable {S : Type} [DecidableEq S] [Hashable S]

namespace Analysis

def InitialPure (A : Analysis S) (program : Program) : Prop :=
  ∀ ids ids', ((A.initial program).run ids).1 = ((A.initial program).run ids').1

def StopExact (A : Analysis S) : Prop := ∀ s l, A.stop s l = true ↔ s ∈ l

/-- An exploration from empty sets completes, without bound and without a stop at violations. -/
def Exhausts (A : Analysis S) (program : Program) (order : FrontierOrder) (ids : Ids)
    (n : Statistics) (reached : Reached S) : Prop :=
  ∃ count seeded fuel after, (A.seed program).on ⟨ids, ∅, ∅⟩ = (.ok count, seeded) ∧
    (A.run ⟨order, none, false, false⟩ fuel).on seeded = (.ok (some ⟨.completed, n⟩), after) ∧
    after.reached = reached

def children (A : Analysis S) (s : S) : List S :=
  match ((A.succ s).run .start).1 with
  | .ok out => out
  | .error _ => []

def violates (A : Analysis S) (s : S) : Bool := !(A.target s).isEmpty

/-- The counters of an exploration from `start`, behind the expansion of all states in `reached`. -/
def total (A : Analysis S) (start reached : List S) : Statistics where
  iterations := reached.length
  successors := (reached.flatMap A.children).length
  stopped := (reached.flatMap A.children).length - (reached.length - start.length)
  added := reached.length - start.length
  merged := 0
  targets := reached.countP A.violates - start.countP A.violates

omit [DecidableEq S] [Hashable S] in
theorem SuccPure.children_eq {A : Analysis S} (pure : A.SuccPure) {s : S} {ids after : Ids}
    {out : List S} (ran : (A.succ s).run ids = (.ok out, after)) : A.children s = out := by
  obtain ⟨last, given⟩ := pure.run_ok ran .start
  unfold children
  rw [given]

omit [DecidableEq S] [Hashable S] in
theorem total_perm (A : Analysis S) {start start' reached reached' : List S}
    (starts : start.Perm start') (same : reached.Perm reached') :
    A.total start reached = A.total start' reached' := by
  simp only [total, starts.length_eq, same.length_eq, starts.countP_eq, same.countP_eq,
    (same.flatMap_right A.children).length_eq]

end Analysis

/-- The sets and counters of an exploration behind `steps` expansions. It began with the states in
`start`, and the successors in `pending` are still to be treated. -/
structure Space.Tally (A : Analysis S) (program : Program) (start : List S) (steps : Nat)
    (pending : List S) (n : Statistics) (space : Space S) : Prop where
  valid : space.Valid
  filed : space.reached.Filed A.keys
  waiting : ∀ s ∈ space.frontier.queue, s ∈ space.reached.toList
  kept : ∀ s ∈ start, s ∈ space.reached.toList
  found : ∀ s, s ∈ space.reached.toList ∨ s ∈ pending → ∃ ids, A.Reachable program ids s
  iterations : n.iterations = steps
  expanded : steps + space.frontier.queue.length = space.reached.toList.length
  successors : n.successors + pending.length + (space.frontier.queue.flatMap A.children).length =
    (space.reached.toList.flatMap A.children).length
  treated : n.stopped + n.added = n.successors
  added : start.length + n.added = space.reached.toList.length
  targets : start.countP A.violates + n.targets = space.reached.toList.countP A.violates
  merged : n.merged = 0

namespace Space.Tally

variable {A : Analysis S} {program : Program} {start rest : List S} {steps : Nat} {t : S}
  {n : Statistics} {space : Space S}

theorem drop (tally : space.Tally A program start steps (t :: rest) n) :
    space.Tally A program start steps rest (Analysis.dropCount n) where
  valid := tally.valid
  filed := tally.filed
  waiting := tally.waiting
  kept := tally.kept
  found s hs := tally.found s (hs.imp_right (List.mem_cons_of_mem t))
  iterations := tally.iterations
  expanded := tally.expanded
  successors := by
    have balance := tally.successors
    simp only [List.length_cons] at balance
    simp only [Analysis.dropCount]
    omega
  treated := by
    have treated := tally.treated
    simp only [Analysis.dropCount]
    omega
  added := tally.added
  targets := tally.targets
  merged := tally.merged

theorem add (tally : space.Tally A program start steps (t :: rest) n)
    (new : t ∉ space.reached.toList) :
    (space.add t (A.keys t)).Tally A program start steps rest (A.addCount n t) := by
  have idle : t ∉ space.frontier.queue := fun waits => new (tally.waiting t waits)
  have queue := queue_add_new tally.valid idle (A.keys t)
  have reached := toList_add_new tally.valid new (A.keys t)
  constructor
  case valid => exact tally.valid.add t (A.keys t)
  case filed => exact tally.filed.insert t
  case waiting =>
    intro s hs
    rw [queue, List.mem_append] at hs
    rw [reached, List.mem_append]
    exact hs.imp_left (tally.waiting s)
  case kept =>
    intro s hs
    rw [reached]
    exact List.mem_append_left [t] (tally.kept s hs)
  case found =>
    intro s hs
    rw [reached, List.mem_append, List.mem_singleton] at hs
    rcases hs with (hs | rfl) | hs
    · exact tally.found s (.inl hs)
    · exact tally.found s (.inr List.mem_cons_self)
    · exact tally.found s (.inr (List.mem_cons_of_mem t hs))
  case iterations => exact tally.iterations
  case expanded =>
    have expanded := tally.expanded
    simp only [queue, reached, List.length_append]
    omega
  case successors =>
    have balance := tally.successors
    simp only [List.length_cons] at balance
    simp only [queue, reached, List.flatMap_append, List.length_append, Analysis.addCount]
    omega
  case treated =>
    have treated := tally.treated
    simp only [Analysis.addCount]
    omega
  case added =>
    have added := tally.added
    simp only [reached, List.length_append, List.length_singleton, Analysis.addCount]
    omega
  case targets =>
    have targets := tally.targets
    simp only [reached, List.countP_append, List.countP_singleton, Analysis.addCount,
      Analysis.violates]
    by_cases safe : (A.target t).isEmpty = true
    · simpa [safe] using targets
    · simp [safe, ← targets, Nat.add_assoc]
  case merged => exact tally.merged

theorem expand {before popped : Space S} {s : S} {out : List S} {ids : Ids} (pure : A.SuccPure)
    (tally : before.Tally A program start steps [] n) (taken : before.Popped s popped)
    (ran : (A.succ s).run popped.ids = (.ok out, ids)) :
    (popped.withIds ids).Tally A program start (steps + 1) out
      { n with iterations := n.iterations + 1 } := by
  have perm := taken.queue_perm tally.valid
  have length := perm.length_eq
  have sum := (perm.flatMap_right A.children).length_eq
  simp only [List.length_cons, List.flatMap_cons, List.length_append, pure.children_eq ran]
    at length sum
  have balance := tally.successors
  have expanded := tally.expanded
  constructor
  case valid => exact taken.valid
  case filed => exact taken.reached ▸ tally.filed
  case waiting =>
    intro r hr
    rw [Space.reached_withIds, taken.reached]
    exact tally.waiting r ((taken.frontier r).mp hr).1
  case kept => exact taken.reached ▸ tally.kept
  case found =>
    rintro r (hr | hr)
    · rw [Space.reached_withIds, taken.reached] at hr
      exact tally.found r (.inl hr)
    · obtain ⟨first, reachable⟩ := tally.found s (.inl (tally.waiting s taken.waited))
      obtain ⟨last, given⟩ := pure.run_ok ran first
      exact ⟨last, .succ reachable given hr⟩
  case iterations => exact congrArg (· + 1) tally.iterations
  case expanded =>
    simp only [Space.reached_withIds, Space.frontier_withIds, taken.reached]
    omega
  case successors =>
    simp only [Space.reached_withIds, Space.frontier_withIds, taken.reached]
    simp only [List.length_nil] at balance
    omega
  case treated => exact tally.treated
  case added => exact taken.reached ▸ tally.added
  case targets => exact taken.reached ▸ tally.targets
  case merged => exact tally.merged

theorem statistics_eq (tally : space.Tally A program start steps [] n)
    (exhausted : space.frontier.queue = []) : n = A.total start space.reached.toList := by
  obtain ⟨-, -, -, -, -, iterations, expanded, successors, treated, added, targets, merged⟩ := tally
  simp only [exhausted, List.flatMap_nil, List.length_nil] at expanded successors
  cases n
  simp only [Analysis.total, Statistics.mk.injEq] at *
  omega

end Space.Tally

namespace Analysis

variable {A : Analysis S} {program : Program} {start : List S} {order : FrontierOrder} {ids : Ids}
  {n : Statistics} {reached : Reached S}

def Fails (A : Analysis S) (program : Program) : Prop :=
  ∃ ids s now e after, A.Reachable program ids s ∧ (A.succ s).run now = (.error e, after)

section Plain

variable (pure : A.SuccPure) (never : A.policy = .never) (stops : A.StopExact)

include never stops in
theorem visit_tally (order : FrontierOrder) {steps : Nat} (p : Progress S) (t : S)
    (rest : List S) (fault : Space S → Prop) :
    Explore.Contract (fun space => p.targets = [] ∧
        space.Tally A program start steps (t :: rest) p.statistics)
      (A.visit ⟨order, none, false, false⟩ p t) (fun q space => q.targets = [] ∧
        space.Tally A program start steps rest q.statistics) fault := by
  rintro space ⟨none, tally⟩
  have known : A.stop t (space.reached.partitionOf (A.keys t)) = true ↔
      t ∈ space.reached.toList := (stops t _).trans (tally.filed.mem_partitionOf t)
  have visited := A.visit_visited ⟨order, .none, false, false⟩ p t space
  cases done : (A.visit ⟨order, .none, false, false⟩ p t).on space with | mk r after =>
  rw [done] at visited
  cases visited with
  | failed widens => exact nomatch widens
  | target _ _ _ _ halts => exact nomatch halts
  | pending _ _ _ _ some => exact absurd none some
  | covered _ _ _ counts => exact ⟨none, counts ▸ tally.drop⟩
  | unmerged _ _ _ merging =>
    cases merging with
    | failed standard => simp [never] at standard
  | merging _ same stop _ _ merging counts =>
    obtain rfl : t = _ := Eq.symm same
    have new : t ∉ space.reached.toList := fun reached => by simp [known.mpr reached] at stop
    cases merging with
    | skipped => exact ⟨rfl, counts ▸ tally.add new⟩
    | alone standard => simp [never] at standard
    | merged standard => simp [never] at standard

include pure never stops in
theorem expand_tally (order : FrontierOrder) {steps : Nat} {s : S} {before popped : Space S}
    (tally : before.Tally A program start steps [] n) (taken : before.Popped s popped) :
    Explore.Contract (fun space => space = popped)
      (A.expand ⟨order, none, false, false⟩ { n with iterations := n.iterations + 1 } s)
      (fun p space => p.targets = [] ∧
        space.Tally A program start (steps + 1) [] p.statistics) (fun _ => A.Fails program) := by
  have steps : Explore.Contract (fun space => space = popped)
      (A.expand ⟨order, none, false, false⟩ { n with iterations := n.iterations + 1 } s)
      (fun p space => ∃ _ : List S, p.targets = [] ∧
        space.Tally A program start (steps + 1) [] p.statistics) (fun _ => A.Fails program) := by
    refine expand_contract _ (fun _ pending p space => p.targets = [] ∧
      space.Tally A program start (steps + 1) pending p.statistics) (fun e ids failed => ?_)
      (fun out ids ran => ⟨rfl, tally.expand pure taken ran⟩)
      (fun _ p t rest => visit_tally never stops order p t rest _)
    obtain ⟨first, reachable⟩ := tally.found s (.inl (tally.waiting s taken.waited))
    exact ⟨first, s, _, e, ids, reachable, failed⟩
  exact steps.weaken fun _ _ done => done.choose_spec

include pure never stops in
/-- A run of an exploration keeps the tally; the expansions and the fuel left make up all fuel. -/
theorem run_tally (order : FrontierOrder) (fuel : Nat) :
    Explore.Contract (Space.Tally A program start 0 [] {})
      (A.run ⟨order, none, false, false⟩ fuel)
      (Halted ⟨order, none, false, false⟩ (fun left n space => ∃ steps, steps + left = fuel ∧
        space.Tally A program start steps [] n) (fun _ _ _ => False))
      (fun _ => A.Fails program) := by
  have ran : Explore.Contract _ (A.run ⟨order, none, false, false⟩ fuel) _ _ :=
    runFrom_rule (fun left n space => ∃ steps, steps + left = fuel ∧
      space.Tally A program start steps [] n) (fun _ _ _ => False)
      (fun _ _ _ ⟨_, _, tally⟩ => tally.valid) (fun left n s before popped h selects => by
        obtain ⟨steps, all, tally⟩ := h
        refine (expand_tally pure never stops order tally selects.taken).weaken ?_
        rintro p space ⟨quiet, tally⟩
        exact ⟨fun _ => ⟨steps + 1, by omega, tally⟩, fun some => some quiet⟩) fuel {}
  exact fun space tally => ran space ⟨0, Nat.zero_add fuel, tally⟩

end Plain
end Analysis

/-- A space that holds the initial states `out`, all waiting; those in `pending` are still to be
added. -/
structure Space.Seeded (A : Analysis S) (out pending : List S) (space : Space S) : Prop where
  valid : space.Valid
  filed : space.reached.Filed A.keys
  waiting : space.frontier.queue = space.reached.toList
  members : ∀ s, s ∈ space.reached.toList ∨ s ∈ pending ↔ s ∈ out

theorem Space.Seeded.add {A : Analysis S} {out rest : List S} {s : S} {space : Space S}
    (seeded : space.Seeded A out (s :: rest)) :
    (if space.reached.contains s then space else space.add s (A.keys s)).Seeded A out rest := by
  obtain ⟨valid, filed, waiting, members⟩ := seeded
  have known := Reached.contains_iff valid.2 s
  split
  · rename_i contains
    refine ⟨valid, filed, waiting, fun x => (members x).symm.trans ?_ |>.symm⟩
    rw [List.mem_cons]
    constructor
    · rintro (hx | rfl | hx)
      · exact .inl hx
      · exact .inl (known.mp contains)
      · exact .inr hx
    · exact Or.imp_right .inr
  · rename_i new
    have new : s ∉ space.reached.toList := fun reached => new (known.mpr reached)
    have queue := queue_add_new valid (waiting ▸ new) (A.keys s)
    have reached := toList_add_new valid new (A.keys s)
    refine ⟨valid.add s _, filed.insert s, by rw [queue, reached, waiting], fun x => ?_⟩
    rw [reached, List.mem_append, List.mem_singleton, or_assoc, ← List.mem_cons]
    exact members x

theorem Space.Seeded.tally {A : Analysis S} {program : Program} {ids after : Ids} {out : List S}
    {space : Space S} (seeded : space.Seeded A out [])
    (initial : (A.initial program).run ids = (.ok out, after)) :
    space.Tally A program space.reached.toList 0 [] {} := by
  obtain ⟨valid, filed, waiting, members⟩ := seeded
  refine ⟨valid, filed, fun s hs => waiting ▸ hs, fun _ hs => hs, fun s hs => ?_, rfl, ?_, ?_, rfl,
    rfl, rfl, rfl⟩
  · exact ⟨after, .initial initial ((members s).mp hs)⟩
  · rw [waiting, Nat.zero_add]
  · rw [waiting, List.length_nil]
    exact Nat.zero_add _

namespace Analysis

variable {A : Analysis S} {program : Program} {start : List S} {order : FrontierOrder} {ids : Ids}
  {n : Statistics} {reached : Reached S}

theorem seed_seeded (A : Analysis S) (program : Program) (ids : Ids) :
    Explore.Contract (fun space => space = ⟨ids, ∅, ∅⟩) (A.seed program)
      (fun _ space => ∃ out, (∃ after, (A.initial program).run ids = (.ok out, after)) ∧
        space.Seeded A out [])
      (fun _ => ∃ e after, (A.initial program).run ids = (.error e, after)) := by
  refine seed_contract (fun out pending space =>
    (∃ after, (A.initial program).run ids = (.ok out, after)) ∧ space.Seeded A out pending)
    (fun e after failed => ⟨e, after, failed⟩) (fun out after done => ⟨⟨after, done⟩, ?_⟩)
    (fun out s rest before h => ⟨h.1, h.2.add⟩)
  exact ⟨Space.valid_empty after, Reached.filed_empty A.keys, rfl, fun s => by simp⟩

structure Surveyed (A : Analysis S) (program : Program) (start : List S) (n : Statistics)
    (reached : Reached S) : Prop where
  starts : ∀ ids, ∃ out after, (A.initial program).run ids = (.ok out, after) ∧
    ∀ s, s ∈ start ↔ s ∈ out
  distinct : start.Nodup ∧ reached.toList.Nodup
  members : ∀ s, s ∈ reached.toList ↔ ∃ ids, A.Reachable program ids s
  expands : ∀ s ∈ reached.toList, ∀ ids, ∃ out after, (A.succ s).run ids = (.ok out, after)
  counts : n = A.total start reached.toList

theorem Surveyed.sound (surveyed : A.Surveyed program start n reached) : ¬A.Fails program := by
  rintro ⟨ids, s, now, e, after, reachable, failed⟩
  obtain ⟨out, later, ran⟩ := surveyed.expands s ((surveyed.members s).mpr ⟨ids, reachable⟩) now
  exact nomatch failed.symm.trans ran

omit [DecidableEq S] [Hashable S] in
theorem StopExact.monotone (stops : A.StopExact) : A.StopMonotone := fun s l l' fewer stop =>
  (stops s l').mpr (fewer.subset ((stops s l).mp stop))

section Plain

variable (pure : A.SuccPure) (never : A.policy = .never) (stops : A.StopExact)
include pure never stops

theorem Exhausts.surveyed (initialPure : A.InitialPure program)
    (done : A.Exhausts program order ids n reached) :
    ∃ start, A.Surveyed program start n reached := by
  obtain ⟨count, seeded, fuel, after, seeds, runs, rfl⟩ := done
  obtain ⟨out, ⟨last, initial⟩, ready⟩ := (A.seed_seeded program ids).ok rfl seeds
  obtain ⟨⟨left, steps, -, tally⟩, exhausted⟩ :=
    (run_tally pure never stops order fuel).ok (ready.tally initial) runs
  have closed := ((run_closed pure never stops.monotone _ fuel).ok
    ((A.seed_closed program false ids).ok rfl seeds) runs).1
  have starts (now : Ids) : ∃ out after, (A.initial program).run now = (.ok out, after) ∧
      ∀ s, s ∈ seeded.reached.toList ↔ s ∈ out := by
    have same := initialPure now ids
    rw [initial] at same
    exact ⟨out, ((A.initial program).run now).2, Prod.ext same rfl, fun s => by
      simpa using ready.members s⟩
  have expands (s : S) (hs : s ∈ after.reached.toList) (now : Ids) : ∃ out later,
      (A.succ s).run now = (.ok out, later) ∧ ∀ t ∈ out, t ∈ after.reached.toList := by
    obtain ⟨out, later, ran, answered⟩ := closed.expanded s hs (by simp [exhausted]) now
    refine ⟨out, later, ran, fun t ht => ?_⟩
    obtain ⟨t', same, found | covered⟩ := (answered t ht).resolve_left List.not_mem_nil
    · exact Except.ok.inj same ▸ found
    · exact Except.ok.inj same ▸ Reached.mem_of_mem_partitionOf ((stops t' _).mp covered)
  refine ⟨seeded.reached.toList, starts, ?_, fun s => ⟨fun hs => tally.found s (.inl hs), ?_⟩,
    fun s hs now => ?_, tally.statistics_eq exhausted⟩
  · exact ⟨Reached.nodup_toList ready.valid.2, Reached.nodup_toList tally.valid.2⟩
  · -- the initial states are kept, and the successors of what is kept are reached
    rintro ⟨now, reachable⟩
    induction reachable with
    | initial done member =>
      obtain ⟨out', last', again, same⟩ := starts _
      cases again.symm.trans done
      exact tally.kept _ ((same _).mpr member)
    | succ _ done member ih =>
      obtain ⟨out', later, again, inside⟩ := expands _ ih _
      cases again.symm.trans done
      exact inside _ member
    | later _ _ ih => exact ih
  · obtain ⟨out, later, ran, -⟩ := expands s hs now
    exact ⟨out, later, ran⟩

theorem exhausts_of_finite {all : List S}
    (finite : ∀ ids s, A.Reachable program ids s → s ∈ all) (sound : ¬A.Fails program)
    {out : List S} {last : Ids} (initial : (A.initial program).run ids = (.ok out, last))
    (order : FrontierOrder) : ∃ n reached, A.Exhausts program order ids n reached := by
  have seeds := A.seed_seeded program ids _ rfl
  cases ran : (A.seed program).on ⟨ids, ∅, ∅⟩ with | mk result seeded =>
  rw [ran] at seeds
  cases result with
  | error =>
    obtain ⟨e, after, failed⟩ := seeds
    exact nomatch failed.symm.trans initial
  | ok count =>
    obtain ⟨out, ⟨_, initial⟩, ready⟩ := seeds
    have ends := run_tally pure never stops order (all.length + 1) seeded (ready.tally initial)
    cases runs : (A.run ⟨order, none, false, false⟩ (all.length + 1)).on seeded with
      | mk result after =>
    rw [runs] at ends
    match result with
    | .error _ => exact absurd ends sound
    | .ok none =>
      -- no more states are expanded than are reached
      obtain ⟨n, steps, spent, tally⟩ := ends
      have few := ((Reached.nodup_toList tally.valid.2).subperm fun s hs => by
        obtain ⟨now, reachable⟩ := tally.found s (.inl hs)
        exact finite now s reachable).length_le
      have expanded := tally.expanded
      omega
    | .ok (some ⟨.completed, n⟩) =>
      exact ⟨n, after.reached, count, seeded, _, after, ran, runs, rfl⟩
    | .ok (some ⟨.iterationBound, n⟩) => exact nomatch ends.2.2
    | .ok (some ⟨.targetsFound _, n⟩) => exact ends.2.elim

end Plain

/-- The order in which states are expanded does not matter. If an exploration completes, then it
reaches what is reachable, and expands each state once. It completes in any other order as well,
with the same states and the same counters. -/
theorem exploration_is_order_independent (pure : A.SuccPure) (initialPure : A.InitialPure program)
    (never : A.policy = .never) (stops : ∀ s l, A.stop s l = true ↔ s ∈ l)
    (done : A.Exhausts program order ids n reached) :
    (∀ s, s ∈ reached.toList ↔ ∃ ids, A.Reachable program ids s) ∧
    n.iterations = reached.toList.length ∧
    n.successors = (reached.toList.flatMap A.children).length ∧
    ∀ order' ids', (∃ n' reached', A.Exhausts program order' ids' n' reached') ∧
      ∀ n' reached', A.Exhausts program order' ids' n' reached' →
        (∀ s, s ∈ reached'.toList ↔ s ∈ reached.toList) ∧ n' = n := by
  obtain ⟨start, surveyed⟩ := done.surveyed pure never stops initialPure
  refine ⟨surveyed.members, congrArg Statistics.iterations surveyed.counts,
    congrArg Statistics.successors surveyed.counts, fun order' ids' => ⟨?_, ?_⟩⟩
  · obtain ⟨out, last, initial, -⟩ := surveyed.starts ids'
    have finite (now : Ids) (s : S) (reachable : A.Reachable program now s) :
        s ∈ reached.toList := (surveyed.members s).mpr ⟨now, reachable⟩
    exact exhausts_of_finite pure never stops finite surveyed.sound initial order'
  · intro n' reached' done'
    obtain ⟨start', surveyed'⟩ := done'.surveyed pure never stops initialPure
    have same (s : S) : s ∈ reached'.toList ↔ s ∈ reached.toList :=
      (surveyed'.members s).trans (surveyed.members s).symm
    have starts : start'.Perm start := by
      refine (List.perm_ext_iff_of_nodup surveyed'.distinct.1 surveyed.distinct.1).mpr fun s => ?_
      obtain ⟨out, _, ran, listed⟩ := surveyed.starts ids
      obtain ⟨out', _, ran', listed'⟩ := surveyed'.starts ids
      cases ran.symm.trans ran'
      exact (listed' s).trans (listed s).symm
    have states : reached'.toList.Perm reached.toList :=
      (List.perm_ext_iff_of_nodup surveyed'.distinct.2 surveyed.distinct.2).mpr same
    refine ⟨same, ?_⟩
    rw [surveyed'.counts, surveyed.counts]
    exact A.total_perm starts states

end Analysis

theorem Table.succPure (t : Table) : t.analysis.SuccPure := by
  intro s ids ids'
  change (Alloc.next _ (t.guard "succ" s, ids)).1 = (Alloc.next _ (t.guard "succ" s, ids')).1
  cases t.guard "succ" s <;> rfl

theorem Table.stopExact {t : Table} (plain : t.stopGe = false) : t.analysis.StopExact := by
  intro s l
  simp [analysis, plain]

namespace Diamond

/-- The last state is found twice, and a successor is listed twice. Two states share a key. -/
def table : Table where
  initial := [0, 0]
  succ := (((∅ : SortedMap Nat (List Nat)).insert 0 [1, 2, 1]).insert 1 [3]).insert 2 [3, 0]
  targets := (∅ : SortedMap Nat (SortedSet Property)).insert 3 (.singleton Chain.property)
  keys := ((∅ : SortedMap Nat (SortedSet PartitionKey)).insert 1 (.singleton 5)).insert 2
    (.singleton 5)
  order := (∅ : SortedMap Nat (List Nat)).insert 1 [7]
  widened := ∅
  mergeMod := 0
  mergeWithin := none
  mergeOp := .larger
  stopGe := false
  policy := .never
  spurious := none
  errors := ∅

abbrev analysis : Analysis Table.State := table.analysis

def all : List Table.State := [⟨0⟩, ⟨1⟩, ⟨2⟩, ⟨3⟩]

theorem succ_all {s : Table.State} (hs : s ∈ all) (ids : Ids) :
    ∃ out, (analysis.succ s).run ids = (.ok out, ids) ∧ ∀ t ∈ out, t ∈ all := by
  simp only [all, List.mem_cons, List.not_mem_nil, or_false] at hs
  rcases hs with rfl | rfl | rfl | rfl
  · exact ⟨[⟨1⟩, ⟨2⟩, ⟨1⟩], rfl, by decide⟩
  · exact ⟨[⟨3⟩], rfl, by decide⟩
  · exact ⟨[⟨3⟩, ⟨0⟩], rfl, by decide⟩
  · exact ⟨[], rfl, by decide⟩

theorem mem_all {ids : Ids} {s : Table.State}
    (reachable : analysis.Reachable Chain.program ids s) : s ∈ all := by
  induction reachable with
  | initial done member =>
    cases done
    have inside : ∀ s ∈ table.initial.map Table.State.mk, s ∈ all := by decide
    exact inside _ member
  | succ _ done member ih =>
    obtain ⟨out, ran, inside⟩ := succ_all ih _
    cases ran.symm.trans done
    exact inside _ member
  | later _ _ ih => exact ih

theorem sound : ¬analysis.Fails Chain.program := by
  rintro ⟨ids, s, now, e, after, reachable, failed⟩
  obtain ⟨out, ran, -⟩ := succ_all (mem_all reachable) now
  cases ran.symm.trans failed

theorem reaches_last : analysis.Reachable Chain.program .start ⟨3⟩ := by
  have first : analysis.Reachable Chain.program .start ⟨0⟩ :=
    .initial (show (analysis.initial Chain.program).run .start = (.ok [⟨0⟩, ⟨0⟩], .start) from rfl)
      List.mem_cons_self
  have second : analysis.Reachable Chain.program .start ⟨1⟩ :=
    .succ first (show (analysis.succ ⟨0⟩).run .start = (.ok [⟨1⟩, ⟨2⟩, ⟨1⟩], .start) from rfl)
      List.mem_cons_self
  exact .succ second (show (analysis.succ ⟨1⟩).run .start = (.ok [⟨3⟩], .start) from rfl)
    List.mem_cons_self

/-- Breadth first and depth first. -/
theorem orders_agree : ∃ n reached n' reached',
    analysis.Exhausts Chain.program .fifo .start n reached ∧
    analysis.Exhausts Chain.program .lifo .start n' reached' ∧ n' = n ∧
    n.iterations = reached.toList.length ∧ ⟨3⟩ ∈ reached.toList ∧ ⟨3⟩ ∈ reached'.toList := by
  have pure := table.succPure
  have stops : analysis.StopExact := Table.stopExact rfl
  obtain ⟨n, reached, done⟩ := Analysis.exhausts_of_finite pure rfl stops
    (fun _ _ => mem_all) sound
    (show (analysis.initial Chain.program).run .start = (.ok [⟨0⟩, ⟨0⟩], .start) from rfl) .fifo
  obtain ⟨members, iterations, -, others⟩ :=
    Analysis.exploration_is_order_independent pure (fun _ _ => rfl) rfl stops done
  obtain ⟨⟨n', reached', done'⟩, agree⟩ := others .lifo .start
  obtain ⟨same, counts⟩ := agree n' reached' done'
  have last := (members ⟨3⟩).mpr ⟨.start, reaches_last⟩
  exact ⟨n, reached, n', reached', done, done', counts, iterations, last, (same ⟨3⟩).mpr last⟩

end Diamond
end ActorAnalysis
