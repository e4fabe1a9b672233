import ActorAnalysis.Proofs.Run.Tally
import Mathlib.Order.Lattice.Nat

/-! Breadth-first explorations. If the oldest state is expanded first, then states are found in the
order of their distance from the initial ones: what waits spans two distances at most, and whatever
is not found yet lies behind a waiting state. So the violations found first are the nearest ones. -/
namespace ActorAnalysis

variable {S : Type} [DecidableEq S] [Hashable S]

namespace Analysis

def Starts (A : Analysis S) (program : Program) (s : S) : Prop :=
  ∃ ids out after, (A.initial program).run ids = (.ok out, after) ∧ s ∈ out

/-- A state that is `n` steps behind an initial one. -/
inductive Walk (A : Analysis S) (program : Program) : Nat → S → Prop where
  | start {s : S} : A.Starts program s → Walk A program 0 s
  | step {n : Nat} {s t : S} {ids after : Ids} {out : List S} : Walk A program n s →
      (A.succ s).run ids = (.ok out, after) → t ∈ out → Walk A program (n + 1) t

noncomputable def distance (A : Analysis S) (program : Program) (s : S) : Nat :=
  sInf {n | A.Walk program n s}

/-- A violation that can be reached and is no initial state. -/
structure Finds (A : Analysis S) (program : Program) (s : S) : Prop where
  violates : A.violates s = true
  later : ¬A.Starts program s
  reachable : ∃ n, A.Walk program n s

variable {A : Analysis S} {program : Program} {n : Nat} {s t : S}

omit [DecidableEq S] [Hashable S] in
theorem Walk.distance_le (walk : A.Walk program n s) : A.distance program s ≤ n :=
  Nat.sInf_le walk

omit [DecidableEq S] [Hashable S] in
theorem Walk.shortest (walk : A.Walk program n s) : A.Walk program (A.distance program s) s :=
  Nat.sInf_mem (s := {n | A.Walk program n s}) ⟨n, walk⟩

omit [DecidableEq S] [Hashable S] in
theorem Starts.distance_eq (starts : A.Starts program s) : A.distance program s = 0 :=
  Nat.le_zero.mp (Walk.start starts).distance_le

omit [DecidableEq S] [Hashable S] in
theorem Walk.child (walk : A.Walk program n s) (child : t ∈ A.children s) :
    A.Walk program (n + 1) t := by
  unfold children at child
  cases ran : (A.succ s).run .start with | mk r after =>
  rw [ran] at child
  cases r with
  | error e => exact absurd child List.not_mem_nil
  | ok out => exact .step walk ran child

end Analysis

namespace Space

/-- The reached states begin with `start` and come in the order of their distances. -/
structure Ascending (A : Analysis S) (program : Program) (start : List S) (space : Space S) :
    Prop where
  grown : ∃ more, space.reached.toList = start ++ more
  found : ∀ s ∈ space.reached.toList, ∃ n, A.Walk program n s
  ordered : space.reached.toList.Pairwise
    (fun s t => A.distance program s ≤ A.distance program t)

def Quiet (A : Analysis S) (program : Program) (space : Space S) : Prop :=
  ∀ s ∈ space.reached.toList, A.violates s = true → A.Starts program s

/-- A breadth-first exploration. The states in `done` have all their successors among the reached
ones. Those in `waiting` come behind them and are not nearer than `level`, while no reached state is
farther away than the next level. -/
structure Layered (A : Analysis S) (program : Program) (start : List S) (level : Nat)
    (done waiting : List S) (space : Space S) : Prop where
  valid : space.Valid
  filed : space.reached.Filed A.keys
  ascending : space.Ascending A program start
  starts : ∀ s, A.Starts program s → s ∈ space.reached.toList
  listed : space.reached.toList = done ++ waiting
  closed : ∀ s ∈ done, ∀ t ∈ A.children s, t ∈ space.reached.toList
  low : ∀ s ∈ waiting, level ≤ A.distance program s
  high : ∀ s ∈ space.reached.toList, A.distance program s ≤ level + 1

variable {A : Analysis S} {program : Program} {start done waiting pending rest : List S}
  {level n : Nat} {s t : S} {space before popped : Space S}

theorem Ascending.add (ascending : space.Ascending A program start) (valid : space.Valid)
    (new : t ∉ space.reached.toList) (walk : A.Walk program n t)
    (last : ∀ s ∈ space.reached.toList, A.distance program s ≤ A.distance program t) :
    (space.add t (A.keys t)).Ascending A program start := by
  obtain ⟨⟨more, grown⟩, found, ordered⟩ := ascending
  have reached := toList_add_new valid new (A.keys t)
  constructor
  · exact ⟨more ++ [t], by rw [reached, grown, List.append_assoc]⟩
  · rw [reached]
    simpa [or_imp, forall_and] using ⟨found, n, walk⟩
  · rw [reached, List.pairwise_append]
    simpa using ⟨ordered, last⟩

theorem Layered.beyond (layered : space.Layered A program start level done waiting)
    (pure : A.SuccPure) (walk : A.Walk program n t) (unknown : t ∉ space.reached.toList) :
    level < n := by
  induction walk with
  | start starts => exact absurd (layered.starts _ starts) unknown
  | @step n s t ids after out walk ran member ih =>
    by_cases reached : s ∈ space.reached.toList
    · rw [layered.listed, List.mem_append] at reached
      rcases reached with expanded | waits
      · have child : t ∈ A.children s := pure.children_eq ran ▸ member
        exact absurd (layered.closed s expanded t child) unknown
      · have low := layered.low s waits
        have short := walk.distance_le
        omega
    · have earlier := ih reached
      omega

theorem Layered.nearest (layered : space.Layered A program start level done waiting)
    (pure : A.SuccPure) (quiet : space.Quiet A program) (finds : A.Finds program t) :
    level < A.distance program t := by
  obtain ⟨n, walk⟩ := finds.reachable
  have unknown : t ∉ space.reached.toList := fun reached =>
    finds.later (quiet t reached finds.violates)
  exact layered.beyond pure walk.shortest unknown

theorem Layered.distance_new (layered : space.Layered A program start level done waiting)
    (pure : A.SuccPure) (walk : A.Walk program level s) (child : t ∈ A.children s)
    (new : t ∉ space.reached.toList) : A.distance program t = level + 1 := by
  have walk := walk.child child
  have short := walk.distance_le
  have far := layered.beyond pure walk.shortest new
  omega

theorem Layered.add (layered : space.Layered A program start level done waiting)
    (new : t ∉ space.reached.toList) (walk : A.Walk program n t)
    (next : A.distance program t = level + 1) :
    (space.add t (A.keys t)).Layered A program start level done (waiting ++ [t]) := by
  have reached := toList_add_new layered.valid new (A.keys t)
  constructor
  case valid => exact layered.valid.add t (A.keys t)
  case filed => exact layered.filed.insert t
  case ascending =>
    exact layered.ascending.add layered.valid new walk fun s hs => next ▸ layered.high s hs
  case starts =>
    intro s hs
    rw [reached]
    exact List.mem_append_left [t] (layered.starts s hs)
  case listed => rw [reached, layered.listed, List.append_assoc]
  case closed =>
    intro s hs u hu
    rw [reached]
    exact List.mem_append_left [t] (layered.closed s hs u hu)
  case low =>
    intro s hs
    rcases List.mem_append.mp hs with hs | hs
    · exact layered.low s hs
    · rw [List.mem_singleton.mp hs]
      omega
  case high =>
    intro s hs
    rw [reached] at hs
    rcases List.mem_append.mp hs with hs | hs
    · exact layered.high s hs
    · rw [List.mem_singleton.mp hs]
      omega

/-- The oldest waiting state gives the level, since all others that wait are at least as far. -/
theorem Layered.select (layered : before.Layered A program start level done (s :: rest))
    (taken : before.Popped s popped) (ids : Ids) :
    (popped.withIds ids).Layered A program start (A.distance program s) done (s :: rest) := by
  have reached : (popped.withIds ids).reached = before.reached := taken.reached
  have low := layered.low s List.mem_cons_self
  have ordered := layered.ascending.ordered
  rw [layered.listed, List.pairwise_append, List.pairwise_cons] at ordered
  constructor
  case valid => exact taken.valid
  case filed => exact reached ▸ layered.filed
  case ascending =>
    obtain ⟨grown, found, ordered⟩ := layered.ascending
    exact ⟨reached ▸ grown, reached ▸ found, reached ▸ ordered⟩
  case starts => exact reached ▸ layered.starts
  case listed => exact reached ▸ layered.listed
  case closed => exact reached ▸ layered.closed
  case low =>
    intro u hu
    rcases List.mem_cons.mp hu with rfl | hu
    · exact Nat.le_refl _
    · exact ordered.2.1.1 u hu
  case high =>
    intro u hu
    have high := layered.high u (reached ▸ hu)
    omega

theorem Layered.finish (layered : space.Layered A program start level done (s :: rest))
    (expanded : ∀ t ∈ A.children s, t ∈ space.reached.toList) :
    space.Layered A program start level (done ++ [s]) rest where
  valid := layered.valid
  filed := layered.filed
  ascending := layered.ascending
  starts := layered.starts
  listed := by rw [layered.listed, List.append_assoc, List.singleton_append]
  closed r hr := by
    rcases List.mem_append.mp hr with hr | hr
    · exact layered.closed r hr
    · rw [List.mem_singleton.mp hr]
      exact expanded
  low r hr := layered.low r (List.mem_cons_of_mem s hr)
  high := layered.high

/-- Amid the expansion of `s`: its successors in `pending` are still to be treated. -/
structure Unfolding (A : Analysis S) (program : Program) (start done : List S) (s : S)
    (pending : List S) (space : Space S) : Prop where
  layered : space.Layered A program start (A.distance program s) done (s :: space.frontier.queue)
  children : ∀ t ∈ pending, t ∈ A.children s
  treated : ∀ t ∈ A.children s, t ∈ pending ∨ t ∈ space.reached.toList

theorem Unfolding.reached (unfolding : space.Unfolding A program start done s pending) :
    s ∈ space.reached.toList := by
  rw [unfolding.layered.listed]
  exact List.mem_append_right done List.mem_cons_self

theorem Unfolding.walk (unfolding : space.Unfolding A program start done s pending) :
    A.Walk program (A.distance program s) s := by
  obtain ⟨n, walk⟩ := unfolding.layered.ascending.found s unfolding.reached
  exact walk.shortest

theorem Unfolding.settle (unfolding : space.Unfolding A program start done s (t :: rest))
    (known : t ∈ space.reached.toList) : space.Unfolding A program start done s rest where
  layered := unfolding.layered
  children u hu := unfolding.children u (List.mem_cons_of_mem t hu)
  treated u hu := by
    rcases unfolding.treated u hu with later | reached
    · rcases List.mem_cons.mp later with rfl | later
      · exact .inr known
      · exact .inl later
    · exact .inr reached

section Pure

variable (pure : A.SuccPure)
include pure

theorem Unfolding.distance_new (unfolding : space.Unfolding A program start done s (t :: rest))
    (new : t ∉ space.reached.toList) :
    A.distance program t = A.distance program s + 1 :=
  unfolding.layered.distance_new pure unfolding.walk
    (unfolding.children t List.mem_cons_self) new

theorem Unfolding.add (unfolding : space.Unfolding A program start done s (t :: rest))
    (new : t ∉ space.reached.toList) :
    (space.add t (A.keys t)).Unfolding A program start done s rest := by
  have child := unfolding.children t List.mem_cons_self
  have layered := unfolding.layered
  have idle : t ∉ space.frontier.queue := by
    intro waits
    rw [layered.listed] at new
    exact new (List.mem_append_right done (List.mem_cons_of_mem s waits))
  have kept := layered.add new (unfolding.walk.child child) (unfolding.distance_new pure new)
  rw [List.cons_append, ← queue_add_new layered.valid idle (A.keys t)] at kept
  have known : t ∈ (space.add t (A.keys t)).reached.toList :=
    (mem_reached_add layered.valid t t (A.keys t)).mpr (.inl rfl)
  have more : (space.add t (A.keys t)).Unfolding A program start done s (t :: rest) := by
    refine ⟨kept, unfolding.children, fun u hu => (unfolding.treated u hu).imp_right fun old => ?_⟩
    exact (mem_reached_add layered.valid t u (A.keys t)).mpr (.inr old)
  exact more.settle known

end Pure
end Space

/-- What a run that halts at violations has noticed amid the expansion of `s`: the violations found
so far, one step behind `s`. As long as there is none, only initial states are violations. -/
structure Progress.Notices (A : Analysis S) (program : Program) (config : RunConfig) (s : S)
    (p : Progress S) (space : Space S) : Prop where
  quiet : config.stopOnFirstTarget = true → p.targets = [] → space.Quiet A program
  fresh : ∀ t ∈ p.targets, config.stopOnFirstTarget = true ∧ A.Finds program t ∧
    A.distance program t = A.distance program s + 1

namespace Analysis

variable {A : Analysis S} {program : Program} {start : List S} {config : RunConfig}
  {before popped : Space S} {s : S}

structure Between (A : Analysis S) (program : Program) (config : RunConfig) (start : List S)
    (space : Space S) : Prop where
  layered : ∃ level done, space.Layered A program start level done space.frontier.queue
  quiet : config.stopOnFirstTarget = true → space.Quiet A program

def Nearest (A : Analysis S) (program : Program) (targets : List S) : Prop :=
  ∀ t ∈ targets, A.Finds program t ∧
    ∀ u, A.Finds program u → A.distance program t ≤ A.distance program u

section Plain

variable (pure : A.SuccPure) (never : A.policy = .never) (stops : A.StopExact)
  (plain : config.widenSuccessors = false)

include pure never stops plain in
theorem visit_unfolding {done : List S} (p : Progress S) (t : S) (rest : List S)
    (fault : Space S → Prop) :
    Explore.Contract
      (fun space => space.Unfolding A program start done s (t :: rest) ∧
        p.Notices A program config s space)
      (A.visit config p t)
      (fun q space => space.Unfolding A program start done s rest ∧
        q.Notices A program config s space) fault := by
  rintro space ⟨unfolding, notices⟩
  have layered := unfolding.layered
  have known : A.stop t (space.reached.partitionOf (A.keys t)) = true ↔
      t ∈ space.reached.toList := (stops t _).trans (layered.filed.mem_partitionOf t)
  have fresh (stop : A.stop t (space.reached.partitionOf (A.keys t)) = false) :
      t ∉ space.reached.toList := fun reached => by simp [known.mpr reached] at stop
  have visited := A.visit_visited config p t space
  cases ended : (A.visit config p t).on space with | mk r after =>
  rw [ended] at visited
  cases visited with
  | failed widens => simp [plain] at widens
  | covered _ wide stop =>
    obtain rfl := wide.eq_of_plain plain
    exact ⟨unfolding.settle (known.mp stop), notices.quiet, notices.fresh⟩
  | target _ wide stop violates halts =>
    obtain rfl := wide.eq_of_plain plain
    have new := fresh stop
    have later : ¬A.Starts program _ := fun starts => new (layered.starts _ starts)
    have walk := unfolding.walk.child (unfolding.children _ List.mem_cons_self)
    refine ⟨unfolding.add pure new, fun _ none => by simp at none, fun u hu => ?_⟩
    rcases List.mem_append.mp hu with hu | hu
    · exact notices.fresh u hu
    · rw [List.mem_singleton.mp hu]
      exact ⟨halts, ⟨by simp [Analysis.violates, violates], later, _, walk⟩,
        unfolding.distance_new pure new⟩
  | pending _ wide stop _ some =>
    obtain rfl := wide.eq_of_plain plain
    exact ⟨unfolding.add pure (fresh stop), fun _ none => absurd none some, notices.fresh⟩
  | unmerged _ _ _ merging =>
    cases merging with
    | failed standard => simp [never] at standard
  | merging _ wide stop goesOn none merging =>
    obtain rfl := wide.eq_of_plain plain
    have new := fresh stop
    cases merging with
    | alone standard => simp [never] at standard
    | merged standard => simp [never] at standard
    | skipped =>
      refine ⟨unfolding.add pure new, fun halts _ u hu violates => ?_,
        fun u hu => absurd hu List.not_mem_nil⟩
      rcases (Space.mem_reached_add layered.valid _ u _).mp hu with rfl | hu
      · have safe := goesOn.resolve_right (by simp [halts])
        simp [Analysis.violates, safe] at violates
      · exact notices.quiet halts none u hu violates

theorem Selects.oldest {n : Statistics} (selects : A.Selects config n before s popped)
    (order : config.order = .fifo) (valid : before.Valid) :
    ∃ rest, before.frontier.queue = s :: rest ∧ popped.frontier.queue = rest := by
  cases queue : before.frontier.queue with
  | nil => simpa [queue] using selects.taken.waited
  | cons r rest =>
    obtain ⟨popped', first, -, left⟩ := popNext_fifo (A := A) valid queue
    have pops := selects.pops
    rw [order, first] at pops
    cases pops
    exact ⟨rest, rfl, left⟩

include pure never stops plain in
theorem expand_layered (order : config.order = .fifo) {n : Statistics}
    (between : A.Between program config start before)
    (selects : A.Selects config n before s popped) (statistics : Statistics) :
    Explore.Contract (fun space => space = popped) (A.expand config statistics s)
      (fun p space => (p.targets = [] → A.Between program config start space) ∧
        (p.targets ≠ [] → space.Ascending A program start ∧ A.Nearest program p.targets))
      (Space.Ascending A program start) := by
  obtain ⟨⟨level, done, layered⟩, quiet⟩ := between
  obtain ⟨rest, waits, left⟩ := selects.oldest order layered.valid
  rw [waits] at layered
  have calm (halts : config.stopOnFirstTarget = true) : popped.Quiet A program := by
    unfold Space.Quiet
    rw [selects.taken.reached]
    exact quiet halts
  have steps : Explore.Contract (fun space => space = popped) (A.expand config statistics s)
      (fun p space => ∃ _ : List S, space.Unfolding A program start done s [] ∧
        p.Notices A program config s space) (Space.Ascending A program start) := by
    apply expand_contract statistics (fun _ pending p space =>
      space.Unfolding A program start done s pending ∧ p.Notices A program config s space)
    · exact fun _ ids _ => (layered.select selects.taken ids).ascending
    · intro out ids ran
      have children := pure.children_eq ran
      refine ⟨⟨?_, fun t ht => children ▸ ht, fun t ht => .inl (children ▸ ht)⟩, ?_, by simp⟩
      · rw [Space.frontier_withIds, left]
        exact layered.select selects.taken ids
      · exact fun halts _ => calm halts
    · exact fun _ p t rest => visit_unfolding pure never stops plain p t rest _
  refine steps.weaken ?_
  rintro p space ⟨-, unfolding, notices⟩
  have expanded (t : S) (child : t ∈ A.children s) : t ∈ space.reached.toList :=
    (unfolding.treated t child).resolve_left List.not_mem_nil
  constructor
  · exact fun none =>
      ⟨⟨_, _, unfolding.layered.finish expanded⟩, fun halts => notices.quiet halts none⟩
  · refine fun _ => ⟨unfolding.layered.ascending, fun t ht => ?_⟩
    obtain ⟨halts, finds, next⟩ := notices.fresh t ht
    refine ⟨finds, fun u finds' => ?_⟩
    have far := (layered.select selects.taken popped.ids).nearest pure (calm halts) finds'
    omega

theorem Between.ascending {space : Space S} (between : A.Between program config start space) :
    space.Ascending A program start := by
  obtain ⟨⟨_, _, layered⟩, -⟩ := between
  exact layered.ascending

include pure never stops plain in
theorem run_layered (order : config.order = .fifo) (fuel : Nat) :
    Explore.Contract (A.Between program config start) (A.run config fuel)
      (fun outcome space => space.Ascending A program start ∧
        ∀ targets n, outcome = some ⟨.targetsFound targets, n⟩ → A.Nearest program targets)
      (Space.Ascending A program start) := by
  have halts : Explore.Contract (A.Between program config start) (A.run config fuel)
      (Halted config (fun _ _ space => A.Between program config start space)
        (fun targets _ space => space.Ascending A program start ∧ A.Nearest program targets))
      (Space.Ascending A program start) := by
    apply runFrom_rule (fun _ _ space => A.Between program config start space)
    · rintro - - space ⟨⟨_, _, layered⟩, -⟩
      exact layered.valid
    · exact fun _ _ s before popped between selects =>
        expand_layered pure never stops plain order between selects _
  refine halts.weaken fun outcome space halted => ?_
  match outcome with
  | none => exact ⟨halted.choose_spec.ascending, by simp⟩
  | some ⟨.completed, _⟩ => exact ⟨halted.1.choose_spec.ascending, by simp⟩
  | some ⟨.iterationBound, _⟩ => exact ⟨halted.1.choose_spec.ascending, by simp⟩
  | some ⟨.targetsFound targets, _⟩ => exact ⟨halted.2.1, by simp [halted.2.2]⟩

end Plain

theorem between_seeded {ids after : Ids} {out : List S} {space : Space S}
    (initialPure : A.InitialPure program)
    (initial : (A.initial program).run ids = (.ok out, after)) (seeded : space.Seeded A out []) :
    A.Between program config space.reached.toList space := by
  obtain ⟨valid, filed, waiting, members⟩ := seeded
  have starts (s : S) : A.Starts program s ↔ s ∈ space.reached.toList := by
    simp only [List.not_mem_nil, or_false] at members
    rw [members s]
    constructor
    · rintro ⟨now, out', later, ran, member⟩
      have same := initialPure now ids
      rw [ran, initial] at same
      cases same
      exact member
    · exact fun member => ⟨ids, out, after, initial, member⟩
  have near (s : S) (hs : s ∈ space.reached.toList) : A.distance program s = 0 :=
    ((starts s).mpr hs).distance_eq
  refine ⟨⟨0, [], ?_⟩, fun _ s hs _ => (starts s).mpr hs⟩
  constructor
  case valid => exact valid
  case filed => exact filed
  case ascending =>
    refine ⟨⟨[], (List.append_nil _).symm⟩, fun s hs => ⟨0, .start ((starts s).mpr hs)⟩, ?_⟩
    exact List.pairwise_of_forall_mem_list fun s hs t ht => by rw [near s hs, near t ht]
  case starts => exact fun s => (starts s).mp
  case listed => exact waiting.symm
  case closed => exact fun s hs => absurd hs List.not_mem_nil
  case low => exact fun _ _ => Nat.zero_le _
  case high => exact fun s hs => by simp [near s hs]

/-- If the oldest state is expanded first, then states are reached in the order of their distance
from the initial ones, however the run ends. And if it halts at violations, then no violation behind
the initial states is nearer than those it tells. -/
theorem breadth_first_runs_find_nearest_violations (pure : A.SuccPure)
    (initialPure : A.InitialPure program) (never : A.policy = .never)
    (stops : ∀ s l, A.stop s l = true ↔ s ∈ l) {ids : Ids} {count : Nat} {seeded : Space S}
    (seeds : (A.seed program).on ⟨ids, ∅, ∅⟩ = (.ok count, seeded)) (order : config.order = .fifo)
    (plain : config.widenSuccessors = false) (fuel : Nat) :
    ((A.run config fuel).on seeded).2.Ascending A program seeded.reached.toList ∧
    ∀ targets n after,
      (A.run config fuel).on seeded = (.ok (some ⟨.targetsFound targets, n⟩), after) →
      ∀ t ∈ targets, A.Finds program t ∧
        ∀ u, A.Finds program u → A.distance program t ≤ A.distance program u := by
  obtain ⟨out, ⟨later, initial⟩, ready⟩ := (A.seed_seeded program ids).ok rfl seeds
  have ends := run_layered pure never stops plain order fuel seeded
    (between_seeded initialPure initial ready)
  cases ran : (A.run config fuel).on seeded with | mk result after =>
  rw [ran] at ends
  cases result with
  | error e => exact ⟨ends, by simp⟩
  | ok outcome =>
    obtain ⟨ascending, nearest⟩ := ends
    refine ⟨ascending, fun targets n last same => ?_⟩
    cases same
    exact nearest targets n rfl

end Analysis

/-- The run halts one step behind the initial state. -/
theorem Chain.nearest_violation : ∃ count n after,
    (analysis.seed program).on ⟨.start, ∅, ∅⟩ = (.ok count, seeded) ∧
    (analysis.run ⟨.fifo, none, true, false⟩ 1).on seeded =
      (.ok (some ⟨.targetsFound [last], n⟩), after) ∧
    after.Ascending analysis program seeded.reached.toList ∧
    analysis.Finds program last ∧ analysis.distance program last = 1 := by
  obtain ⟨count, seeds⟩ := seed_on
  obtain ⟨n, after, ends, -⟩ := Analysis.runFrom_target ⟨.fifo, none, true, false⟩ 0 {}
    valid_seeded queue_seeded rfl rfl rfl rfl succ_first new_last (by decide)
  have order := Analysis.breadth_first_runs_find_nearest_violations table.succPure
    (fun _ _ => rfl) rfl (Table.stopExact rfl) seeds
    (show (⟨.fifo, none, true, false⟩ : RunConfig).order = .fifo from rfl) rfl 1
  change (analysis.run ⟨.fifo, none, true, false⟩ 1).on seeded = _ at ends
  rw [ends] at order
  obtain ⟨ascending, nearest⟩ := order
  obtain ⟨finds, -⟩ := nearest [last] n after rfl last List.mem_cons_self
  have start : analysis.Starts program first := ⟨.start, [first], .start, rfl, List.mem_cons_self⟩
  have walk : analysis.Walk program 1 last :=
    .step (.start start) succ_first List.mem_cons_self
  have later : analysis.distance program last ≠ 0 := by
    intro none
    have begins := none ▸ walk.shortest
    cases begins with
    | start starts => exact finds.later starts
  have short := walk.distance_le
  exact ⟨count, n, after, seeds, ends, ascending, finds, by omega⟩

end ActorAnalysis
