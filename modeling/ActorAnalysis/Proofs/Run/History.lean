import ActorAnalysis.Proofs.Run.Coverage
import ActorAnalysis.Proofs.Space.Partition

/-! Explorations together with all successors that they have computed, also those that turned out
to be covered or have been merged since. A relation from computed successors to reached states, kept
by each operation of the analysis, holds at every point of an exploration. -/
namespace ActorAnalysis

namespace Analysis

section Relation

variable {S : Type}

/-- A relation from computed successors to reached states. It holds between new states and old
ones, both ways, and among new ones; merging and widening keep it. -/
structure Relates (A : Analysis S) (inv : Ids → S → Prop) (akin : S → S → Prop) : Prop where
  fresh : ∀ {ids r s out after}, inv ids r → (A.succ s).run ids = (.ok out, after) →
    ∀ t ∈ out, akin t r ∧ akin r t
  together : ∀ {ids s out after}, (A.succ s).run ids = (.ok out, after) →
    ∀ t ∈ out, ∀ u ∈ out, akin t u
  merge : ∀ {ids t s r m after}, inv ids t → akin t s → akin t r →
    (A.merge s r).run ids = (.ok m, after) → akin t m
  widen : ∀ {s t}, A.widen s = .ok t → ∀ x, (akin x s → akin x t) ∧ (akin s x → akin t x)

variable {A : Analysis S} {inv inv' : Ids → S → Prop} {akin akin' : S → S → Prop}

theorem Relates.trivial (A : Analysis S) (inv : Ids → S → Prop) :
    A.Relates inv (fun _ _ => True) where
  fresh _ _ _ _ := ⟨.intro, .intro⟩
  together _ _ _ _ _ := .intro
  merge _ _ _ _ := .intro
  widen _ _ := ⟨fun _ => .intro, fun _ => .intro⟩

theorem Relates.and (first : A.Relates inv akin) (second : A.Relates inv' akin') :
    A.Relates (fun ids s => inv ids s ∧ inv' ids s) (fun s t => akin s t ∧ akin' s t) where
  fresh h done t ht := by
    obtain ⟨one, back⟩ := first.fresh h.1 done t ht
    obtain ⟨two, back'⟩ := second.fresh h.2 done t ht
    exact ⟨⟨one, two⟩, ⟨back, back'⟩⟩
  together done t ht u hu := ⟨first.together done t ht u hu, second.together done t ht u hu⟩
  merge h hs hr done := ⟨first.merge h.1 hs.1 hr.1 done, second.merge h.2 hs.2 hr.2 done⟩
  widen done x := by
    obtain ⟨into, out⟩ := first.widen done x
    obtain ⟨into', out'⟩ := second.widen done x
    exact ⟨fun h => ⟨into h.1, into' h.2⟩, fun h => ⟨out h.1, out' h.2⟩⟩

theorem Relates.separates (relates : A.Relates inv akin) : A.Separates inv akin where
  succ h done t ht := (relates.fresh h done t ht).1
  distinct done := List.pairwise_of_forall_mem_list fun t ht u hu => relates.together done u hu t ht
  merge := relates.merge
  widen := relates.widen

end Relation

variable {S : Type} [DecidableEq S] [Hashable S]

/-- The points of an exploration, with the successors that it has computed up to there. Any state
of the frontier is expanded next; of its successors, the first `k` are treated. -/
inductive History (A : Analysis S) (program : Program) : Space S → List S → Prop where
  | seeded (ids : Ids) : History A program ((A.seed program).on ⟨ids, ∅, ∅⟩).2 []
  | failed {space popped : Space S} {computed : List S} {s : S} {e : Error} {ids : Ids} :
      History A program space computed → space.Popped s popped →
      (A.succ s).run popped.ids = (.error e, ids) →
      History A program (popped.withIds ids) computed
  | expanded {space popped : Space S} {computed out : List S} {s : S} {ids : Ids}
      (config : RunConfig) (statistics : Statistics) (k : Nat) :
      History A program space computed → space.Popped s popped →
      (A.succ s).run popped.ids = (.ok out, ids) →
      History A program
        (((out.take k).foldlM (A.visit config) ⟨statistics, []⟩).on (popped.withIds ids)).2
        (computed ++ out)

end Analysis

variable {S : Type} [DecidableEq S] [Hashable S]

/-- All states have a property, each reached one is stored under its own keys, and the computed
successors are related to all reached states. -/
structure Space.Tracks (A : Analysis S) (inv : Ids → S → Prop) (akin : S → S → Prop)
    (computed : List S) (space : Space S) : Prop where
  holds : space.Holds inv
  filed : space.reached.Filed A.keys
  known : ∀ t ∈ computed, inv space.ids t
  reached : ∀ t ∈ computed, ∀ r ∈ space.reached.toList, akin t r
  computed : ∀ t ∈ computed, ∀ u ∈ computed, akin t u

theorem Space.filed_dropAll {keys : S → SortedSet PartitionKey} (l : List S) {space : Space S}
    (valid : space.Valid) (filed : space.reached.Filed keys) :
    (l.foldl Space.drop space).reached.Filed keys := by
  induction l generalizing space with
  | nil => exact filed
  | cons s rest ih => exact ih (valid.drop s) (filed.remove valid.2 s)

namespace Space.Tracks

variable {A : Analysis S} {program : Program} {inv : Ids → S → Prop} {akin : S → S → Prop}
  {computed : List S} {space : Space S}

theorem add (tracks : space.Tracks A inv akin computed) {s : S} (h : inv space.ids s)
    (related : ∀ t ∈ computed, akin t s) : (space.add s (A.keys s)).Tracks A inv akin computed where
  holds := tracks.holds.add (A.keys s) h
  filed := tracks.filed.insert s
  known := tracks.known
  reached t ht r hr := by
    rcases (mem_reached_add tracks.holds.valid s r (A.keys s)).mp hr with rfl | hr
    · exact related t ht
    · exact tracks.reached t ht r hr
  computed := tracks.computed

theorem dropAll (tracks : space.Tracks A inv akin computed) (l : List S) :
    (l.foldl Space.drop space).Tracks A inv akin computed := by
  obtain ⟨-, ids, -, found⟩ := dropAll_spec l tracks.holds.valid
  constructor
  case holds => exact tracks.holds.dropAll l
  case filed => exact filed_dropAll l tracks.holds.valid tracks.filed
  case known => exact ids ▸ tracks.known
  case reached => exact fun t ht r hr => tracks.reached t ht r ((found r).mp hr).1
  case computed => exact tracks.computed

theorem popped (tracks : space.Tracks A inv akin computed) {s : S} {after : Space S}
    (taken : space.Popped s after) : after.Tracks A inv akin computed where
  holds := tracks.holds.popped taken
  filed := taken.reached ▸ tracks.filed
  known := taken.ids ▸ tracks.known
  reached := taken.reached ▸ tracks.reached
  computed := tracks.computed

variable (keeps : A.Invariant program True True inv) (relates : A.Relates inv akin)
include keeps

theorem withIds (tracks : space.Tracks A inv akin computed) {ids : Ids} (later : space.ids ≤ ids) :
    (space.withIds ids).Tracks A inv akin computed where
  holds := tracks.holds.withIds fun _ h => keeps.grows h later
  filed := tracks.filed
  known t ht := keeps.grows (tracks.known t ht) later
  reached := tracks.reached
  computed := tracks.computed

include relates

theorem drawn (tracks : space.Tracks A inv akin computed) {s : S} (h : inv space.ids s)
    {out : List S} {ids : Ids} (done : (A.succ s).run space.ids = (.ok out, ids)) :
    (space.withIds ids).Tracks A inv akin (computed ++ out) := by
  have later := tracks.withIds keeps (Alloc.le_of_run done)
  constructor
  case holds => exact later.holds
  case filed => exact later.filed
  case known =>
    intro t ht
    rcases List.mem_append.mp ht with old | new
    · exact later.known t old
    · exact keeps.succ h done t new
  case reached =>
    intro t ht r hr
    rcases List.mem_append.mp ht with old | new
    · exact tracks.reached t old r hr
    · exact (relates.fresh (tracks.holds.reached r hr) done t new).1
  case computed =>
    intro t ht u hu
    rcases List.mem_append.mp ht with old | new
    · rcases List.mem_append.mp hu with old' | new'
      · exact tracks.computed t old u old'
      · exact (relates.fresh (tracks.known t old) done u new').2
    · rcases List.mem_append.mp hu with old' | new'
      · exact (relates.fresh (tracks.known u old') done t new).1
      · exact relates.together done t new u new'

theorem merging (tracks : space.Tracks A inv akin computed) {state : S} {after : Space S}
    {r : Except Error Nat} (h : inv space.ids state) (related : ∀ t ∈ computed, akin t state)
    (merging : A.Merging state space (r, after)) : after.Tracks A inv akin computed := by
  have holds := keeps.merging (fun _ => .intro) tracks.holds h merging
  cases merging with
  | skipped => exact tracks
  | failed _ ran => exact tracks.withIds keeps (Alloc.le_of_run ran)
  | alone _ ran => exact tracks.withIds keeps (Alloc.le_of_run ran)
  | @merged merged absorbed ids _ _ ran =>
    have dropped := (tracks.withIds keeps (Alloc.le_of_run ran)).dropAll (absorbed ++ [state])
    refine dropped.add ?_ fun t ht => ?_
    · have own := holds.reached merged ((A.mem_reached_replaced state merged absorbed
        (Space.valid_withIds.mpr tracks.holds.valid) merged).mpr (.inl rfl))
      exact own
    · exact relates.separates.absorb keeps (tracks.known t ht) (related t ht)
        (fun r hr => tracks.reached t ht r (Analysis.mem_reached_of_mem_candidates hr)) ran

theorem visited (tracks : space.Tracks A inv akin computed) {config : RunConfig} {p : Progress S}
    {t : S} {after : Space S} {r : Except Error (Progress S)} (member : t ∈ computed)
    (visited : A.Visited config p t space (r, after)) : after.Tracks A inv akin computed := by
  have widened {s : S} (wide : A.Widens config t s) :
      inv space.ids s ∧ ∀ x ∈ computed, akin x s := by
    have h := tracks.known t member
    have related (x : S) (hx : x ∈ computed) : akin x t := tracks.computed x hx t member
    unfold Analysis.Widens at wide
    split at wide
    · exact ⟨keeps.widen .intro h wide, fun x hx => (relates.widen wide x).1 (related x hx)⟩
    · exact wide ▸ ⟨h, related⟩
  cases visited with
  | failed | covered => exact tracks
  | target _ wide | pending _ wide =>
    obtain ⟨h, related⟩ := widened wide
    exact tracks.add h related
  | merging _ wide _ _ _ merged | unmerged wide _ _ merged =>
    obtain ⟨h, related⟩ := widened wide
    exact (tracks.add h related).merging keeps relates h related merged

theorem visit (config : RunConfig) (p : Progress S) (t : S) (rest : List S) :
    Explore.Contract
      (fun space => space.Tracks A inv akin computed ∧ ∀ x ∈ t :: rest, x ∈ computed)
      (A.visit config p t)
      (fun _ space => space.Tracks A inv akin computed ∧ ∀ x ∈ rest, x ∈ computed)
      (Space.Tracks A inv akin computed) := by
  rintro space ⟨tracks, inside⟩
  have visited := A.visit_visited config p t space
  cases done : (A.visit config p t).on space with | mk r after =>
  rw [done] at visited
  have kept := tracks.visited keeps relates (inside t List.mem_cons_self) visited
  cases r with
  | error => exact kept
  | ok => exact ⟨kept, fun x hx => inside x (List.mem_cons_of_mem t hx)⟩

omit relates in
theorem seed (ids : Ids) :
    Explore.Contract (fun space => space = ⟨ids, ∅, ∅⟩) (A.seed program)
      (fun _ => Space.Tracks A inv akin []) (Space.Tracks A inv akin []) := by
  have empty (after : Ids) : (⟨after, ∅, ∅⟩ : Space S).Tracks A inv akin [] :=
    ⟨.empty after, Reached.filed_empty A.keys, by simp, by simp, by simp⟩
  have added : Explore.Contract (fun space => space = ⟨ids, ∅, ∅⟩) (A.seed program)
      (fun _ space => ∃ _ : List S, space.Tracks A inv akin [] ∧ ∀ x ∈ [], inv space.ids x)
      (Space.Tracks A inv akin []) := by
    refine Analysis.seed_contract
      (fun _ pending space => space.Tracks A inv akin [] ∧ ∀ x ∈ pending, inv space.ids x)
      (fun _ after _ => empty after) (fun out after ran => ⟨empty after, keeps.initial ran⟩) ?_
    rintro out s rest before ⟨tracks, pending⟩
    have later : ∀ x ∈ rest, inv before.ids x := fun x hx => pending x (List.mem_cons_of_mem s hx)
    split
    · exact ⟨tracks, later⟩
    · exact ⟨tracks.add (pending s List.mem_cons_self) (by simp), later⟩
  exact added.weaken fun _ space done => done.choose_spec.1

end Space.Tracks

namespace Analysis.History

variable {A : Analysis S} {program : Program} {space : Space S} {computed : List S}

theorem tracks {inv : Ids → S → Prop} {akin : S → S → Prop}
    (keeps : A.Invariant program True True inv) (relates : A.Relates inv akin)
    (point : A.History program space computed) : space.Tracks A inv akin computed := by
  induction point with
  | seeded ids => exact (Space.Tracks.seed keeps ids).always rfl
  | failed _ taken ran tracks => exact (tracks.popped taken).withIds keeps (Alloc.le_of_run ran)
  | @expanded space popped computed out s ids config statistics k _ taken ran tracks =>
    have treated : Explore.Contract
        (fun space => space.Tracks A inv akin (computed ++ out) ∧
          ∀ x ∈ out.take k, x ∈ computed ++ out)
        ((out.take k).foldlM (A.visit config) ⟨statistics, []⟩)
        (fun _ space => space.Tracks A inv akin (computed ++ out) ∧ ∀ x ∈ [], x ∈ computed ++ out)
        (Space.Tracks A inv akin (computed ++ out)) :=
      .foldlM (fun pending _ space => space.Tracks A inv akin (computed ++ out) ∧
        ∀ x ∈ pending, x ∈ computed ++ out) (Space.Tracks.visit keeps relates config)
    have h : inv popped.ids s := taken.ids ▸ tracks.holds.frontier s taken.waited
    apply (treated.weaken fun _ _ kept => kept.1).always
    constructor
    · exact (tracks.popped taken).drawn keeps relates h ran
    · exact fun x hx => List.mem_append_right computed (List.mem_of_mem_take hx)

theorem valid (point : A.History program space computed) : space.Valid := by
  have keeps : A.Invariant program True True (fun _ _ => True) := by constructor <;> simp
  exact (point.tracks keeps (.trivial A _)).holds.valid

/-- A run leads from one point to another, whether it ends with an outcome or fails. -/
theorem run (point : A.History program space computed) (config : RunConfig) (fuel : Nat) :
    ∃ more, A.History program ((A.run config fuel).on space).2 (computed ++ more) := by
  have kept : Explore.Contract (fun space => ∃ more, A.History program space (computed ++ more))
      (A.run config fuel) (Ended (fun space => ∃ more, A.History program space (computed ++ more))
        (fun _ space => ∃ more, A.History program space (computed ++ more)))
      (fun space => ∃ more, A.History program space (computed ++ more)) := by
    refine runFrom_contract _ (fun _ ⟨_, point⟩ => point.valid) ?_ fuel {}
    rintro statistics s before _ ⟨more, point⟩ taken popped rfl
    unfold expand
    rw [Explore.on_bind]
    cases ran : (A.succ s).run popped.ids with | mk r ids =>
    cases r with
    | error e =>
      rw [Explore.on_draw_error ran]
      exact ⟨more, point.failed taken ran⟩
    | ok out =>
      rw [Explore.on_draw_ok ran, Explore.next_ok]
      have next := point.expanded config statistics out.length taken ran
      rw [List.take_length, List.append_assoc] at next
      cases done : (out.foldlM (A.visit config) ⟨statistics, []⟩).on (popped.withIds ids) with
        | mk r after =>
      rw [done] at next
      cases r with
      | error => exact ⟨_, next⟩
      | ok => exact ⟨fun _ => ⟨_, next⟩, fun _ => ⟨_, next⟩⟩
  exact (kept.weaken fun _ _ => Ended.kept).always ⟨[], by simpa using point⟩

end Analysis.History
end ActorAnalysis
