import ActorAnalysis.Proofs.Behaviour
import ActorAnalysis.Proofs.Run.Invariant

/-! Explorations that miss nothing. States of an analysis cover states of a behaviour; if the
operations of the analysis lose none of them, then a run that completes has accounted for all that
the behaviour can do. -/
namespace ActorAnalysis

namespace Analysis

variable {S C : Type}

/-- New states do not pass for reached ones: a relation between a state that waits for its
treatment and a reached one, which holds at first and is kept. -/
structure Separates (A : Analysis S) (inv : Ids → S → Prop) (apart : S → S → Prop) : Prop where
  succ : ∀ {ids r s out after}, inv ids r → (A.succ s).run ids = (.ok out, after) →
    ∀ t ∈ out, apart t r
  distinct : ∀ {ids s out after}, (A.succ s).run ids = (.ok out, after) →
    out.Pairwise (fun earlier later => apart later earlier)
  merge : ∀ {ids t s r m after}, inv ids t → apart t s → apart t r →
    (A.merge s r).run ids = (.ok m, after) → apart t m
  widen : ∀ {s t}, A.widen s = .ok t → ∀ x, (apart x s → apart x t) ∧ (apart s x → apart t x)

/-- No operation of the analysis loses a state of the behaviour that is covered. -/
structure Covering (A : Analysis S) (program : Program) (B : Behaviour C) (inv : Ids → S → Prop)
    (apart : S → S → Prop) (covers : S → C → Prop) : Prop where
  initial : ∀ {ids out after}, (A.initial program).run ids = (.ok out, after) →
    ∀ c, B.start c → ∃ s ∈ out, covers s c
  succ : ∀ {ids s out after}, inv ids s → (A.succ s).run ids = (.ok out, after) →
    ∀ c d, covers s c → B.next c d →
      B.Caught (B.violates c) (fun e => ∃ t ∈ out, covers t e) d
  stop : ∀ {s l}, (∀ r ∈ l, apart s r) → A.stop s l = true →
    ∀ c, covers s c → ∃ r ∈ l, covers r c
  merge : ∀ {ids s t m after}, A.shouldMerge s t = true →
    (A.merge s t).run ids = (.ok m, after) → ∀ c, covers s c ∨ covers t c → covers m c
  widen : ∀ {s t}, A.widen s = .ok t → ∀ c, covers s c → covers t c
  target : ∀ {ids s c p}, inv ids s → covers s c → B.violates c p → p ∈ A.target s

variable {A : Analysis S} {program : Program} {B : Behaviour C} {inv : Ids → S → Prop}
  {apart : S → S → Prop} {covers : S → C → Prop}

theorem Covering.absorb (covering : A.Covering program B inv apart covers) {ids after : Ids}
    {state merged : S} {l absorbed : List S}
    (ran : (A.absorb state l).run ids = (.ok (merged, absorbed), after)) :
    ∀ r ∈ absorbed ++ [state], ∀ c, covers r c → covers merged c := by
  have final := absorb_rule (fun _ s done => ∀ r ∈ done, ∀ c, covers r c → covers s c)
    (fun {ids s done r m after} before _ should ran x member c h => by
      rcases List.mem_append.mp member with old | new
      · exact covering.merge should ran c (.inl (before x old c h))
      · rw [List.mem_singleton.mp new] at h
        exact covering.merge should ran c (.inr h))
    (fun _ h => h) [state] (fun r member c h => List.mem_singleton.mp member ▸ h) ran
  intro r member
  refine final.1 r ?_
  rcases List.mem_append.mp member with old | new
  · exact List.mem_append.mpr (.inr old)
  · exact List.mem_append.mpr (.inl new)

theorem Separates.absorb (keeps : A.Invariant program True True inv)
    (separates : A.Separates inv apart) {ids after : Ids} {t state merged : S}
    {l absorbed : List S} (h : inv ids t) (from_ : apart t state) (others : ∀ r ∈ l, apart t r)
    (ran : (A.absorb state l).run ids = (.ok (merged, absorbed), after)) : apart t merged := by
  have final := absorb_rule (fun ids s _ => inv ids t ∧ apart t s)
    (fun {ids s done r m after} before member _ ran =>
      ⟨keeps.grows before.1 (Alloc.le_of_run ran),
        separates.merge before.1 before.2 (others r member) ran⟩)
    (fun _ h => h) [] ⟨h, from_⟩ ran
  exact final.1.2

end Analysis

variable {S C : Type} [DecidableEq S] [Hashable S]

def Space.Covers (covers : S → C → Prop) (pending : List S) (space : Space S) (c : C) : Prop :=
  ∃ s, (s ∈ space.reached.toList ∨ s ∈ pending) ∧ covers s c

/-- The starts are covered, and so is what follows on a covered state, unless the state that
covers it is still in the frontier. The states in `pending` count as reached. -/
structure Space.Accounts (B : Behaviour C) (inv : Ids → S → Prop) (apart : S → S → Prop)
    (covers : S → C → Prop) (pending : List S) (space : Space S) : Prop where
  holds : space.Holds inv
  starts : ∀ c, B.start c → space.Covers covers pending c
  explored : ∀ r ∈ space.reached.toList, r ∉ space.frontier.queue → ∀ c d, covers r c →
    B.next c d → B.Caught (B.violates c) (space.Covers covers pending) d
  waiting : ∀ t ∈ pending, inv space.ids t ∧ ∀ r ∈ space.reached.toList, apart t r
  distinct : pending.Pairwise (fun earlier later => apart later earlier)

/-- `t` has been taken into account: what was covered or is covered by `t` is covered, only states
of the frontier are new, and what was apart from all states and from `t` still is. -/
structure Space.Extends (inv : Ids → S → Prop) (apart : S → S → Prop) (covers : S → C → Prop)
    (t : S) (before after : Space S) : Prop where
  ids : before.ids ≤ after.ids
  covers : ∀ r c, r = t ∨ r ∈ before.reached.toList → covers r c →
    ∃ s ∈ after.reached.toList, covers s c
  explored : ∀ r ∈ after.reached.toList, r ∉ after.frontier.queue →
    r ∈ before.reached.toList ∧ r ∉ before.frontier.queue
  apart : ∀ x, inv before.ids x → apart x t → (∀ r ∈ before.reached.toList, apart x r) →
    ∀ r ∈ after.reached.toList, apart x r

section Extension

variable {inv : Ids → S → Prop} {apart : S → S → Prop} {covers : S → C → Prop}

theorem Space.Extends.add {space : Space S} (valid : space.Valid) (s : S)
    (keys : SortedSet PartitionKey) :
    Space.Extends inv apart covers s space (space.add s keys) where
  ids := Ids.le_refl _
  covers r c member h := ⟨r, (mem_reached_add valid s r keys).mpr member, h⟩
  explored r reached gone := by
    have other : r ≠ s := fun same => gone ((mem_frontier_add valid s r keys).mpr (.inl same))
    have before := (mem_reached_add valid s r keys).mp reached
    exact ⟨before.resolve_left other,
      fun waits => gone ((mem_frontier_add valid s r keys).mpr (.inr waits))⟩
  apart x _ ht hr r member := by
    rcases (mem_reached_add valid s r keys).mp member with rfl | member
    · exact ht
    · exact hr r member

theorem Space.Extends.trans {t : S} {before mid after : Space S}
    (first : Space.Extends inv apart covers t before mid)
    (second : Space.Extends inv apart covers t mid after)
    (grows : ∀ ids later s, inv ids s → ids ≤ later → inv later s) :
    Space.Extends inv apart covers t before after where
  ids := Ids.le_trans first.ids second.ids
  covers r c member h := by
    obtain ⟨s, reached, h⟩ := first.covers r c member h
    exact second.covers s c (.inr reached) h
  explored r reached gone := by
    obtain ⟨reached, gone⟩ := second.explored r reached gone
    exact first.explored r reached gone
  apart x h ht hr := second.apart x (grows _ _ x h first.ids) ht (first.apart x h ht hr)

theorem Space.Extends.rename {s t : S} {before after : Space S}
    (extends_ : Space.Extends inv apart covers s before after)
    (wider : ∀ c, covers t c → covers s c) (separate : ∀ x, apart x t → apart x s) :
    Space.Extends inv apart covers t before after where
  ids := extends_.ids
  covers r c member h := by
    rcases member with rfl | member
    · exact extends_.covers s c (.inl rfl) (wider c h)
    · exact extends_.covers r c (.inr member) h
  explored := extends_.explored
  apart x h ht := extends_.apart x h (separate x ht)

theorem Space.Extends.kept {t : S} {rest : List S} {before after : Space S} {c : C}
    (extends_ : Space.Extends inv apart covers t before after)
    (covered : before.Covers covers (t :: rest) c) : after.Covers covers rest c := by
  obtain ⟨r, member, h⟩ := covered
  by_cases later : r ∈ rest
  · exact ⟨r, .inr later, h⟩
  · have now : r = t ∨ r ∈ before.reached.toList := by
      rcases member with reached | pending
      · exact .inr reached
      · exact .inl ((List.mem_cons.mp pending).resolve_right later)
    obtain ⟨s, reached, h⟩ := extends_.covers r c now h
    exact ⟨s, .inl reached, h⟩

end Extension

namespace Analysis

variable {A : Analysis S} {program : Program} {B : Behaviour C} {inv : Ids → S → Prop}
  {apart : S → S → Prop} {covers : S → C → Prop}

theorem Covering.merging (keeps : A.Invariant program True True inv)
    (separates : A.Separates inv apart) (covering : A.Covering program B inv apart covers)
    {state : S} {space after : Space S} {n : Nat} (valid : space.Valid)
    (reached : state ∈ space.reached.toList) (merging : A.Merging state space (.ok n, after)) :
    Space.Extends inv apart covers state space after := by
  have same (ids : Ids) (later : space.ids ≤ ids) :
      Space.Extends inv apart covers state space (space.withIds ids) := by
    refine ⟨later, fun r c member h => ⟨r, ?_, h⟩, fun r hr gone => ⟨hr, gone⟩,
      fun _ _ _ others => others⟩
    rcases member with rfl | member
    · exact reached
    · exact member
  cases merging with
  | skipped => exact same space.ids (Ids.le_refl _)
  | alone _ ran => exact same _ (Alloc.le_of_run ran)
  | @merged merged absorbed ids _ _ ran =>
    have valid' : (space.withIds ids).Valid := valid
    have members := A.mem_reached_replaced state merged absorbed valid'
    refine ⟨?_, fun r c member h => ?_, fun r hr gone => ?_, fun x hx ht others r member => ?_⟩
    · rw [ids_replaced A _ _ _ valid']
      exact Alloc.le_of_run ran
    · by_cases dropped : r ∈ absorbed ++ [state]
      · exact ⟨merged, (members merged).mpr (.inl rfl), covering.absorb ran r dropped c h⟩
      · have kept : r ∈ space.reached.toList :=
          member.resolve_left fun same => dropped (by simp [same])
        exact ⟨r, (members r).mpr (.inr ⟨kept, dropped⟩), h⟩
    · rw [A.mem_frontier_replaced state merged absorbed valid', not_or] at gone
      obtain ⟨kept, undropped⟩ := ((members r).mp hr).resolve_left gone.1
      exact ⟨kept, fun waits => gone.2 ⟨waits, undropped⟩⟩
    · rcases (members r).mp member with rfl | ⟨member, _⟩
      · exact separates.absorb keeps hx ht
          (fun r hr => others r (mem_reached_of_mem_candidates hr)) ran
      · exact others r member

theorem Covering.visited (keeps : A.Invariant program True True inv)
    (separates : A.Separates inv apart) (covering : A.Covering program B inv apart covers)
    {config : RunConfig} {p q : Progress S} {t : S} {space after : Space S} (valid : space.Valid)
    (new : ∀ r ∈ space.reached.toList, apart t r)
    (visited : A.Visited config p t space (.ok q, after)) :
    Space.Extends inv apart covers t space after := by
  have widened {s : S} (wide : A.Widens config t s) :
      (∀ c, covers t c → covers s c) ∧ (∀ x, apart x t → apart x s) ∧
        ∀ x, apart t x → apart s x := by
    rcases wide.cases with rfl | wide
    · exact ⟨fun _ h => h, fun _ h => h, fun _ h => h⟩
    · exact ⟨covering.widen wide, fun x => (separates.widen wide x).1,
        fun x => (separates.widen wide x).2⟩
  cases visited with
  | @covered s _ wide stop =>
    obtain ⟨wider, -, separate⟩ := widened wide
    have found : ∀ c, covers s c → ∃ r ∈ space.reached.toList, covers r c := by
      intro c h
      have peers : ∀ r ∈ space.reached.partitionOf (A.keys s), apart s r := fun r hr =>
        separate r (new r (Reached.mem_of_mem_partitionOf hr))
      obtain ⟨r, member, h⟩ := covering.stop peers stop c h
      exact ⟨r, Reached.mem_of_mem_partitionOf member, h⟩
    refine ⟨Ids.le_refl _, fun r c member h => ?_, fun r hr gone => ⟨hr, gone⟩,
      fun _ _ _ others => others⟩
    rcases member with rfl | member
    · exact found c (wider c h)
    · exact ⟨r, member, h⟩
  | target _ wide =>
    obtain ⟨wider, separate, -⟩ := widened wide
    exact (Space.Extends.add valid _ _).rename wider separate
  | pending _ wide =>
    obtain ⟨wider, separate, -⟩ := widened wide
    exact (Space.Extends.add valid _ _).rename wider separate
  | @merging s _ _ _ wide _ _ _ merging =>
    obtain ⟨wider, separate, -⟩ := widened wide
    have reached := (Space.mem_reached_add valid s s (A.keys s)).mpr (.inl rfl)
    have merged := covering.merging keeps separates (valid.add _ _) reached merging
    have added : Space.Extends inv apart covers s space (space.add s (A.keys s)) := .add valid s _
    exact (added.trans merged fun _ _ _ => keeps.grows).rename wider separate

end Analysis

/-- Treating the first pending state keeps the account. -/
theorem Space.Accounts.step {B : Behaviour C} {inv : Ids → S → Prop} {apart : S → S → Prop}
    {covers : S → C → Prop} {t : S} {rest : List S} {before after : Space S}
    (grows : ∀ ids later s, inv ids s → ids ≤ later → inv later s)
    (accounts : before.Accounts B inv apart covers (t :: rest)) (holds : after.Holds inv)
    (extends_ : Space.Extends inv apart covers t before after) :
    after.Accounts B inv apart covers rest := by
  obtain ⟨first, distinct⟩ := List.pairwise_cons.mp accounts.distinct
  refine ⟨holds, fun c h => extends_.kept (accounts.starts c h), ?_, ?_, distinct⟩
  · intro r reached gone c d h step
    obtain ⟨reached, gone⟩ := extends_.explored r reached gone
    exact (accounts.explored r reached gone c d h step).mono (fun _ h => h)
      fun _ covered => extends_.kept covered
  · intro x member
    obtain ⟨h, others⟩ := accounts.waiting x (List.mem_cons_of_mem t member)
    exact ⟨grows _ _ x h extends_.ids, extends_.apart x h (first x member) others⟩

namespace Analysis

variable {A : Analysis S} {program : Program} {B : Behaviour C} {inv : Ids → S → Prop}
  {apart : S → S → Prop} {covers : S → C → Prop}

theorem Covering.visit (keeps : A.Invariant program True True inv)
    (separates : A.Separates inv apart) (covering : A.Covering program B inv apart covers)
    (config : RunConfig) (p : Progress S) (t : S) (rest : List S) :
    Explore.Contract (Space.Accounts B inv apart covers (t :: rest)) (A.visit config p t)
      (fun _ => Space.Accounts B inv apart covers rest) (fun _ => True) := by
  intro space accounts
  have visited := A.visit_visited config p t space
  obtain ⟨h, new⟩ := accounts.waiting t List.mem_cons_self
  cases done : (A.visit config p t).on space with | mk r after =>
  rw [done] at visited
  cases r with
  | error => trivial
  | ok q =>
    exact accounts.step (fun _ _ _ => keeps.grows)
      (keeps.visited (fun _ => trivial) (fun _ => trivial) accounts.holds h visited)
      (covering.visited keeps separates accounts.holds.valid new visited)

theorem Covering.expand (keeps : A.Invariant program True True inv)
    (separates : A.Separates inv apart) (covering : A.Covering program B inv apart covers)
    (config : RunConfig) (statistics : Statistics) {s : S} {before popped : Space S}
    (accounts : before.Accounts B inv apart covers []) (taken : before.Popped s popped) :
    Explore.Contract (fun space => space = popped) (A.expand config statistics s)
      (fun _ => Space.Accounts B inv apart covers []) (fun _ => True) := by
  have left := accounts.holds.popped taken
  have h : inv popped.ids s := taken.ids ▸ accounts.holds.frontier s taken.waited
  have drawn (out : List S) (ids : Ids) (ran : (A.succ s).run popped.ids = (.ok out, ids)) :
      (popped.withIds ids).Accounts B inv apart covers out := by
    have kept (c : C) (covered : before.Covers covers [] c) :
        (popped.withIds ids).Covers covers out c := by
      obtain ⟨r, member, h⟩ := covered
      exact ⟨r, .inl (taken.reached ▸ member.resolve_right List.not_mem_nil), h⟩
    refine ⟨left.withIds fun _ h => keeps.grows h (Alloc.le_of_run ran),
      fun c hc => kept c (accounts.starts c hc), ?_,
      fun t ht => ⟨keeps.succ h ran t ht, fun r hr => ?_⟩, separates.distinct ran⟩
    · -- `s` itself is accounted for by its successors, which are all pending
      intro r reached gone c d hc step
      by_cases same : r = s
      · subst same
        refine (covering.succ h ran c d hc step).mono (fun _ h => h) ?_
        rintro e ⟨t, member, he⟩
        exact ⟨t, .inr member, he⟩
      · have reached : r ∈ before.reached.toList := taken.reached ▸ reached
        have gone : r ∉ before.frontier.queue := fun waits =>
          gone ((taken.frontier r).mpr ⟨waits, same⟩)
        exact (accounts.explored r reached gone c d hc step).mono (fun _ h => h) kept
    · exact separates.succ (left.reached r hr) ran t ht
  have steps := expand_contract statistics
    (fun _ pending _ space => space.Accounts B inv apart covers pending)
    (fun _ _ _ => trivial) drawn
    (fun _ p t rest => covering.visit keeps separates config p t rest)
  exact steps.weaken fun _ _ done => done.choose_spec

theorem Covering.run (keeps : A.Invariant program True True inv)
    (separates : A.Separates inv apart) (covering : A.Covering program B inv apart covers)
    (config : RunConfig) (fuel : Nat) :
    Explore.Contract (Space.Accounts B inv apart covers []) (A.run config fuel)
      (Ended (Space.Accounts B inv apart covers []) (fun _ => Space.Accounts B inv apart covers []))
      (fun _ => True) :=
  runFrom_contract _ (fun _ accounts => accounts.holds.valid)
    (fun statistics _ _ _ accounts taken =>
      (covering.expand keeps separates config statistics accounts taken).weaken
        fun _ _ kept => ⟨fun _ => kept, fun _ => kept⟩) fuel {}

theorem Covering.addInitial {s : S} {before : Space S} (valid : before.Valid) :
    Space.Extends inv apart covers s before
      (if before.reached.contains s then before else before.add s (A.keys s)) := by
  split
  · rename_i known
    refine ⟨Ids.le_refl _, fun r c member h => ⟨r, ?_, h⟩, fun r hr gone => ⟨hr, gone⟩,
      fun _ _ _ others => others⟩
    rcases member with rfl | member
    · exact (Reached.contains_iff valid.2 r).mp known
    · exact member
  · exact .add valid s _

theorem Covering.seed (keeps : A.Invariant program True True inv)
    (covering : A.Covering program B inv apart covers) (ids : Ids) :
    Explore.Contract (fun space => space = ⟨ids, ∅, ∅⟩) (A.seed program)
      (fun _ => Space.Accounts B inv apart covers []) (fun _ => True) := by
  have added : Explore.Contract (fun space => space = ⟨ids, ∅, ∅⟩) (A.seed program)
      (fun _ space => ∃ _ : List S, space.Valid ∧ (∀ c, B.start c → space.Covers covers [] c) ∧
        ∀ r ∈ space.reached.toList, r ∈ space.frontier.queue) (fun _ => True) := by
    -- while initial states are added, all reached states are in the frontier
    refine seed_contract (fun _ pending space => space.Valid ∧ (∀ c, B.start c →
        space.Covers covers pending c) ∧ ∀ r ∈ space.reached.toList, r ∈ space.frontier.queue)
      (fun _ _ _ => trivial) (fun out after ran => ⟨Space.valid_empty ids, ?_, ?_⟩) ?_
    · intro c h
      obtain ⟨s, member, hs⟩ := covering.initial ran c h
      exact ⟨s, .inr member, hs⟩
    · intro r hr
      simp [Reached.toList_empty] at hr
    · rintro out s rest before ⟨valid, starts, waits⟩
      have added : Space.Extends inv apart covers s before _ := addInitial (A := A) valid
      refine ⟨?_, fun c h => added.kept (starts c h), fun r hr => ?_⟩
      · split
        · exact valid
        · exact valid.add s _
      · refine Classical.byContradiction fun gone => ?_
        obtain ⟨hr, gone⟩ := added.explored r hr gone
        exact gone (waits r hr)
  refine ((keeps.seed ids).and added).weaken ?_
  rintro _ space ⟨holds, _, _, starts, waits⟩
  exact ⟨holds, starts, fun r hr gone => absurd (waits r hr) gone, (fun _ h => nomatch h), .nil⟩

theorem mem_violatedProperties (A : Analysis S) (reached : Reached S) (p : Property) :
    p ∈ A.violatedProperties reached ↔ ∃ r ∈ reached.toList, p ∈ A.target r := by
  have folded (l : List S) (found : SortedSet Property) :
      p ∈ l.foldl (fun found s => found.union (A.target s)) found ↔
        p ∈ found ∨ ∃ r ∈ l, p ∈ A.target r := by
    induction l generalizing found with
    | nil => simp
    | cons s rest ih =>
      rw [List.foldl_cons, ih, SortedSet.mem_union, or_assoc]
      simp only [List.mem_cons, exists_eq_or_imp]
  exact (folded reached.toList ∅).trans (by simp)

/-- Once the frontier is empty, every violation of the behaviour has been found. -/
theorem Covering.complete (covering : A.Covering program B inv apart covers) {space : Space S}
    (accounts : space.Accounts B inv apart covers []) (exhausted : space.frontier.queue = [])
    {c : C} {p : Property} (reaches : B.Reaches c) (violated : B.violates c p) :
    p ∈ A.violatedProperties space.reached := by
  have known {c : C} {p : Property} (covered : space.Covers covers [] c)
      (violated : B.violates c p) : p ∈ A.violatedProperties space.reached := by
    obtain ⟨r, member, h⟩ := covered
    have reached : r ∈ space.reached.toList := member.resolve_right List.not_mem_nil
    exact (A.mem_violatedProperties _ p).mpr
      ⟨r, reached, covering.target (accounts.holds.reached r reached) h violated⟩
  have closed (c d : C) (covered : space.Covers covers [] c) (step : B.next c d) :
      B.Caught (· ∈ A.violatedProperties space.reached) (space.Covers covers []) d := by
    obtain ⟨r, member, h⟩ := covered
    have reached : r ∈ space.reached.toList := member.resolve_right List.not_mem_nil
    have gone : r ∉ space.frontier.queue := by simp [exhausted]
    exact (accounts.explored r reached gone c d h step).mono
      (fun p violated => known ⟨r, member, h⟩ violated) (fun _ covered => covered)
  cases reaches.caught accounts.starts closed with
  | here covered => exact known covered violated
  | later quiet _ => exact quiet p violated

end Analysis
end ActorAnalysis
