import ActorAnalysis.Proofs.Containment
import ActorAnalysis.Proofs.Run.History

/-! Marks on states. A state sets some of the marks that it shows, and takes over the others from
the state that it succeeds. At every point of an exploration, each mark that a reached state shows
is set by a reached state, although those that set it may be dropped or merged away. -/
namespace ActorAnalysis

/-- How marks come about. A successor sets those that it shows, unless they were shown before;
merging and widening show no others, and undo none that are set. -/
structure Analysis.Marks {S M : Type} (A : Analysis S) (program : Program) (inv : Ids → S → Prop)
    (shows sets : S → M → Prop) : Prop where
  initial : ∀ {ids out after}, (A.initial program).run ids = (.ok out, after) →
    ∀ s ∈ out, ∀ x, shows s x → sets s x
  succ : ∀ {ids s out after}, inv ids s → (A.succ s).run ids = (.ok out, after) →
    ∀ t ∈ out, ∀ x, shows t x → sets t x ∨ shows s x
  merge : ∀ {ids s t m after}, (A.merge s t).run ids = (.ok m, after) →
    ∀ x, (shows m x → shows s x ∨ shows t x) ∧ (sets s x ∨ sets t x → sets m x)
  widen : ∀ {s t}, A.widen s = .ok t → ∀ x, (shows t x → shows s x) ∧ (sets s x → sets t x)

variable {S M : Type} [DecidableEq S] [Hashable S]

def Space.Marked (sets : S → M → Prop) (space : Space S) (x : M) : Prop :=
  ∃ s ∈ space.reached.toList, sets s x

/-- Each mark of a reached state is set by a reached one, and each mark of a successor in `pending`
will be once that successor is added. -/
structure Space.Traced (inv : Ids → S → Prop) (shows sets : S → M → Prop) (pending : List S)
    (space : Space S) : Prop where
  holds : space.Holds inv
  contained : space.Contained
  reached : ∀ s ∈ space.reached.toList, ∀ x, shows s x → space.Marked sets x
  pending : ∀ t ∈ pending, inv space.ids t ∧ ∀ x, shows t x → sets t x ∨ space.Marked sets x

namespace Analysis.Marks

variable {A : Analysis S} {program : Program} {inv : Ids → S → Prop} {shows sets : S → M → Prop}
  (marks : A.Marks program inv shows sets)
include marks

omit [DecidableEq S] [Hashable S] in
theorem widened {config : RunConfig} {s t : S} (wide : A.Widens config t s) (x : M) :
    (shows s x → shows t x) ∧ (sets t x → sets s x) := by
  rcases wide.cases with rfl | wide
  · exact ⟨id, id⟩
  · exact marks.widen wide x

/-- A merged state shows marks of those that it absorbs, and has set all that these have. -/
theorem merging {state : S} {space after : Space S} {r : Except Error Nat} (valid : space.Valid)
    (member : state ∈ space.reached.toList) (merging : A.Merging state space (r, after)) :
    (∀ s ∈ after.reached.toList, ∀ x, shows s x → ∃ r ∈ space.reached.toList, shows r x) ∧
      ∀ x, space.Marked sets x → after.Marked sets x := by
  have unchanged : (∀ s ∈ space.reached.toList, ∀ x, shows s x →
      ∃ r ∈ space.reached.toList, shows r x) ∧ ∀ x, space.Marked sets x → space.Marked sets x :=
    ⟨fun s hs _ shown => ⟨s, hs, shown⟩, fun _ marked => marked⟩
  cases merging with
  | skipped => exact unchanged
  | failed => exact unchanged
  | alone => exact unchanged
  | @merged merged absorbed ids _ _ ran =>
    have step {ids s done r m after} (now : (∀ x, shows s x → ∃ r ∈ space.reached.toList,
          shows r x) ∧ ∀ q ∈ done, ∀ x, sets q x → sets s x)
        (candidate : r ∈ A.candidates state space) (_ : A.shouldMerge s r = true)
        (ran : (A.merge s r).run ids = (.ok m, after)) :
        (∀ x, shows m x → ∃ r ∈ space.reached.toList, shows r x) ∧
          ∀ q ∈ done ++ [r], ∀ x, sets q x → sets m x := by
      refine ⟨fun x shown => ?_, fun q hq x set => (marks.merge ran x).2 ?_⟩
      · rcases (marks.merge ran x).1 shown with shown | shown
        · exact now.1 x shown
        · exact ⟨r, mem_reached_of_mem_candidates candidate, shown⟩
      · rcases List.mem_append.mp hq with hq | hq
        · exact .inl (now.2 q hq x set)
        · exact .inr (List.mem_singleton.mp hq ▸ set)
    obtain ⟨⟨shown, set⟩, -⟩ := absorb_rule
      (fun _ s done => (∀ x, shows s x → ∃ r ∈ space.reached.toList, shows r x) ∧
        ∀ q ∈ done, ∀ x, sets q x → sets s x) step (fun _ h => h) [state]
      ⟨fun x shown => ⟨state, member, shown⟩, fun q hq x set => List.mem_singleton.mp hq ▸ set⟩ ran
    have grown : (space.withIds ids).Valid := valid
    have members := mem_reached_replaced A state merged absorbed grown
    constructor
    · intro s hs x shows
      rcases (members s).mp hs with rfl | ⟨hs, -⟩
      · exact shown x shows
      · exact ⟨s, hs, shows⟩
    · rintro x ⟨q, hq, sets⟩
      by_cases gone : q ∈ absorbed ++ [state]
      · exact ⟨merged, (members merged).mpr (.inl rfl),
          set q (by simpa [or_comm] using gone) x sets⟩
      · exact ⟨q, (members q).mpr (.inr ⟨hq, gone⟩), sets⟩

end Analysis.Marks

namespace Space.Traced

variable {A : Analysis S} {program : Program} {inv : Ids → S → Prop} {shows sets : S → M → Prop}
  {space after : Space S} {t : S} {rest pending : List S}

theorem limit (traced : space.Traced inv shows sets pending) (fewer : ∀ t ∈ rest, t ∈ pending) :
    space.Traced inv shows sets rest :=
  ⟨traced.holds, traced.contained, traced.reached, fun t ht => traced.pending t (fewer t ht)⟩

theorem add (traced : space.Traced inv shows sets (t :: rest)) {s : S} (h : inv space.ids s)
    (same : ∀ x, (shows s x → shows t x) ∧ (sets t x → sets s x)) (keys : SortedSet PartitionKey) :
    (space.add s keys).Traced inv shows sets rest := by
  have members := fun r => mem_reached_add traced.holds.valid s r keys
  have more {x : M} (marked : space.Marked sets x) : (space.add s keys).Marked sets x := by
    obtain ⟨r, hr, set⟩ := marked
    exact ⟨r, (members r).mpr (.inr hr), set⟩
  constructor
  case holds => exact traced.holds.add keys h
  case contained => exact traced.contained.add s keys
  case reached =>
    intro r hr x shown
    rcases (members r).mp hr with rfl | hr
    · rcases (traced.pending t List.mem_cons_self).2 x ((same x).1 shown) with set | marked
      · exact ⟨r, hr, (same x).2 set⟩
      · exact more marked
    · exact more (traced.reached r hr x shown)
  case pending =>
    intro u hu
    obtain ⟨h, shown⟩ := traced.pending u (List.mem_cons_of_mem t hu)
    exact ⟨h, fun x shows => (shown x shows).imp_right more⟩

variable (keeps : A.Invariant program True True inv) (marks : A.Marks program inv shows sets)
include keeps

theorem retained (traced : space.Traced inv shows sets pending) (holds : after.Holds inv)
    (contained : after.Contained) (later : space.ids ≤ after.ids)
    (shown : ∀ s ∈ after.reached.toList, ∀ x, shows s x → ∃ r ∈ space.reached.toList, shows r x)
    (marked : ∀ x, space.Marked sets x → after.Marked sets x) :
    after.Traced inv shows sets pending where
  holds := holds
  contained := contained
  reached s hs x shows := by
    obtain ⟨r, hr, before⟩ := shown s hs x shows
    exact marked x (traced.reached r hr x before)
  pending t ht := by
    obtain ⟨h, shown⟩ := traced.pending t ht
    exact ⟨keeps.grows h later, fun x shows => (shown x shows).imp_right (marked x)⟩

theorem withIds (traced : space.Traced inv shows sets pending) {ids : Ids}
    (later : space.ids ≤ ids) : (space.withIds ids).Traced inv shows sets pending :=
  traced.retained keeps (traced.holds.withIds fun _ h => keeps.grows h later)
    (traced.contained.withIds ids) later (fun s hs _ shown => ⟨s, hs, shown⟩) fun _ marked => marked

omit keeps in
theorem popped {s : S} (traced : space.Traced inv shows sets []) (taken : space.Popped s after) :
    after.Traced inv shows sets [] where
  holds := traced.holds.popped taken
  contained := traced.contained.popped taken
  reached r hr x shown := by
    obtain ⟨q, hq, set⟩ := traced.reached r (taken.reached ▸ hr) x shown
    exact ⟨q, taken.reached ▸ hq, set⟩
  pending _ ht := absurd ht List.not_mem_nil

include marks

theorem visited (traced : space.Traced inv shows sets (t :: rest)) {config : RunConfig}
    {p : Progress S} {r : Except Error (Progress S)}
    (visited : A.Visited config p t space (r, after)) : after.Traced inv shows sets rest := by
  have added {s : S} (wide : A.Widens config t s) :
      (space.add s (A.keys s)).Traced inv shows sets rest :=
    traced.add (keeps.widened (fun _ => .intro) (traced.pending t List.mem_cons_self).1 wide)
      (marks.widened wide) (A.keys s)
  have merged {s : S} {r : Except Error Nat} (wide : A.Widens config t s)
      (merging : A.Merging s (space.add s (A.keys s)) (r, after)) :
      after.Traced inv shows sets rest := by
    have valid := (added wide).holds.valid
    have member := (mem_reached_add traced.holds.valid s s (A.keys s)).mpr (.inl rfl)
    obtain ⟨shown, marked⟩ := marks.merging valid member merging
    exact (added wide).retained keeps
      (keeps.merging (fun _ => .intro) (added wide).holds ((added wide).holds.reached s member)
        merging)
      ((added wide).contained.merging merging) (merging.grows valid) shown marked
  cases visited with
  | failed => exact traced.limit fun x hx => List.mem_cons_of_mem t hx
  | covered => exact traced.limit fun x hx => List.mem_cons_of_mem t hx
  | target _ wide => exact added wide
  | pending _ wide => exact added wide
  | merging _ wide _ _ _ merging => exact merged wide merging
  | unmerged wide _ _ merging => exact merged wide merging

theorem visit (config : RunConfig) (p : Progress S) (t : S) (rest : List S) :
    Explore.Contract (Space.Traced inv shows sets (t :: rest)) (A.visit config p t)
      (fun _ => Space.Traced inv shows sets rest) (Space.Traced inv shows sets []) := by
  intro space traced
  have visited := A.visit_visited config p t space
  cases done : (A.visit config p t).on space with | mk r after =>
  rw [done] at visited
  have kept := traced.visited keeps marks visited
  cases r with
  | error => exact kept.limit nofun
  | ok => exact kept

theorem seed (ids : Ids) :
    Explore.Contract (fun space => space = ⟨ids, ∅, ∅⟩) (A.seed program)
      (fun _ => Space.Traced inv shows sets []) (Space.Traced inv shows sets []) := by
  have empty (after : Ids) : (⟨after, ∅, ∅⟩ : Space S).Traced inv shows sets [] :=
    ⟨.empty after, ⟨valid_empty after, nofun⟩, by simp, nofun⟩
  have added : Explore.Contract (fun space => space = ⟨ids, ∅, ∅⟩) (A.seed program)
      (fun _ space => ∃ _ : List S, space.Traced inv shows sets [])
      (Space.Traced inv shows sets []) := by
    refine Analysis.seed_contract (fun _ pending => Space.Traced inv shows sets pending)
      (fun _ after _ => empty after) (fun out after ran => ?_) ?_
    · have start := empty after
      exact ⟨start.holds, start.contained, start.reached, fun s hs =>
        ⟨keeps.initial ran s hs, fun x shown => .inl (marks.initial ran s hs x shown)⟩⟩
    · intro out s rest before traced
      split
      · exact traced.limit fun x hx => List.mem_cons_of_mem s hx
      · exact traced.add (traced.pending s List.mem_cons_self).1 (fun _ => ⟨id, id⟩) (A.keys s)
  exact added.weaken fun _ _ done => done.choose_spec

end Space.Traced

namespace Analysis

variable {A : Analysis S} {program : Program} {space : Space S}

theorem Point.history {allowed : RunConfig → Prop} (point : A.Point program allowed space) :
    ∃ computed, A.History program space computed := by
  induction point with
  | seeded ids => exact ⟨[], .seeded ids⟩
  | ran config fuel _ _ before =>
    obtain ⟨computed, history⟩ := before
    obtain ⟨more, history⟩ := history.run config fuel
    exact ⟨_, history⟩
  | @amid space popped s out ids config statistics k _ _ pops ran before =>
    obtain ⟨computed, history⟩ := before
    rcases A.popNext_cases config.order history.valid with ⟨none, -⟩ | ⟨s', after, some, taken⟩
    · rw [none] at pops
      exact nomatch pops
    · rw [some] at pops
      cases pops
      exact ⟨_, history.expanded config statistics k taken ran⟩

namespace Marks

variable {inv : Ids → S → Prop} {shows sets : S → M → Prop}
  (keeps : A.Invariant program True True inv) (marks : A.Marks program inv shows sets)
include keeps marks

theorem traced {computed : List S} (history : A.History program space computed) :
    space.Traced inv shows sets [] := by
  induction history with
  | seeded ids => exact (Space.Traced.seed keeps marks ids).always rfl
  | failed _ taken ran traced => exact (traced.popped taken).withIds keeps (Alloc.le_of_run ran)
  | @expanded space popped computed out s ids config statistics k _ taken ran traced =>
    have treated : Explore.Contract (Space.Traced inv shows sets (out.take k))
        ((out.take k).foldlM (A.visit config) ⟨statistics, []⟩)
        (fun _ => Space.Traced inv shows sets []) (Space.Traced inv shows sets []) :=
      .foldlM (fun pending _ => Space.Traced inv shows sets pending)
        (Space.Traced.visit keeps marks config)
    apply treated.always
    have left := (traced.popped taken).withIds keeps (Alloc.le_of_run ran)
    have h : inv popped.ids s := taken.ids ▸ traced.holds.frontier s taken.waited
    refine ⟨left.holds, left.contained, left.reached, fun t ht => ?_⟩
    have ht := List.mem_of_mem_take ht
    refine ⟨keeps.succ h ran t ht, fun x shown => ?_⟩
    -- a mark taken over from the expanded state is set by a reached one, as that state is reached
    refine (marks.succ h ran t ht x shown).imp_right fun before => ?_
    exact left.reached s (taken.reached ▸ traced.contained.waiting s taken.waited) x before

/-- Each mark that a reached state shows is set by a reached state. -/
theorem set_of_shown {allowed : RunConfig → Prop} (point : A.Point program allowed space) {s : S}
    (reached : s ∈ space.reached.toList) {x : M} (shown : shows s x) :
    ∃ r ∈ space.reached.toList, sets r x := by
  obtain ⟨computed, history⟩ := point.history
  exact (marks.traced keeps history).reached s reached x shown

end Marks
end Analysis
end ActorAnalysis
