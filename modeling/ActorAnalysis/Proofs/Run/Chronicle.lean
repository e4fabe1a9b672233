import ActorAnalysis.Proofs.Merging

/-! Explorations with a record of all states that they make: initial states, successors before and
after they are widened, and the results of merges, also of those that are merged again at once. Most
of them are never reached, or not for long; every run carries the record on. -/
namespace ActorAnalysis

namespace Analysis

section Absorb

variable {S : Type} {A : Analysis S} {state final : S} {l absorbed : List S} {ids after : Ids}

/-- The results of the merges by which a state absorbs candidates, in their order. -/
def merges (A : Analysis S) (state : S) : List S → Ids → List S
  | [], _ => []
  | r :: rest, ids =>
    if A.shouldMerge state r then
      match (A.merge state r).run ids with
      | (.ok m, after) => m :: A.merges m rest after
      | (.error _, _) => []
    else A.merges state rest ids

/-- The first candidate is passed over, or the merge with it fails, or the result goes on. -/
theorem absorb_cons {r : S} {rest : List S} {result : Except Error (S × List S)}
    (ran : (A.absorb state (r :: rest)).run ids = (result, after)) :
    ((A.absorb state rest).run ids = (result, after) ∧
        A.merges state (r :: rest) ids = A.merges state rest ids) ∨
      (∃ e, result = .error e ∧ A.merges state (r :: rest) ids = []) ∨
      ∃ m mid last, A.shouldMerge state r = true ∧ (A.merge state r).run ids = (.ok m, mid) ∧
        (A.absorb m rest).run mid = (last, after) ∧
        (∀ final absorbed, result = .ok (final, absorbed) → ∃ more, last = .ok (final, more)) ∧
        A.merges state (r :: rest) ids = m :: A.merges m rest mid := by
  unfold absorb at ran
  rw [merges]
  split at ran
  · rename_i should
    rw [if_pos should]
    rw [Alloc.run_bind] at ran
    cases merged : (A.merge state r).run ids with | mk merge mid =>
    rw [merged] at ran
    cases merge with
    | error e => exact .inr (.inl ⟨e, (Prod.mk.inj ran).1.symm, rfl⟩)
    | ok m =>
      rw [Alloc.next_ok, Alloc.run_bind] at ran
      cases others : (A.absorb m rest).run mid with | mk last end_ =>
      rw [others] at ran
      cases last with
      | error e =>
        obtain ⟨rfl, rfl⟩ := Prod.mk.inj ran
        exact .inr (.inr ⟨m, mid, _, should, rfl, others, fun _ _ ok => (by cases ok), rfl⟩)
      | ok final =>
        obtain ⟨rfl, rfl⟩ := Prod.mk.inj ran
        refine .inr (.inr ⟨m, mid, _, should, rfl, others, fun _ _ ok => ?_, rfl⟩)
        cases ok
        exact ⟨final.2, rfl⟩
  · rename_i apart
    rw [if_neg apart]
    exact .inl ⟨ran, rfl⟩

theorem eq_or_mem_merges (ran : (A.absorb state l).run ids = (.ok (final, absorbed), after)) :
    final = state ∨ final ∈ A.merges state l ids := by
  induction l generalizing state ids absorbed with
  | nil =>
    obtain ⟨same, -⟩ := Alloc.run_pure_ok.mp ran
    exact .inl (Prod.mk.inj same).1
  | cons r rest ih =>
    rcases absorb_cons ran with ⟨ran, same⟩ | ⟨e, failed, -⟩ |
      ⟨m, mid, last, -, -, others, result, new⟩
    · rw [same]
      exact ih ran
    · cases failed
    · obtain ⟨more, rfl⟩ := result final absorbed rfl
      rw [new, List.mem_cons]
      exact .inr (ih others)

theorem Orders.merges {below : S → S → Prop} (orders : A.Orders below)
    (ran : (A.absorb state l).run ids = (.ok (final, absorbed), after)) :
    ∀ g ∈ A.merges state l ids, below g final := by
  induction l generalizing state ids absorbed with
  | nil => exact fun g hg => absurd hg List.not_mem_nil
  | cons r rest ih =>
    rcases absorb_cons ran with ⟨ran, same⟩ | ⟨e, failed, -⟩ |
      ⟨m, mid, last, -, -, others, result, new⟩
    · rw [same]
      exact ih ran
    · cases failed
    · obtain ⟨more, rfl⟩ := result final absorbed rfl
      rw [new]
      intro g hg
      rcases List.mem_cons.mp hg with rfl | hg
      · exact (orders.absorb others).1
      · exact ih others g hg

end Absorb

variable {S : Type} [DecidableEq S] [Hashable S]

/-- The points of an exploration: the states made so far, the successors of the state expanded last
that are not treated yet, and the space. If one of them cannot be treated, the rest is left. -/
inductive Chronicle (A : Analysis S) (program : Program) : List S → List S → Space S → Prop where
  | seeded {ids after : Ids} {out : List S} : (A.initial program).run ids = (.ok out, after) →
      Chronicle A program out [] ((A.seed program).on ⟨ids, ∅, ∅⟩).2
  | failed {made pending : List S} {space popped : Space S} {s : S} {e : Error} {ids : Ids} :
      Chronicle A program made pending space → space.Popped s popped →
      (A.succ s).run popped.ids = (.error e, ids) →
      Chronicle A program made [] (popped.withIds ids)
  | expanded {made pending out : List S} {space popped : Space S} {s : S} {ids : Ids} :
      Chronicle A program made pending space → space.Popped s popped →
      (A.succ s).run popped.ids = (.ok out, ids) →
      Chronicle A program (made ++ out) out (popped.withIds ids)
  | widened {made rest : List S} {space : Space S} {t s : S} (config : RunConfig) :
      Chronicle A program made (t :: rest) space → A.Widens config t s →
      Chronicle A program (made ++ [s]) rest space
  | added {made rest : List S} {space : Space S} {t s : S} (config : RunConfig) :
      Chronicle A program made (t :: rest) space → A.Widens config t s →
      A.stop s (space.reached.partitionOf (A.keys s)) = false →
      Chronicle A program (made ++ [s]) rest (space.add s (A.keys s))
  | absorbed {made pending : List S} {space : Space S} {s : S} {ids : Ids}
      {r : Except Error (S × List S)} :
      Chronicle A program made pending space → s ∈ space.reached.toList →
      (A.absorb s (A.candidates s space)).run space.ids = (r, ids) →
      Chronicle A program (made ++ A.merges s (A.candidates s space) space.ids) pending
        (space.withIds ids)
  -- amid a merge, the states that it replaces are taken out one by one
  | dropped {made pending : List S} {space : Space S} (s : S) :
      Chronicle A program made pending space → Chronicle A program made pending (space.drop s)
  | replaced {made pending : List S} {space : Space S} {s merged : S} {absorbed : List S}
      {ids : Ids} :
      Chronicle A program made pending space → s ∈ space.reached.toList →
      (A.absorb s (A.candidates s space)).run space.ids = (.ok (merged, absorbed), ids) →
      Chronicle A program (made ++ A.merges s (A.candidates s space) space.ids) pending
        (A.replaced s merged absorbed (space.withIds ids))

/-- The record can be carried on to a space, with some successors still to be treated. -/
def Continued (A : Analysis S) (program : Program) (made pending : List S) (space : Space S) :
    Prop :=
  ∃ more, A.Chronicle program (made ++ more) pending space

namespace Continued

variable {A : Analysis S} {program : Program} {made pending rest : List S} {space after : Space S}
  {s t : S}

theorem merging {r : Except Error Nat} (continued : A.Continued program made pending space)
    (reached : s ∈ space.reached.toList) (merging : A.Merging s space (r, after)) :
    A.Continued program made pending after := by
  obtain ⟨more, point⟩ := continued
  cases merging with
  | skipped => exact ⟨more, point⟩
  | failed _ ran | alone _ ran =>
    have next := point.absorbed reached ran
    rw [List.append_assoc] at next
    exact ⟨_, next⟩
  | merged _ _ ran =>
    have next := point.replaced reached ran
    rw [List.append_assoc] at next
    exact ⟨_, next⟩

theorem visited {config : RunConfig} {p : Progress S} {r : Except Error (Progress S)}
    (valid : space.Valid) (continued : A.Continued program made (t :: rest) space)
    (visited : A.Visited config p t space (r, after)) :
    (∃ left, A.Continued program made left after) ∧
      ∀ p', r = .ok p' → A.Continued program made rest after := by
  obtain ⟨more, point⟩ := continued
  have added {s : S} (wide : A.Widens config t s)
      (new : A.stop s (space.reached.partitionOf (A.keys s)) = false) :
      A.Continued program made rest (space.add s (A.keys s)) := by
    have next := point.added config wide new
    rw [List.append_assoc] at next
    exact ⟨_, next⟩
  have found (s : S) : s ∈ (space.add s (A.keys s)).reached.toList :=
    (Space.mem_reached_add valid s s (A.keys s)).mpr (.inl rfl)
  cases visited with
  | failed => exact ⟨⟨_, more, point⟩, by simp⟩
  | covered _ wide =>
    have next := point.widened config wide
    rw [List.append_assoc] at next
    exact ⟨⟨rest, _, next⟩, fun _ _ => ⟨_, next⟩⟩
  | target _ wide new | pending _ wide new =>
    have next := added wide new
    exact ⟨⟨rest, next⟩, fun _ _ => next⟩
  | merging _ wide new _ _ merging =>
    have next := (added wide new).merging (found _) merging
    exact ⟨⟨rest, next⟩, fun _ _ => next⟩
  | unmerged wide new _ merging =>
    have next := (added wide new).merging (found _) merging
    exact ⟨⟨rest, next⟩, fun _ _ => next⟩

end Continued

namespace Chronicle

variable {A : Analysis S} {program : Program} {made pending : List S} {space : Space S}

theorem valid (point : A.Chronicle program made pending space) : space.Valid := by
  induction point with
  | @seeded ids _ _ _ =>
    have keeps : A.Invariant program True True (fun _ _ => True) := by constructor <;> simp
    exact ((keeps.seed ids).always rfl).valid
  | failed _ taken | expanded _ taken => exact taken.valid
  | widened _ _ _ valid | absorbed _ _ _ valid => exact valid
  | added _ _ _ _ valid => exact valid.add _ _
  | dropped s _ valid => exact valid.drop s
  | @replaced _ _ _ s _ absorbed _ _ _ _ valid =>
    exact (Space.dropAll_spec (absorbed ++ [s]) (Space.valid_withIds.mpr valid)).1.add _ _

theorem visit (config : RunConfig) (p : Progress S) (t : S) (rest : List S) :
    Explore.Contract (A.Continued program made (t :: rest)) (A.visit config p t)
      (fun _ => A.Continued program made rest)
      (fun space => ∃ left, A.Continued program made left space) := by
  intro space continued
  have visited := A.visit_visited config p t space
  cases done : (A.visit config p t).on space with | mk r after =>
  rw [done] at visited
  obtain ⟨left, rest⟩ := continued.visited continued.choose_spec.valid visited
  cases r with
  | error => exact left
  | ok p' => exact rest p' rfl

theorem expand (config : RunConfig) (statistics : Statistics) {s : S} {popped : Space S}
    (continued : A.Continued program made pending space) (taken : space.Popped s popped) :
    Explore.Contract (fun space => space = popped) (A.expand config statistics s)
      (fun _ space => ∃ left, A.Continued program made left space)
      (fun space => ∃ left, A.Continued program made left space) := by
  obtain ⟨more, point⟩ := continued
  have steps : Explore.Contract (fun space => space = popped) (A.expand config statistics s)
      (fun _ space => ∃ _ : List S, A.Continued program made [] space)
      (fun space => ∃ left, A.Continued program made left space) := by
    apply expand_contract statistics (fun _ pending _ => A.Continued program made pending)
    · intro e ids failed
      exact ⟨[], more, point.failed taken failed⟩
    · intro out ids ran
      have next := point.expanded taken ran
      rw [List.append_assoc] at next
      exact ⟨_, next⟩
    · exact fun _ => visit config
  exact steps.weaken fun _ _ done => ⟨[], done.choose_spec⟩

theorem amid (point : A.Chronicle program made pending space) {s : S} {popped : Space S}
    {out : List S} {ids : Ids} (taken : space.Popped s popped)
    (ran : (A.succ s).run popped.ids = (.ok out, ids)) (config : RunConfig)
    (statistics : Statistics) (k : Nat) :
    ∃ left, A.Continued program made left
      (((out.take k).foldlM (A.visit config) ⟨statistics, []⟩).on (popped.withIds ids)).2 := by
  have treated : Explore.Contract (A.Continued program made (out.take k ++ out.drop k))
      ((out.take k).foldlM (A.visit config) ⟨statistics, []⟩)
      (fun _ => A.Continued program made ([] ++ out.drop k))
      (fun space => ∃ left, A.Continued program made left space) :=
    .foldlM (fun pending _ => A.Continued program made (pending ++ out.drop k))
      fun p t rest => visit config p t (rest ++ out.drop k)
  apply (treated.weaken fun _ _ continued => ⟨_, continued⟩).always
  rw [List.take_append_drop]
  exact ⟨out, point.expanded taken ran⟩

/-- A run carries the record on, whether it ends with an outcome or fails. -/
theorem run (point : A.Chronicle program made pending space) (config : RunConfig) (fuel : Nat) :
    ∃ left, A.Continued program made left ((A.run config fuel).on space).2 := by
  have kept : Explore.Contract (fun space => ∃ left, A.Continued program made left space)
      (A.run config fuel) (Ended (fun space => ∃ left, A.Continued program made left space)
        (fun _ space => ∃ left, A.Continued program made left space))
      (fun space => ∃ left, A.Continued program made left space) := by
    apply runFrom_contract _ (fun _ ⟨_, continued⟩ => continued.choose_spec.valid)
    rintro statistics s before popped ⟨pending, continued⟩ taken
    exact (expand config statistics continued taken).weaken fun _ _ next =>
      ⟨fun _ => next, fun _ => next⟩
  exact (kept.weaken fun _ _ => Ended.kept).always ⟨pending, [], by simpa using point⟩

end Chronicle
end Analysis
end ActorAnalysis
