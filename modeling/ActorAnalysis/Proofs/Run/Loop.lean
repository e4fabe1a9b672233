import ActorAnalysis.Proofs.Run.Step

namespace ActorAnalysis

variable {S : Type} [DecidableEq S] [Hashable S]

structure Space.Popped (before : Space S) (s : S) (after : Space S) : Prop where
  waited : s ∈ before.frontier.queue
  ids : after.ids = before.ids
  reached : after.reached = before.reached
  valid : after.Valid
  frontier : ∀ x, x ∈ after.frontier.queue ↔ x ∈ before.frontier.queue ∧ x ≠ s

theorem Space.Popped.queue_perm {before after : Space S} {s : S} (popped : before.Popped s after)
    (valid : before.Valid) : before.frontier.queue.Perm (s :: after.frontier.queue) := by
  have gone : s ∉ after.frontier.queue := fun waits => ((popped.frontier s).mp waits).2 rfl
  refine (List.perm_ext_iff_of_nodup valid.1.distinct
    (List.nodup_cons.mpr ⟨gone, popped.valid.1.distinct⟩)).mpr fun x => ?_
  rw [List.mem_cons, popped.frontier]
  by_cases same : x = s
  · simp [same, popped.waited]
  · simp [same]

namespace Analysis

def popRule (A : Analysis S) : FrontierOrder → Frontier S → Option (S × Frontier S)
  | .fifo => Frontier.popFront?
  | .lifo => Frontier.popBack?
  | .orderKey => Frontier.popMinBy? A.orderKey

theorem takes_popRule (A : Analysis S) (order : FrontierOrder) :
    Frontier.Takes (A.popRule order) := by
  cases order with
  | fifo => exact Frontier.takes_popFront?
  | lifo => exact Frontier.takes_popBack?
  | orderKey => exact Frontier.takes_popMinBy? A.orderKey

theorem popNext_cases (A : Analysis S) (order : FrontierOrder) {space : Space S}
    (valid : space.Valid) :
    ((A.popNext order).on space = (.ok none, space) ∧ space.frontier.queue = []) ∨
      ∃ s after, (A.popNext order).on space = (.ok (some s), after) ∧ space.Popped s after := by
  have rule : A.popNext order = Explore.pop (A.popRule order) := by cases order <;> rfl
  have takes := A.takes_popRule order
  rw [rule]
  unfold Explore.pop
  cases h : A.popRule order space.frontier with
  | none =>
    simp only [h]
    exact .inl ⟨trivial, takes.nothing space.frontier valid.1 h⟩
  | some taken =>
    obtain ⟨s, rest⟩ := taken
    obtain ⟨waited, keeps, members⟩ := takes.one space.frontier s rest valid.1 h
    simp only [h]
    refine .inr ⟨s, { space with frontier := rest }, rfl, ?_⟩
    exact ⟨waited, rfl, rfl, ⟨keeps, valid.2⟩, members⟩

/-- A run that is not at its bound takes off the frontier the state that its order tells. -/
structure Selects (A : Analysis S) (config : RunConfig) (n : Statistics) (before : Space S) (s : S)
    (popped : Space S) : Prop where
  within : atBound config n = false
  pops : (A.popNext config.order).on before = (.ok (some s), popped)
  taken : before.Popped s popped

/-- An expansion keeps what the treatment of each successor keeps. In `inv out pending`, all
successors are `out`, and those in `pending` are not treated yet. -/
theorem expand_contract {A : Analysis S} {config : RunConfig} (statistics : Statistics) {s : S}
    {popped : Space S} {fault : Space S → Prop}
    (inv : List S → List S → Progress S → Space S → Prop)
    (failed : ∀ e ids, (A.succ s).run popped.ids = (.error e, ids) → fault (popped.withIds ids))
    (start : ∀ out ids, (A.succ s).run popped.ids = (.ok out, ids) →
      inv out out ⟨statistics, []⟩ (popped.withIds ids))
    (step : ∀ out p t rest, Explore.Contract (inv out (t :: rest) p) (A.visit config p t)
      (inv out rest) fault) :
    Explore.Contract (fun space => space = popped) (A.expand config statistics s)
      (fun p space => ∃ out, inv out [] p space) fault := by
  rintro space rfl
  unfold expand
  rw [Explore.on_bind]
  cases h : (A.succ s).run space.ids with | mk r ids =>
  cases r with
  | error e =>
    rw [Explore.on_draw_error h]
    exact failed e ids h
  | ok out =>
    rw [Explore.on_draw_ok h, Explore.next_ok]
    have folded : Explore.Contract (inv out out ⟨statistics, []⟩) (out.foldlM (A.visit config) _)
        (inv out []) fault := .foldlM (inv out) (step out)
    exact (folded.weaken (fun p space done => ⟨out, done⟩)) _ (start out ids h)

/-- How a run ends: with `inv`, or with targets and `found`. -/
def Ended (inv : Space S → Prop) (found : List S → Space S → Prop) :
    Option (RunOutcome S) → Space S → Prop
  | none, space => inv space
  | some ⟨.completed, _⟩, space => inv space ∧ space.frontier.queue = []
  | some ⟨.iterationBound, _⟩, space => inv space ∧ space.frontier.queue ≠ []
  | some ⟨.targetsFound targets, _⟩, space => targets ≠ [] ∧ found targets space

theorem Ended.map₂ {inv inv' last : Space S → Prop} {found found' found'' : List S → Space S → Prop}
    (invs : ∀ space, inv space → inv' space → last space)
    (founds : ∀ targets space, found targets space → found' targets space → found'' targets space)
    {outcome : Option (RunOutcome S)} {space : Space S} (first : Ended inv found outcome space)
    (second : Ended inv' found' outcome space) : Ended last found'' outcome space := by
  match outcome with
  | none => exact invs space first second
  | some ⟨.completed, _⟩ => exact ⟨invs space first.1 second.1, first.2⟩
  | some ⟨.iterationBound, _⟩ => exact ⟨invs space first.1 second.1, first.2⟩
  | some ⟨.targetsFound targets, _⟩ => exact ⟨first.1, founds targets space first.2 second.2⟩

theorem Ended.kept {inv : Space S → Prop} {outcome : Option (RunOutcome S)} {space : Space S}
    (ended : Ended inv (fun _ => inv) outcome space) : inv space := by
  cases outcome with
  | none => exact ended
  | some outcome =>
    cases outcome with | mk status statistics =>
    cases status with
    | completed => exact ended.1
    | iterationBound => exact ended.1
    | targetsFound targets => exact ended.2

/-- How a run ends, with the fuel that is left and its counters. -/
def Halted (config : RunConfig) (inv : Nat → Statistics → Space S → Prop)
    (found : List S → Statistics → Space S → Prop) : Option (RunOutcome S) → Space S → Prop
  | none, space => ∃ n, inv 0 n space
  | some ⟨.completed, n⟩, space => (∃ fuel, inv fuel n space) ∧ space.frontier.queue = []
  | some ⟨.iterationBound, n⟩, space =>
    (∃ fuel, inv fuel n space) ∧ space.frontier.queue ≠ [] ∧ atBound config n = true
  | some ⟨.targetsFound targets, n⟩, space => targets ≠ [] ∧ found targets n space

theorem Halted.ended {config : RunConfig} {inv : Nat → Statistics → Space S → Prop}
    {found : List S → Statistics → Space S → Prop} {last : Space S → Prop}
    {found' : List S → Space S → Prop} {outcome : Option (RunOutcome S)} {space : Space S}
    (halted : Halted config inv found outcome space)
    (invs : ∀ fuel n space, inv fuel n space → last space)
    (founds : ∀ targets n space, found targets n space → found' targets space) :
    Ended last found' outcome space := by
  match outcome with
  | none => exact invs _ _ _ halted.choose_spec
  | some ⟨.completed, _⟩ => exact ⟨invs _ _ _ halted.1.choose_spec, halted.2⟩
  | some ⟨.iterationBound, _⟩ => exact ⟨invs _ _ _ halted.1.choose_spec, halted.2.1⟩
  | some ⟨.targetsFound _, _⟩ => exact ⟨halted.1, founds _ _ _ halted.2⟩

/-- A run keeps what each expansion keeps that finds no target; each takes one unit of fuel. -/
theorem runFrom_rule {A : Analysis S} {config : RunConfig} (inv : Nat → Statistics → Space S → Prop)
    (found : List S → Statistics → Space S → Prop) {fault : Space S → Prop}
    (valid : ∀ fuel n space, inv fuel n space → space.Valid)
    (expand : ∀ fuel n s before popped, inv (fuel + 1) n before →
      A.Selects config n before s popped → Explore.Contract (fun space => space = popped)
        (A.expand config { n with iterations := n.iterations + 1 } s)
        (fun p space => (p.targets = [] → inv fuel p.statistics space) ∧
          (p.targets ≠ [] → found p.targets p.statistics space)) fault)
    (fuel : Nat) (n : Statistics) :
    Explore.Contract (inv fuel n) (A.runFrom config fuel n) (Halted config inv found) fault := by
  induction fuel generalizing n with
  | zero => exact fun _ h => ⟨n, h⟩
  | succ fuel ih =>
    have look : Explore.Contract (inv (fuel + 1) n) Explore.frontier
        (fun frontier space => inv (fuel + 1) n space ∧ frontier = space.frontier) fault :=
      fun _ h => ⟨h, rfl⟩
    refine look.bind fun frontier => ?_
    split
    · rename_i bounded
      simp only [Bool.and_eq_true, Bool.not_eq_true'] at bounded
      rintro space ⟨h, rfl⟩
      exact ⟨⟨_, h⟩, fun none => by simp [Frontier.isEmpty, none] at bounded, bounded.1⟩
    · rename_i goesOn
      rintro space ⟨h, rfl⟩
      rw [Explore.on_bind]
      rcases A.popNext_cases config.order (valid _ n space h) with
        ⟨pops, empty⟩ | ⟨s, popped, pops, taken⟩
      · rw [pops]
        exact ⟨⟨_, h⟩, empty⟩
      · have within : atBound config n = false := by
          -- the run would have stopped, since the state that it takes was waiting
          have waits := List.ne_nil_of_mem taken.waited
          simpa [Frontier.isEmpty, waits] using goesOn
        rw [pops, Explore.next_ok]
        refine ((expand fuel n s space popped h ⟨within, pops, taken⟩).bind fun p => ?_) popped rfl
        split
        · rename_i none
          exact fun space kept => ih p.statistics space (kept.1 (List.isEmpty_iff.mp none))
        · rename_i some
          have some : p.targets ≠ [] := fun none => some (by simp [none])
          exact fun space kept => ⟨some, kept.2 some⟩

theorem runFrom_contract {A : Analysis S} {config : RunConfig} {inv : Space S → Prop}
    (found : List S → Space S → Prop) {fault : Space S → Prop}
    (valid : ∀ space, inv space → space.Valid)
    (expand : ∀ statistics s before popped, inv before → before.Popped s popped →
      Explore.Contract (fun space => space = popped) (A.expand config statistics s)
        (fun p space => (p.targets = [] → inv space) ∧ (p.targets ≠ [] → found p.targets space))
        fault) (fuel : Nat) (statistics : Statistics) :
    Explore.Contract inv (A.runFrom config fuel statistics) (Ended inv found) fault := by
  have halts : Explore.Contract inv (A.runFrom config fuel statistics)
      (Halted config (fun _ _ => inv) (fun targets _ => found targets)) fault :=
    runFrom_rule (fun _ _ => inv) _ (fun _ _ => valid)
      (fun _ _ s before popped h selects => expand _ s before popped h selects.taken) fuel statistics
  exact halts.weaken fun _ _ halted => halted.ended (fun _ _ _ h => h) (fun _ _ _ h => h)

theorem addInitial_on (A : Analysis S) (added : Nat) (s : S) (space : Space S) :
    ∃ count, (A.addInitial added s).on space = (.ok count,
      if space.reached.contains s then space else space.add s (A.keys s)) := by
  unfold addInitial
  rw [Explore.on_addNew]
  split
  · exact ⟨added, rfl⟩
  · exact ⟨added + 1, rfl⟩

theorem seed_contract {A : Analysis S} {program : Program} {space : Space S}
    {fault : Space S → Prop} (inv : List S → List S → Space S → Prop)
    (failed : ∀ e ids, (A.initial program).run space.ids = (.error e, ids) →
      fault (space.withIds ids))
    (start : ∀ out ids, (A.initial program).run space.ids = (.ok out, ids) →
      inv out out (space.withIds ids))
    (step : ∀ out s rest before, inv out (s :: rest) before →
      inv out rest (if before.reached.contains s then before else before.add s (A.keys s))) :
    Explore.Contract (fun before => before = space) (A.seed program)
      (fun _ space => ∃ out, inv out [] space) fault := by
  rintro space rfl
  unfold seed
  rw [Explore.on_bind]
  cases h : (A.initial program).run space.ids with | mk r ids =>
  cases r with
  | error e =>
    rw [Explore.on_draw_error h]
    exact failed e ids h
  | ok out =>
    rw [Explore.on_draw_ok h, Explore.next_ok]
    have added : Explore.Contract (inv out out) (out.foldlM A.addInitial 0)
        (fun _ => inv out []) fault := by
      refine .foldlM (fun pending _ => inv out pending) fun count s rest before h => ?_
      obtain ⟨count, done⟩ := A.addInitial_on count s before
      rw [done]
      exact step out s rest before h
    exact (added.weaken fun _ _ done => ⟨out, done⟩) _ (start out ids h)

end Analysis
end ActorAnalysis
