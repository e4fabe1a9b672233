import ActorAnalysis.Proofs.Run.Invariant
import ActorAnalysis.Proofs.Run.Record

namespace ActorAnalysis

variable {S : Type} [DecidableEq S] [Hashable S]

/-- All reached states have `P`, apart from the reported violations, which are in both sets. -/
structure Space.Reported (A : Analysis S) (P : S → Prop) (targets : List S) (space : Space S) :
    Prop where
  valid : space.Valid
  reached : ∀ s ∈ space.reached.toList, P s ∨ s ∈ targets
  waiting : ∀ t ∈ targets, t ∈ space.frontier.queue ∧ t ∈ space.reached.toList ∧
    (A.target t).isEmpty = false

namespace Space.Reported

variable {A : Analysis S} {P : S → Prop} {targets : List S} {space : Space S}
  (reported : space.Reported A P targets)
include reported

theorem target {s : S} (keys : SortedSet PartitionKey) (violates : (A.target s).isEmpty = false) :
    (space.add s keys).Reported A P (targets ++ [s]) where
  valid := reported.valid.add s keys
  reached x hx := by
    rcases (mem_reached_add reported.valid s x keys).mp hx with rfl | hx
    · exact .inr (List.mem_append_right _ List.mem_cons_self)
    · exact (reported.reached x hx).imp_right (List.mem_append_left _)
  waiting x hx := by
    rw [mem_frontier_add reported.valid, mem_reached_add reported.valid]
    rcases List.mem_append.mp hx with hx | hx
    · obtain ⟨waits, found, violates⟩ := reported.waiting x hx
      exact ⟨.inr waits, .inr found, violates⟩
    · obtain rfl := List.mem_singleton.mp hx
      exact ⟨.inl rfl, .inl rfl, violates⟩

theorem add {s : S} (keys : SortedSet PartitionKey) (h : P s) :
    (space.add s keys).Reported A P targets where
  valid := reported.valid.add s keys
  reached x hx := by
    rcases (mem_reached_add reported.valid s x keys).mp hx with rfl | hx
    · exact .inl h
    · exact reported.reached x hx
  waiting x hx := by
    obtain ⟨waits, found, violates⟩ := reported.waiting x hx
    exact ⟨(mem_frontier_add reported.valid s x keys).mpr (.inr waits),
      (mem_reached_add reported.valid s x keys).mpr (.inr found), violates⟩

theorem withIds (ids : Ids) : (space.withIds ids).Reported A P targets :=
  ⟨reported.valid, reported.reached, reported.waiting⟩

end Space.Reported

theorem Space.Reported.replaced {A : Analysis S} {P : S → Prop} {space : Space S} {ids : Ids}
    {s m : S} {absorbed : List S} (reported : space.Reported A P []) (h : P m) :
    (A.replaced s m absorbed (space.withIds ids)).Reported A P [] := by
  have valid : (space.withIds ids).Valid := reported.valid
  refine ⟨(Space.dropAll_spec _ valid).1.add m _, fun x hx => .inl ?_, nofun⟩
  rcases (A.mem_reached_replaced s m absorbed valid x).mp hx with rfl | ⟨hx, -⟩
  · exact h
  · exact (reported.reached x hx).resolve_right List.not_mem_nil

namespace Analysis

section Halting

variable {A : Analysis S} {P : S → Prop} {config : RunConfig}
  (halts : config.stopOnFirstTarget = true) (quiet : ∀ s, (A.target s).isEmpty = true → P s)
include halts quiet

/-- A run has to care for the merges alone: the violations that it adds are reported. -/
theorem visit_keeps_reported (p : Progress S) (t : S) :
    Explore.Contract
      (fun space => space.Reported A P p.targets ∧ ∀ m, A.VisitMerges config p t space m → P m)
      (A.visit config p t) (fun q => Space.Reported A P q.targets) (fun _ => True) := by
  rintro space ⟨reported, merges⟩
  have visited := A.visit_visited config p t space
  cases done : (A.visit config p t).on space with | mk r after =>
  rw [done] at visited
  have plain {s : S} (safe : (A.target s).isEmpty = true ∨ config.stopOnFirstTarget = false) :
      P s := quiet s (safe.resolve_right (by simp [halts]))
  cases visited with
  | failed | unmerged => trivial
  | covered => exact reported
  | target _ _ _ violates => exact reported.target _ violates
  | pending _ _ _ safe _ => exact reported.add _ (plain safe)
  | @merging s _ _ _ wide new safe none merging =>
    have added := reported.add (A.keys s) (plain safe)
    rw [none] at added
    cases merging with
    | skipped => exact added
    | alone => exact added.withIds _
    | @merged m absorbed ids standard some ran =>
      exact added.replaced (merges m ⟨s, absorbed, ids, wide, new, safe, none, standard, some, ran⟩)

theorem expand_keeps_reported (n : Statistics) {s : S} {before popped : Space S}
    (reported : before.Reported A P []) (taken : before.Popped s popped)
    (merges : ∀ out t rest p now m, A.Treating config ⟨n, []⟩ s popped out (t :: rest) p now →
      now.Reported A P p.targets → A.VisitMerges config p t now m → P m) :
    Explore.Contract (fun space => space = popped) (A.expand config n s)
      (fun p => Space.Reported A P p.targets) (fun _ => True) := by
  have start : popped.Reported A P [] :=
    ⟨taken.valid, fun x hx => reported.reached x (taken.reached ▸ hx), nofun⟩
  have treated : Explore.Contract (fun space => space = popped) (A.expand config n s)
      (fun p space => ∃ out, space.Reported A P p.targets ∧
        A.Treating config ⟨n, []⟩ s popped out [] p space) (fun _ => True) := by
    refine expand_contract n (fun out pending p space => space.Reported A P p.targets ∧
        A.Treating config ⟨n, []⟩ s popped out pending p space) (fun _ _ _ => trivial)
      (fun _ ids ran => ⟨start.withIds ids, ids, [], [], ran, rfl, .none⟩)
      (fun out p t rest => ?_)
    have kept := visit_keeps_reported halts quiet p t
    exact .and (fun space h => kept space ⟨h.1, fun m => merges out t rest p space m h.2 h.1⟩)
      (fun space h => visit_treating out p t rest space h.2)
  exact treated.weaken fun _ _ kept => kept.choose_spec.1

/-- A run that ends without a report has found no violation among the successors. -/
theorem run_keeps_reported {space : Space S} (reported : space.Reported A P [])
    (merges : ∀ p t now m, A.Treats config space p t now → now.Reported A P p.targets →
      A.VisitMerges config p t now m → P m) (fuel : Nat) :
    Explore.Contract (fun now => now = space) (A.run config fuel)
      (Ended (Space.Reported A P []) (Space.Reported A P)) (fun _ => True) := by
  have halted : Explore.Contract _ (A.run config fuel) _ (fun _ => True) :=
    runFrom_rule (fun _ n now => now.Reported A P [] ∧ A.Passes config space n now)
      (fun targets _ now => now.Reported A P targets) (fun _ _ _ h => h.1.valid)
      (fun _ n s before popped h selects => by
        have kept := expand_keeps_reported halts quiet { n with iterations := n.iterations + 1 }
          h.1 selects.taken fun out t rest p now m treating =>
            merges p t now m ⟨n, before, s, popped, out, rest, h.2, selects, treating⟩
        refine (kept.and (expand_expands selects)).weaken ?_
        rintro ⟨m, targets⟩ now ⟨kept, out, looked, expands⟩
        refine ⟨?_, fun _ => kept⟩
        rintro rfl
        exact ⟨kept, h.2.next expands⟩) fuel {}
  rintro _ rfl
  exact (halted.weaken fun _ _ halted => halted.ended (fun _ _ _ h => h.1) (fun _ _ _ h => h)) _
    ⟨reported, .start⟩

end Halting

/-- States without a violation have `P`, and merging keeps it. -/
structure Overlooks (A : Analysis S) (P : S → Prop) : Prop where
  quiet : ∀ {s}, (A.target s).isEmpty = true → P s
  merge : A.policy = .standard → ∀ {ids s t m after}, P s → P t → A.shouldMerge s t = true →
    (A.merge s t).run ids = (.ok m, after) → P m

namespace Overlooks

variable {A : Analysis S} {P : S → Prop} (overlooks : A.Overlooks P) {config : RunConfig}
  (halts : config.stopOnFirstTarget = true)
include overlooks halts

theorem merges {p : Progress S} {t m : S} {space : Space S}
    (reported : space.Reported A P p.targets) (merges : A.VisitMerges config p t space m) :
    P m := by
  obtain ⟨s, absorbed, ids, -, -, safe, none, standard, -, ran⟩ := merges
  have h : P s := overlooks.quiet (safe.resolve_right (by simp [halts]))
  have added := reported.add (A.keys s) h
  have step {ids u r m after} (now : P u)
      (member : r ∈ A.candidates s (space.add s (A.keys s))) (should : A.shouldMerge u r = true)
      (ran : (A.merge u r).run ids = (.ok m, after)) : P m := by
    have known := added.reached r (mem_reached_of_mem_candidates member)
    rw [none] at known
    exact overlooks.merge standard now (known.resolve_right List.not_mem_nil) should ran
  exact (absorb_rule (fun _ u _ => P u) step (fun _ h => h) [] h ran).1

theorem run (fuel : Nat) :
    Explore.Contract (Space.Reported A P []) (A.run config fuel)
      (Ended (Space.Reported A P []) (Space.Reported A P)) (fun _ => True) :=
  fun space reported => run_keeps_reported halts (fun _ => overlooks.quiet) reported
    (fun _ _ _ _ _ now => overlooks.merges halts now) fuel space rfl

end Overlooks

theorem seed_reported {A : Analysis S} {P : S → Prop} {program : Program} {ids : Ids}
    (initial : ∀ out after, (A.initial program).run ids = (.ok out, after) → ∀ s ∈ out, P s) :
    Explore.Contract (fun space => space = ⟨ids, ∅, ∅⟩) (A.seed program)
      (fun _ => Space.Reported A P []) (fun _ => True) := by
  have empty (after : Ids) : (⟨after, ∅, ∅⟩ : Space S).Reported A P [] :=
    ⟨Space.valid_empty after, fun s hs => by simp [Reached.toList_empty] at hs, nofun⟩
  have added : Explore.Contract (fun space => space = ⟨ids, ∅, ∅⟩) (A.seed program)
      (fun _ space => ∃ _ : List S, space.Reported A P [] ∧ ∀ s ∈ [], P s) (fun _ => True) := by
    refine seed_contract (fun _ pending space => space.Reported A P [] ∧ ∀ s ∈ pending, P s)
      (fun _ _ _ => trivial) (fun out after ran => ⟨empty after, initial out after ran⟩) ?_
    rintro out s rest before ⟨reported, pending⟩
    have later : ∀ x ∈ rest, P x := fun x hx => pending x (List.mem_cons_of_mem s hx)
    split
    · exact ⟨reported, later⟩
    · exact ⟨reported.add _ (pending s List.mem_cons_self), later⟩
  exact added.weaken fun _ space done => done.choose_spec.1

end Analysis
end ActorAnalysis
