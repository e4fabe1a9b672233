import ActorAnalysis.Proofs.Behaviour
import ActorAnalysis.Proofs.Data.Valuation
import ActorAnalysis.Proofs.Schedule.Simulation

namespace ActorAnalysis

def Scheduler.behaviour {D : Type} (m : Scheduler D) (starts : D → Prop) :
    Behaviour (Scheduled D × Ids) where
  start c := ∃ threads d, (initialThreads m.program).run Ids.start = (.ok threads, c.2) ∧
    starts d ∧ c.1 = .start threads d
  next c e := ∃ index out, m.Enabled c.1 index ∧
    (m.stepThread c.1 index).run c.2 = (.ok out, e.2) ∧ e.1 ∈ out
  violates c p := p ∈ c.1.violated

namespace Program

def exact (p : Program) : Scheduler Valuation := ⟨p, fun σ op => .ok (σ.step op)⟩

/-- The executions of a program, from all memories that agree with its variables. -/
def executions (p : Program) : Behaviour (Scheduled Valuation × Ids) :=
  p.exact.behaviour fun σ => ∀ x v, p.vars.get? x = some v → σ x = v

end Program

namespace Scheduler

variable {D E : Type} {m : Scheduler D} {n : Scheduler E} {starts : D → Prop}
  {related : D → E → Prop}

theorem wellFormed_of_reaches {c : Scheduled D × Ids} (reaches : (m.behaviour starts).Reaches c) :
    c.1.WellFormed c.2 := by
  induction reaches with
  | start h =>
    obtain ⟨threads, d, ran, -, same⟩ := h
    rw [run_initialThreads] at ran
    obtain ⟨hthreads, hids⟩ := Prod.mk.inj ran
    rw [same, ← Except.ok.inj hthreads, ← hids]
    exact start_wellFormed m.program Ids.start d
  | next _ step ih =>
    obtain ⟨index, out, enabled, ran, member⟩ := step
    exact stepThread_wellFormed ih (enabled.turn ih) ran _ member

/-- A state stands for those that differ from it in the names of threads only, and whose data it
stands for. -/
def Covers (related : D → E → Prop) (s : Scheduled E) (c : Scheduled D × Ids) : Prop :=
  c.1.WellFormed c.2 ∧ c.1.Alike related s

theorem Covers.replace {s t : Scheduled E} {c : Scheduled D × Ids} (covers : Covers related s c)
    (same : t.threads = s.threads) (data : related c.1.data s.data → related c.1.data t.data) :
    Covers related t c := by
  obtain ⟨well, ρ, inj, renamed, h⟩ := covers
  exact ⟨well, ρ, inj, same.trans renamed, data h⟩

section Caught

variable (simulates : m.Simulates n related) {index : Nat} {ids after : Ids}
include simulates

theorem Simulates.covers_step {s : Scheduled E} {c d : Scheduled D × Ids}
    {stepped : List (Scheduled E)} {out : List (Scheduled D)} (well : s.WellFormed ids)
    (covers : Covers related s c) (enabled : m.Enabled c.1 index)
    (done : (m.stepThread c.1 index).run c.2 = (.ok out, d.2)) (member : d.1 ∈ out)
    (ran : (n.stepThread s index).run ids = (.ok stepped, after)) :
    ∃ t ∈ stepped, Covers related t d := by
  obtain ⟨well', alike⟩ := covers
  obtain ⟨t, ht, alike'⟩ := simulates.stepThread alike well' well done ran d.1 member
  exact ⟨t, ht, stepThread_wellFormed well' (enabled.turn well') done d.1 member, alike'⟩

/-- Inside an atomic section an execution only has the aggregated thread to step, and violates
nothing new, so it comes by one of the states at the end. -/
theorem Simulates.aggregate_caught {steps : Nat} {level out : List (Scheduled E)}
    (wells : ∀ s ∈ level, s.WellFormed ids)
    (done : (n.aggregate index steps level).run ids = (.ok out, after))
    {known : Property → Prop} {d : Scheduled D × Ids} (covered : ∃ t ∈ level, Covers related t d)
    (quiet : d.1.isAtomic index = true → ∀ p ∈ d.1.violated, known p) :
    (m.behaviour starts).Caught known (fun e => ∃ t ∈ out, Covers related t e) d := by
  induction steps generalizing level out ids d with
  | zero =>
    have same : out = level := by
      cases level <;> exact (Alloc.run_pure_ok.mp done).1
    exact .here (same ▸ covered)
  | succ steps ih =>
    obtain ⟨t, ht, covers⟩ := covered
    obtain ⟨kept, next, later, mid, rfl, before, further, -, new, each⟩ := aggregate_succ done
    rcases each t ht with stays | ⟨atomic, out, ⟨first, last, start, ends, ran⟩, inside⟩
    · exact .here ⟨t, List.mem_append_left later stays, covers⟩
    · have atomic' : d.1.isAtomic index = true := covers.2.isAtomic index ▸ atomic
      refine .later (quiet atomic') fun e step => ?_
      obtain ⟨i, outs, enabled, stepped, member⟩ := step
      obtain rfl : i = index := by
        obtain ⟨l, done', hi⟩ := enabled
        rw [eligible_of_atomic m covers.1 atomic'] at done'
        cases done'
        exact List.mem_singleton.mp hi
      have next_wells : ∀ u ∈ next, u.WellFormed mid := by
        intro u hu
        obtain ⟨s, hs, atomic, out, ⟨first, last, start, ends, ran⟩, hu⟩ := new u hu
        have well := (wells s hs).grows start
        exact (stepThread_wellFormed well ((enabled_of_atomic n well atomic).turn well) ran u
          hu).grows ends
      obtain ⟨t', ht', covers'⟩ := simulates.covers_step ((wells t ht).grows start) covers enabled
        stepped member ran
      have caught := ih next_wells further ⟨t', inside t' ht', covers'⟩ fun inner p violated =>
        quiet atomic' p (violated_of_stepThread_atomic stepped member inner violated)
      exact caught.mono (fun _ h => h) fun _ ⟨u, hu, h⟩ => ⟨u, List.mem_append_right kept hu, h⟩

/-- All that follows on a covered state is caught by the successors. -/
theorem Simulates.successors_caught {config : ScheduleConfig} {s : Scheduled E}
    {out : List (Scheduled E)} (well : s.WellFormed ids)
    (done : (n.successors config s).run ids = (.ok out, after)) {c d : Scheduled D × Ids}
    (covers : Covers related s c) (step : (m.behaviour starts).next c d) :
    (m.behaviour starts).Caught ((m.behaviour starts).violates c)
      (fun e => ∃ t ∈ out, Covers related t e) d := by
  obtain ⟨index, outs, enabled, stepped, member⟩ := step
  obtain ⟨indices, parts, eligible, rfl, each⟩ := successors_gave done
  have chosen := simulates.enabled covers.2 enabled eligible
  obtain ⟨part, hpart, first, last, before, later, ran⟩ := mem_of_forall₂ each chosen
  have listed {u : Scheduled E} (hu : u ∈ part) : u ∈ parts.flatten :=
    List.mem_flatten.mpr ⟨part, hpart, hu⟩
  unfold stepEligible at ran
  rw [Alloc.run_bind_ok] at ran
  obtain ⟨level, mid', ran, rest⟩ := ran
  have well := well.grows before
  obtain ⟨t, ht, covers'⟩ := simulates.covers_step well covers enabled stepped member ran
  split at rest
  · have turn : s.Turn index := Enabled.turn ⟨indices, eligible, chosen⟩ well
    have wells := stepThread_wellFormed well turn ran
    have caught : (m.behaviour starts).Caught ((m.behaviour starts).violates c)
        (fun e => ∃ t ∈ part, Covers related t e) d :=
      simulates.aggregate_caught wells rest ⟨t, ht, covers'⟩ fun atomic p violated =>
        violated_of_stepThread_atomic stepped member atomic violated
    exact caught.mono (fun _ h => h) fun _ ⟨u, hu, h⟩ => ⟨u, listed hu, h⟩
  · obtain ⟨rfl, rfl⟩ := Alloc.run_pure_ok.mp rest
    exact .here ⟨t, listed ht, covers'⟩

end Caught
end Scheduler
end ActorAnalysis
