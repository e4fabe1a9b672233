import ActorAnalysis.Proofs.Schedule.Lineup
import ActorAnalysis.Proofs.Stack.Scheduling

namespace ActorAnalysis

/-- What becomes of the thread at `j` while the one at `index` takes steps, with `known` numbers
drawn before. It keeps its number, and stays or resumes unless it is the one that steps; or it is
restarted at home, where it stays. -/
def Thread.Proceeds (p : Program) (index : Nat) (known : Ids) (j : Nat) (a b : Thread) : Prop :=
  b.ref = a.ref ∧ b.id = a.id ∧ (j = index ∨ a.Resumed b) ∨
    j ≠ index ∧ known.threads ≤ b.id ∧ ∃ home, p.homes[j]? = some (a.ref, home) ∧
      b = .start b.id a.actor a.script home

theorem Thread.Proceeds.ref {p : Program} {index : Nat} {known : Ids} {j : Nat} {a b : Thread}
    (proceeds : a.Proceeds p index known j b) : b.ref = a.ref := by
  rcases proceeds with ⟨ref, -⟩ | ⟨-, -, home, -, same⟩
  · exact ref
  · rw [same]
    rfl

namespace Scheduler

variable {D : Type} {m : Scheduler D} {index : Nat}

theorem Fate.proceeds {p : Program} {body : Relation} {move : Move} {known ids after : Ids}
    {renew : ScriptRef → Option ThreadId} {j : Nat} {a t b : Thread} (later : known ≤ ids)
    (fresh : ∀ ref x, renew ref = some x → ids.threads ≤ x ∧ x < after.threads)
    (proceeds : a.Proceeds p index known j t) (fate : Fate p index body move renew j t b) :
    a.Proceeds p index known j b := by
  have ref := fate.numbered.1.trans proceeds.ref
  have id := fate.numbered.2
  cases fate with
  | moved _ none =>
    rw [none] at id
    rcases proceeds with ⟨-, same, -⟩ | ⟨other, -⟩
    · exact .inl ⟨ref, id.trans same, .inl rfl⟩
    · exact absurd rfl other
  | kept other none resumed stays =>
    rw [none] at id
    rcases proceeds with ⟨-, same, here | before⟩ | ⟨-, new, home, at_, start⟩
    · exact absurd here other
    · exact .inl ⟨ref, id.trans same, .inr (before.trans resumed)⟩
    · obtain rfl : b = t := by
        refine stays ?_ ?_
        · rw [start]
          rfl
        · rw [start]
          exact nofun
      exact .inr ⟨other, new, home, at_, start⟩
  | @placed _ _ x home other drawn at_ =>
    have same := proceeds.ref
    refine .inr ⟨other, Nat.le_trans later.1 (fresh _ _ drawn).1, home, same ▸ at_, ?_⟩
    rw [show a.actor = t.actor from (congrArg ScriptRef.actor same).symm,
      show a.script = t.script from (congrArg ScriptRef.script same).symm]
    rfl

end Scheduler

namespace Scheduled

variable {D : Type} {program : Program} {ids after : Ids} {s : Scheduled D}

structure Aligned (program : Program) (ids : Ids) (s : Scheduled D) : Prop where
  well : s.WellFormed ids
  lineup : Lineup program s.threads

theorem Aligned.grows (h : s.Aligned program ids) (later : ids ≤ after) :
    s.Aligned program after :=
  ⟨h.well.grows later, h.lineup⟩

section Steps

variable {m : Scheduler D} (unambiguous : m.program.Unambiguous) {index : Nat}
include unambiguous

theorem Aligned.step {out : List (Scheduled D)} (h : s.Aligned m.program ids)
    (enabled : m.Enabled s index) (ran : (m.stepThread s index).run ids = (.ok out, after)) :
    ∀ u ∈ out, u.Aligned m.program after := by
  intro u hu
  exact ⟨Scheduler.stepThread_wellFormed h.well (enabled.turn h.well) ran u hu,
    Scheduler.stepThread_lineup unambiguous h.well h.lineup enabled ran u hu⟩

structure Since (m : Scheduler D) (index : Nat) (start c : Scheduled D × Ids) : Prop where
  later : start.2 ≤ c.2
  aligned : c.1.Aligned m.program c.2
  threads : ∀ (j : Nat) a b, start.1.threads[j]? = some a → c.1.threads[j]? = some b →
    a.Proceeds m.program index start.2 j b

omit unambiguous in
theorem Since.refl {c : Scheduled D × Ids} (h : c.1.Aligned m.program c.2) :
    Since m index c c := by
  refine ⟨Ids.le_refl c.2, h, fun j a b ha hb => ?_⟩
  obtain rfl : a = b := Option.some.inj (ha.symm.trans hb)
  exact .inl ⟨rfl, rfl, .inr (.refl a)⟩

theorem Since.step {start c e : Scheduled D × Ids} (since : Since m index start c)
    (enabled : m.Enabled c.1 index) (steps : m.Steps index c e) : Since m index start e := by
  obtain ⟨out, ⟨first, last, before, later, ran⟩, hu⟩ := steps
  have aligned := since.aligned.grows before
  have known := Ids.le_trans since.later before
  have low := Ids.le_trans known (Alloc.le_of_run ran)
  refine ⟨Ids.le_trans low later, (aligned.step unambiguous enabled ran e.1 hu).grows later, ?_⟩
  intro j a b ha hb
  obtain ⟨t, script, move, first', last', renew, -, -, -, before', -, outcome, -⟩ :=
    Scheduler.stepThread_outcome unambiguous aligned.lineup enabled ran hu
  obtain ⟨t, ht, fate⟩ := outcome.back hb
  exact fate.proceeds (Ids.le_trans known before') outcome.fresh (since.threads j a t ha ht)

theorem Since.runs {start c e : Scheduled D × Ids} (since : Since m index start c)
    (runs : m.Runs index c e) : Since m index start e := by
  induction runs with
  | refl => exact since
  | tail _ next ih =>
    exact ih.step unambiguous (Scheduler.enabled_of_atomic m ih.aligned.well next.1) next.2

theorem Aligned.succ {config : ScheduleConfig} {out : List (Scheduled D)}
    (h : s.Aligned m.program ids) (done : (m.successors config s).run ids = (.ok out, after)) :
    ∀ u ∈ out, ∃ index last, u.stepped = .singleton index ∧ last ≤ after ∧
      Since m index (s, ids) (u, last) := by
  intro u hu
  obtain ⟨index, c, last, enabled, steps, runs, later, -⟩ := Scheduler.successors_runs done hu
  have since := ((Since.refl h).step unambiguous enabled steps).runs unambiguous runs
  exact ⟨index, last, runs.stepped steps, later, since⟩

end Steps

theorem aligned_invariant (unambiguous : program.Unambiguous) (config : ScheduleConfig)
    (key : List Thread → PartitionKey) (inner : DataAnalysis D) (merges widens : Prop) :
    (analysis program config key inner).Invariant program merges widens (Aligned program) :=
  threads_invariant config key inner merges widens (Lineup program)
    (fun _ _ => ⟨fun h => ⟨h.well, h.lineup⟩, fun h => ⟨h.1, h.2⟩⟩) (.start unambiguous)
    (fun well lineup enabled ran =>
      Scheduler.stepThread_lineup unambiguous well lineup enabled ran)

/-- In every state that can be reached, the threads stand as they stood at the start, two have the
same number just if they run the same script, and each is at a location of its script: at an exit
if it is done, and waiting at its own entry, for nobody and without failures, if it is not triggered
yet. Where a thread has yielded, another one runs. From a state to its successors, a thread keeps
its number, and stays or resumes unless it has stepped itself; or else it is a new thread of the
same script, at its own entry. -/
theorem threads_stay_in_line (unambiguous : program.Unambiguous) (config : ScheduleConfig)
    (key : List Thread → PartitionKey) (inner : DataAnalysis D)
    (reachable : (analysis program config key inner).Reachable program ids s) :
    (∀ first out last, ((analysis program config key inner).initial program).run first =
      (.ok out, last) → ∀ s₀ ∈ out, s.threads.map Thread.ref = s₀.threads.map Thread.ref) ∧
    (∀ t ∈ s.threads, ∀ u ∈ s.threads, t.id = u.id ↔ t.actor = u.actor ∧ t.script = u.script) ∧
    (∀ (j : Nat) t, s.threads[j]? = some t → ∃ script, program.scriptAt t.ref = .ok script ∧
      t.location ∈ script.body.locations ∧
      (t.status = .done → t.location ∈ script.body.exit) ∧
      (t.triggered = false → t.status = .waiting ∧
        program.entryOf? s.threads j = some t.location ∧ t.waitsFor = ∅ ∧ t.failedFor = ∅)) ∧
    ((∃ t ∈ s.threads, t.status = .yielded) → ∃ t ∈ s.threads, t.status.isRunning = true) ∧
    (∀ out after, ((analysis program config key inner).succ s).run ids = (.ok out, after) →
      ∀ u ∈ out, ∀ (j : Nat) t t', s.threads[j]? = some t → u.threads[j]? = some t' →
        t'.id = t.id ∧ (j ∈ u.stepped ∨ t.Resumed t') ∨
        ids.threads ≤ t'.id ∧ ∃ home, program.entryOf? s.threads j = some home ∧
          t' = .start t'.id t.actor t.script home) := by
  have aligned := (aligned_invariant unambiguous config key inner True True).reachable reachable
  have refs := aligned.lineup.refs
  refine ⟨?_, ?_, ?_, aligned.lineup.rounds, ?_⟩
  · intro first out last done s₀ hs₀
    have start := (aligned_invariant unambiguous config key inner True True).initial done s₀ hs₀
    exact refs.trans start.lineup.refs.symm
  · intro t ht u hu
    rw [aligned.lineup.grouped t ht u hu]
    simp only [Thread.ref, ScriptRef.mk.injEq]
  · intro j t found
    obtain ⟨home, at_⟩ := Program.home_of_refs refs found
    obtain ⟨script, known, -⟩ := unambiguous.scriptAt_home at_
    have sound := aligned.lineup.sound j t home script found at_ known
    refine ⟨script, known, sound.inside, sound.ended, fun untriggered => ?_⟩
    have entry := unambiguous.entryOf? refs found at_
    rw [entry, sound.idle untriggered]
    exact ⟨rfl, rfl, rfl, rfl⟩
  · intro out after done u hu j t t' ht ht'
    obtain ⟨index, last, stepped, -, since⟩ :=
      aligned.succ (m := ⟨program, inner.succFor⟩) unambiguous done u hu
    rcases since.threads j t t' ht ht' with ⟨-, id, here | resumed⟩ | ⟨-, new, home, at_, start⟩
    · refine .inl ⟨id, .inl ?_⟩
      rw [stepped, here]
      exact SortedSet.mem_singleton.mpr rfl
    · exact .inl ⟨id, .inr resumed⟩
    · exact .inr ⟨new, home, unambiguous.entryOf? refs ht at_, start⟩

end Scheduled

namespace Reentry

def receiver : Relation where
  id := 1
  name := "receive"
  entry := .ofList [0, 2]
  exit := .ofList [1, 3]
  transitions := [⟨0, .skip, 1⟩, ⟨2, .skip, 3⟩]

def actors : List Actor :=
  [⟨"a", [⟨0, .bootstrap, .sequence 0 "send" [.broadcast "go", .skip]⟩,
    ⟨1, .message "go", receiver⟩], []⟩]

theorem distinct : (relationIds actors).Nodup := by decide

def program : Program := ⟨actors, ∅, distinct⟩

theorem unambiguous : program.Unambiguous := ⟨by decide, by decide⟩

abbrev analysis : Analysis (Scheduled DataState) :=
  Scheduled.analysis program ⟨false, 1000⟩ (fun _ => 0) (DataState.analysis ⟨true, .all⟩)

def before : Scheduled DataState :=
  .start [.start 0 "a" 0 0, (Thread.start 1 "a" 1 0).untriggered,
    (Thread.start 1 "a" 1 2).untriggered] (.known ∅)

def sent : Scheduled DataState where
  threads := [.start 0 "a" 0 1, .start 2 "a" 1 0, .start 2 "a" 1 2]
  stepped := .singleton 0
  violated := ∅
  data := .known ∅

theorem starts : (analysis.initial program).run .start = (.ok [before], ⟨2, 0⟩) := rfl

theorem sends : (analysis.succ before).run ⟨2, 0⟩ = (.ok [sent], ⟨3, 0⟩) := rfl

end Reentry

/-- Both threads of the receiver wait at their own entries, and are restarted there as one
instance. -/
theorem Scheduled.receiver_reenters_at_both_entries :
    Reentry.program.Unambiguous ∧
      Reentry.analysis.Reachable Reentry.program ⟨2, 0⟩ Reentry.before ∧
      (Reentry.analysis.succ Reentry.before).run ⟨2, 0⟩ = (.ok [Reentry.sent], ⟨3, 0⟩) ∧
      Reentry.program.entryOf? Reentry.before.threads 1 = some 0 ∧
      ∃ home, Reentry.program.entryOf? Reentry.before.threads 2 = some home ∧
        Thread.start 2 "a" 1 2 = .start 2 "a" 1 home := by
  have reachable : Reentry.analysis.Reachable Reentry.program ⟨2, 0⟩ Reentry.before :=
    .initial Reentry.starts List.mem_cons_self
  obtain ⟨-, -, each, -, step⟩ :=
    threads_stay_in_line Reentry.unambiguous _ _ _ reachable
  refine ⟨Reentry.unambiguous, reachable, Reentry.sends, ?_, ?_⟩
  · obtain ⟨script, -, -, -, idle⟩ := each 1 _ rfl
    exact (idle rfl).2.1
  · rcases step _ _ Reentry.sends Reentry.sent List.mem_cons_self 2 _ _ rfl rfl with
      ⟨same, -⟩ | ⟨-, restarted⟩
    · exact nomatch same
    · exact restarted

end ActorAnalysis
