import ActorAnalysis.Proofs.Alloc
import ActorAnalysis.Proofs.Schedule.Frame

namespace ActorAnalysis

def Script.threads (script : Script) (actor : String) (id : ThreadId) : List Thread :=
  script.body.entry.toList.map fun entry =>
    let thread := Thread.start id actor script.id entry
    if script.event = .bootstrap then thread else thread.untriggered

theorem Script.mem_threads {script : Script} {actor : String} {id : ThreadId} {t : Thread}
    (member : t ∈ script.threads actor id) :
    (∀ x, t.Mentions x → x = id) ∧ t.failedFor = ∅ ∧ t.status ≠ .runningAtomic := by
  obtain ⟨entry, -, rfl⟩ := List.mem_map.mp member
  have alone (x : ThreadId) (mentions : (Thread.start id actor script.id entry).Mentions x) :
      x = id := mentions.resolve_right (SortedSet.not_mem_empty x)
  dsimp only
  split
  · exact ⟨alone, rfl, fun h => nomatch h⟩
  · exact ⟨alone, rfl, fun h => nomatch h⟩

def Actor.named (a : Actor) : List (String × Script) := a.scripts.map (a.name, ·)

def Program.scripts (p : Program) : List (String × Script) := p.actors.flatMap Actor.named

def threadsFrom (first : ThreadId) : List (String × Script) → List Thread
  | [] => []
  | (actor, script) :: rest => script.threads actor first ++ threadsFrom (first + 1) rest

theorem threadsFrom_append (first : ThreadId) (l l' : List (String × Script)) :
    threadsFrom first (l ++ l') = threadsFrom first l ++ threadsFrom (first + l.length) l' := by
  induction l generalizing first with
  | nil => simp [threadsFrom]
  | cons e rest ih =>
    obtain ⟨actor, script⟩ := e
    simp only [List.cons_append, threadsFrom, ih, List.append_assoc, List.length_cons]
    rw [Nat.add_assoc, Nat.add_comm 1]

theorem mem_threadsFrom {first : ThreadId} {l : List (String × Script)} {t : Thread}
    (member : t ∈ threadsFrom first l) :
    ∃ actor script, (actor, script) ∈ l ∧ ∃ id, first ≤ id ∧ id < first + l.length ∧
      t ∈ script.threads actor id := by
  induction l generalizing first with
  | nil => exact nomatch member
  | cons e rest ih =>
    obtain ⟨actor, script⟩ := e
    rcases List.mem_append.mp member with here | later
    · exact ⟨actor, script, List.mem_cons_self, first, Nat.le_refl _, by simp, here⟩
    · obtain ⟨actor, script, listed, id, low, high, found⟩ := ih later
      refine ⟨actor, script, List.mem_cons_of_mem _ listed, id, Nat.le_of_succ_le low, ?_, found⟩
      simpa [Nat.add_assoc, Nat.add_comm 1] using high

namespace Scheduler

def startScript (actor : String) (script : Script) : Alloc (List Thread) := do
  let id ← Alloc.freshThread
  return script.threads actor id

def startActor (actor : Actor) : Alloc (List Thread) := do
  let ofScripts ← actor.scripts.mapM (startScript actor.name)
  return ofScripts.flatten

theorem run_startScripts (actor : String) (scripts : List Script) (ids : Ids) :
    ∃ out, (scripts.mapM (startScript actor)).run ids = (.ok out, ids.skip scripts.length) ∧
      out.flatten = threadsFrom ids.threads (scripts.map (actor, ·)) := by
  induction scripts generalizing ids with
  | nil => exact ⟨[], rfl, rfl⟩
  | cons script rest ih =>
    obtain ⟨out, ran, flat⟩ := ih (ids.skip 1)
    refine ⟨script.threads actor ids.threads :: out, ?_, ?_⟩
    · rw [List.mapM_cons, Alloc.run_bind_ok]
      refine ⟨script.threads actor ids.threads, ids.skip 1, rfl, ?_⟩
      rw [Alloc.run_bind_ok]
      refine ⟨out, _, ran, ?_⟩
      rw [Ids.skip_skip, List.length_cons, Nat.add_comm]
      rfl
    · rw [List.flatten_cons, flat]
      rfl

theorem run_startActors (actors : List Actor) (ids : Ids) :
    ∃ out, (actors.mapM startActor).run ids =
        (.ok out, ids.skip (actors.flatMap Actor.named).length) ∧
      out.flatten = threadsFrom ids.threads (actors.flatMap Actor.named) := by
  induction actors generalizing ids with
  | nil => exact ⟨[], rfl, rfl⟩
  | cons actor rest ih =>
    obtain ⟨ofScripts, ran, flat⟩ := run_startScripts actor.name actor.scripts ids
    obtain ⟨out, ran', flat'⟩ := ih (ids.skip actor.scripts.length)
    have named : actor.named.length = actor.scripts.length := List.length_map _
    refine ⟨ofScripts.flatten :: out, ?_, ?_⟩
    · rw [List.mapM_cons, Alloc.run_bind_ok]
      refine ⟨ofScripts.flatten, _, Alloc.run_bind_ok.mpr ⟨ofScripts, _, ran, rfl⟩, ?_⟩
      rw [Alloc.run_bind_ok]
      refine ⟨out, _, ran', ?_⟩
      rw [Ids.skip_skip, List.flatMap_cons, List.length_append, named]
      rfl
    · rw [List.flatten_cons, flat, flat', List.flatMap_cons, threadsFrom_append, named]
      rfl

theorem run_initialThreads (program : Program) (ids : Ids) :
    (initialThreads program).run ids =
      (.ok (threadsFrom ids.threads program.scripts), ids.skip program.scripts.length) := by
  obtain ⟨out, ran, flat⟩ := run_startActors program.actors ids
  refine Alloc.run_bind_ok.mpr ⟨out, _, ran, ?_⟩
  rw [flat]
  rfl

end Scheduler
end ActorAnalysis
