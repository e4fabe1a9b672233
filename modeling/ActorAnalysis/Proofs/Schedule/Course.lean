import ActorAnalysis.Proofs.Schedule.Simulation

/-! Courses: the steps of one thread, choice by choice, until its atomic section ends. The numbers
drawn on the way are mere names: courses with the same choices end in the same state, up to a
renaming of numbers drawn since the start. -/
namespace ActorAnalysis

theorem map_rename_id (threads : List Thread) : threads.map (Thread.rename id) = threads := by
  refine (List.map_congr_left fun t _ => ?_).trans (List.map_id threads)
  have same : t.waitsFor.image id = t.waitsFor := SortedSet.ext fun x => by simp
  unfold Thread.rename
  rw [same]
  rfl

namespace Scheduled

variable {D : Type} {known : Ids} {s t u : Scheduled D}

def rename (ρ : ThreadId → ThreadId) (s : Scheduled D) : Scheduled D :=
  { s with threads := s.threads.map (Thread.rename ρ) }

/-- The same state, up to an injective renaming of the numbers drawn since `known`. -/
def Renamed (known : Ids) (s u : Scheduled D) : Prop :=
  ∃ ρ, Set.InjOn ρ ({x | x < known.threads} ∪ mentioned s.threads) ∧
    (∀ x < known.threads, ρ x = x) ∧ u = s.rename ρ

theorem Renamed.refl (known : Ids) (s : Scheduled D) : s.Renamed known s := by
  refine ⟨id, Set.injOn_id _, fun _ _ => rfl, ?_⟩
  unfold rename
  rw [map_rename_id]

theorem Renamed.isAtomic (renamed : s.Renamed known u) (index : Nat) :
    u.isAtomic index = s.isAtomic index := by
  obtain ⟨ρ, inj, -, rfl⟩ := renamed
  have alike : s.Alike Eq (s.rename ρ) := ⟨ρ, inj.mono Set.subset_union_right, rfl, rfl⟩
  exact alike.isAtomic index

end Scheduled

namespace Scheduler

variable {D : Type} {m : Scheduler D} {s t u : Scheduled D} {index : Nat} {body : Relation}
  {known ids ids' : Ids} {ρ : ThreadId → ThreadId}

section Matches

variable (inj : Set.InjOn ρ ({x | x < known.threads} ∪ mentioned s.threads))
  (fixes : ∀ x < known.threads, ρ x = x) (well : s.WellFormed ids)
  (well' : (s.rename ρ).WellFormed ids') (before : known ≤ ids) (before' : known ≤ ids')
include inj fixes well well' before before'

theorem perform_matches {a : Thread} {move : Move} (found : s.threads[index]? = some a)
    (continues : move.Continues a) (d : D) :
    Alloc.Matches (Scheduled.Renamed known) ids (m.perform s index body move d) ids'
      (m.perform (s.rename ρ) index body (move.rename ρ) d) := by
  rintro s' after ⟨first, last, start, -, done⟩ first' start'
  have names : Renaming first first' ({x | x < known.threads} ∪ mentioned s.threads) ρ := by
    refine ⟨inj, ?_, ?_⟩
    · rintro x (old | ⟨b, hb, mentions⟩)
      · exact Nat.lt_of_lt_of_le old (Nat.le_trans before.1 start.1)
      · exact Nat.lt_of_lt_of_le (well.numbered b hb x mentions) start.1
    · rintro x (old | ⟨b, hb, mentions⟩)
      · rw [fixes x old]
        exact Nat.lt_of_lt_of_le old (Nat.le_trans before'.1 start'.1)
      · refine Nat.lt_of_lt_of_le ?_ start'.1
        exact well'.numbered (b.rename ρ) (List.mem_map_of_mem hb) (ρ x)
          (Thread.mentions_rename.mpr ⟨x, mentions, rfl⟩)
  have inside := (mentioned_set_subset found continues).trans
    (Set.subset_union_right (s := {x | x < known.threads}))
  obtain ⟨K, ρ', u, after', done', extends_, within, renamed, -⟩ :=
    perform_rename (n := m) (u := s.rename ρ) rfl d names inside rfl done
  refine ⟨u, after', done', ρ', extends_.names.inj.mono ?_, fun x old => ?_, ?_⟩
  · exact Set.union_subset (Set.subset_union_left.trans extends_.wider) within
  · exact (extends_.agrees (.inl old)).trans (fixes x old)
  · obtain ⟨threads, -, rfl⟩ := run_perform_ok.mp done
    obtain ⟨threads', -, rfl⟩ := run_perform_ok.mp done'
    have settled : settleThreads body index threads' =
      (settleThreads body index threads).map (Thread.rename ρ') := renamed
    unfold settle Scheduled.rename
    rw [settled]
    rfl

theorem makeAll_matches {a : Thread} {moves : List Move} (found : s.threads[index]? = some a)
    (continue_ : ∀ move ∈ moves, move.Continues a) :
    Alloc.Matches (List.Forall₂ (Scheduled.Renamed known)) ids (m.makeAll s index body moves) ids'
      (m.makeAll (s.rename ρ) index body (moves.map (Move.rename ρ))) := by
  have one (move : Move) (member : move ∈ moves) :
      Alloc.Matches (List.Forall₂ (Scheduled.Renamed known)) ids (m.make s index body move) ids'
        (m.make (s.rename ρ) index body (move.rename ρ)) := by
    refine Alloc.Matches.bind (R := Eq) (.liftM _) fun ds ds' same => ?_
    subst same
    exact .mapM (List.forall₂_same.mpr fun d _ =>
      perform_matches inj fixes well well' before before' found (continue_ move member) d)
  refine Alloc.Matches.bind (.mapM ?_) fun outs outs' each => .pure (List.rel_flatten each)
  exact List.forall₂_map_right_iff.mpr (List.forall₂_same.mpr one)

end Matches

theorem stepThread_matches (renamed : s.Renamed known u) (well : s.WellFormed ids)
    (well' : u.WellFormed ids') (before : known ≤ ids) (before' : known ≤ ids') (index : Nat) :
    Alloc.Matches (List.Forall₂ (Scheduled.Renamed known)) ids (m.stepThread s index) ids'
      (m.stepThread u index) := by
  intro out after gave
  obtain ⟨first, last, -, -, ran⟩ := id gave
  obtain ⟨a, script, found, hscript⟩ := stepThread_found ran
  obtain ⟨ρ, inj, fixes, rfl⟩ := renamed
  have found' : (s.rename ρ).threads[index]? = some (a.rename ρ) := by
    simp [Scheduled.rename, found]
  rw [stepThread_eq found hscript] at gave
  rw [stepThread_eq found' hscript, Script.moves_rename]
  exact makeAll_matches inj fixes well well' before before' found
    (fun _ member => Script.moves_continue member) out after gave

/-- The thread is stepped on: at the start of its course, and as long as it is in an atomic section
and has made less than `bound` steps. -/
def GoesOn (bound index : Nat) (route : List Nat) (t : Scheduled D) : Prop :=
  route = [] ∨ t.isAtomic index = true ∧ route.length < bound

theorem goesOn_iff {bound : Nat} {route : List Nat} (positive : 0 < route.length)
    (short : route.length < bound) :
    GoesOn bound index route t ↔ t.isAtomic index = true := by
  simp [GoesOn, List.length_pos_iff.mp positive, short]

/-- Steps of the thread at `index` from the state `s` on, as many as it goes on. The route says
which of its successors each state goes on to, the last choice first. -/
inductive Course (m : Scheduler D) (bound index : Nat) (s : Scheduled D) (ids : Ids) :
    List Nat → Ids → Scheduled D → Prop where
  | start : Course m bound index s ids [] ids s
  | step {route : List Nat} {mid last : Ids} {t u : Scheduled D} {out : List (Scheduled D)}
      {choice : Nat} : Course m bound index s ids route mid t → GoesOn bound index route t →
      (m.stepThread t index).Gave mid out last → out[choice]? = some u →
      Course m bound index s ids (choice :: route) last u

/-- The course goes no further: it has left the atomic section, has come to the bound, or is
stuck. -/
def Ends (m : Scheduler D) (bound index : Nat) (route : List Nat) (last : Ids) (t : Scheduled D) :
    Prop :=
  route ≠ [] ∧ (t.isAtomic index = false ∨ bound ≤ route.length ∨
    ∃ after, (m.stepThread t index).Gave last [] after)

namespace Course

variable {bound : Nat} {route : List Nat} {last last' : Ids}

theorem le (course : m.Course bound index s ids route last t) : ids ≤ last := by
  induction course with
  | start => exact Ids.le_refl ids
  | step _ _ gave _ ih =>
    obtain ⟨first, end_, before, later, ran⟩ := gave
    exact Ids.le_trans (Ids.le_trans ih before) (Ids.le_trans (Alloc.le_of_run ran) later)

theorem length_le (course : m.Course bound index s ids route last t) :
    route.length ≤ max bound 1 := by
  induction course with
  | start => exact Nat.zero_le _
  | step _ goes _ _ _ =>
    rcases goes with rfl | ⟨-, short⟩
    · exact Nat.le_max_right bound 1
    · exact Nat.le_trans short (Nat.le_max_left bound 1)

variable (well : s.WellFormed ids) (enabled : m.Enabled s index)
include well enabled

theorem wellFormed (course : m.Course bound index s ids route last t) : t.WellFormed last := by
  induction course with
  | start => exact well
  | step before goes gave found ih =>
    obtain ⟨first, end_, low, high, ran⟩ := gave
    have well' := ih.grows low
    refine (stepThread_wellFormed well' ?_ ran _ (List.mem_of_getElem? found)).grows high
    rcases goes with rfl | ⟨atomic, -⟩
    · cases before
      exact enabled.turn well'
    · exact (enabled_of_atomic m well' atomic).turn well'

/-- Courses with the same choices differ in the names of numbers only. -/
theorem renamed (course : m.Course bound index s ids route last t)
    (course' : m.Course bound index s ids route last' u) : t.Renamed ids u := by
  induction course generalizing last' u with
  | start =>
    cases course'
    exact .refl ids s
  | step before _ gave found ih =>
    cases course' with
    | step before' _ gave' found' =>
      have same := stepThread_matches (m := m) (ih before') (before.wellFormed well enabled)
        (before'.wellFormed well enabled) before.le before'.le index
      obtain ⟨w, hw, renamed⟩ := getElem?_of_forall₂ (same.gave gave gave') found
      rw [hw] at found'
      exact Option.some.inj found' ▸ renamed

theorem matches_ (course : m.Course bound index s ids route last t)
    (course' : m.Course bound index s ids route last' u) :
    Alloc.Matches (List.Forall₂ (Scheduled.Renamed ids)) last (m.stepThread t index) last'
      (m.stepThread u index) :=
  stepThread_matches (course.renamed well enabled course') (course.wellFormed well enabled)
    (course'.wellFormed well enabled) course.le course'.le index

end Course
end Scheduler
end ActorAnalysis
