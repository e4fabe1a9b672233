import ActorAnalysis.Proofs.Schedule.Course
import Mathlib.Data.List.Nodup

/-! Aggregated steps, level by level. A level lists the ends of all courses of one length, each
route once. The courses that end are given out, and the others make up the next level. -/
namespace ActorAnalysis

theorem pairs_of_forall₂ {α β : Type} {R : α → β → Prop} {l : List α} {l' : List β}
    (related : List.Forall₂ R l l') : ∃ pairs : List (α × β),
      pairs.map Prod.fst = l ∧ pairs.map Prod.snd = l' ∧ ∀ e ∈ pairs, R e.1 e.2 := by
  induction related with
  | nil => exact ⟨[], rfl, rfl, nofun⟩
  | @cons a b _ _ head _ ih =>
    obtain ⟨pairs, rfl, rfl, each⟩ := ih
    exact ⟨(a, b) :: pairs, rfl, rfl, List.forall_mem_cons.mpr ⟨head, each⟩⟩

namespace Scheduler

variable {D : Type}

def Proceeds (m : Scheduler D) (bound index : Nat) (s : Scheduled D) (ids : Ids) : Prop :=
  ∀ {route last t}, m.Course bound index s ids route last t → GoesOn bound index route t →
    ∃ out after, (m.stepThread t index).run last = (.ok out, after)

def Level (m : Scheduler D) (bound index : Nat) (s : Scheduled D) (ids : Ids) (k : Nat)
    (route : List Nat) (last : Ids) (t : Scheduled D) : Prop :=
  m.Course bound index s ids route last t ∧ route.length = k

def Completes (m : Scheduler D) (bound index : Nat) (s : Scheduled D) (ids : Ids) (k : Nat)
    (route : List Nat) (last : Ids) (t : Scheduled D) : Prop :=
  m.Course bound index s ids route last t ∧ k ≤ route.length ∧ m.Ends bound index route last t

/-- The listed states are the ends of all courses of a kind, one for each route. -/
structure Lists (kind : List Nat → Ids → Scheduled D → Prop) (after : Ids)
    (items : List (List Nat × Scheduled D)) : Prop where
  once : (items.map Prod.fst).Nodup
  only : ∀ e ∈ items, ∃ last ≤ after, kind e.1 last e.2
  all : ∀ {route last t}, kind route last t → ∃ u, (route, u) ∈ items

theorem Lists.congr {kind kind' : List Nat → Ids → Scheduled D → Prop} {after : Ids}
    {items : List (List Nat × Scheduled D)} (lists : Lists kind after items)
    (same : ∀ route last t, kind route last t ↔ kind' route last t) : Lists kind' after items where
  once := lists.once
  only e he := by
    obtain ⟨last, le, h⟩ := lists.only e he
    exact ⟨last, le, (same _ _ _).mp h⟩
  all h := lists.all ((same _ _ _).mpr h)

theorem Lists.later {kind : List Nat → Ids → Scheduled D → Prop} {after after' : Ids}
    {items : List (List Nat × Scheduled D)} (lists : Lists kind after items)
    (grown : after ≤ after') : Lists kind after' items where
  once := lists.once
  only e he := by
    obtain ⟨last, le, h⟩ := lists.only e he
    exact ⟨last, Ids.le_trans le grown, h⟩
  all := lists.all

theorem Lists.append {m : Scheduler D} {s : Scheduled D} {ids now after : Ids} {bound index k : Nat}
    {kept later : List (List Nat × Scheduled D)}
    (first : Lists (fun route last t => m.Course bound index s ids route last t ∧
      route.length = k ∧ m.Ends bound index route last t) now kept)
    (second : Lists (m.Completes bound index s ids (k + 1)) after later) (grown : now ≤ after) :
    Lists (m.Completes bound index s ids k) after (kept ++ later) where
  once := by
    rw [List.map_append]
    refine List.nodup_append'.mpr ⟨first.once, second.once, fun route here there => ?_⟩
    obtain ⟨e, he, rfl⟩ := List.mem_map.mp here
    obtain ⟨e', he', same⟩ := List.mem_map.mp there
    obtain ⟨-, -, -, length, -⟩ := first.only e he
    obtain ⟨-, -, -, longer, -⟩ := second.only e' he'
    rw [same, length] at longer
    exact absurd longer (Nat.not_succ_le_self k)
  only e he := by
    rcases List.mem_append.mp he with he | he
    · obtain ⟨last, le, course, length, ends⟩ := first.only e he
      exact ⟨last, Ids.le_trans le grown, course, Nat.le_of_eq length.symm, ends⟩
    · obtain ⟨last, le, course, longer, ends⟩ := second.only e he
      exact ⟨last, le, course, Nat.le_of_succ_le longer, ends⟩
  all := by
    rintro route last t ⟨course, long, ends⟩
    rcases Nat.eq_or_lt_of_le long with length | longer
    · obtain ⟨u, hu⟩ := first.all ⟨course, length.symm, ends⟩
      exact ⟨u, List.mem_append_left _ hu⟩
    · obtain ⟨u, hu⟩ := second.all ⟨course, longer, ends⟩
      exact ⟨u, List.mem_append_right _ hu⟩

def spread (rows : List ((List Nat × Scheduled D) × List (Scheduled D))) :
    List (List Nat × Scheduled D) :=
  rows.flatMap fun row => row.2.zipIdx.map fun e => (e.2 :: row.1.1, e.1)

section Spread

variable {rows : List ((List Nat × Scheduled D) × List (Scheduled D))}

theorem mem_spread {route : List Nat} {u : Scheduled D} : (route, u) ∈ spread rows ↔
    ∃ row ∈ rows, ∃ choice, route = choice :: row.1.1 ∧ row.2[choice]? = some u := by
  unfold spread
  constructor
  · intro member
    obtain ⟨row, hrow, member⟩ := List.mem_flatMap.mp member
    obtain ⟨e, he, same⟩ := List.mem_map.mp member
    obtain ⟨rfl, rfl⟩ := Prod.mk.inj same
    exact ⟨row, hrow, e.2, rfl, List.mem_zipIdx_iff_getElem?.mp he⟩
  · rintro ⟨row, hrow, choice, rfl, found⟩
    refine List.mem_flatMap.mpr ⟨row, hrow, List.mem_map.mpr ⟨(u, choice), ?_, rfl⟩⟩
    exact List.mem_zipIdx_iff_getElem?.mpr found

theorem map_snd_spread : (spread rows).map Prod.snd = (rows.map Prod.snd).flatten := by
  unfold spread
  rw [List.map_flatMap, List.flatMap_def]
  refine congrArg List.flatten (List.map_congr_left fun row _ => ?_)
  rw [List.map_map]
  exact List.zipIdx_map_fst 0 row.2

theorem nodup_spread (once : ((rows.map Prod.fst).map Prod.fst).Nodup) :
    ((spread rows).map Prod.fst).Nodup := by
  rw [List.map_map] at once
  unfold spread
  rw [List.map_flatMap, List.nodup_flatMap]
  refine ⟨fun row _ => ?_, ?_⟩
  · have choices : (row.2.zipIdx.map fun e => (e.2 :: row.1.1, e.1)).map Prod.fst =
        (row.2.zipIdx.map Prod.snd).map (· :: row.1.1) := by
      rw [List.map_map, List.map_map]
      rfl
    rw [choices, List.zipIdx_map_snd]
    exact List.Nodup.map (fun _ _ same => (List.cons.inj same).1) List.nodup_range'
  · refine (List.pairwise_map.mp once).imp fun other route member member' => ?_
    -- both routes end in that of their row
    obtain ⟨e, he, rfl⟩ := List.mem_map.mp member
    obtain ⟨e', he', same⟩ := List.mem_map.mp member'
    obtain ⟨x, -, rfl⟩ := List.mem_map.mp he
    obtain ⟨x', -, rfl⟩ := List.mem_map.mp he'
    exact other (List.cons.inj same).2.symm

end Spread

theorem map_snd_kept {pairs : List ((List Nat × Scheduled D) ×
      (List (Scheduled D) × List (Scheduled D)))}
    (kept : ∀ e ∈ pairs, e.2.1 = if e.2.2.isEmpty then [e.1.2] else []) :
    ((pairs.filter fun e => e.2.2.isEmpty).map Prod.fst).map Prod.snd =
      ((pairs.map Prod.snd).map Prod.fst).flatten := by
  induction pairs with
  | nil => rfl
  | cons e rest ih =>
    have tail := ih fun e he => kept e (List.mem_cons_of_mem _ he)
    have head := kept e List.mem_cons_self
    cases empty : e.2.2.isEmpty with
    | true =>
      rw [empty] at head
      simp [empty, head, tail]
    | false =>
      rw [empty] at head
      simp [empty, head, tail]

section Levels

variable {m : Scheduler D} {s : Scheduled D} {ids now after : Ids} {bound index k : Nat}
  (well : s.WellFormed ids) (enabled : m.Enabled s index)
include well enabled

theorem Lists.spread {rows : List ((List Nat × Scheduled D) × List (Scheduled D))}
    (lists : Lists (m.Level bound index s ids k) now (rows.map Prod.fst))
    (stepped : ∀ row ∈ rows, GoesOn bound index row.1.1 row.1.2 →
      (m.stepThread row.1.2 index).Gave now row.2 after)
    (still : ∀ row ∈ rows, ¬GoesOn bound index row.1.1 row.1.2 → row.2 = []) :
    Lists (m.Level bound index s ids (k + 1)) after (spread rows) where
  once := nodup_spread lists.once
  only := by
    rintro ⟨route, u⟩ member
    obtain ⟨row, hrow, choice, rfl, found⟩ := mem_spread.mp member
    obtain ⟨last, le, course, length⟩ := lists.only row.1 (List.mem_map_of_mem hrow)
    by_cases goes : GoesOn bound index row.1.1 row.1.2
    · have gave := (stepped row hrow goes).within le (Ids.le_refl after)
      exact ⟨after, Ids.le_refl after, .step course goes gave found, congrArg (· + 1) length⟩
    · rw [still row hrow goes] at found
      exact nomatch found
  all := by
    rintro _ last u ⟨course, length⟩
    cases course with
    | start => exact nomatch length
    | @step route mid _ t _ out choice before goes gave found =>
      obtain ⟨w, listed⟩ := lists.all ⟨before, Nat.succ.inj length⟩
      obtain ⟨row, hrow, same⟩ := List.mem_map.mp listed
      obtain ⟨last', le, course, -⟩ := lists.only _ listed
      have goes' : GoesOn bound index row.1.1 row.1.2 := by
        rw [same]
        have atomic := (before.renamed well enabled course).isAtomic index
        exact goes.imp_right fun h => ⟨atomic.trans h.1, h.2⟩
      have gave' := stepped row hrow goes'
      rw [same] at gave'
      obtain ⟨u', found', -⟩ := getElem?_of_forall₂ ((before.matches_ well enabled course).gave gave
        (gave'.within le (Ids.le_refl after))) found
      exact ⟨u', mem_spread.mpr ⟨row, hrow, choice, by rw [same], found'⟩⟩

theorem Lists.counterpart {items : List (List Nat × Scheduled D)}
    (lists : Lists (m.Level bound index s ids k) now items) {route : List Nat} {last : Ids}
    {t : Scheduled D} (course : m.Course bound index s ids route last t)
    (length : route.length = k) :
    ∃ w, (route, w) ∈ items ∧ w.isAtomic index = t.isAtomic index ∧
      ∀ out, (m.stepThread w index).Gave now out after →
        (∃ out' end_, (m.stepThread t index).run last = (.ok out', end_)) ∧
        ∀ after', (m.stepThread t index).Gave last [] after' → out = [] := by
  obtain ⟨w, member⟩ := lists.all ⟨course, length⟩
  obtain ⟨last', le, course', -⟩ := lists.only _ member
  refine ⟨w, member, (course.renamed well enabled course').isAtomic index, fun out gave => ?_⟩
  have gave := gave.within le (Ids.le_refl after)
  constructor
  · obtain ⟨out', end_, ran, -⟩ :=
      course'.matches_ well enabled course out after gave last (Ids.le_refl last)
    exact ⟨out', end_, ran⟩
  · intro after' stuck
    exact List.forall₂_nil_left_iff.mp ((course.matches_ well enabled course').gave stuck gave)

section Parts

variable {pairs : List ((List Nat × Scheduled D) × (List (Scheduled D) × List (Scheduled D)))}
  (each : ∀ e ∈ pairs, (m.atomicStep index e.1.2).Gave now e.2 after)
  (lists : Lists (m.Level bound index s ids k) now (pairs.map Prod.fst))
include each lists

theorem Lists.given (positive : 0 < k) (short : k < bound) (grown : now ≤ after) :
    Lists (fun route last t => m.Course bound index s ids route last t ∧ route.length = k ∧
      m.Ends bound index route last t) after
        ((pairs.filter fun e => e.2.2.isEmpty).map Prod.fst) where
  once := lists.once.sublist (List.filter_sublist.map _ |>.map _)
  only := by
    rintro _ member
    obtain ⟨e, he, rfl⟩ := List.mem_map.mp member
    obtain ⟨he, empty⟩ := List.mem_filter.mp he
    obtain ⟨last, le, course, length⟩ := lists.only e.1 (List.mem_map_of_mem he)
    obtain ⟨stepped, -, -⟩ := atomicStep_gave (each e he)
    refine ⟨last, Ids.le_trans le grown, course, length,
      List.length_pos_iff.mp (length ▸ positive), ?_⟩
    cases atomic : e.1.2.isAtomic index with
    | false => exact .inl rfl
    | true =>
      rw [List.isEmpty_iff.mp empty] at stepped
      exact .inr (.inr ⟨after, (stepped atomic).within le (Ids.le_refl after)⟩)
  all := by
    rintro route last t ⟨course, length, -, ends⟩
    obtain ⟨w, member, atomic, found⟩ := lists.counterpart well enabled course length
    obtain ⟨e, he, same⟩ := List.mem_map.mp member
    obtain ⟨stepped, none, -⟩ := atomicStep_gave (each e he)
    rw [same] at stepped none
    have empty : e.2.2 = [] := by
      cases inside : w.isAtomic index with
      | false => exact none inside
      | true =>
        rcases ends with outside | long | ⟨after', stuck⟩
        · rw [inside, outside] at atomic
          exact nomatch atomic
        · exact absurd (length ▸ long) (Nat.not_le_of_lt short)
        · exact (found e.2.2 (stepped inside)).2 after' stuck
    refine ⟨w, List.mem_map.mpr ⟨e, List.mem_filter.mpr ⟨he, ?_⟩, same⟩⟩
    exact List.isEmpty_iff.mpr empty

theorem Lists.next (positive : 0 < k) (short : k < bound) :
    Lists (m.Level bound index s ids (k + 1)) after
      (Scheduler.spread (pairs.map fun e => (e.1, e.2.2))) := by
  have rows : (pairs.map fun e => (e.1, e.2.2)).map Prod.fst = pairs.map Prod.fst := by
    rw [List.map_map]
    rfl
  have inside {e : (List Nat × Scheduled D) × (List (Scheduled D) × List (Scheduled D))}
      (he : e ∈ pairs) :
      GoesOn bound index e.1.1 e.1.2 ↔ e.1.2.isAtomic index = true := by
    obtain ⟨-, -, -, length⟩ := lists.only e.1 (List.mem_map_of_mem he)
    exact goesOn_iff (length ▸ positive) (length ▸ short)
  refine Lists.spread well enabled (rows.symm ▸ lists) ?_ ?_
  · intro row hrow goesOn
    obtain ⟨e, he, rfl⟩ := List.mem_map.mp hrow
    exact (atomicStep_gave (each e he)).1 ((inside he).mp goesOn)
  · intro row hrow stays
    obtain ⟨e, he, rfl⟩ := List.mem_map.mp hrow
    refine (atomicStep_gave (each e he)).2.1 (Bool.eq_false_iff.mpr fun atomic => ?_)
    exact stays ((inside he).mpr atomic)

end Parts

/-- The courses that are given out at one level, and those that make up the next one. -/
theorem Lists.level {items : List (List Nat × Scheduled D)}
    {parts : List (List (Scheduled D) × List (Scheduled D))} (positive : 0 < k) (short : k < bound)
    (lists : Lists (m.Level bound index s ids k) now items)
    (ran : ((items.map Prod.snd).mapM (m.atomicStep index)).run now = (.ok parts, after)) :
    ∃ kept next, kept.map Prod.snd = (parts.map Prod.fst).flatten ∧
      next.map Prod.snd = (parts.map Prod.snd).flatten ∧
      Lists (fun route last t => m.Course bound index s ids route last t ∧ route.length = k ∧
        m.Ends bound index route last t) after kept ∧
      Lists (m.Level bound index s ids (k + 1)) after next ∧
      ∀ {route last t}, m.Course bound index s ids route last t → route.length = k →
        GoesOn bound index route t →
          ∃ out end_, (m.stepThread t index).run last = (.ok out, end_) := by
  obtain ⟨pairs, rfl, rfl, each⟩ := pairs_of_forall₂ (List.forall₂_map_left_iff.mp
    (Alloc.mapM_each ran))
  refine ⟨_, _, ?_, ?_, lists.given well enabled each positive short (Alloc.le_of_run ran),
    lists.next well enabled each positive short, ?_⟩
  · exact map_snd_kept fun e he => (atomicStep_gave (each e he)).2.2
  · rw [map_snd_spread, List.map_map, List.map_map]
    rfl
  · intro route last t course length goesOn
    obtain ⟨w, member, atomic, found⟩ := lists.counterpart well enabled course length
    obtain ⟨e, he, same⟩ := List.mem_map.mp member
    have stepped := (atomicStep_gave (each e he)).1
    rw [same] at stepped
    have inside := (goesOn_iff (length ▸ positive) (length ▸ short)).mp goesOn
    exact (found _ (stepped (atomic.trans inside))).1

/-- Aggregated steps from the courses of one length on give out the ends of all courses that are not
shorter. -/
theorem aggregate_lists {steps : Nat} {items : List (List Nat × Scheduled D)}
    {out : List (Scheduled D)} (positive : 0 < k) (total : k + steps = max bound 1)
    (lists : Lists (m.Level bound index s ids k) now items)
    (done : (m.aggregate index steps (items.map Prod.snd)).run now = (.ok out, after)) :
    ∃ ends, ends.map Prod.snd = out ∧
      Lists (m.Completes bound index s ids k) after ends ∧
      ∀ {route last t}, m.Course bound index s ids route last t → k ≤ route.length →
        GoesOn bound index route t →
          ∃ out end_, (m.stepThread t index).run last = (.ok out, end_) := by
  induction steps generalizing k items now out with
  | zero =>
    rw [aggregate_zero] at done
    obtain ⟨rfl, rfl⟩ := Alloc.run_pure_ok.mp done
    have most : bound ≤ k := Nat.le_trans (Nat.le_max_left bound 1) (Nat.le_of_eq total.symm)
    refine ⟨items, rfl, lists.congr fun route last t => ⟨?_, ?_⟩, ?_⟩
    · rintro ⟨course, rfl⟩
      exact ⟨course, Nat.le_refl _, List.length_pos_iff.mp positive, .inr (.inl most)⟩
    · rintro ⟨course, long, -⟩
      exact ⟨course, Nat.le_antisymm (Nat.le_trans course.length_le (Nat.le_of_eq total.symm)) long⟩
    · rintro route last t - long (rfl | ⟨-, short⟩)
      · exact absurd positive (Nat.not_lt_of_le long)
      · exact absurd (Nat.lt_of_lt_of_le short most) (Nat.not_lt_of_le long)
  | succ steps ih =>
    rw [aggregate_more, Alloc.run_bind_ok] at done
    obtain ⟨parts, mid, ran, done⟩ := done
    rw [Alloc.run_bind_ok] at done
    obtain ⟨later, last, further, done⟩ := done
    obtain ⟨rfl, rfl⟩ := Alloc.run_pure_ok.mp done
    have short : k < bound := by omega
    obtain ⟨kept, next, keptIs, nextIs, listsKept, listsNext, succeeds⟩ :=
      lists.level well enabled positive short ran
    rw [← nextIs] at further
    obtain ⟨ends, rfl, listsEnds, succeeds'⟩ := ih (Nat.succ_pos k) (by omega) listsNext further
    refine ⟨kept ++ ends, by rw [List.map_append, keptIs],
      listsKept.append listsEnds (Alloc.le_of_run further), ?_⟩
    intro route end_ t course long goesOn
    rcases Nat.eq_or_lt_of_le long with length | longer
    · exact succeeds course length.symm goesOn
    · exact succeeds' course longer goesOn

/-- The steps of an enabled thread, taken as one, give out the ends of its courses. Each state that
a course goes on from has been stepped. -/
theorem stepEligible_lists {out : List (Scheduled D)}
    (gave : (m.stepEligible ⟨true, bound⟩ s index).Gave ids out after) :
    ∃ ends, ends.map Prod.snd = out ∧
      Lists (m.Completes bound index s ids 1) after ends ∧ m.Proceeds bound index s ids := by
  obtain ⟨first, last, before, later, ran⟩ := gave
  unfold stepEligible at ran
  rw [Alloc.run_bind_ok] at ran
  obtain ⟨stepped, mid, ran, done⟩ := ran
  have done : (m.aggregate index (bound - 1) stepped).run mid = (.ok out, last) := done
  have gave : (m.stepThread s index).Gave ids stepped mid :=
    ⟨first, mid, before, Ids.le_refl mid, ran⟩
  have start : Lists (m.Level bound index s ids 0) ids [([], s)] := by
    refine ⟨List.nodup_singleton _, fun e he => ?_, ?_⟩
    · rw [List.mem_singleton.mp he]
      exact ⟨ids, Ids.le_refl ids, .start, rfl⟩
    · rintro route last t ⟨course, none⟩
      obtain rfl := List.length_eq_zero_iff.mp none
      exact ⟨s, List.mem_singleton.mpr rfl⟩
  have level : Lists (m.Level bound index s ids 1) mid (Scheduler.spread [(([], s), stepped)]) := by
    refine Lists.spread well enabled start (fun row hrow _ => ?_) fun row hrow stays => ?_
    · rw [List.mem_singleton.mp hrow]
      exact gave
    · rw [List.mem_singleton.mp hrow] at stays
      exact absurd (.inl rfl) stays
  have states : (Scheduler.spread [(([], s), stepped)]).map Prod.snd = stepped := by
    rw [map_snd_spread]
    exact List.append_nil stepped
  rw [← states] at done
  obtain ⟨ends, rfl, lists, proceeds⟩ :=
    aggregate_lists well enabled Nat.one_pos (by omega) level done
  refine ⟨ends, rfl, lists.later later, fun {route last t} course goesOn => ?_⟩
  cases route with
  | nil =>
    have same := course.matches_ well enabled course
    cases course
    obtain ⟨out, end_, run, -⟩ := same stepped mid gave ids (Ids.le_refl ids)
    exact ⟨out, end_, run⟩
  | cons choice route => exact proceeds course (Nat.succ_pos _) goesOn

theorem aggregate_succeeds {steps : Nat} {level : List (Scheduled D)}
    (proceeds : m.Proceeds bound index s ids) (positive : 0 < k) (total : k + steps = max bound 1)
    (courses : ∀ t ∈ level, ∃ route last, last ≤ now ∧ m.Course bound index s ids route last t ∧
      route.length = k) :
    ∃ out after, (m.aggregate index steps level).run now = (.ok out, after) := by
  induction steps generalizing k level now with
  | zero => exact ⟨level, now, by rw [aggregate_zero]; rfl⟩
  | succ steps ih =>
    have short : k < bound := by omega
    have stepped : ∀ t ∈ level, t.isAtomic index = true → ∀ first, now ≤ first →
        ∃ out after, (m.stepThread t index).run first = (.ok out, after) := by
      intro t ht atomic first le
      obtain ⟨route, last, low, course, rfl⟩ := courses t ht
      obtain ⟨out, end_, ran⟩ := proceeds course (.inr ⟨atomic, short⟩)
      obtain ⟨out', end', ran', -⟩ := course.matches_ well enabled course out end_ (.of_run ran)
        first (Ids.le_trans low le)
      exact ⟨out', end', ran'⟩
    have each : ∀ t ∈ level, ∀ first, now ≤ first →
        ∃ part after, (m.atomicStep index t).run first = (.ok part, after) := by
      intro t ht first le
      unfold atomicStep
      split
      · rename_i atomic
        obtain ⟨out, end_, ran⟩ := stepped t ht atomic first le
        exact ⟨_, _, Alloc.run_bind_ok.mpr ⟨out, end_, ran, rfl⟩⟩
      · exact ⟨_, _, rfl⟩
    obtain ⟨parts, mid, ran⟩ := Alloc.mapM_succeeds each
    have next : ∀ u ∈ (parts.map Prod.snd).flatten, ∃ route last, last ≤ mid ∧
        m.Course bound index s ids route last u ∧ route.length = k + 1 := by
      intro u hu
      obtain ⟨further, hfurther, hu⟩ := List.mem_flatten.mp hu
      obtain ⟨part, hpart, rfl⟩ := List.mem_map.mp hfurther
      obtain ⟨t, ht, gave⟩ := (Alloc.mapM_gave ran).1 part hpart
      obtain ⟨gave, none, -⟩ := atomicStep_gave gave
      cases atomic : t.isAtomic index with
      | false =>
        rw [none atomic] at hu
        exact nomatch hu
      | true =>
        obtain ⟨route, last, low, course, rfl⟩ := courses t ht
        obtain ⟨choice, found⟩ := List.getElem?_of_mem hu
        exact ⟨choice :: route, mid, Ids.le_refl mid, .step course (.inr ⟨atomic, short⟩)
          ((gave atomic).within low (Ids.le_refl mid)) found, rfl⟩
    obtain ⟨later, after, done⟩ := ih (Nat.succ_pos k) (by omega) next
    rw [aggregate_more]
    exact ⟨_, after, Alloc.run_bind_ok.mpr ⟨parts, mid, ran,
      Alloc.run_bind_ok.mpr ⟨later, after, done, rfl⟩⟩⟩

theorem stepEligible_succeeds (proceeds : m.Proceeds bound index s ids) {first : Ids}
    (before : ids ≤ first) :
    ∃ out after, (m.stepEligible ⟨true, bound⟩ s index).run first = (.ok out, after) := by
  have here : m.Course bound index s ids [] ids s := .start
  obtain ⟨out, end_, ran⟩ := proceeds here (.inl rfl)
  obtain ⟨stepped, mid, ran, -⟩ :=
    here.matches_ well enabled here out end_ (.of_run ran) first before
  have courses : ∀ t ∈ stepped, ∃ route last, last ≤ mid ∧
      m.Course bound index s ids route last t ∧ route.length = 1 := by
    intro t ht
    obtain ⟨choice, found⟩ := List.getElem?_of_mem ht
    exact ⟨[choice], mid, Ids.le_refl mid,
      .step here (.inl rfl) ⟨first, mid, before, Ids.le_refl mid, ran⟩ found, rfl⟩
  have total : 1 + (bound - 1) = max bound 1 := by omega
  obtain ⟨out, after, done⟩ := aggregate_succeeds well enabled proceeds Nat.one_pos total courses
  exact ⟨out, after, Alloc.run_bind_ok.mpr ⟨stepped, mid, ran, done⟩⟩

end Levels

section Successors

variable {m : Scheduler D} {s : Scheduled D} {ids after : Ids} {bound : Nat}

theorem eligible_nodup {l : List Nat} (done : m.eligible s = .ok l) : l.Nodup := by
  unfold eligible at done
  split at done
  · cases done
    exact List.nodup_singleton _
  · cases flags : s.threads.mapM (m.mayStep s.data) with
    | error e =>
      rw [flags] at done
      exact nomatch done
    | ok bs =>
      rw [flags] at done
      cases done
      have indices : (bs.zipIdx.map Prod.snd).Nodup := by
        rw [List.zipIdx_map_snd]
        exact List.nodup_range'
      exact indices.sublist (List.filter_sublist.map _)

theorem lists_together (kind : Nat → List Nat → Ids → Scheduled D → Prop)
    {pairs : List (Nat × List (Scheduled D))} (once : (pairs.map Prod.fst).Nodup)
    (each : ∀ e ∈ pairs, ∃ ends, ends.map Prod.snd = e.2 ∧ Lists (kind e.1) after ends) :
    ∃ items : List ((Nat × List Nat) × Scheduled D),
      items.map Prod.snd = (pairs.map Prod.snd).flatten ∧ (items.map Prod.fst).Nodup ∧
      (∀ e ∈ items, e.1.1 ∈ pairs.map Prod.fst ∧ ∃ last ≤ after, kind e.1.1 e.1.2 last e.2) ∧
      ∀ i ∈ pairs.map Prod.fst, ∀ {route last t}, kind i route last t →
        ∃ u, ((i, route), u) ∈ items := by
  induction pairs with
  | nil => exact ⟨[], rfl, List.nodup_nil, nofun, nofun⟩
  | cons head rest ih =>
    obtain ⟨i, part⟩ := head
    obtain ⟨new, once⟩ := List.nodup_cons.mp once
    obtain ⟨items, states, routes, only, all⟩ :=
      ih once fun e he => each e (List.mem_cons_of_mem _ he)
    obtain ⟨ends, rfl, lists⟩ := each _ List.mem_cons_self
    refine ⟨ends.map (fun e => ((i, e.1), e.2)) ++ items, ?_, ?_, fun e he => ?_, ?_⟩
    · rw [List.map_append, List.map_map, states]
      rfl
    · rw [List.map_append, List.map_map]
      refine List.nodup_append'.mpr ⟨?_, routes, fun route here there => ?_⟩
      · have tagged : ends.map (Prod.fst ∘ fun e => ((i, e.1), e.2)) =
            (ends.map Prod.fst).map (Prod.mk i) := by
          rw [List.map_map]
          rfl
        rw [tagged]
        exact lists.once.map fun _ _ same => (Prod.mk.inj same).2
      · obtain ⟨e, -, rfl⟩ := List.mem_map.mp here
        obtain ⟨e', he', same⟩ := List.mem_map.mp there
        have other := (only e' he').1
        rw [same] at other
        exact new other
    · rcases List.mem_append.mp he with he | he
      · obtain ⟨x, hx, rfl⟩ := List.mem_map.mp he
        exact ⟨List.mem_cons_self, lists.only x hx⟩
      · exact ⟨List.mem_cons_of_mem _ (only e he).1, (only e he).2⟩
    · intro j hj route last t h
      rcases List.mem_cons.mp hj with rfl | hj
      · obtain ⟨u, hu⟩ := lists.all h
        exact ⟨u, List.mem_append_left _ (List.mem_map.mpr ⟨_, hu, rfl⟩)⟩
      · obtain ⟨u, hu⟩ := all j hj h
        exact ⟨u, List.mem_append_right _ hu⟩

variable (well : s.WellFormed ids)
include well

/-- With aggregation, the successors are the ends of the courses of all enabled threads. -/
theorem successors_list {out : List (Scheduled D)}
    (done : (m.successors ⟨true, bound⟩ s).run ids = (.ok out, after)) :
    ∃ items : List ((Nat × List Nat) × Scheduled D),
      items.map Prod.snd = out ∧ (items.map Prod.fst).Nodup ∧
      (∀ e ∈ items, m.Enabled s e.1.1 ∧ ∃ last ≤ after,
        m.Course bound e.1.1 s ids e.1.2 last e.2 ∧ m.Ends bound e.1.1 e.1.2 last e.2) ∧
      ∀ i, m.Enabled s i → ∀ {route last t}, m.Course bound i s ids route last t →
        m.Ends bound i route last t → ∃ u, ((i, route), u) ∈ items := by
  obtain ⟨l, parts, eligible, rfl, each⟩ := successors_gave done
  obtain ⟨pairs, rfl, rfl, gave⟩ := pairs_of_forall₂ each
  have lists : ∀ e ∈ pairs, ∃ ends, ends.map Prod.snd = e.2 ∧
      Lists (m.Completes bound e.1 s ids 1) after ends := by
    intro e he
    have enabled : m.Enabled s e.1 := ⟨_, eligible, List.mem_map_of_mem he⟩
    obtain ⟨ends, states, lists, -⟩ := stepEligible_lists well enabled (gave e he)
    exact ⟨ends, states, lists⟩
  obtain ⟨items, states, once, only, all⟩ :=
    lists_together (fun i => m.Completes bound i s ids 1) (eligible_nodup eligible) lists
  refine ⟨items, states, once, fun e he => ?_, fun i enabled route last t course ends => ?_⟩
  · obtain ⟨member, last, le, course, -, ends⟩ := only e he
    exact ⟨⟨_, eligible, member⟩, last, le, course, ends⟩
  · obtain ⟨l, eligible', member⟩ := enabled
    rw [eligible] at eligible'
    cases eligible'
    exact all i member ⟨course, List.length_pos_iff.mpr ends.1, ends⟩

theorem successors_succeed_iff :
    (∃ out after, (m.successors ⟨true, bound⟩ s).run ids = (.ok out, after)) ↔
      (∃ l, m.eligible s = .ok l) ∧ ∀ i, m.Enabled s i → m.Proceeds bound i s ids := by
  constructor
  · rintro ⟨out, after, done⟩
    obtain ⟨l, parts, eligible, rfl, each⟩ := successors_gave done
    refine ⟨⟨l, eligible⟩, fun i enabled => ?_⟩
    obtain ⟨l', eligible', member⟩ := id enabled
    rw [eligible] at eligible'
    cases eligible'
    obtain ⟨part, -, gave⟩ := mem_of_forall₂ each member
    obtain ⟨-, -, -, proceeds⟩ := stepEligible_lists well enabled gave
    exact proceeds
  · rintro ⟨⟨l, eligible⟩, proceeds⟩
    refine successors_succeed eligible fun i hi first before => ?_
    have enabled : m.Enabled s i := ⟨l, eligible, hi⟩
    exact stepEligible_succeeds well enabled (proceeds i enabled) before

end Successors
end Scheduler
end ActorAnalysis
