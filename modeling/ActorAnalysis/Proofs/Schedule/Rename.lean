import ActorAnalysis.Proofs.Schedule.Invariant
import Mathlib.Data.Set.Function

/-! Thread numbers are only names. Renaming them injectively commutes with all that a step does to
the threads; fresh numbers extend the renaming. -/
namespace ActorAnalysis

namespace Thread

def rename (ρ : ThreadId → ThreadId) (t : Thread) : Thread :=
  { t with id := ρ t.id, waitsFor := t.waitsFor.image ρ }

theorem rename_congr {ρ τ : ThreadId → ThreadId} {t : Thread}
    (same : ∀ x, t.Mentions x → ρ x = τ x) : t.rename ρ = t.rename τ := by
  have ids : ρ t.id = τ t.id := same t.id (.inl rfl)
  have sets : t.waitsFor.image ρ = t.waitsFor.image τ :=
    SortedSet.image_congr fun x hx => same x (.inr hx)
  unfold rename
  rw [ids, sets]

@[simp] theorem rename_start (ρ : ThreadId → ThreadId) (id : ThreadId) (actor : String)
    (script : Nat) (entry : Location) :
    (start id actor script entry).rename ρ = start (ρ id) actor script entry := rfl

theorem mentions_rename {ρ : ThreadId → ThreadId} {t : Thread} {y : ThreadId} :
    (t.rename ρ).Mentions y ↔ ∃ x, t.Mentions x ∧ ρ x = y := by
  unfold Mentions rename
  rw [SortedSet.mem_image]
  constructor
  · rintro (rfl | ⟨x, hx, rfl⟩)
    · exact ⟨t.id, .inl rfl, rfl⟩
    · exact ⟨x, .inr hx, rfl⟩
  · rintro ⟨x, rfl | hx, rfl⟩
    · exact .inl rfl
    · exact .inr ⟨x, hx, rfl⟩

end Thread

def mentioned (threads : List Thread) : Set ThreadId := {x | ∃ t ∈ threads, t.Mentions x}

theorem map_rename_congr {ρ τ : ThreadId → ThreadId} {threads : List Thread}
    (same : Set.EqOn ρ τ (mentioned threads)) :
    threads.map (Thread.rename ρ) = threads.map (Thread.rename τ) :=
  List.map_congr_left fun t ht => Thread.rename_congr fun _ mentions => same ⟨t, ht, mentions⟩

theorem modify_rename {ρ : ThreadId → ThreadId} {f g : Thread → Thread}
    (commutes : ∀ t, g (t.rename ρ) = (f t).rename ρ) (index : Nat) (threads : List Thread) :
    (threads.map (Thread.rename ρ)).modify index g =
      (threads.modify index f).map (Thread.rename ρ) := by
  refine List.ext_getElem? fun j => ?_
  simp only [List.getElem?_modify, List.getElem?_map]
  cases threads[j]? with
  | none => rfl
  | some t =>
    simp only [Option.map_some, Option.map_eq_map]
    split
    · exact congrArg some (commutes t)
    · rfl

theorem Threadwise.mentioned_subset {ids after : Ids} {l l' : List Thread}
    (follows : Threadwise (Thread.Follows ids after) l l') :
    mentioned l' ⊆ mentioned l ∪ {x | ids.threads ≤ x ∧ x < after.threads} := by
  rintro x ⟨b, hb, mentions⟩
  obtain ⟨j, found⟩ := List.getElem?_of_mem hb
  obtain ⟨a, ha, ab⟩ := follows.back found
  rcases ab.numbers x mentions with old | new
  · exact .inl ⟨a, List.mem_of_getElem? ha, old⟩
  · exact .inr new

theorem Threadwise.mentioned_same {ids : Ids} {l l' : List Thread}
    (follows : Threadwise (Thread.Follows ids ids) l l') : mentioned l' ⊆ mentioned l := by
  intro x hx
  rcases follows.mentioned_subset hx with old | ⟨low, high⟩
  · exact old
  · exact absurd low (Nat.not_le_of_lt high)

namespace Scheduler

section Settle

variable (ρ : ThreadId → ThreadId)

theorem retire_rename (body : Relation) (t : Thread) :
    retire body (t.rename ρ) = (retire body t).rename ρ := by
  unfold retire
  rw [apply_ite (Thread.rename ρ)]
  rfl

theorem unfinished_rename (threads : List Thread) :
    unfinished (threads.map (Thread.rename ρ)) = (unfinished threads).image ρ := by
  refine SortedSet.ext fun y => ?_
  simp only [unfinished, SortedSet.mem_ofList, SortedSet.mem_image, List.mem_map, List.mem_filter]
  constructor
  · rintro ⟨_, ⟨⟨t, ht, rfl⟩, going⟩, rfl⟩
    exact ⟨t.id, ⟨t, ⟨ht, going⟩, rfl⟩, rfl⟩
  · rintro ⟨_, ⟨t, ⟨ht, going⟩, rfl⟩, rfl⟩
    exact ⟨t.rename ρ, ⟨⟨t, ht, rfl⟩, going⟩, rfl⟩

variable {ρ}

theorem wake_rename {K : Set ThreadId} (inj : Set.InjOn ρ K) {pending : SortedSet ThreadId}
    (inside : ∀ x ∈ pending, x ∈ K) {t : Thread} (mentions : ∀ x, t.Mentions x → x ∈ K) :
    wake (pending.image ρ) (t.rename ρ) = (wake pending t).rename ρ := by
  have filtered : (t.waitsFor.image ρ).filter (fun id => decide (id ∈ pending.image ρ)) =
      (t.waitsFor.filter (fun id => decide (id ∈ pending))).image ρ := by
    refine SortedSet.ext fun y => ?_
    simp only [SortedSet.mem_filter, SortedSet.mem_image, decide_eq_true_eq]
    constructor
    · rintro ⟨⟨x, hx, rfl⟩, z, hz, same⟩
      have same : z = x := inj (inside z hz) (mentions x (.inr hx)) same
      exact ⟨x, ⟨hx, same ▸ hz⟩, rfl⟩
    · rintro ⟨x, ⟨hx, hp⟩, rfl⟩
      exact ⟨⟨x, hx, rfl⟩, x, hp, rfl⟩
  have empty : (t.rename ρ).waitsFor.isEmpty = t.waitsFor.isEmpty := SortedSet.isEmpty_image ρ _
  unfold wake
  rw [empty]
  split
  · rfl
  · have waits : (t.rename ρ).waitsFor = t.waitsFor.image ρ := rfl
    have status : (t.rename ρ).status = t.status := rfl
    simp only [waits, filtered, status, SortedSet.isEmpty_image]
    rw [apply_ite (Thread.rename ρ)]
    rfl

theorem endRound_rename (ρ : ThreadId → ThreadId) (threads : List Thread) :
    endRound (threads.map (Thread.rename ρ)) = (endRound threads).map (Thread.rename ρ) := by
  have running : (threads.map (Thread.rename ρ)).any (fun t => t.status.isRunning) =
      threads.any (fun t => t.status.isRunning) := List.any_map
  unfold endRound
  rw [running]
  split
  · rfl
  · rw [List.map_map, List.map_map]
    refine List.map_congr_left fun t _ => ?_
    rw [Function.comp_apply, Function.comp_apply, apply_ite (Thread.rename ρ)]
    rfl

theorem settleThreads_rename {threads : List Thread} (inj : Set.InjOn ρ (mentioned threads))
    (body : Relation) (index : Nat) :
    settleThreads body index (threads.map (Thread.rename ρ)) =
      (settleThreads body index threads).map (Thread.rename ρ) := by
  have retired := modify_rename (retire_rename ρ body) index threads
  have inside := (retired_follows Ids.start body index threads).mentioned_same
  unfold settleThreads
  dsimp only
  rw [retired, unfinished_rename, ← endRound_rename, List.map_map, List.map_map]
  refine congrArg endRound (List.map_congr_left fun t ht => ?_)
  refine wake_rename inj (fun x hx => inside ?_) (fun x hx => inside ⟨t, ht, hx⟩)
  obtain ⟨t', ht', rfl⟩ := List.mem_map.mp (SortedSet.mem_ofList.mp hx)
  exact ⟨t', (List.mem_filter.mp ht').1, .inl rfl⟩

end Settle
end Scheduler

/-- `ρ` names the numbers in `K` anew. All numbers in `K` have been drawn at `ids`, and their new
names at `ids'`. -/
structure Renaming (ids ids' : Ids) (K : Set ThreadId) (ρ : ThreadId → ThreadId) : Prop where
  inj : Set.InjOn ρ K
  drawn : ∀ x ∈ K, x < ids.threads
  named : ∀ x ∈ K, ρ x < ids'.threads

namespace Renaming

variable {ids ids' : Ids} {K : Set ThreadId} {ρ : ThreadId → ThreadId}

theorem subset {K' : Set ThreadId} (names : Renaming ids ids' K ρ) (smaller : K' ⊆ K) :
    Renaming ids ids' K' ρ :=
  ⟨names.inj.mono smaller, fun x hx => names.drawn x (smaller hx),
    fun x hx => names.named x (smaller hx)⟩

theorem fresh (names : Renaming ids ids' K ρ) :
    Renaming (ids.skip 1) (ids'.skip 1) (insert ids.threads K)
      (Function.update ρ ids.threads ids'.threads) := by
  have old {x : ThreadId} (hx : x ∈ K) :
      Function.update ρ ids.threads ids'.threads x = ρ x :=
    Function.update_of_ne (Nat.ne_of_lt (names.drawn x hx)) _ _
  have new : Function.update ρ ids.threads ids'.threads ids.threads = ids'.threads :=
    Function.update_self _ _ _
  refine ⟨fun x hx y hy same => ?_, fun x hx => ?_, fun x hx => ?_⟩
  · rcases hx with rfl | hx <;> rcases hy with rfl | hy
    · rfl
    · rw [new, old hy] at same
      exact absurd same (Nat.ne_of_gt (names.named y hy))
    · rw [new, old hx] at same
      exact absurd same (Nat.ne_of_lt (names.named x hx))
    · rw [old hx, old hy] at same
      exact names.inj hx hy same
  · rcases hx with rfl | hx
    · exact Nat.lt_succ_self _
    · exact Nat.lt_succ_of_lt (names.drawn x hx)
  · rcases hx with rfl | hx
    · rw [new]
      exact Nat.lt_succ_self _
    · rw [old hx]
      exact Nat.lt_succ_of_lt (names.named x hx)

theorem eqOn_fresh (names : Renaming ids ids' K ρ) :
    Set.EqOn (Function.update ρ ids.threads ids'.threads) ρ K :=
  fun x hx => Function.update_of_ne (Nat.ne_of_lt (names.drawn x hx)) _ _

end Renaming

structure Renaming.Extends (K : Set ThreadId) (ρ : ThreadId → ThreadId) (after after' : Ids)
    (K' : Set ThreadId) (ρ' : ThreadId → ThreadId) : Prop where
  names : Renaming after after' K' ρ'
  wider : K ⊆ K'
  agrees : Set.EqOn ρ' ρ K

theorem Renaming.Extends.trans {K K' K'' : Set ThreadId} {ρ ρ' ρ'' : ThreadId → ThreadId}
    {mid mid' after after' : Ids} (first : Extends K ρ mid mid' K' ρ')
    (second : Extends K' ρ' after after' K'' ρ'') : Extends K ρ after after' K'' ρ'' :=
  ⟨second.names, first.wider.trans second.wider,
    fun _ hx => (second.agrees (first.wider hx)).trans (first.agrees hx)⟩

section Restart

theorem instances_rename (ρ : ThreadId → ThreadId) (threads : List Thread) :
    instances (threads.map (Thread.rename ρ)) = instances threads := by
  unfold instances
  rw [List.zipIdx_map, List.foldl_map]
  rfl

theorem enterAt_rename (ρ : ThreadId → ThreadId) (id : ThreadId) (ref : ScriptRef)
    (indices : List Nat) (entries : List Location) (threads : List Thread) :
    enterAt (ρ id) ref indices entries (threads.map (Thread.rename ρ)) =
      (enterAt id ref indices entries threads).map (Thread.rename ρ) := by
  unfold enterAt
  induction indices.zip entries generalizing threads with
  | nil => rfl
  | cons e rest ih =>
    rw [List.foldl_cons, List.foldl_cons, ← ih, List.map_set, Thread.rename_start]

def Restarted.rename (ρ : ThreadId → ThreadId) (r : Restarted) : Restarted :=
  ⟨r.threads.map (Thread.rename ρ), r.ids.image ρ⟩

structure Restarted.Within (K : Set ThreadId) (r : Restarted) : Prop where
  threads : mentioned r.threads ⊆ K
  ids : ∀ x ∈ r.ids, x ∈ K

theorem Restarted.rename_congr {ρ τ : ThreadId → ThreadId} {K : Set ThreadId} {r : Restarted}
    (inside : r.Within K) (same : Set.EqOn ρ τ K) : r.rename ρ = r.rename τ := by
  unfold rename
  rw [map_rename_congr (same.mono inside.threads),
    SortedSet.image_congr fun x hx => same (inside.ids x hx)]

variable {p : Program} {message : String} {sender : Nat} {ids ids' after : Ids}
  {K : Set ThreadId} {ρ : ThreadId → ThreadId}

theorem restartInstance_rename {r r' : Restarted} {ref : ScriptRef} {indices : List Nat}
    (names : Renaming ids ids' K ρ) (inside : r.Within K)
    (done : (restartInstance p message sender r ref indices).run ids = (.ok r', after)) :
    ∃ K' ρ' after', Renaming.Extends K ρ after after' K' ρ' ∧ r'.Within K' ∧
      (restartInstance p message sender (r.rename ρ) ref indices).run ids' =
        (.ok (r'.rename ρ'), after') := by
  have unchanged (done : (pure r : Alloc Restarted).run ids = (.ok r', after)) :
      ∃ K' ρ' after', Renaming.Extends K ρ after after' K' ρ' ∧ r'.Within K' ∧
        (pure (r.rename ρ) : Alloc Restarted).run ids' = (.ok (r'.rename ρ'), after') := by
    obtain ⟨rfl, rfl⟩ := Alloc.run_pure_ok.mp done
    exact ⟨K, ρ, ids', ⟨names, Set.Subset.rfl, Set.eqOn_refl ρ K⟩, inside, rfl⟩
  unfold restartInstance at done ⊢
  split
  · rename_i own
    rw [if_pos own] at done
    exact unchanged done
  · rename_i other
    rw [if_neg other, Alloc.run_bind_ok] at done
    obtain ⟨script, mid, ran, done⟩ := done
    obtain ⟨found, rfl⟩ := Alloc.run_liftM_ok.mp ran
    simp only [Alloc.run_bind, Alloc.run_liftM, found, Alloc.next_ok]
    have idle : indices.all (fun i => (r.rename ρ).threads[i]?.all Thread.isIdle) =
        indices.all (fun i => r.threads[i]?.all Thread.isIdle) := by
      refine congrArg indices.all (funext fun i => ?_)
      simp only [Restarted.rename, List.getElem?_map]
      cases r.threads[i]? <;> rfl
    rw [idle]
    split
    · rename_i triggered
      rw [if_pos triggered, Alloc.run_bind_ok] at done
      obtain ⟨id, last, drawn, done⟩ := done
      obtain ⟨rfl, rfl⟩ := Alloc.run_pure_ok.mp done
      obtain ⟨rfl, rfl⟩ := Alloc.run_freshThread_ok.mp drawn
      have fresh : mid.threads ≤ mid.threads ∧ mid.threads < (mid.skip 1).threads :=
        ⟨Nat.le_refl _, Nat.lt_succ_self _⟩
      have entered := enterAt_follows fresh (isIdle_of_all triggered.2) ref
        script.body.entry.toList
      refine ⟨_, _, ids'.skip 1, ⟨names.fresh, Set.subset_insert _ _, names.eqOn_fresh⟩,
        ⟨fun x hx => ?_, fun x hx => ?_⟩, ?_⟩
      · rcases entered.mentioned_subset hx with old | ⟨low, high⟩
        · exact .inr (inside.threads old)
        · exact .inl (Nat.le_antisymm (Nat.le_of_lt_succ high) low)
      · rcases SortedSet.mem_insert.mp hx with rfl | hx
        · exact .inl rfl
        · exact .inr (inside.ids x hx)
      · rw [Restarted.rename_congr inside names.eqOn_fresh.symm, Alloc.run_bind_ok]
        refine ⟨_, _, Alloc.run_freshThread_ok.mpr ⟨rfl, rfl⟩, ?_⟩
        have new : Function.update ρ mid.threads ids'.threads mid.threads = ids'.threads :=
          Function.update_self _ _ _
        unfold Restarted.rename
        rw [SortedSet.image_insert, ← enterAt_rename, new]
        rfl
    · rename_i untriggered
      rw [if_neg untriggered] at done
      exact unchanged done

theorem restartReceivers_rename {threads : List Thread} {r : Restarted}
    (names : Renaming ids ids' K ρ) (inside : mentioned threads ⊆ K)
    (done : (restartReceivers p message sender threads).run ids = (.ok r, after)) :
    ∃ K' ρ' after', Renaming.Extends K ρ after after' K' ρ' ∧ r.Within K' ∧
      (restartReceivers p message sender (threads.map (Thread.rename ρ))).run ids' =
        (.ok (r.rename ρ'), after') := by
  have folded (l : List (ScriptRef × List Nat)) {r₀ : Restarted} {mid mid' : Ids}
      {K : Set ThreadId} {ρ : ThreadId → ThreadId} (names : Renaming mid mid' K ρ)
      (inside : r₀.Within K)
      (ran : (l.foldlM (fun r (ref, indices) => restartInstance p message sender r ref indices)
        r₀).run mid = (.ok r, after)) :
      ∃ K' ρ' after', Renaming.Extends K ρ after after' K' ρ' ∧ r.Within K' ∧
        (l.foldlM (fun r (ref, indices) => restartInstance p message sender r ref indices)
          (r₀.rename ρ)).run mid' = (.ok (r.rename ρ'), after') := by
    induction l generalizing r₀ mid mid' K ρ with
    | nil =>
      obtain ⟨rfl, rfl⟩ := Alloc.run_pure_ok.mp ran
      exact ⟨K, ρ, mid', ⟨names, Set.Subset.rfl, Set.eqOn_refl ρ K⟩, inside, rfl⟩
    | cons e rest ih =>
      rw [List.foldlM_cons, Alloc.run_bind_ok] at ran
      obtain ⟨r₁, next, first, ran⟩ := ran
      obtain ⟨K₁, ρ₁, next', extends_, inside, first'⟩ :=
        restartInstance_rename names inside first
      obtain ⟨K₂, ρ₂, after', extends', inside, rest'⟩ := ih extends_.names inside ran
      refine ⟨K₂, ρ₂, after', extends_.trans extends', inside, ?_⟩
      rw [List.foldlM_cons, Alloc.run_bind_ok]
      exact ⟨_, next', first', rest'⟩
  have start : (⟨threads, ∅⟩ : Restarted).Within K :=
    ⟨inside, fun x hx => absurd hx (SortedSet.not_mem_empty x)⟩
  unfold restartReceivers at done ⊢
  rw [instances_rename]
  exact folded _ names start done

end Restart

namespace Scheduler

variable {D E : Type} {m : Scheduler D} {n : Scheduler E} {ids ids' after : Ids}
  {K : Set ThreadId} {ρ : ThreadId → ThreadId}

theorem deliver_rename (same : n.program = m.program) {sender : Nat} {op : Operation}
    {threads threads' : List Thread} (names : Renaming ids ids' K ρ)
    (inside : mentioned threads ⊆ K)
    (done : (m.deliver sender op threads).run ids = (.ok threads', after)) :
    ∃ K' ρ' after', Renaming.Extends K ρ after after' K' ρ' ∧ mentioned threads' ⊆ K' ∧
      (n.deliver sender op (threads.map (Thread.rename ρ))).run ids' =
        (.ok (threads'.map (Thread.rename ρ')), after') := by
  cases op with
  | broadcast message =>
    unfold deliver at done ⊢
    rw [Alloc.run_bind_ok] at done
    obtain ⟨r, mid, ran, done⟩ := done
    obtain ⟨rfl, rfl⟩ := Alloc.run_pure_ok.mp done
    obtain ⟨K', ρ', after', extends_, inside, ran'⟩ := restartReceivers_rename names inside ran
    refine ⟨K', ρ', after', extends_, inside.threads, ?_⟩
    rw [same, Alloc.run_bind_ok]
    exact ⟨_, _, ran', rfl⟩
  | broadcastWait message =>
    unfold deliver at done ⊢
    rw [Alloc.run_bind_ok] at done
    obtain ⟨r, mid, ran, done⟩ := done
    obtain ⟨K', ρ', after', extends_, inside, ran'⟩ := restartReceivers_rename names inside ran
    have nobody : (r.rename ρ').ids.isEmpty = r.ids.isEmpty := SortedSet.isEmpty_image ρ' r.ids
    split at done
    · rename_i none
      obtain ⟨rfl, rfl⟩ := Alloc.run_pure_ok.mp done
      refine ⟨K', ρ', after', extends_, inside.threads, ?_⟩
      rw [same, Alloc.run_bind_ok]
      refine ⟨_, _, ran', ?_⟩
      rw [nobody, if_pos none]
      rfl
    · rename_i some
      obtain ⟨rfl, rfl⟩ := Alloc.run_pure_ok.mp done
      refine ⟨K', ρ', after', extends_, ?_, ?_⟩
      · rintro x ⟨t, ht, mentions⟩
        obtain ⟨j, found⟩ := List.getElem?_of_mem ht
        rw [List.getElem?_modify] at found
        obtain ⟨t', found', rfl⟩ := Option.map_eq_some_iff.mp found
        have known := inside.threads ⟨t', List.mem_of_getElem? found', .inl rfl⟩
        split at mentions
        · rcases mentions with rfl | waits
          · exact known
          · exact inside.ids x waits
        · exact inside.threads ⟨t', List.mem_of_getElem? found', mentions⟩
      · rw [same, Alloc.run_bind_ok]
        refine ⟨_, _, ran', ?_⟩
        rw [nobody, if_neg some]
        refine congrArg (fun l => (Except.ok l, after')) (modify_rename ?_ sender r.threads)
        exact fun _ => rfl
  | _ =>
    obtain ⟨rfl, rfl⟩ := Alloc.run_pure_ok.mp done
    exact ⟨K, ρ, ids', ⟨names, Set.Subset.rfl, Set.eqOn_refl ρ K⟩, inside, rfl⟩

end Scheduler

def Move.rename (ρ : ThreadId → ThreadId) (move : Move) : Move :=
  { move with thread := move.thread.rename ρ }

theorem Transition.moves_rename (tr : Transition) (ρ : ThreadId → ThreadId) (t : Thread) :
    tr.moves (t.rename ρ) = (tr.moves t).map (Move.rename ρ) := by
  obtain ⟨source, op, target⟩ := tr
  cases op <;> rfl

theorem Script.moves_rename (script : Script) (ρ : ThreadId → ThreadId) (t : Thread) :
    script.moves (t.rename ρ) = (script.moves t).map (Move.rename ρ) := by
  by_cases waits : ∃ cond, script.Asleep t cond
  · obtain ⟨cond, asleep⟩ := waits
    have asleep' : script.Asleep (t.rename ρ) cond := asleep
    rw [moves_of_asleep asleep, moves_of_asleep asleep']
    rfl
  · have awake := not_exists.mp waits
    have awake' : ∀ cond, ¬script.Asleep (t.rename ρ) cond := awake
    have location : (t.rename ρ).location = t.location := rfl
    rw [moves_of_awake awake, moves_of_awake awake', location]
    split
    · split
      · rfl
      · rfl
    · rw [List.map_flatMap]
      exact congrArg (fun f => List.flatMap f _) (funext fun tr => tr.moves_rename ρ t)

namespace Scheduler

variable {D E : Type} {m : Scheduler D} {n : Scheduler E} {s s' : Scheduled D} {u : Scheduled E}
  {ids ids' after : Ids} {K : Set ThreadId} {ρ : ThreadId → ThreadId}

/-- A move that one side performs can be performed by the other side under new names. -/
theorem perform_rename (same : n.program = m.program) {index : Nat} {body : Relation}
    {move : Move} {d : D} (e : E) (names : Renaming ids ids' K ρ)
    (inside : mentioned (s.threads.set index move.thread) ⊆ K)
    (renamed : u.threads = s.threads.map (Thread.rename ρ))
    (done : (m.perform s index body move d).run ids = (.ok s', after)) :
    ∃ K' ρ' u' after', (n.perform u index body (move.rename ρ) e).run ids' = (.ok u', after') ∧
      Renaming.Extends K ρ after after' K' ρ' ∧ mentioned s'.threads ⊆ K' ∧
      u'.threads = s'.threads.map (Thread.rename ρ') ∧ s'.data = d ∧ u'.data = e := by
  obtain ⟨threads, delivered, rfl⟩ := run_perform_ok.mp done
  obtain ⟨K', ρ', after', extends_, inside', delivered'⟩ :=
    deliver_rename same names inside delivered
  have inj : Set.InjOn ρ' (mentioned threads) := extends_.names.inj.mono inside'
  have placed : u.threads.set index (move.rename ρ).thread =
      (s.threads.set index move.thread).map (Thread.rename ρ) := by
    rw [renamed, List.map_set]
    rfl
  rw [← placed] at delivered'
  refine ⟨K', ρ', _, after', run_perform_ok.mpr ⟨_, delivered', rfl⟩, extends_, ?_, ?_, rfl, rfl⟩
  · exact (settleThreads_follows after body index threads).mentioned_same.trans inside'
  · exact settleThreads_rename inj body index

end Scheduler
end ActorAnalysis
