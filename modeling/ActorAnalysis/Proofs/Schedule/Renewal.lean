import ActorAnalysis.Proofs.Schedule.Home
import ActorAnalysis.Proofs.Schedule.Others

/-! Broadcasts restart scripts as a whole. All threads of a script that is restarted get one fresh
number, and each of them enters at its own home; so the threads of one script can be told by their
number at all times. -/
namespace ActorAnalysis

theorem mem_zip_entries {p : Program} (unambiguous : p.Unambiguous) {threads : List Thread}
    (refs : threads.map Thread.ref = p.homes.map Prod.fst) {e : String × Script}
    (member : e ∈ p.scripts) {indices : List Nat}
    (listed : (scriptRef e, indices) ∈ (instances threads).entries) (i : Nat) (home : Location) :
    (i, home) ∈ indices.zip e.2.body.entry.toList ↔ p.homes[i]? = some (scriptRef e, home) := by
  have places : indices =
      (p.homes.zipIdx.filter (fun h => decide (h.1.1 = scriptRef e))).map Prod.snd := by
    have same := congrArg (fun l => (l.zipIdx.filter
      (fun h => decide (h.1 = scriptRef e))).map Prod.snd) refs
    simp only [List.zipIdx_map, List.filter_map, List.map_map] at same
    exact (mem_instances listed).trans same
  have entries : e.2.body.entry.toList =
      (p.homes.zipIdx.filter (fun h => decide (h.1.1 = scriptRef e))).map (fun h => h.1.2) := by
    have own := unambiguous.entries member
    rw [← List.zipIdx_map_fst 0 p.homes, List.filter_map, List.map_map] at own
    exact own.symm
  rw [places, entries, List.zip_map']
  simp only [List.mem_map, List.mem_filter, List.mem_zipIdx_iff_getElem?, decide_eq_true_eq,
    Prod.mk.injEq]
  constructor
  · rintro ⟨⟨⟨ref, home⟩, i⟩, ⟨at_, rfl⟩, rfl, rfl⟩
    exact at_
  · intro at_
    exact ⟨((scriptRef e, home), i), ⟨at_, rfl⟩, rfl, rfl⟩

theorem foldl_set_cases (place : Location → Thread) {l : List (Nat × Location)}
    {threads : List Thread} {j : Nat} {a b : Thread} (found : threads[j]? = some a)
    (done : (l.foldl (fun ts e => ts.set e.1 (place e.2)) threads)[j]? = some b) :
    (∃ home, (j, home) ∈ l ∧ b = place home) ∨ (∀ home, (j, home) ∉ l) ∧ b = a := by
  induction l generalizing threads a with
  | nil => exact .inr ⟨by simp, Option.some.inj (done.symm.trans found)⟩
  | cons e rest ih =>
    obtain ⟨i, home⟩ := e
    by_cases here : i = j
    · subst here
      have placed : (threads.set i (place home))[i]? = some (place home) :=
        List.getElem?_set_self (List.getElem?_eq_some_iff.mp found).1
      rcases ih placed done with ⟨h, later, same⟩ | ⟨-, same⟩
      · exact .inl ⟨h, List.mem_cons_of_mem _ later, same⟩
      · exact .inl ⟨home, List.mem_cons_self, same⟩
    · have kept : (threads.set i (place home))[j]? = some a := by
        rw [List.getElem?_set_ne here, found]
      rcases ih kept done with ⟨h, later, same⟩ | ⟨never, same⟩
      · exact .inl ⟨h, List.mem_cons_of_mem _ later, same⟩
      · refine .inr ⟨fun h listed => ?_, same⟩
        rcases List.mem_cons.mp listed with first | later
        · exact here (Prod.mk.inj first).1.symm
        · exact never h later

/-- The scripts for which `renew` has a number are restarted under it, each thread at its home. All
other threads but the sender stay as they are. -/
structure Renewed (p : Program) (sender : Nat) (ids now : Ids) (renew : ScriptRef → Option ThreadId)
    (before after : List Thread) : Prop where
  fresh : ∀ ref x, renew ref = some x → ids.threads ≤ x ∧ x < now.threads
  apart : ∀ ref ref' x, renew ref = some x → renew ref' = some x → ref = ref'
  silent : ∀ t, before[sender]? = some t → renew t.ref = none
  kept : ∀ (j : Nat) a b, j ≠ sender → before[j]? = some a → after[j]? = some b →
    renew a.ref = none → b = a
  placed : ∀ (j : Nat) a b x, j ≠ sender → before[j]? = some a → after[j]? = some b →
    renew a.ref = some x → ∃ home, p.homes[j]? = some (a.ref, home) ∧
      b = .start x a.actor a.script home

namespace Renewed

variable {p : Program} {message : String} {sender : Nat} {ids now after : Ids}
  {renew : ScriptRef → Option ThreadId} {threads threads' : List Thread}

theorem nothing (p : Program) (sender : Nat) (ids now : Ids) (threads : List Thread) :
    Renewed p sender ids now (fun _ => none) threads threads where
  fresh _ _ none := nomatch none
  apart _ _ _ none := nomatch none
  silent _ _ := rfl
  kept _ _ _ _ ha hb _ := Option.some.inj (hb.symm.trans ha)
  placed _ _ _ _ _ _ _ none := nomatch none

theorem modify (renewed : Renewed p sender ids now renew threads threads') (f : Thread → Thread) :
    Renewed p sender ids now renew threads (threads'.modify sender f) where
  fresh := renewed.fresh
  apart := renewed.apart
  silent := renewed.silent
  kept j a b other ha hb := by
    rw [List.getElem?_modify_ne _ _ (Ne.symm other)] at hb
    exact renewed.kept j a b other ha hb
  placed j a b x other ha hb := by
    rw [List.getElem?_modify_ne _ _ (Ne.symm other)] at hb
    exact renewed.placed j a b x other ha hb

/-- A restarted script has all its threads at home. The others are not touched. -/
theorem enterAt_cases (unambiguous : p.Unambiguous)
    (refs : threads.map Thread.ref = p.homes.map Prod.fst) {e : String × Script}
    (member : e ∈ p.scripts) {indices : List Nat}
    (listed : (scriptRef e, indices) ∈ (instances threads).entries)
    (length : threads'.length = threads.length) {id : ThreadId} {j : Nat} {a b : Thread}
    (ha : threads[j]? = some a)
    (hb : (ActorAnalysis.enterAt id (scriptRef e) indices e.2.body.entry.toList threads')[j]? =
      some b) :
    (a.ref = scriptRef e ∧ ∃ home, p.homes[j]? = some (a.ref, home) ∧
      b = .start id a.actor a.script home) ∨ (a.ref ≠ scriptRef e ∧ threads'[j]? = some b) := by
  obtain ⟨home, at_⟩ := Program.home_of_refs refs ha
  have inside : j < threads'.length := length ▸ (List.getElem?_eq_some_iff.mp ha).1
  have old : threads'[j]? = some threads'[j] := List.getElem?_eq_getElem inside
  rcases foldl_set_cases (Thread.start id e.1 e.2.id) old hb with
    ⟨home', pair, rfl⟩ | ⟨never, rfl⟩
  · rw [mem_zip_entries unambiguous refs member listed, at_] at pair
    obtain ⟨ref, rfl⟩ := Prod.mk.inj (Option.some.inj pair)
    refine .inl ⟨ref, home, at_, ?_⟩
    rw [show e.1 = a.actor from (congrArg ScriptRef.actor ref).symm,
      show e.2.id = a.script from (congrArg ScriptRef.script ref).symm]
  · refine .inr ⟨fun ref => ?_, old⟩
    refine never home ((mem_zip_entries unambiguous refs member listed j home).mpr ?_)
    rw [at_, ref]

theorem enterAt (unambiguous : p.Unambiguous)
    (refs : threads.map Thread.ref = p.homes.map Prod.fst) {e : String × Script}
    (member : e ∈ p.scripts) {indices : List Nat}
    (listed : (scriptRef e, indices) ∈ (instances threads).entries) (others : sender ∉ indices)
    (later : ids ≤ now) (length : threads'.length = threads.length)
    (renewed : Renewed p sender ids now renew threads threads') :
    Renewed p sender ids (now.skip 1)
      (fun ref => if ref = scriptRef e then some now.threads else renew ref) threads
      (enterAt now.threads (scriptRef e) indices e.2.body.entry.toList threads') := by
  constructor
  case fresh =>
    intro ref x drawn
    split at drawn
    · cases drawn
      exact ⟨later.1, Nat.lt_succ_self _⟩
    · exact ⟨(renewed.fresh ref x drawn).1, Nat.lt_succ_of_lt (renewed.fresh ref x drawn).2⟩
  case apart =>
    intro ref ref' x drawn drawn'
    -- numbers drawn before are less than the new one
    split at drawn
    · rename_i same
      split at drawn'
      · rename_i same'
        exact same.trans same'.symm
      · cases drawn
        exact absurd (renewed.fresh ref' _ drawn').2 (Nat.lt_irrefl _)
    · split at drawn'
      · cases drawn'
        exact absurd (renewed.fresh ref _ drawn).2 (Nat.lt_irrefl _)
      · exact renewed.apart ref ref' x drawn drawn'
  case silent =>
    intro t ht
    have other : t.ref ≠ scriptRef e := by
      intro ref
      exact others ((mem_instances_iff listed).mpr ⟨t, ht, ref⟩)
    simp only [if_neg other]
    exact renewed.silent t ht
  case kept =>
    intro j a b notSender ha hb none
    rcases enterAt_cases unambiguous refs member listed length ha hb with ⟨ref, -⟩ | ⟨other, hc⟩
    · simp [ref] at none
    · rw [if_neg other] at none
      exact renewed.kept j a b notSender ha hc none
  case placed =>
    intro j a b x notSender ha hb drawn
    rcases enterAt_cases unambiguous refs member listed length ha hb with
      ⟨ref, home, at_, rfl⟩ | ⟨other, hc⟩
    · rw [if_pos ref] at drawn
      cases drawn
      exact ⟨home, at_, rfl⟩
    · rw [if_neg other] at drawn
      exact renewed.placed j a b x notSender ha hc drawn

end Renewed

section Broadcast

variable {p : Program} {message : String} {sender : Nat} {ids after : Ids} {threads : List Thread}

/-- The message restarts the script: it triggers it, all threads of the script are idle, and the
sender is none of them. -/
structure ScriptRef.Heeds (p : Program) (message : String) (sender : Nat) (threads : List Thread)
    (ref : ScriptRef) : Prop where
  present : ∃ t ∈ threads, t.ref = ref
  others : ∀ t, threads[sender]? = some t → t.ref ≠ ref
  triggered : ∃ script, p.scriptAt ref = .ok script ∧ script.event = .message message
  idle : ∀ t ∈ threads, t.ref = ref → t.isIdle = true

/-- Whether an instance is restarted is settled by the threads before the broadcast: while it has
not had its turn, its threads are still those. -/
theorem restartInstance_heeds {now : Ids} {renew : ScriptRef → Option ThreadId} {r r' : Restarted}
    {ref : ScriptRef} {indices : List Nat} (since : r.Since p message sender threads ids now)
    (renewed : Renewed p sender ids now renew threads r.threads) (unheard : renew ref = none)
    (listed : (ref, indices) ∈ (instances threads).entries)
    (ran : (restartInstance p message sender r ref indices).run now = (.ok r', after)) :
    ¬ref.Heeds p message sender threads ∧ r' = r ∧ after = now ∨
      ref.Heeds p message sender threads ∧ sender ∉ indices ∧ ∃ script,
        p.scriptAt ref = .ok script ∧ after = now.skip 1 ∧
        r' = ⟨enterAt now.threads ref indices script.body.entry.toList r.threads,
          r.ids.insert now.threads⟩ := by
  have places (i : Nat) : i ∈ indices ↔ ∃ t, threads[i]? = some t ∧ t.ref = ref :=
    mem_instances_iff listed
  have kept {i : Nat} {t : Thread} (found : threads[i]? = some t) (own : t.ref = ref) :
      r.threads[i]? = some t := by
    by_cases here : i = sender
    · rw [here, since.sender, ← here, found]
    · obtain ⟨b, hb, -⟩ := since.hears.forth found
      rw [hb, renewed.kept i t b here found hb (own ▸ unheard)]
  rcases restartInstance_cases ran with ⟨rfl, rfl, reason⟩ |
    ⟨others, idle, script, found, event, rfl, rfl⟩
  · refine .inl ⟨fun heeds => ?_, rfl, rfl⟩
    rcases reason with own | ⟨script, found, busy⟩
    · obtain ⟨t, ht, ref⟩ := (places sender).mp own
      exact heeds.others t ht ref
    · obtain ⟨script', found', event⟩ := heeds.triggered
      obtain rfl : script = script' := Except.ok.inj (found.symm.trans found')
      obtain ⟨i, hi, a, ha, active⟩ := busy event
      obtain ⟨t, ht, own⟩ := (places i).mp hi
      obtain rfl : a = t := Option.some.inj (ha.symm.trans (kept ht own))
      rw [heeds.idle a (List.mem_of_getElem? ht) own] at active
      exact nomatch active
  · refine .inr ⟨⟨?_, fun t ht own => ?_, ⟨script, found, event⟩, fun t ht own => ?_⟩, others,
      script, found, rfl, rfl⟩
    · obtain ⟨i, hi⟩ := List.exists_mem_of_ne_nil indices (instances_nonempty _ listed)
      obtain ⟨t, ht, own⟩ := (places i).mp hi
      exact ⟨t, List.mem_of_getElem? ht, own⟩
    · exact others ((places sender).mpr ⟨t, ht, own⟩)
    · obtain ⟨i, hi⟩ := List.getElem?_of_mem ht
      exact idle i ((places i).mpr ⟨t, hi, own⟩) t (kept hi own)

/-- A broadcast restarts exactly the scripts that heed the message. -/
theorem restartReceivers_renewed (unambiguous : p.Unambiguous)
    (refs : threads.map Thread.ref = p.homes.map Prod.fst) {r : Restarted}
    (done : (restartReceivers p message sender threads).run ids = (.ok r, after)) :
    ∃ renew, Renewed p sender ids after renew threads r.threads ∧
      ∀ ref, (renew ref).isSome = true ↔ ref.Heeds p message sender threads := by
  -- of the scripts that have had their turn, those are restarted that heed the message
  let inv (before : List (ScriptRef × List Nat)) (now : Ids) (r : Restarted) : Prop :=
    r.Since p message sender threads ids now ∧
      ∃ renew, Renewed p sender ids now renew threads r.threads ∧ ∀ ref,
        (renew ref).isSome = true ↔ ref ∈ before.map Prod.fst ∧ ref.Heeds p message sender threads
  have start : inv [] ids ⟨threads, ∅⟩ :=
    ⟨⟨Ids.le_refl ids, .refl (fun _ => .inl rfl) threads, rfl,
      fun x hx => absurd hx (SortedSet.not_mem_empty x)⟩,
      _, .nothing p sender ids ids threads, fun ref => by simp⟩
  have folded := Alloc.foldlM_rule inv ?_ start done
  · obtain ⟨-, renew, renewed, heard⟩ := folded
    refine ⟨renew, renewed, fun ref => (heard ref).trans ⟨fun h => h.2, fun heeds => ⟨?_, heeds⟩⟩⟩
    obtain ⟨t, ht, rfl⟩ := heeds.present
    obtain ⟨indices, listed⟩ := exists_mem_instances ht
    exact List.mem_map_of_mem listed
  · rintro before ⟨ref, indices⟩ rest split now r r' after ⟨since, renew, renewed, heard⟩ ran
    have listed : (ref, indices) ∈ (instances threads).entries := by
      rw [split]
      exact List.mem_append_right before List.mem_cons_self
    have new : ref ∉ before.map Prod.fst := by
      intro old
      obtain ⟨e, he, rfl⟩ := List.mem_map.mp old
      have ascending := (instances threads).ascending
      rw [split, List.pairwise_append] at ascending
      exact TotalLT.irrefl e.1 (ascending.2.2 e he (e.1, indices) List.mem_cons_self)
    have unheard : renew ref = none :=
      Option.not_isSome_iff_eq_none.mp fun drawn => new ((heard ref).mp drawn).1
    refine ⟨since.restartInstance listed ran, ?_⟩
    rcases restartInstance_heeds since renewed unheard listed ran with ⟨deaf, rfl, rfl⟩ |
      ⟨heeds, others, script, found, rfl, rfl⟩
    · refine ⟨renew, renewed, fun ref' => (heard ref').trans ?_⟩
      simp only [List.map_append, List.map_cons, List.map_nil, List.mem_append, List.mem_singleton]
      grind
    · obtain ⟨e, member, rfl, rfl⟩ := Program.mem_of_scriptAt found
      refine ⟨_, renewed.enterAt unambiguous refs member listed others since.later
        since.hears.length, fun ref' => ?_⟩
      simp only [List.map_append, List.map_cons, List.map_nil, List.mem_append, List.mem_singleton]
      by_cases here : ref' = scriptRef e
      · subst here
        simp [heeds]
      · simp [here, heard ref']

theorem Scheduler.deliver_renewed {D : Type} {m : Scheduler D} {op : Operation}
    {threads' : List Thread} (unambiguous : m.program.Unambiguous)
    (refs : threads.map Thread.ref = m.program.homes.map Prod.fst)
    (done : (m.deliver sender op threads).run ids = (.ok threads', after)) :
    ∃ renew, Renewed m.program sender ids after renew threads threads' ∧
      ∀ ref, (renew ref).isSome = true ↔
        ∃ message, op.Sends message ∧ ref.Heeds m.program message sender threads := by
  cases op with
  | broadcast message =>
    obtain ⟨r, mid, ran, done⟩ := Alloc.run_bind_ok.mp done
    obtain ⟨rfl, rfl⟩ := Alloc.run_pure_ok.mp done
    obtain ⟨renew, renewed, heard⟩ := restartReceivers_renewed unambiguous refs ran
    exact ⟨renew, renewed, fun ref => by simp [Operation.Sends, heard ref]⟩
  | broadcastWait message =>
    obtain ⟨r, mid, ran, done⟩ := Alloc.run_bind_ok.mp done
    obtain ⟨renew, renewed, heard⟩ := restartReceivers_renewed unambiguous refs ran
    split at done
    · obtain ⟨rfl, rfl⟩ := Alloc.run_pure_ok.mp done
      exact ⟨renew, renewed, fun ref => by simp [Operation.Sends, heard ref]⟩
    · obtain ⟨rfl, rfl⟩ := Alloc.run_pure_ok.mp done
      exact ⟨renew, renewed.modify _, fun ref => by simp [Operation.Sends, heard ref]⟩
  | _ =>
    obtain ⟨rfl, rfl⟩ := Alloc.run_pure_ok.mp done
    exact ⟨_, .nothing _ _ _ _ _, fun ref => by simp [Operation.Sends]⟩

end Broadcast

def Grouped (threads : List Thread) : Prop :=
  ∀ t ∈ threads, ∀ u ∈ threads, t.id = u.id ↔ t.ref = u.ref

namespace Scheduler

variable {D : Type} {p : Program} {index : Nat} {body : Relation} {move : Move}
  {ids after : Ids} {renew : ScriptRef → Option ThreadId}

theorem Resumes.eq_self {pending : SortedSet ThreadId} {a b : Thread}
    (resumes : Resumes pending a b) (free : a.waitsFor.isEmpty = true)
    (active : a.status ≠ .yielded) : b = a := by
  have unwoken : wake pending a = a := if_pos free
  unfold Resumes at resumes
  rw [unwoken] at resumes
  exact resumes.resolve_right fun h => active h.1

/-- What a move of the thread at `index` makes of a thread: it has moved itself, it stays or
resumes, or it is restarted at home. -/
inductive Fate (p : Program) (index : Nat) (body : Relation) (move : Move)
    (renew : ScriptRef → Option ThreadId) : Nat → Thread → Thread → Prop where
  | moved {a b c : Thread} : move.Keeps a → renew a.ref = none →
      (c = move.thread ∨
        ∃ awaited, c = { move.thread with status := .waiting, waitsFor := awaited }) →
      (retire body c).Resumed b → Fate p index body move renew index a b
  | kept {j : Nat} {a b : Thread} : j ≠ index → renew a.ref = none → a.Resumed b →
      (a.waitsFor.isEmpty = true → a.status ≠ .yielded → b = a) →
      Fate p index body move renew j a b
  | placed {j : Nat} {a : Thread} {x : ThreadId} {home : Location} : j ≠ index →
      renew a.ref = some x → p.homes[j]? = some (a.ref, home) →
      Fate p index body move renew j a (.start x a.actor a.script home)

/-- The fates of all threads, with fresh numbers for the scripts that are restarted. -/
structure Outcome (p : Program) (index : Nat) (body : Relation) (move : Move) (ids after : Ids)
    (renew : ScriptRef → Option ThreadId) (before now : List Thread) : Prop where
  length : now.length = before.length
  fresh : ∀ ref x, renew ref = some x → ids.threads ≤ x ∧ x < after.threads
  apart : ∀ ref ref' x, renew ref = some x → renew ref' = some x → ref = ref'
  fate : ∀ (j : Nat) a b, before[j]? = some a → now[j]? = some b →
    Fate p index body move renew j a b

theorem Fate.numbered {j : Nat} {a b : Thread} (fate : Fate p index body move renew j a b) :
    b.ref = a.ref ∧ b.id = (renew a.ref).getD a.id := by
  cases fate with
  | @moved _ _ c keeps none sent resumed =>
    obtain ⟨id, ref, -⟩ := retire_keeps body c
    rw [resumed.id, resumed.ref, id, ref, none]
    rcases sent with rfl | ⟨awaited, rfl⟩
    · exact ⟨keeps.ref, keeps.id⟩
    · exact ⟨keeps.ref, keeps.id⟩
  | kept _ none resumed _ =>
    rw [none]
    exact ⟨resumed.ref, resumed.id⟩
  | placed _ drawn _ =>
    rw [drawn]
    exact ⟨rfl, rfl⟩

namespace Outcome

variable {before now : List Thread}
  (outcome : Outcome p index body move ids after renew before now)
include outcome

theorem back {j : Nat} {b : Thread} (found : now[j]? = some b) :
    ∃ a, before[j]? = some a ∧ Fate p index body move renew j a b := by
  obtain ⟨a, old⟩ := exists_getElem?_of_length outcome.length found
  exact ⟨a, old, outcome.fate j a b old found⟩

theorem grouped (numbered : ∀ t ∈ before, t.id < ids.threads) (grouped : Grouped before) :
    Grouped now := by
  intro b hb b' hb'
  obtain ⟨j, found⟩ := List.getElem?_of_mem hb
  obtain ⟨j', found'⟩ := List.getElem?_of_mem hb'
  obtain ⟨a, old, fate⟩ := outcome.back found
  obtain ⟨a', old', fate'⟩ := outcome.back found'
  have ha := List.mem_of_getElem? old
  have ha' := List.mem_of_getElem? old'
  rw [fate.numbered.1, fate'.numbered.1, fate.numbered.2, fate'.numbered.2]
  -- a number that was in use before is less than those drawn by the step
  cases drawn : renew a.ref with
  | none =>
    cases drawn' : renew a'.ref with
    | none => exact grouped a ha a' ha'
    | some x' =>
      have later := (outcome.fresh _ _ drawn').1
      refine ⟨fun same => ?_, fun same => ?_⟩
      · have same : a.id = x' := same
        exact absurd (same ▸ numbered a ha) (Nat.not_lt.mpr later)
      · rw [same, drawn'] at drawn
        exact nomatch drawn
  | some x =>
    cases drawn' : renew a'.ref with
    | none =>
      have later := (outcome.fresh _ _ drawn).1
      refine ⟨fun same => ?_, fun same => ?_⟩
      · have same : x = a'.id := same
        exact absurd (same ▸ numbered a' ha') (Nat.not_lt.mpr later)
      · rw [same, drawn'] at drawn
        exact nomatch drawn
    | some x' =>
      refine ⟨fun same => ?_, fun same => ?_⟩
      · obtain rfl : x = x' := same
        exact outcome.apart _ _ _ drawn drawn'
      · rw [same, drawn'] at drawn
        exact (Option.some.inj drawn).symm

end Outcome

theorem perform_outcome {m : Scheduler D} {s u : Scheduled D} {t : Thread} {d : D}
    (unambiguous : m.program.Unambiguous)
    (refs : s.threads.map Thread.ref = m.program.homes.map Prod.fst)
    (found : s.threads[index]? = some t) (keeps : move.Keeps t)
    (done : (m.perform s index body move d).run ids = (.ok u, after)) :
    ∃ renew, Outcome m.program index body move ids after renew s.threads u.threads := by
  obtain ⟨threads, delivered, rfl⟩ := run_perform_ok.mp done
  have inside := (List.getElem?_eq_some_iff.mp found).1
  have placed : (s.threads.set index move.thread)[index]? = some move.thread :=
    List.getElem?_set_self inside
  have others (j : Nat) (other : j ≠ index) :
      (s.threads.set index move.thread)[j]? = s.threads[j]? :=
    List.getElem?_set_ne (Ne.symm other)
  have refs' := (map_ref_set found keeps.ref).trans refs
  obtain ⟨renew, renewed, -⟩ := deliver_renewed unambiguous refs' delivered
  have shape := deliver_delivered delivered
  obtain ⟨f, same, resumes⟩ := endRound_resumes (unfinished (threads.modify index (retire body)))
    (threads.modify index (retire body))
  have settled : (settle body s index move.violated threads d).threads =
      (threads.modify index (retire body)).map f := same
  refine ⟨renew, ?_, renewed.fresh, renewed.apart, fun j a b ha hb => ?_⟩
  · rw [settled, List.length_map, List.length_modify, shape.length, List.length_set]
  rw [settled, List.getElem?_map] at hb
  obtain ⟨c, hc, rfl⟩ := Option.map_eq_some_iff.mp hb
  by_cases here : j = index
  · subst here
    obtain rfl : a = t := Option.some.inj (ha.symm.trans found)
    rw [List.getElem?_modify_eq] at hc
    obtain ⟨sent, hsent, rfl⟩ := Option.map_eq_some_iff.mp hc
    refine .moved keeps (keeps.ref ▸ renewed.silent _ placed) ?_ (resumes _).resumed
    rcases shape.sender _ sent placed hsent with same | ⟨-, awaited, -, same⟩
    · exact .inl same
    · exact .inr ⟨awaited, same⟩
  · rw [List.getElem?_modify_ne _ _ (Ne.symm here)] at hc
    have old := (others j here).trans ha
    cases drawn : renew a.ref with
    | none =>
      obtain rfl : c = a := renewed.kept j a c here old hc drawn
      exact .kept here drawn (resumes c).resumed (resumes c).eq_self
    | some x =>
      obtain ⟨home, at_, rfl⟩ := renewed.placed j a c x here old hc drawn
      rw [(resumes (.start x a.actor a.script home)).eq_self rfl nofun]
      exact .placed here drawn at_

end Scheduler
end ActorAnalysis
