import ActorAnalysis.Proofs.Alloc
import ActorAnalysis.Proofs.Sorted
import ActorAnalysis.Schedule.Step

namespace ActorAnalysis

theorem exists_getElem?_of_length {α β : Type} {l : List α} {l' : List β}
    (same : l'.length = l.length) {j : Nat} {b : β} (found : l'[j]? = some b) :
    ∃ a, l[j]? = some a :=
  ⟨_, List.getElem?_eq_getElem (same ▸ (List.getElem?_eq_some_iff.mp found).1)⟩

structure Threadwise (related : Thread → Thread → Prop) (before after : List Thread) : Prop where
  length : after.length = before.length
  related : ∀ (j : Nat) a b, before[j]? = some a → after[j]? = some b → related a b

namespace Threadwise

variable {r r' : Thread → Thread → Prop} {l l' l'' : List Thread}

theorem refl (h : ∀ a, r a a) (l : List Thread) : Threadwise r l l where
  length := rfl
  related j a b ha hb := by
    rw [ha] at hb
    exact Option.some.inj hb ▸ h a

theorem back (pairs : Threadwise r l l') {j : Nat} {b : Thread} (found : l'[j]? = some b) :
    ∃ a, l[j]? = some a ∧ r a b := by
  obtain ⟨a, at_⟩ := exists_getElem?_of_length pairs.length found
  exact ⟨a, at_, pairs.related j a b at_ found⟩

theorem forth (pairs : Threadwise r l l') {j : Nat} {a : Thread} (found : l[j]? = some a) :
    ∃ b, l'[j]? = some b ∧ r a b := by
  obtain ⟨b, at_⟩ := exists_getElem?_of_length pairs.length.symm found
  exact ⟨b, at_, pairs.related j a b found at_⟩

theorem trans {r'' : Thread → Thread → Prop} (first : Threadwise r l l')
    (second : Threadwise r' l' l'') (compose : ∀ a b c, r a b → r' b c → r'' a c) :
    Threadwise r'' l l'' where
  length := second.length.trans first.length
  related j a c ha hc := by
    obtain ⟨b, hb, bc⟩ := second.back hc
    exact compose a b c (first.related j a b ha hb) bc

theorem refs (pairs : Threadwise (fun a b => b.ref = a.ref) l l') :
    l'.map Thread.ref = l.map Thread.ref := by
  refine List.ext_getElem (by simp [pairs.length]) fun j inside inside' => ?_
  rw [List.length_map] at inside inside'
  rw [List.getElem_map, List.getElem_map]
  exact pairs.related j _ _ (List.getElem?_eq_getElem inside') (List.getElem?_eq_getElem inside)

theorem of_map {f : Thread → Thread} (h : ∀ a ∈ l, r a (f a)) : Threadwise r l (l.map f) where
  length := List.length_map f
  related j a b ha hb := by
    rw [List.getElem?_map, ha] at hb
    exact Option.some.inj hb ▸ h a (List.mem_of_getElem? ha)

theorem modify (pairs : Threadwise r l l') {f : Thread → Thread} {index : Nat}
    (h : ∀ a b, l[index]? = some a → r a b → r a (f b)) :
    Threadwise r l (l'.modify index f) where
  length := (List.length_modify f l' index).trans pairs.length
  related j a c ha hc := by
    rw [List.getElem?_modify] at hc
    obtain ⟨b, hb, hc⟩ := Option.map_eq_some_iff.mp hc
    have ab := pairs.related j a b ha hb
    split at hc
    · rename_i here
      exact hc ▸ h a b (here ▸ ha) ab
    · exact hc ▸ ab

end Threadwise

theorem mem_set_cases {threads : List Thread} {index j : Nat} {a b : Thread}
    (found : (threads.set index b)[j]? = some a) :
    j = index ∧ a = b ∨ j ≠ index ∧ threads[j]? = some a := by
  rw [List.getElem?_set] at found
  split at found
  · rename_i here
    split at found
    · exact .inl ⟨here.symm, (Option.some.inj found).symm⟩
    · exact nomatch found
  · rename_i other
    exact .inr ⟨fun same => other same.symm, found⟩

/-- The indices listed for a script are those of all its threads, in ascending order. -/
theorem getD_instances (threads : List Thread) (ref : ScriptRef) :
    ((instances threads).get? ref).getD [] =
      (threads.zipIdx.filter (fun e => decide (e.1.ref = ref))).map Prod.snd := by
  have folded (l : List (Thread × Nat)) (m : SortedMap ScriptRef (List Nat)) :
      ((l.foldl (fun m e => m.insert e.1.ref ((m.get? e.1.ref).getD [] ++ [e.2])) m).get?
        ref).getD [] =
        (m.get? ref).getD [] ++ (l.filter (fun e => decide (e.1.ref = ref))).map Prod.snd := by
    induction l generalizing m with
    | nil => simp
    | cons e rest ih =>
      rw [List.foldl_cons, ih, SortedMap.get?_insert]
      by_cases own : e.1.ref = ref
      · simp [own]
      · have other : ref ≠ e.1.ref := fun same => own same.symm
        simp [own, other]
  exact folded threads.zipIdx ∅

theorem mem_instances {threads : List Thread} {ref : ScriptRef} {indices : List Nat}
    (listed : (ref, indices) ∈ (instances threads).entries) :
    indices = (threads.zipIdx.filter (fun e => decide (e.1.ref = ref))).map Prod.snd := by
  have found : (instances threads).get? ref = some indices :=
    (instances threads).get?_of_mem_entries listed
  have all := getD_instances threads ref
  rwa [found] at all

theorem exists_mem_instances {threads : List Thread} {t : Thread} (member : t ∈ threads) :
    ∃ indices, (t.ref, indices) ∈ (instances threads).entries := by
  obtain ⟨i, found⟩ := List.getElem?_of_mem member
  have place : i ∈ ((instances threads).get? t.ref).getD [] := by
    rw [getD_instances]
    refine List.mem_map.mpr ⟨(t, i), List.mem_filter.mpr ⟨?_, by simp⟩, rfl⟩
    exact List.mem_zipIdx_iff_getElem?.mpr found
  cases listed : (instances threads).get? t.ref with
  | none =>
    rw [listed] at place
    exact absurd place List.not_mem_nil
  | some indices => exact ⟨indices, (instances threads).mem_entries_of_get? listed⟩

theorem mem_instances_iff {threads : List Thread} {ref : ScriptRef} {indices : List Nat}
    (listed : (ref, indices) ∈ (instances threads).entries) {i : Nat} :
    i ∈ indices ↔ ∃ t, threads[i]? = some t ∧ t.ref = ref := by
  rw [mem_instances listed]
  simp [List.mem_zipIdx_iff_getElem?]

theorem instances_nonempty {threads : List Thread} :
    ∀ e ∈ (instances threads).entries, e.2 ≠ [] := by
  have folded (l : List (Thread × Nat)) (m : SortedMap ScriptRef (List Nat))
      (start : ∀ e ∈ m.entries, e.2 ≠ []) :
      ∀ e ∈ (l.foldl (fun m e => m.insert e.1.ref ((m.get? e.1.ref).getD [] ++ [e.2])) m).entries,
        e.2 ≠ [] := by
    induction l generalizing m with
    | nil => exact start
    | cons head rest ih =>
      apply ih
      intro e he
      rcases SortedMap.mem_of_mem_place he with rfl | he
      · simp
      · exact start e he
  exact folded threads.zipIdx ∅ fun e he => absurd he List.not_mem_nil

theorem getElem?_enterAt {id : ThreadId} {ref : ScriptRef} {indices : List Nat}
    {entries : List Location} {threads : List Thread} {j : Nat} {b : Thread}
    (found : (enterAt id ref indices entries threads)[j]? = some b) :
    threads[j]? = some b ∨
      j ∈ indices ∧ ∃ entry ∈ entries, b = .start id ref.actor ref.script entry := by
  have placed (l : List (Nat × Location)) (inside : ∀ e ∈ l, e.1 ∈ indices ∧ e.2 ∈ entries)
      (now : List Thread) (found : (l.foldl
        (fun ts e => ts.set e.1 (.start id ref.actor ref.script e.2)) now)[j]? = some b) :
      now[j]? = some b ∨
        j ∈ indices ∧ ∃ entry ∈ entries, b = .start id ref.actor ref.script entry := by
    induction l generalizing now with
    | nil => exact .inl found
    | cons e rest ih =>
      rcases ih (fun e he => inside e (List.mem_cons_of_mem _ he)) _ found with old | new
      · rcases mem_set_cases old with ⟨rfl, rfl⟩ | ⟨-, old⟩
        · obtain ⟨index, entry⟩ := inside e List.mem_cons_self
          exact .inr ⟨index, e.2, entry, rfl⟩
        · exact .inl old
      · exact .inr new
  exact placed _ (fun _ he => List.of_mem_zip he) threads found

theorem length_enterAt (id : ThreadId) (ref : ScriptRef) (indices : List Nat)
    (entries : List Location) (threads : List Thread) :
    (enterAt id ref indices entries threads).length = threads.length := by
  unfold enterAt
  induction indices.zip entries generalizing threads with
  | nil => rfl
  | cons e rest ih => rw [List.foldl_cons, ih, List.length_set]

theorem isIdle_of_all {threads : List Thread} {indices : List Nat}
    (all : indices.all (fun i => threads[i]?.all Thread.isIdle) = true) :
    ∀ i ∈ indices, ∀ a, threads[i]? = some a → a.isIdle = true := by
  intro i hi a ha
  have idle := List.all_eq_true.mp all i hi
  rw [ha] at idle
  exact idle

theorem exists_not_idle {threads : List Thread} {indices : List Nat}
    (failed : indices.all (fun i => threads[i]?.all Thread.isIdle) = false) :
    ∃ i ∈ indices, ∃ a, threads[i]? = some a ∧ a.isIdle = false := by
  obtain ⟨i, hi, busy⟩ := List.all_eq_false.mp failed
  cases found : threads[i]? with
  | none => simp [found] at busy
  | some a => exact ⟨i, hi, a, found, by simpa [found] using busy⟩

variable {p : Program} {message : String} {sender : Nat} {ids after : Ids}

/-- An instance is left alone, for a reason, or it was idle and is restarted with the next
number. -/
theorem restartInstance_cases {r r' : Restarted} {ref : ScriptRef} {indices : List Nat}
    (done : (restartInstance p message sender r ref indices).run ids = (.ok r', after)) :
    r' = r ∧ after = ids ∧ (sender ∈ indices ∨ ∃ script, p.scriptAt ref = .ok script ∧
      (script.event = .message message →
        ∃ i ∈ indices, ∃ a, r.threads[i]? = some a ∧ a.isIdle = false)) ∨
      sender ∉ indices ∧ (∀ i ∈ indices, ∀ a, r.threads[i]? = some a → a.isIdle = true) ∧
        ∃ script, p.scriptAt ref = .ok script ∧ script.event = .message message ∧
          r' = ⟨enterAt ids.threads ref indices script.body.entry.toList r.threads,
            r.ids.insert ids.threads⟩ ∧ after = ids.skip 1 := by
  unfold restartInstance at done
  split at done
  · rename_i own
    obtain ⟨rfl, rfl⟩ := Alloc.run_pure_ok.mp done
    exact .inl ⟨rfl, rfl, .inl own⟩
  · rename_i others
    rw [Alloc.run_bind_ok] at done
    obtain ⟨script, mid, ran, done⟩ := done
    obtain ⟨found, rfl⟩ := Alloc.run_liftM_ok.mp ran
    split at done
    · rename_i triggered
      rw [Alloc.run_bind_ok] at done
      obtain ⟨id, last, drawn, done⟩ := done
      obtain ⟨rfl, rfl⟩ := Alloc.run_pure_ok.mp done
      obtain ⟨rfl, rfl⟩ := Alloc.run_freshThread_ok.mp drawn
      exact .inr ⟨others, isIdle_of_all triggered.2, script, found, triggered.1, rfl, rfl⟩
    · rename_i refused
      obtain ⟨rfl, rfl⟩ := Alloc.run_pure_ok.mp done
      refine .inl ⟨rfl, rfl, .inr ⟨script, found, fun event => ?_⟩⟩
      exact exists_not_idle (Bool.eq_false_iff.mpr fun all => refused ⟨event, all⟩)

/-- The new thread `b` takes the place of `a`, which was idle and is triggered by the message. -/
structure Thread.Revives (p : Program) (message : String) (ids after : Ids) (a b : Thread) :
    Prop where
  idle : a.isIdle = true
  triggered : ∃ script, p.scriptAt a.ref = .ok script ∧ script.event = .message message ∧
    ∃ entry ∈ script.body.entry, ∃ id, ids.threads ≤ id ∧ id < after.threads ∧
      b = .start id a.actor a.script entry

def Thread.Hears (p : Program) (message : String) (ids after : Ids) (a b : Thread) : Prop :=
  b = a ∨ a.Revives p message ids after b

theorem Thread.Revives.within {ids' after' : Ids} {a b : Thread}
    (revives : a.Revives p message ids after b) (before : ids' ≤ ids) (later : after ≤ after') :
    a.Revives p message ids' after' b := by
  obtain ⟨idle, script, found, event, entry, listed, id, low, high, new⟩ := revives
  exact ⟨idle, script, found, event, entry, listed, id, Nat.le_trans before.1 low,
    Nat.lt_of_lt_of_le high later.1, new⟩

theorem Thread.Revives.not_idle {a b : Thread} (revives : a.Revives p message ids after b) :
    b.isIdle = false := by
  obtain ⟨-, script, -, -, entry, -, id, -, -, rfl⟩ := revives
  rfl

theorem Thread.Revives.ref {a b : Thread} (revives : a.Revives p message ids after b) :
    b.ref = a.ref := by
  obtain ⟨-, script, -, -, entry, -, id, -, -, rfl⟩ := revives
  rfl

theorem Thread.Revives.waitsFor {a b : Thread} (revives : a.Revives p message ids after b) :
    b.waitsFor = ∅ := by
  obtain ⟨-, script, -, -, entry, -, id, -, -, rfl⟩ := revives
  rfl

theorem Thread.Hears.trans {mid : Ids} {a b c : Thread} (first : a.Hears p message ids mid b)
    (second : b.Hears p message mid after c) (before : ids ≤ mid) (later : mid ≤ after) :
    a.Hears p message ids after c := by
  rcases first with rfl | first
  · rcases second with rfl | second
    · exact .inl rfl
    · exact .inr (second.within before (Ids.le_refl after))
  · rcases second with rfl | second
    · exact .inr (first.within (Ids.le_refl ids) later)
    · -- a new thread is not idle
      exact absurd second.idle (by simp [first.not_idle])

theorem Thread.Hears.ref {a b : Thread} (hears : a.Hears p message ids after b) :
    b.ref = a.ref := by
  rcases hears with rfl | revives
  · rfl
  · exact revives.ref

structure Restarted.Since (p : Program) (message : String) (sender : Nat) (threads : List Thread)
    (ids now : Ids) (r : Restarted) : Prop where
  later : ids ≤ now
  hears : Threadwise (Thread.Hears p message ids now) threads r.threads
  sender : r.threads[sender]? = threads[sender]?
  fresh : ∀ x ∈ r.ids, ids.threads ≤ x ∧ x < now.threads

theorem enterAt_hears {script : Script} {ref : ScriptRef} {indices : List Nat}
    {threads : List Thread} (found : p.scriptAt ref = .ok script)
    (event : script.event = .message message)
    (idle : ∀ i ∈ indices, ∀ a, threads[i]? = some a → a.isIdle = true)
    (refs : ∀ i ∈ indices, ∀ a, threads[i]? = some a → a.ref = ref) :
    Threadwise (Thread.Hears p message ids (ids.skip 1)) threads
      (enterAt ids.threads ref indices script.body.entry.toList threads) where
  length := length_enterAt _ _ _ _ _
  related j a b ha hb := by
    rcases getElem?_enterAt hb with old | ⟨hj, entry, listed, rfl⟩
    · rw [ha] at old
      exact .inl (Option.some.inj old).symm
    · obtain rfl := refs j hj a ha
      exact .inr ⟨idle j hj a ha, script, found, event, entry, listed, ids.threads,
        Nat.le_refl _, Nat.lt_succ_self _, rfl⟩

theorem Restarted.Since.restartInstance {now : Ids} {threads : List Thread} {r r' : Restarted}
    {ref : ScriptRef} {indices : List Nat} (since : r.Since p message sender threads ids now)
    (listed : (ref, indices) ∈ (instances threads).entries)
    (done : (restartInstance p message sender r ref indices).run now = (.ok r', after)) :
    r'.Since p message sender threads ids after := by
  rcases restartInstance_cases done with ⟨rfl, rfl, -⟩ |
    ⟨others, idle, script, found, event, rfl, rfl⟩
  · exact since
  · have refs : ∀ i ∈ indices, ∀ a, r.threads[i]? = some a → a.ref = ref := by
      intro i hi b hb
      obtain ⟨a, ha, hears⟩ := since.hears.back hb
      obtain ⟨t, ht, rfl⟩ := (mem_instances_iff listed).mp hi
      rw [ha] at ht
      rw [hears.ref, Option.some.inj ht]
    have grown : now ≤ now.skip 1 := ⟨Nat.le_succ _, Nat.le_refl _⟩
    have entered : Threadwise (Thread.Hears p message now (now.skip 1)) r.threads _ :=
      enterAt_hears found event idle refs
    refine ⟨Ids.le_trans since.later grown, since.hears.trans entered ?_, ?_, fun x hx => ?_⟩
    · intro a b c first second
      exact first.trans second since.later grown
    · rw [← since.sender]
      cases at_ : r.threads[sender]? with
      | none =>
        rw [List.getElem?_eq_none_iff] at at_ ⊢
        rwa [length_enterAt]
      | some a =>
        obtain ⟨b, hb, -⟩ := entered.forth at_
        rcases getElem?_enterAt hb with old | ⟨own, -⟩
        · exact hb.trans (old.symm.trans at_)
        · exact absurd own others
    · rcases SortedSet.mem_insert.mp hx with rfl | hx
      · exact ⟨since.later.1, Nat.lt_succ_self _⟩
      · exact ⟨(since.fresh x hx).1, Nat.lt_succ_of_lt (since.fresh x hx).2⟩

theorem restartReceivers_since {threads : List Thread} {r : Restarted}
    (done : (restartReceivers p message sender threads).run ids = (.ok r, after)) :
    r.Since p message sender threads ids after := by
  have start : (⟨threads, ∅⟩ : Restarted).Since p message sender threads ids ids :=
    ⟨Ids.le_refl ids, .refl (fun _ => .inl rfl) threads, rfl,
      fun x hx => absurd hx (SortedSet.not_mem_empty x)⟩
  exact Alloc.foldlM_keeps (fun now r => r.Since p message sender threads ids now)
    (fun e listed _ _ _ _ since ran => since.restartInstance listed ran) start done

def Operation.Sends (op : Operation) (message : String) : Prop :=
  op = .broadcast message ∨ op = .broadcastWait message

/-- The threads before and after a message is delivered, if there is one. Only the sender may be
put to wait; others may be restarted. -/
structure Delivered (p : Program) (op : Operation) (sender : Nat) (ids after : Ids)
    (before now : List Thread) : Prop where
  length : now.length = before.length
  others : ∀ (j : Nat) a b, j ≠ sender → before[j]? = some a → now[j]? = some b →
    b = a ∨ ∃ message, op.Sends message ∧ a.Revives p message ids after b
  sender : ∀ a b, before[sender]? = some a → now[sender]? = some b → b = a ∨
    (∃ message, op = .broadcastWait message) ∧ ∃ awaited : SortedSet ThreadId,
      (∀ x ∈ awaited, ids.threads ≤ x ∧ x < after.threads) ∧
        b = { a with status := .waiting, waitsFor := awaited }

theorem Delivered.threadwise {p : Program} {op : Operation} {sender : Nat} {ids after : Ids}
    {before now : List Thread} (delivered : Delivered p op sender ids after before now) :
    Threadwise (fun a b => b.ref = a.ref) before now where
  length := delivered.length
  related j a b ha hb := by
    by_cases here : j = sender
    · subst here
      rcases delivered.sender a b ha hb with rfl | ⟨-, awaited, -, rfl⟩
      · rfl
      · rfl
    · rcases delivered.others j a b here ha hb with rfl | ⟨message, -, revives⟩
      · rfl
      · exact revives.ref

theorem Delivered.refl (p : Program) (op : Operation) (sender : Nat) (ids after : Ids)
    (threads : List Thread) : Delivered p op sender ids after threads threads where
  length := rfl
  others _ _ _ _ ha hb := .inl (Option.some.inj (hb.symm.trans ha))
  sender _ _ ha hb := .inl (Option.some.inj (hb.symm.trans ha))

theorem Delivered.within {op : Operation} {ids' after' : Ids} {before now : List Thread}
    (delivered : Delivered p op sender ids after before now) (start : ids' ≤ ids)
    (ends : after ≤ after') : Delivered p op sender ids' after' before now where
  length := delivered.length
  others j a b other ha hb := by
    rcases delivered.others j a b other ha hb with same | ⟨message, sends, revives⟩
    · exact .inl same
    · exact .inr ⟨message, sends, revives.within start ends⟩
  sender a b ha hb := by
    rcases delivered.sender a b ha hb with same | ⟨waits, awaited, fresh, new⟩
    · exact .inl same
    · refine .inr ⟨waits, awaited, fun x hx => ?_, new⟩
      exact ⟨Nat.le_trans start.1 (fresh x hx).1, Nat.lt_of_lt_of_le (fresh x hx).2 ends.1⟩

theorem Restarted.Since.delivered {op : Operation} {threads : List Thread} {r : Restarted}
    (since : r.Since p message sender threads ids after) (sends : op.Sends message) :
    Delivered p op sender ids after threads r.threads where
  length := since.hears.length
  others j a b _ ha hb := by
    rcases since.hears.related j a b ha hb with same | revives
    · exact .inl same
    · exact .inr ⟨message, sends, revives⟩
  sender a b ha hb := by
    rw [since.sender, ha] at hb
    exact .inl (Option.some.inj hb).symm

theorem Scheduler.deliver_delivered {D : Type} {m : Scheduler D} {op : Operation}
    {threads threads' : List Thread}
    (done : (m.deliver sender op threads).run ids = (.ok threads', after)) :
    Delivered m.program op sender ids after threads threads' := by
  cases op with
  | broadcast message =>
    obtain ⟨r, mid, ran, done⟩ := Alloc.run_bind_ok.mp done
    obtain ⟨rfl, rfl⟩ := Alloc.run_pure_ok.mp done
    exact (restartReceivers_since ran).delivered (.inl rfl)
  | broadcastWait message =>
    obtain ⟨r, mid, ran, done⟩ := Alloc.run_bind_ok.mp done
    have since := restartReceivers_since ran
    split at done
    · obtain ⟨rfl, rfl⟩ := Alloc.run_pure_ok.mp done
      exact since.delivered (.inr rfl)
    · obtain ⟨rfl, rfl⟩ := Alloc.run_pure_ok.mp done
      have sends : Operation.Sends (.broadcastWait message) message := .inr rfl
      have delivered := since.delivered sends
      refine ⟨(List.length_modify _ _ _).trans delivered.length, fun j a b other ha hb => ?_,
        fun a b ha hb => ?_⟩
      · rw [List.getElem?_modify_ne _ _ (Ne.symm other)] at hb
        exact delivered.others j a b other ha hb
      · rw [List.getElem?_modify_eq, since.sender, ha] at hb
        exact .inr ⟨⟨message, rfl⟩, r.ids, since.fresh, (Option.some.inj hb).symm⟩
  | _ =>
    obtain ⟨rfl, rfl⟩ := Alloc.run_pure_ok.mp done
    exact .refl _ _ _ _ _ _

end ActorAnalysis
