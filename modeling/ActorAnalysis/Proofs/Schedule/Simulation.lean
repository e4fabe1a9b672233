import ActorAnalysis.Proofs.Schedule.Rename
import ActorAnalysis.Proofs.Schedule.Successors

/-! One scheduler follows another over the same program. If the data of one can follow the data of
the other along every operation that the program hands to it, then each step of the first is a step
of the second, up to the names of threads. -/
namespace ActorAnalysis

/-- The operations that data is stepped along. -/
def Program.Hands (p : Program) (op : Operation) : Prop :=
  ∃ ref script t, p.scriptAt ref = .ok script ∧
    ∃ move ∈ script.moves t, move.guard = some op

theorem Script.mem_moves_of_outgoing {script : Script} {t : Thread} {tr : Transition} {move : Move}
    (triggered : t.triggered = true) (leaves : tr ∈ script.body.outgoing t.location)
    (member : move ∈ tr.moves t) : move ∈ script.moves t := by
  have awake (cond : Cond) (asleep : script.Asleep t cond) : False := by
    rw [asleep.1] at triggered
    exact nomatch triggered
  have some : ¬(script.body.outgoing t.location).isEmpty = true := by
    intro none
    rw [List.isEmpty_iff.mp none] at leaves
    exact nomatch leaves
  rw [moves_of_awake awake, if_neg some]
  exact List.mem_flatMap.mpr ⟨tr, leaves, member⟩

namespace Scheduled

variable {D E : Type}

/-- The same threads up to their names, over related data. -/
def Alike (related : D → E → Prop) (s : Scheduled D) (u : Scheduled E) : Prop :=
  ∃ ρ, Set.InjOn ρ (mentioned s.threads) ∧ u.threads = s.threads.map (Thread.rename ρ) ∧
    related s.data u.data

variable {related : D → E → Prop} {s : Scheduled D} {u : Scheduled E}

theorem Alike.atomicThread? (alike : s.Alike related u) : u.atomicThread? = s.atomicThread? := by
  obtain ⟨ρ, -, renamed, -⟩ := alike
  unfold Scheduled.atomicThread?
  rw [renamed, List.findIdx?_map]
  rfl

theorem Alike.isAtomic (alike : s.Alike related u) (index : Nat) :
    u.isAtomic index = s.isAtomic index := by
  obtain ⟨ρ, -, renamed, -⟩ := alike
  unfold Scheduled.isAtomic
  rw [renamed, List.getElem?_map, Option.map_map]
  rfl

theorem threadsFrom_rename {a b : ThreadId} {ρ : ThreadId → ThreadId}
    (shifts : ∀ i, ρ (a + i) = b + i) (l : List (String × Script)) :
    threadsFrom b l = (threadsFrom a l).map (Thread.rename ρ) := by
  induction l generalizing a b with
  | nil => rfl
  | cons e rest ih =>
    obtain ⟨actor, script⟩ := e
    have first : ρ a = b := shifts 0
    have later (i : Nat) : ρ (a + 1 + i) = b + 1 + i := by
      rw [Nat.add_assoc, shifts, Nat.add_assoc]
    have here : script.threads actor b = (script.threads actor a).map (Thread.rename ρ) := by
      unfold Script.threads
      rw [List.map_map]
      refine List.map_congr_left fun entry _ => ?_
      rw [Function.comp_apply, apply_ite (Thread.rename ρ), ← first]
      rfl
    rw [threadsFrom, threadsFrom, List.map_append, ← ih later, here]

theorem alike_start {related : D → E → Prop} (a b : Nat) (l : List (String × Script)) {d : D}
    {e : E} (data : related d e) :
    (start (threadsFrom a l) d).Alike related (start (threadsFrom b l) e) := by
  have shifts (i : Nat) : a + i - a + b = b + i := by omega
  have above {x : Nat} (hx : x ∈ mentioned (threadsFrom a l)) : a ≤ x := by
    obtain ⟨t, ht, mentions⟩ := hx
    obtain ⟨actor, script, -, id, low, -, found⟩ := mem_threadsFrom ht
    exact (Script.mem_threads found).1 x mentions ▸ low
  have inj {x y : Nat} (hx : a ≤ x) (hy : a ≤ y) (same : x - a + b = y - a + b) : x = y := by omega
  exact ⟨fun x => x - a + b, fun x hx y hy same => inj (above hx) (above hy) same,
    threadsFrom_rename shifts l, data⟩

theorem Alike.violated {ids ids' : Ids} (alike : s.Alike related u) (well : s.WellFormed ids)
    (well' : u.WellFormed ids') : u.violated = s.violated := by
  obtain ⟨ρ, -, renamed, -⟩ := alike
  refine SortedSet.ext fun p => ?_
  rw [well.blamed, well'.blamed, renamed]
  constructor
  · rintro ⟨_, member, blamed⟩
    obtain ⟨t, ht, rfl⟩ := List.mem_map.mp member
    exact ⟨t, ht, blamed⟩
  · rintro ⟨t, ht, blamed⟩
    exact ⟨t.rename ρ, List.mem_map_of_mem ht, blamed⟩

end Scheduled

namespace Scheduler

variable {D E : Type}

/-- Along the operations of the program, related data have related successors. -/
structure Simulates (m : Scheduler D) (n : Scheduler E) (related : D → E → Prop) : Prop where
  program : n.program = m.program
  step : ∀ {op d e ds es}, m.program.Hands op → related d e → m.step d op = .ok ds →
    n.step e op = .ok es → ∀ d' ∈ ds, ∃ e' ∈ es, related d' e'

/-- The second scheduler also succeeds where the first one does, and takes no more moves. -/
structure Mirrors (m : Scheduler D) (n : Scheduler E) (related : D → E → Prop) : Prop
    extends Simulates m n related where
  total : ∀ {op d e ds}, m.program.Hands op → related d e → m.step d op = .ok ds →
    ∃ es, n.step e op = .ok es ∧ (es ≠ [] → ds ≠ [])

variable {m : Scheduler D} {n : Scheduler E} {related : D → E → Prop} {s : Scheduled D}
  {u : Scheduled E} {index : Nat} {ids ids' after after' : Ids}

theorem Simulates.pass (simulates : m.Simulates n related) {ref : ScriptRef} {script : Script}
    {t : Thread} {move : Move} {d : D} {e : E} {ds : List D} {es : List E}
    (found : m.program.scriptAt ref = .ok script) (member : move ∈ script.moves t)
    (h : related d e) (passed : m.pass d move.guard = .ok ds)
    (passed' : n.pass e move.guard = .ok es) : ∀ d' ∈ ds, ∃ e' ∈ es, related d' e' := by
  intro d' hd'
  cases guard : move.guard with
  | none =>
    rw [guard] at passed passed'
    cases passed
    cases passed'
    exact ⟨e, List.mem_cons_self, List.mem_singleton.mp hd' ▸ h⟩
  | some op =>
    rw [guard] at passed passed'
    exact simulates.step ⟨ref, script, t, found, move, member, guard⟩ h passed passed' d' hd'

theorem mentioned_set_subset {t : Thread} {move : Move} (found : s.threads[index]? = some t)
    (continues : move.Continues t) :
    mentioned (s.threads.set index move.thread) ⊆ mentioned s.threads := by
  rintro x ⟨a, ha, mentions⟩
  obtain ⟨j, at_⟩ := List.getElem?_of_mem ha
  rcases mem_set_cases at_ with ⟨-, rfl⟩ | ⟨-, at_⟩
  · exact ⟨t, List.mem_of_getElem? found, continues.numbers x mentions⟩
  · exact ⟨a, List.mem_of_getElem? at_, mentions⟩

/-- The names of all threads around a move, as drawn by both sides. -/
theorem renaming_of_move {ρ : ThreadId → ThreadId} {t : Thread} {move : Move} {first first' : Ids}
    (inj : Set.InjOn ρ (mentioned s.threads))
    (renamed : u.threads = s.threads.map (Thread.rename ρ)) (well : s.WellFormed ids)
    (well' : u.WellFormed ids') (before : ids ≤ first) (before' : ids' ≤ first')
    (found : s.threads[index]? = some t) (continues : move.Continues t) :
    Renaming first first' (mentioned (s.threads.set index move.thread)) ρ := by
  refine Renaming.subset ⟨inj, ?_, ?_⟩ (mentioned_set_subset found continues)
  · rintro x ⟨a, ha, mentions⟩
    exact Nat.lt_of_lt_of_le (well.numbered a ha x mentions) before.1
  · rintro x ⟨a, ha, mentions⟩
    refine Nat.lt_of_lt_of_le (well'.numbered (a.rename ρ) ?_ (ρ x) ?_) before'.1
    · rw [renamed]
      exact List.mem_map_of_mem ha
    · exact Thread.mentions_rename.mpr ⟨x, mentions, rfl⟩

/-- Each step of the first scheduler is one of the second. -/
theorem Simulates.stepThread (simulates : m.Simulates n related) (alike : s.Alike related u)
    (well : s.WellFormed ids) (well' : u.WellFormed ids') {out : List (Scheduled D)}
    {out' : List (Scheduled E)} (done : (m.stepThread s index).run ids = (.ok out, after))
    (done' : (n.stepThread u index).run ids' = (.ok out', after')) :
    ∀ s' ∈ out, ∃ u' ∈ out', s'.Alike related u' := by
  intro s' hs'
  obtain ⟨ρ, inj, renamed, data⟩ := alike
  obtain ⟨t, script, found, hscript, performed⟩ := stepThread_performed done
  obtain ⟨t', script', found', hscript', performed'⟩ := stepThread_performed done'
  obtain rfl : t.rename ρ = t' := by
    rw [renamed, List.getElem?_map, found] at found'
    exact Option.some.inj found'
  obtain rfl : script = script' := by
    rw [simulates.program] at hscript'
    exact Except.ok.inj (hscript.symm.trans hscript')
  obtain ⟨move, member, ds, passed, d, hd, first, last, before, -, ran⟩ := performed.only s' hs'
  have member' : move.rename ρ ∈ script.moves (t.rename ρ) := by
    rw [Script.moves_rename]
    exact List.mem_map_of_mem member
  obtain ⟨es, passed', each⟩ := performed'.passed _ member'
  obtain ⟨e, he, data'⟩ := simulates.pass hscript member data passed passed' d hd
  obtain ⟨u', hu', first', last', before', -, ran'⟩ := each e he
  have names := renaming_of_move inj renamed well well' before before' found
    (Script.moves_continue member)
  obtain ⟨K', ρ', u'', final, ran'', extends_, inside, renamed', rfl, rfl⟩ :=
    perform_rename simulates.program e names Set.Subset.rfl renamed ran
  obtain rfl : u' = u'' := by
    rw [ran'] at ran''
    exact Except.ok.inj (Prod.mk.inj ran'').1
  exact ⟨u', hu', ρ', extends_.names.inj.mono inside, renamed', data'⟩

/-- The second scheduler succeeds with a step if the first one does. -/
theorem Mirrors.stepThread_succeeds (mirrors : m.Mirrors n related) (alike : s.Alike related u)
    (well : s.WellFormed ids) (well' : u.WellFormed ids') {out : List (Scheduled D)}
    (done : (m.stepThread s index).run ids = (.ok out, after)) :
    ∃ out' after', (n.stepThread u index).run ids' = (.ok out', after') := by
  obtain ⟨ρ, inj, renamed, data⟩ := alike
  obtain ⟨t, script, found, hscript, performed⟩ := stepThread_performed done
  have found' : u.threads[index]? = some (t.rename ρ) := by
    rw [renamed, List.getElem?_map, found]
    rfl
  have hscript' : n.program.scriptAt (t.rename ρ).ref = .ok script := by
    rw [mirrors.program]
    exact hscript
  refine Scheduler.stepThread_succeeds found' hscript' fun move' member' => ?_
  rw [Script.moves_rename] at member'
  obtain ⟨move, member, rfl⟩ := List.mem_map.mp member'
  obtain ⟨ds, passed, each⟩ := performed.passed move member
  have passes : ∃ es, n.pass u.data move.guard = .ok es ∧ (es ≠ [] → ds ≠ []) := by
    cases guard : move.guard with
    | none =>
      rw [guard] at passed
      cases passed
      exact ⟨[u.data], rfl, fun _ => List.cons_ne_nil _ _⟩
    | some op =>
      rw [guard] at passed
      exact mirrors.total ⟨t.ref, script, t, hscript, move, member, guard⟩ data passed
  obtain ⟨es, passed', some⟩ := passes
  refine ⟨es, passed', fun e he first' before' => ?_⟩
  -- the first scheduler takes the move as well, so the message can be delivered
  obtain ⟨d, hd⟩ := List.exists_mem_of_ne_nil ds (some (List.ne_nil_of_mem he))
  obtain ⟨s', -, first, last, before, -, ran⟩ := each d hd
  have names := renaming_of_move inj renamed well well' before before' found
    (Script.moves_continue member)
  obtain ⟨-, -, u', last', ran', -⟩ :=
    perform_rename mirrors.program e names Set.Subset.rfl renamed ran
  exact ⟨u', last', ran'⟩

theorem wakeCondition_hands {t : Thread} {cond : Cond}
    (wakes : m.wakeCondition t = .ok (some cond)) : m.program.Hands (.assume cond) := by
  unfold wakeCondition at wakes
  cases found : m.program.scriptAt t.ref with
  | error e =>
    rw [found] at wakes
    cases wakes
  | ok script =>
    simp only [found, bind, Except.bind] at wakes
    refine ⟨t.ref, script, t, found, ?_⟩
    split at wakes
    · rename_i triggered
      obtain ⟨tr, leaves, waits⟩ := List.exists_of_findSome?_eq_some (Except.ok.inj wakes)
      obtain ⟨source, op, target⟩ := tr
      cases op with
      | waitUntil cond' =>
        cases waits
        exact ⟨_, Script.mem_moves_of_outgoing triggered leaves List.mem_cons_self, rfl⟩
      | _ => cases waits
    · rename_i untriggered
      have untriggered : t.triggered = false := by simpa using untriggered
      cases event : script.event with
      | condition cond' =>
        rw [event] at wakes
        cases wakes
        rw [Script.moves_of_asleep ⟨untriggered, event⟩]
        exact ⟨_, List.mem_cons_self, rfl⟩
      | bootstrap | message =>
        rw [event] at wakes
        cases wakes

theorem wakeCondition_rename (same : n.program = m.program) (ρ : ThreadId → ThreadId)
    (t : Thread) : n.wakeCondition (t.rename ρ) = m.wakeCondition t := by
  unfold wakeCondition
  rw [same]
  rfl

theorem run_mayHold_ok {d : D} {cond : Cond} {b : Bool} :
    m.mayHold d cond = .ok b ↔
      ∃ ds, m.step d (.assume cond) = .ok ds ∧ b = !ds.isEmpty := by
  unfold mayHold
  cases m.step d (.assume cond) with
  | error e => simp [Except.map]
  | ok ds => simp [Except.map, eq_comm]

theorem Simulates.mayHold (simulates : m.Simulates n related) {d : D} {e : E} {cond : Cond}
    (hands : m.program.Hands (.assume cond)) (data : related d e)
    (may : m.mayHold d cond = .ok true) {b : Bool} (may' : n.mayHold e cond = .ok b) :
    b = true := by
  obtain ⟨ds, steps, some⟩ := run_mayHold_ok.mp may
  obtain ⟨es, steps', rfl⟩ := run_mayHold_ok.mp may'
  cases ds with
  | nil => exact nomatch some
  | cons d' rest =>
    obtain ⟨e', he', -⟩ := simulates.step hands data steps steps' d' List.mem_cons_self
    cases es with
    | nil => exact nomatch he'
    | cons => rfl

theorem Simulates.mayStep (simulates : m.Simulates n related) {d : D} {e : E} {t : Thread}
    {ρ : ThreadId → ThreadId} (data : related d e) (may : m.mayStep d t = .ok true) {b : Bool}
    (may' : n.mayStep e (t.rename ρ) = .ok b) : b = true := by
  have status : (t.rename ρ).status = t.status := rfl
  have waits : (t.rename ρ).waitsFor.isEmpty = t.waitsFor.isEmpty := SortedSet.isEmpty_image ρ _
  unfold Scheduler.mayStep at may'
  rw [status, waits, wakeCondition_rename simulates.program] at may'
  rcases mayStep_true may with running | ⟨waiting, free, cond, wakes, may⟩
  · rw [running] at may'
    exact (Except.ok.inj may').symm
  · rw [waiting, free, wakes] at may'
    exact simulates.mayHold (wakeCondition_hands wakes) data may may'

theorem Simulates.enabled (simulates : m.Simulates n related) (alike : s.Alike related u)
    (enabled : m.Enabled s index) {l : List Nat} (done : n.eligible u = .ok l) : index ∈ l := by
  obtain ⟨l', done', member⟩ := enabled
  have sections := alike.atomicThread?
  obtain ⟨ρ, -, renamed, data⟩ := alike
  rw [mem_eligible done, sections]
  rcases (mem_eligible done').mp member with found | ⟨none, t, found, may⟩
  · exact .inl found
  · have found' : u.threads[index]? = some (t.rename ρ) := by
      rw [renamed, List.getElem?_map, found]
      rfl
    obtain ⟨b, may'⟩ := mayStep_of_eligible done (sections.trans none) (List.mem_of_getElem? found')
    rw [simulates.mayStep data may may'] at may'
    exact .inr ⟨none, t.rename ρ, found', may'⟩

theorem Mirrors.mayStep_succeeds (mirrors : m.Mirrors n related) {d : D} {e : E} {t : Thread}
    (ρ : ThreadId → ThreadId) (data : related d e) {b : Bool} (may : m.mayStep d t = .ok b) :
    ∃ b', n.mayStep e (t.rename ρ) = .ok b' := by
  have status : (t.rename ρ).status = t.status := rfl
  have waits : (t.rename ρ).waitsFor.isEmpty = t.waitsFor.isEmpty := SortedSet.isEmpty_image ρ _
  unfold Scheduler.mayStep at may ⊢
  rw [status, waits, wakeCondition_rename mirrors.program]
  split
  · exact ⟨_, rfl⟩
  · rename_i waiting
    rw [waiting] at may
    split
    · rename_i free
      rw [if_pos free] at may
      cases wakes : m.wakeCondition t with
      | error e =>
        rw [wakes] at may
        exact nomatch may
      | ok cond? =>
        rw [wakes] at may
        cases cond? with
        | none => exact ⟨false, rfl⟩
        | some cond =>
          obtain ⟨ds, steps, -⟩ := run_mayHold_ok.mp may
          obtain ⟨es, steps', -⟩ := mirrors.total (wakeCondition_hands wakes) data steps
          exact ⟨_, run_mayHold_ok.mpr ⟨es, steps', rfl⟩⟩
    · exact ⟨_, rfl⟩
  · exact ⟨_, rfl⟩

theorem Mirrors.enabled (mirrors : m.Mirrors n related) (alike : s.Alike related u)
    (enabled : m.Enabled s index) : n.Enabled u index := by
  have succeeds : ∃ l, n.eligible u = .ok l := by
    have sections := alike.atomicThread?
    obtain ⟨ρ, -, renamed, data⟩ := alike
    obtain ⟨l', done', -⟩ := enabled
    refine eligible_succeeds fun none t' ht' => ?_
    rw [renamed] at ht'
    obtain ⟨t, ht, rfl⟩ := List.mem_map.mp ht'
    obtain ⟨b, may⟩ := mayStep_of_eligible done' (sections.symm.trans none) ht
    exact mirrors.mayStep_succeeds ρ data may
  obtain ⟨l, done⟩ := succeeds
  exact ⟨l, done, mirrors.toSimulates.enabled alike enabled done⟩

end Scheduler
end ActorAnalysis
