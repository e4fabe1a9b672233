import ActorAnalysis.Proofs.Schedule.Renewal

namespace ActorAnalysis

namespace Relation

theorem mem_locations {r : Relation} {loc : Location} :
    loc ∈ r.locations ↔ (loc ∈ r.entry ∨ loc ∈ r.exit) ∨
      ∃ tr ∈ r.transitions, loc = tr.source ∨ loc = tr.target := by
  have folded (l : List Transition) (s : SortedSet Location) :
      loc ∈ l.foldl (fun s t => (s.insert t.source).insert t.target) s ↔
        loc ∈ s ∨ ∃ tr ∈ l, loc = tr.source ∨ loc = tr.target := by
    induction l generalizing s with
    | nil => simp
    | cons tr rest ih =>
      rw [List.foldl_cons, ih, SortedSet.mem_insert, SortedSet.mem_insert]
      simp only [List.mem_cons, exists_eq_or_imp]
      grind
  unfold locations
  rw [folded, SortedSet.mem_union]

theorem mem_locations_of_entry {r : Relation} {loc : Location} (entry : loc ∈ r.entry) :
    loc ∈ r.locations :=
  mem_locations.mpr (.inl (.inl entry))

theorem target_mem_locations {r : Relation} {loc : Location} {tr : Transition}
    (member : tr ∈ r.outgoing loc) : tr.target ∈ r.locations :=
  mem_locations.mpr (.inr ⟨tr, (List.mem_filter.mp member).1, .inr rfl⟩)

end Relation

/-- A thread of a script stands at one of its locations, and at an exit if it is done. Until it is
triggered, it waits at home. -/
structure Thread.Sound (script : Script) (home : Location) (t : Thread) : Prop where
  inside : t.location ∈ script.body.locations
  ended : t.status = .done → t.location ∈ script.body.exit
  idle : t.triggered = false → t = (Thread.start t.id t.actor t.script home).untriggered

namespace Thread.Sound

variable {script : Script} {home : Location} {t : Thread}

theorem of_triggered (triggered : t.triggered = true) (inside : t.location ∈ script.body.locations)
    (ended : t.status = .done → t.location ∈ script.body.exit) : t.Sound script home :=
  ⟨inside, ended, fun untriggered => absurd triggered (by simp [untriggered])⟩

theorem start {id : ThreadId} {actor : String} {number : Nat} (entry : home ∈ script.body.entry) :
    (Thread.start id actor number home).Sound script home :=
  of_triggered rfl (Relation.mem_locations_of_entry entry) nofun

theorem untriggered {id : ThreadId} {actor : String} {number : Nat}
    (entry : home ∈ script.body.entry) :
    (Thread.start id actor number home).untriggered.Sound script home :=
  ⟨Relation.mem_locations_of_entry entry, nofun, fun _ => rfl⟩

theorem resumed {b : Thread} (sound : t.Sound script home) (resumed : t.Resumed b)
    (idle : t.triggered = false → b = t) : b.Sound script home := by
  by_cases triggered : t.triggered = true
  · refine of_triggered (resumed.triggered.trans triggered) (resumed.location ▸ sound.inside) ?_
    intro done
    rcases resumed.status with same | ⟨-, running⟩
    · exact resumed.location ▸ sound.ended (same ▸ done)
    · rw [running] at done
      exact nomatch done
  · exact idle (Bool.eq_false_iff.mpr triggered) ▸ sound

theorem retire (triggered : t.triggered = true) (sound : t.Sound script home) :
    (Scheduler.retire script.body t).Sound script home := by
  unfold Scheduler.retire
  split
  · rename_i ends
    have exit : t.location ∈ script.body.exit := of_decide_eq_true (Bool.and_eq_true_iff.mp ends).2
    exact of_triggered triggered sound.inside fun _ => exit
  · exact sound

end Thread.Sound

theorem Transition.moves_sound {script : Script} {home : Location} {t : Thread} {tr : Transition}
    {move : Move} (outgoing : tr ∈ script.body.outgoing t.location) (member : move ∈ tr.moves t)
    (triggered : t.triggered = true) (sound : t.Sound script home) :
    move.thread.triggered = true ∧ move.thread.Sound script home := by
  have target := Relation.target_mem_locations outgoing
  have moved (t' : Thread) (same : t'.triggered = t.triggered)
      (inside : t'.location = t.location ∨ t'.location = tr.target) (goesOn : t'.status ≠ .done) :
      t'.triggered = true ∧ t'.Sound script home := by
    refine ⟨same.trans triggered, .of_triggered (same.trans triggered) ?_ fun done =>
      absurd done goesOn⟩
    rcases inside with same | same
    · exact same ▸ sound.inside
    · exact same ▸ target
  rcases mem_moves member with ⟨guard, sends, -, rfl⟩ | ⟨cond, -, rfl⟩ | ⟨cond, property, -, rfl⟩
  · exact moved _ rfl (.inr rfl) (Scheduler.statusAfter_ne tr.op rfl nofun)
  · exact moved _ rfl (.inl rfl) nofun
  · exact moved _ rfl (.inl rfl) nofun

/-- A thread that may make a move has been triggered, at the latest by this move. -/
theorem Script.moves_sound {script : Script} {home : Location} {t : Thread} {move : Move}
    (member : move ∈ script.moves t)
    (roused : t.triggered = true ∨ ∃ cond, script.Asleep t cond) (sound : t.Sound script home) :
    move.thread.triggered = true ∧ move.thread.Sound script home := by
  by_cases waits : ∃ cond, script.Asleep t cond
  · obtain ⟨cond, asleep⟩ := waits
    rw [moves_of_asleep asleep] at member
    rw [List.mem_singleton.mp member]
    exact ⟨rfl, .of_triggered rfl sound.inside nofun⟩
  · have triggered := roused.resolve_right waits
    rw [moves_of_awake (not_exists.mp waits)] at member
    split at member
    · split at member
      · rename_i exit
        rw [List.mem_singleton.mp member]
        exact ⟨triggered, .of_triggered triggered sound.inside fun _ => of_decide_eq_true exit⟩
      · exact absurd member List.not_mem_nil
    · obtain ⟨tr, outgoing, member⟩ := List.mem_flatMap.mp member
      exact Transition.moves_sound outgoing member triggered sound

structure Lineup (p : Program) (threads : List Thread) : Prop where
  refs : threads.map Thread.ref = p.homes.map Prod.fst
  grouped : Grouped threads
  sound : ∀ (j : Nat) t home script, threads[j]? = some t → p.homes[j]? = some (t.ref, home) →
    p.scriptAt t.ref = .ok script → t.Sound script home
  rounds : (∃ t ∈ threads, t.status = .yielded) → ∃ t ∈ threads, t.status.isRunning = true

theorem Program.Unambiguous.scriptAt_home {p : Program} (unambiguous : p.Unambiguous) {j : Nat}
    {ref : ScriptRef} {home : Location} (at_ : p.homes[j]? = some (ref, home)) :
    ∃ script, p.scriptAt ref = .ok script ∧ home ∈ script.body.entry := by
  obtain ⟨e, he, rfl, entry⟩ := Program.mem_homes (List.mem_of_getElem? at_)
  exact ⟨e.2, unambiguous.scriptAt he, entry⟩

theorem mem_refs_of_mem_threadsFrom {first : ThreadId} {l : List (String × Script)} {t : Thread}
    (member : t ∈ threadsFrom first l) : first ≤ t.id ∧ t.ref ∈ l.map scriptRef := by
  obtain ⟨actor, script, listed, id, later, -, found⟩ := mem_threadsFrom member
  obtain ⟨entry, -, rfl⟩ := List.mem_map.mp found
  refine ⟨?_, List.mem_map.mpr ⟨(actor, script), listed, ?_⟩⟩
  · dsimp only
    split
    · exact later
    · exact later
  · dsimp only
    split
    · rfl
    · rfl

theorem threadsFrom_grouped {first : ThreadId} {l : List (String × Script)}
    (distinct : (l.map scriptRef).Nodup) : Grouped (threadsFrom first l) := by
  induction l generalizing first with
  | nil => exact fun t ht => absurd ht List.not_mem_nil
  | cons e rest ih =>
    obtain ⟨new, distinct⟩ := List.nodup_cons.mp distinct
    have own (t : Thread) (ht : t ∈ e.2.threads e.1 first) :
        t.id = first ∧ t.ref = scriptRef e := by
      obtain ⟨entry, -, rfl⟩ := List.mem_map.mp ht
      dsimp only
      split
      · exact ⟨rfl, rfl⟩
      · exact ⟨rfl, rfl⟩
    have later (t : Thread) (ht : t ∈ threadsFrom (first + 1) rest) :
        t.id ≠ first ∧ t.ref ≠ scriptRef e := by
      obtain ⟨id, ref⟩ := mem_refs_of_mem_threadsFrom ht
      exact ⟨Nat.ne_of_gt id, fun same => new (same ▸ ref)⟩
    intro t ht u hu
    rcases List.mem_append.mp ht with ht | ht <;> rcases List.mem_append.mp hu with hu | hu
    · simp [own t ht, own u hu]
    · simp [own t ht, (later u hu).1.symm, (later u hu).2.symm]
    · simp [own u hu, later t ht]
    · exact ih distinct t ht u hu

theorem Lineup.start {p : Program} (unambiguous : p.Unambiguous) (first : ThreadId) :
    Lineup p (threadsFrom first p.scripts) := by
  have homes : (threadsFrom first p.scripts).map (fun t => (t.ref, t.location)) = p.homes :=
    homes_threadsFrom first p.scripts
  constructor
  case refs =>
    rw [← homes, List.map_map]
    rfl
  case grouped => exact threadsFrom_grouped unambiguous.refs
  case sound =>
    intro j t home script found at_ hscript
    have place : (t.ref, t.location) = (t.ref, home) := by
      rw [← homes, List.getElem?_map, found] at at_
      exact Option.some.inj at_
    obtain ⟨script', known, entry⟩ := unambiguous.scriptAt_home at_
    obtain rfl : script' = script := Except.ok.inj (known.symm.trans hscript)
    obtain ⟨id, actor, number, entry', rfl | rfl⟩ := threadsFrom_new (List.mem_of_getElem? found)
    · obtain rfl : entry' = home := (Prod.mk.inj place).2
      exact .start entry
    · obtain rfl : entry' = home := (Prod.mk.inj place).2
      exact .untriggered entry
  case rounds =>
    rintro ⟨t, ht, yielded⟩
    obtain ⟨id, actor, number, entry, rfl | rfl⟩ := threadsFrom_new ht
    · exact nomatch yielded
    · exact nomatch yielded

namespace Scheduler

variable {D : Type} {m : Scheduler D} {s u : Scheduled D} {index : Nat} {ids after : Ids}

theorem endRound_rounds (threads : List Thread)
    (yielded : ∃ t ∈ endRound threads, t.status = .yielded) :
    ∃ t ∈ endRound threads, t.status.isRunning = true := by
  unfold endRound at yielded ⊢
  split at yielded
  · rename_i running
    rw [if_pos running]
    exact List.any_eq_true.mp running
  · obtain ⟨t, ht, status⟩ := yielded
    obtain ⟨a, -, rfl⟩ := List.mem_map.mp ht
    split at status
    · exact nomatch status
    · rename_i active
      exact absurd status active

/-- A thread that is to be triggered by a message cannot be stepped. -/
theorem Enabled.roused {t : Thread} {script : Script} (enabled : m.Enabled s index)
    (found : s.threads[index]? = some t) (hscript : m.program.scriptAt t.ref = .ok script)
    (idle : t.triggered = false → t.status = .waiting) :
    t.triggered = true ∨ ∃ cond, script.Asleep t cond := by
  cases triggered : t.triggered with
  | true => exact .inl rfl
  | false =>
    have waiting := idle triggered
    rcases enabled.cases found with atomic | may
    · rw [waiting] at atomic
      exact nomatch atomic
    · rcases mayStep_true may with running | ⟨-, -, cond, woken, -⟩
      · rw [waiting] at running
        exact nomatch running
      · cases event : script.event with
        | condition c => exact .inr ⟨c, triggered, event⟩
        | _ => simp [wakeCondition, hscript, triggered, event, bind, Except.bind, pure, Except.pure]
            at woken

theorem Fate.sound {p : Program} {body : Relation} {move : Move}
    {renew : ScriptRef → Option ThreadId} {j : Nat} {a b : Thread} {home : Location}
    {script : Script} (fate : Fate p index body move renew j a b)
    (at_ : p.homes[j]? = some (a.ref, home)) (entry : home ∈ script.body.entry)
    (sound : a.Sound script home)
    (own : j = index → body = script.body ∧ move.thread.triggered = true ∧
      move.thread.Sound script home) : b.Sound script home := by
  cases fate with
  | @moved _ _ c _ _ sent resumed =>
    obtain ⟨rfl, triggered, moved⟩ := own rfl
    have triggered' : c.triggered = true := by
      rcases sent with rfl | ⟨awaited, rfl⟩
      · exact triggered
      · exact triggered
    have ready : c.Sound script home := by
      rcases sent with rfl | ⟨awaited, rfl⟩
      · exact moved
      · exact .of_triggered triggered moved.inside nofun
    refine (ready.retire triggered').resumed resumed fun untriggered => ?_
    rw [(retire_keeps script.body c).2.2.1, triggered'] at untriggered
    exact nomatch untriggered
  | kept _ _ resumed stays =>
    refine sound.resumed resumed fun untriggered => stays ?_ ?_
    · rw [sound.idle untriggered]
      rfl
    · rw [sound.idle untriggered]
      exact nofun
  | placed _ _ at' =>
    rw [at_] at at'
    obtain rfl := (Prod.mk.inj (Option.some.inj at')).2
    exact .start entry

theorem stepThread_outcome (unambiguous : m.program.Unambiguous)
    (lineup : Lineup m.program s.threads) (enabled : m.Enabled s index)
    {out : List (Scheduled D)} (ran : (m.stepThread s index).run ids = (.ok out, after))
    (hu : u ∈ out) : ∃ t script move first last renew, s.threads[index]? = some t ∧
      m.program.scriptAt t.ref = .ok script ∧
      (∀ home, t.Sound script home →
        move.thread.triggered = true ∧ move.thread.Sound script home) ∧
      ids ≤ first ∧ last ≤ after ∧
      Outcome m.program index script.body move first last renew s.threads u.threads ∧
      u.threads.map Thread.ref = s.threads.map Thread.ref ∧
      ∃ threads, u.threads = endRound threads := by
  obtain ⟨t, script, found, hscript, performed⟩ := stepThread_performed ran
  obtain ⟨move, member, ds, -, d, -, first, last, before, later, done⟩ := performed.only u hu
  have keeps := Script.moves_keep member
  obtain ⟨renew, outcome⟩ := perform_outcome unambiguous lineup.refs found keeps done
  refine ⟨t, script, move, first, last, renew, found, hscript, fun home sound => ?_, before, later,
    outcome, perform_refs found keeps (.of_run done), ?_⟩
  · refine Script.moves_sound member (enabled.roused found hscript fun untriggered => ?_) sound
    rw [sound.idle untriggered]
    rfl
  · obtain ⟨threads, -, rfl⟩ := run_perform_ok.mp done
    exact ⟨_, rfl⟩

theorem stepThread_lineup (unambiguous : m.program.Unambiguous) (well : s.WellFormed ids)
    (lineup : Lineup m.program s.threads) (enabled : m.Enabled s index)
    {out : List (Scheduled D)} (ran : (m.stepThread s index).run ids = (.ok out, after)) :
    ∀ u ∈ out, Lineup m.program u.threads := by
  intro u hu
  obtain ⟨t, script, move, first, last, renew, found, hscript, moved, before, -, outcome, refs,
    threads, settled⟩ := stepThread_outcome unambiguous lineup enabled ran hu
  constructor
  case refs => exact refs.trans lineup.refs
  case grouped =>
    refine outcome.grouped (fun t ht => ?_) lineup.grouped
    exact Nat.lt_of_lt_of_le (well.numbered t ht t.id (.inl rfl)) before.1
  case sound =>
    intro j b home script' hb at_ hscript'
    obtain ⟨a, ha, fate⟩ := outcome.back hb
    rw [fate.numbered.1] at at_ hscript'
    have sound := lineup.sound j a home script' ha at_ hscript'
    obtain ⟨script'', known, entry⟩ := unambiguous.scriptAt_home at_
    obtain rfl : script'' = script' := Except.ok.inj (known.symm.trans hscript')
    refine fate.sound at_ entry sound fun here => ?_
    subst here
    obtain rfl : a = t := Option.some.inj (ha.symm.trans found)
    obtain rfl : script'' = script := Except.ok.inj (known.symm.trans hscript)
    exact ⟨rfl, moved home sound⟩
  case rounds =>
    rw [settled]
    exact endRound_rounds threads

end Scheduler
end ActorAnalysis
