import ActorAnalysis.Coverage
import ActorAnalysis.Proofs.Run.Marks
import ActorAnalysis.Proofs.Stack.Lineup
import ActorAnalysis.Proofs.Stack.Soundness

/-! Which locations a coverage report counts. It looks only at threads that were stepped last, and
yet it misses no location that a thread occupies in a reached state: away from its entries, a thread
is where a step has brought it, and a state behind that step, or one merged of it, is reached. -/
namespace ActorAnalysis

namespace Program

variable {p : Program} {views : List View} {l : TaskLocation}

theorem mem_visited : l ∈ p.visited views ↔ ∃ v ∈ views, ∃ x ∈ v.locations, ∃ script,
    p.script? x.ref.actor x.ref.script = some script ∧
      l = ⟨x.ref.actor, script.body.id, x.location⟩ := by
  simp only [visited, SortedSet.mem_ofList, List.mem_filterMap, List.mem_flatMap,
    Option.map_eq_some_iff]
  constructor
  · rintro ⟨x, ⟨v, hv, hx⟩, script, found, rfl⟩
    exact ⟨v, hv, x, hx, script, found, rfl⟩
  · rintro ⟨v, hv, x, hx, script, found, rfl⟩
    exact ⟨x, ⟨v, hv, hx⟩, script, found, rfl⟩

theorem mem_coverRelation {visited : SortedSet TaskLocation} {report : CoverageReport}
    {actor : String} {r : Relation} :
    (l ∈ (coverRelation visited report actor r).covered ↔
      l ∈ report.covered ∨ l ∈ taskLocations actor r ∧ l ∈ visited) ∧
    (l ∈ (coverRelation visited report actor r).uncovered ↔
      l ∈ report.uncovered ∨ l ∈ taskLocations actor r ∧ l ∉ visited) := by
  simp only [coverRelation, SortedSet.mem_foldl_insert, List.mem_filter, decide_eq_true_eq,
    and_self]

theorem mem_coverRelations {visited : SortedSet TaskLocation} (relations : List (String × Relation))
    (report : CoverageReport) :
    (l ∈ (relations.foldl (fun report e => coverRelation visited report e.1 e.2) report).covered ↔
      l ∈ report.covered ∨ (∃ e ∈ relations, l ∈ taskLocations e.1 e.2) ∧ l ∈ visited) ∧
    (l ∈ (relations.foldl (fun report e => coverRelation visited report e.1 e.2) report).uncovered ↔
      l ∈ report.uncovered ∨ (∃ e ∈ relations, l ∈ taskLocations e.1 e.2) ∧ l ∉ visited) := by
  induction relations generalizing report with
  | nil => simp
  | cons e rest ih =>
    rw [List.foldl_cons, (ih _).1, (ih _).2, mem_coverRelation.1, mem_coverRelation.2]
    simp only [List.mem_cons, exists_eq_or_imp]
    grind

theorem mem_coverage (task : ∃ e ∈ p.relations, l ∈ taskLocations e.1 e.2) (views : List View) :
    (l ∈ (p.coverage views).covered ↔ l ∈ p.visited views) ∧
      (l ∈ (p.coverage views).uncovered ↔ l ∉ p.visited views) := by
  have folded : p.coverage views = p.relations.foldl (fun report e =>
    coverRelation (p.visited views) report e.1 e.2) ⟨∅, ∅, ∅⟩ := rfl
  rw [folded, (mem_coverRelations _ _).1, (mem_coverRelations _ _).2]
  simp [task]

theorem script_of_relation {e e' : String × Script} (he : e ∈ p.scripts) (he' : e' ∈ p.scripts)
    (same : e.2.body.id = e'.2.body.id) : e = e' := by
  have listed (actors : List Actor) : ((actors.flatMap Actor.named).map
      (fun e => e.2.body.id)).Sublist (relationIds actors) := by
    induction actors with
    | nil => exact .slnil
    | cons a rest ih =>
      have own : (a.named.map (fun e => e.2.body.id)).Sublist (a.relations.map Relation.id) := by
        simp [Actor.named, Actor.relations, Function.comp_def]
      unfold relationIds at ih ⊢
      simpa only [List.flatMap_cons, List.map_append] using own.append ih
  exact List.inj_on_of_nodup_map (p.distinct.sublist (listed p.actors)) he he' same

theorem mem_taskLocations {e : String × Script} (he : e ∈ p.scripts) {loc : Location}
    (inside : loc ∈ e.2.body.locations) (inner : loc ∉ e.2.body.entry ∧ loc ∉ e.2.body.exit) :
    ∃ r ∈ p.relations, ⟨e.1, e.2.body.id, loc⟩ ∈ taskLocations r.1 r.2 := by
  obtain ⟨a, ha, name, hs⟩ := mem_scripts.mp he
  refine ⟨(e.1, e.2.body), ?_, ?_⟩
  · refine List.mem_flatMap.mpr ⟨a, ha, List.mem_map.mpr ⟨e.2.body, ?_, by rw [name]⟩⟩
    exact List.mem_append_left _ (List.mem_map_of_mem hs)
  · simp [taskLocations, Relation.isEntry, Relation.isExit, inside, inner]

theorem mem_visited_script (unambiguous : p.Unambiguous) {e : String × Script} (he : e ∈ p.scripts)
    (loc : Location) : ⟨e.1, e.2.body.id, loc⟩ ∈ p.visited views ↔
      ∃ v ∈ views, ⟨scriptRef e, loc⟩ ∈ v.locations := by
  rw [mem_visited]
  constructor
  · rintro ⟨v, hv, x, hx, script, found, same⟩
    obtain ⟨-, id, rfl⟩ := TaskLocation.mk.inj same
    have known : p.scriptAt x.ref = .ok script := by simp only [scriptAt, found]
    obtain ⟨e', he', ref, rfl⟩ := mem_of_scriptAt known
    obtain rfl := script_of_relation he he' id
    rw [ref]
    exact ⟨v, hv, hx⟩
  · rintro ⟨v, hv, hx⟩
    exact ⟨v, hv, _, hx, e.2, unambiguous.script? he, rfl⟩

end Program

def Thread.place (t : Thread) : ScriptLocation := ⟨t.ref, t.location⟩

namespace Scheduled

variable {D : Type}

def Occupies (s : Scheduled D) (x : ScriptLocation) : Prop := ∃ t ∈ s.threads, t.place = x

/-- A thread that was stepped last is at the location. -/
def Entered (s : Scheduled D) (x : ScriptLocation) : Prop :=
  ∃ i ∈ s.stepped, ∃ t, s.threads[i]? = some t ∧ t.place = x

theorem Entered.occupies {s : Scheduled D} {x : ScriptLocation} (entered : s.Entered x) :
    s.Occupies x := by
  obtain ⟨i, -, t, found, place⟩ := entered
  exact ⟨t, List.mem_of_getElem? found, place⟩

theorem mem_locations [HasView D] {s : Scheduled D} {x : ScriptLocation} :
    x ∈ (HasView.view s).locations ↔ s.Entered x := by
  show x ∈ s.stepped.toList.filterMap (fun i => s.threads[i]?.map Thread.place) ↔ _
  simp only [List.mem_filterMap, SortedSet.mem_toList, Option.map_eq_some_iff]
  rfl

/-- Away from home, a thread is where it was before, unless the state has stepped it there. -/
theorem marks {program : Program} (unambiguous : program.Unambiguous) (config : ScheduleConfig)
    (key : List Thread → PartitionKey) (inner : DataAnalysis D) :
    (analysis program config key inner).Marks program (Aligned program)
      (fun s x => s.Occupies x ∧ (x.ref, x.location) ∉ program.homes) Entered where
  initial := by
    rintro ids out after done s hs x ⟨⟨t, ht, rfl⟩, away⟩
    obtain ⟨data, -, rfl⟩ := run_initial_ok done
    obtain ⟨d, -, rfl⟩ := List.mem_map.mp hs
    refine absurd ?_ away
    rw [Program.homes, ← homes_threadsFrom ids.threads]
    exact List.mem_map_of_mem ht
  succ := by
    rintro ids s out after h done u hu x ⟨⟨b, hb, rfl⟩, away⟩
    obtain ⟨index, last, stepped, -, since⟩ :=
      h.succ (m := ⟨program, inner.succFor⟩) unambiguous done u hu
    obtain ⟨j, found⟩ := List.mem_iff_getElem?.mp hb
    obtain ⟨a, before, ref⟩ :=
      getElem?_of_map_eq (since.aligned.lineup.refs.trans h.lineup.refs.symm) found
    rcases since.threads j a b before found with ⟨-, -, here | resumed⟩ | ⟨-, -, home, at_, start⟩
    · exact .inl ⟨j, by simp [stepped, here], b, found, rfl⟩
    · refine .inr ⟨⟨a, List.mem_of_getElem? before, ?_⟩, away⟩
      rw [Thread.place, Thread.place, ref, resumed.location]
    · -- a restarted thread is at home
      refine absurd ?_ away
      have place : (b.place.ref, b.place.location) = (a.ref, home) := by
        rw [start]
        rfl
      exact place ▸ List.mem_of_getElem? at_
  merge := by
    intro ids s t m after done x
    obtain ⟨same, d, -, rfl⟩ := run_merge_ok done
    refine ⟨.inl, ?_⟩
    rintro (⟨i, hi, t', found, place⟩ | ⟨i, hi, t', found, place⟩)
    · exact ⟨i, SortedSet.mem_union.mpr (.inl hi), t', found, place⟩
    · exact ⟨i, SortedSet.mem_union.mpr (.inr hi), t', same ▸ found, place⟩
  widen := by
    intro s t done x
    obtain ⟨d, -, rfl⟩ := widen_ok done
    exact ⟨id, id⟩

end Scheduled

theorem Analysis.Lifts.marks {O S M : Type} {A : Analysis O} {I : Analysis S} {view : O → S}
    (lifts : A.Lifts I view) {program : Program} {inv : Ids → S → Prop} {shows sets : S → M → Prop}
    (marks : I.Marks program inv shows sets) :
    A.Marks program (fun ids o => inv ids (view o)) (fun o => shows (view o))
      (fun o => sets (view o)) where
  initial done s hs := by
    obtain ⟨mid, ran, -⟩ := lifts.initial done
    exact marks.initial ran _ (List.mem_map_of_mem hs)
  succ h done t ht := by
    obtain ⟨mid, ran, -⟩ := lifts.succ done
    exact marks.succ h ran _ (List.mem_map_of_mem ht)
  merge done := by
    obtain ⟨mid, ran, -⟩ := lifts.merge done
    exact marks.merge ran
  widen done x := by
    rcases lifts.widen done with same | widened
    · rw [same]
      exact ⟨id, id⟩
    · exact marks.widen widened x

namespace Settings

variable (settings : Settings) {key : List Thread → PartitionKey} {program : Program}

/-- A location that is no entry is occupied in a reached state just if it is entered in one. -/
theorem occupied_iff_entered (unambiguous : program.Unambiguous) {space : Space DefaultState}
    (point : (settings.analysis key program).Point program (fun _ => True) space)
    {x : ScriptLocation} (away : (x.ref, x.location) ∉ program.homes) :
    (∃ o ∈ space.reached.toList, o.inner.inner.Occupies x) ↔
      ∃ o ∈ space.reached.toList, o.inner.inner.Entered x := by
  have keeps := (Timed.lifts settings.time _).invariant ((Node.lifts settings.graph _).invariant
    (Scheduled.aligned_invariant unambiguous settings.schedule key
      (DataState.analysis settings.data) True True))
  have marks := (Timed.lifts settings.time _).marks ((Node.lifts settings.graph _).marks
    (Scheduled.marks unambiguous settings.schedule key (DataState.analysis settings.data)))
  constructor
  · rintro ⟨o, reached, occupies⟩
    exact marks.set_of_shown keeps point reached ⟨occupies, away⟩
  · rintro ⟨o, reached, entered⟩
    exact ⟨o, reached, entered.occupies⟩

/-- A thread of the script is at the location, in a reached state. -/
def Occupied (space : Space DefaultState) (actor : String) (script : Nat) (loc : Location) : Prop :=
  ∃ o ∈ space.reached.toList, ∃ t ∈ o.inner.inner.threads,
    t.actor = actor ∧ t.script = script ∧ t.location = loc

/-- At every point of an exploration, a report covers just those task locations of a script that
are occupied: those at which one of its threads is in a reached state. -/
theorem coverage_reports_occupied_locations (unambiguous : program.Unambiguous)
    {space : Space DefaultState}
    (point : (settings.analysis key program).Point program (fun _ => True) space)
    {actor : Actor} (ha : actor ∈ program.actors) {script : Script} (hs : script ∈ actor.scripts)
    {loc : Location} (inside : loc ∈ script.body.locations)
    (inner : loc ∉ script.body.entry ∧ loc ∉ script.body.exit) :
    (⟨actor.name, script.body.id, loc⟩ ∈
      (program.coverage (space.reached.toList.map HasView.view)).covered ↔
        Occupied space actor.name script.id loc) ∧
    (⟨actor.name, script.body.id, loc⟩ ∈
      (program.coverage (space.reached.toList.map HasView.view)).uncovered ↔
        ¬ Occupied space actor.name script.id loc) := by
  have he : (actor.name, script) ∈ program.scripts := Program.mem_scripts.mpr ⟨actor, ha, rfl, hs⟩
  have away : (scriptRef (actor.name, script), loc) ∉ program.homes := by
    intro home
    obtain ⟨e, he', ref, entry⟩ := Program.mem_homes home
    obtain rfl := List.inj_on_of_nodup_map unambiguous.refs he he' ref
    exact inner.1 entry
  have visited : ⟨actor.name, script.body.id, loc⟩ ∈
      program.visited (space.reached.toList.map HasView.view) ↔
        Occupied space actor.name script.id loc := by
    calc _ ↔ ∃ v ∈ space.reached.toList.map HasView.view,
          ⟨scriptRef (actor.name, script), loc⟩ ∈ v.locations :=
        Program.mem_visited_script unambiguous he loc
      _ ↔ ∃ o ∈ space.reached.toList, o.inner.inner.Entered ⟨⟨actor.name, script.id⟩, loc⟩ := by
        simp only [List.mem_map, exists_exists_and_eq_and]
        exact exists_congr fun o => and_congr_right fun _ => Scheduled.mem_locations
      _ ↔ ∃ o ∈ space.reached.toList, o.inner.inner.Occupies ⟨⟨actor.name, script.id⟩, loc⟩ :=
        (settings.occupied_iff_entered unambiguous point away).symm
      _ ↔ Occupied space actor.name script.id loc := by
        simp only [Occupied, Scheduled.Occupies, Thread.place, Thread.ref, ScriptLocation.mk.injEq,
          ScriptRef.mk.injEq, and_assoc]
  obtain ⟨covered, uncovered⟩ := Program.mem_coverage (Program.mem_taskLocations he inside inner)
    (space.reached.toList.map HasView.view)
  exact ⟨covered.trans visited, uncovered.trans (not_congr visited)⟩

end Settings

namespace Halfway

def script : Script := ⟨0, .bootstrap, .sequence 3 "main" [.skip, .assume .never]⟩

def actor : Actor := ⟨"a", [script], []⟩

theorem distinct : (relationIds [actor]).Nodup := by decide

def program : Program := ⟨[actor], ∅, distinct⟩

theorem unambiguous : program.Unambiguous := ⟨by decide, by decide⟩

abbrev stack : Analysis Settings.DefaultState := Settings.default.analysis List.length program

def keys (s : Scheduled DataState) : SortedSet PartitionKey :=
  (Scheduled.analysis program Settings.default.schedule List.length
    (DataState.analysis Settings.default.data)).keys s

def before : Scheduled DataState := .start [.start 0 "a" 0 0] (.known ∅)

def after : Scheduled DataState := ⟨[.start 0 "a" 0 1], .singleton 0, ∅, .known ∅⟩

def root : Settings.DefaultState := ⟨[], 0, ∅, .singleton 0, before, keys before⟩

def leaf : Settings.DefaultState := ⟨[1], 1, .singleton 0, .singleton 1, after, keys after⟩

def seeded : Space Settings.DefaultState :=
  (⟨⟨1, 1⟩, ∅, ∅⟩ : Space Settings.DefaultState).add root (stack.keys root)

theorem seed_on : ∃ count, (stack.seed program).on ⟨.start, ∅, ∅⟩ = (.ok count, seeded) :=
  Analysis.seed_one (show (stack.initial program).run .start = (.ok [root], ⟨1, 1⟩) from rfl)

theorem mem_seeded {o : Settings.DefaultState} : o ∈ seeded.reached.toList ↔ o = root := by
  unfold seeded
  rw [Space.mem_reached_add (Space.valid_empty _)]
  simp [Reached.toList_empty]

theorem completes : ∃ statistics space, (stack.run Settings.default.run 3).on seeded =
    (.ok (some ⟨.completed, statistics⟩), space) ∧ leaf ∈ space.reached.toList := by
  have new (l : List Settings.DefaultState) (inside : ∀ r ∈ l, r ∈ seeded.reached.toList) :
      stack.stop leaf l = false := by
    refine Settings.stop_of_new Settings.default List.length program fun r hr => ?_
    rw [mem_seeded.mp (inside r hr)]
    decide
  exact Analysis.runFrom_chain Settings.default.run 0 {} ((Space.valid_empty _).add root _)
    (Analysis.queue_add (Space.valid_empty _) rfl (stack.keys root)) rfl rfl rfl rfl rfl new rfl

end Halfway

/-- The run takes the thread to a location that was uncovered before. -/
theorem Settings.run_covers_another_location : ∃ space,
    Halfway.stack.Point Halfway.program (fun _ => True) Halfway.seeded ∧
    ⟨"a", 3, 1⟩ ∈ (Halfway.program.coverage
      (Halfway.seeded.reached.toList.map HasView.view)).uncovered ∧
    Halfway.stack.Point Halfway.program (fun _ => True) space ∧
    ⟨"a", 3, 1⟩ ∈ (Halfway.program.coverage
      (space.reached.toList.map HasView.view)).covered := by
  obtain ⟨count, starts⟩ := Halfway.seed_on
  obtain ⟨statistics, space, ends, found⟩ := Halfway.completes
  have start : Halfway.stack.Point Halfway.program (fun _ => True) Halfway.seeded := by
    have point : Halfway.stack.Point Halfway.program (fun _ => True)
      ((Halfway.stack.seed Halfway.program).on ⟨.start, ∅, ∅⟩).2 := .seeded .start
    rwa [starts] at point
  have last : Halfway.stack.Point Halfway.program (fun _ => True) space := by
    have point := start.ran Settings.default.run 3 .intro
    rwa [ends] at point
  have inside : 1 ∈ Halfway.script.body.locations := by decide
  have report {space : Space Settings.DefaultState}
      (point : Halfway.stack.Point Halfway.program (fun _ => True) space) :=
    coverage_reports_occupied_locations Settings.default Halfway.unambiguous point
      (List.mem_cons_self : Halfway.actor ∈ _) List.mem_cons_self inside (by decide)
  refine ⟨space, start, (report start).2.mpr ?_, last, (report last).1.mpr ?_⟩
  · rintro ⟨o, reached, t, ht, -, -, loc⟩
    rw [Halfway.mem_seeded.mp reached] at ht
    rw [List.mem_singleton.mp ht] at loc
    exact nomatch loc
  · exact ⟨Halfway.leaf, found, _, List.mem_cons_self, rfl, rfl, rfl⟩

end ActorAnalysis
