import ActorAnalysis.Proofs.Sorted
import ActorAnalysis.Proofs.Text
import ActorAnalysis.Settings
import Mathlib.Data.List.Forall2
import Mathlib.Logic.Function.Basic

/-! Options as independent assignments. Each key belongs to one field of the settings, and what an
entry assigns to it does not depend on the other entries; so a map of options is read entry by
entry, and the first entry that cannot be read is the one reported. -/
namespace ActorAnalysis.Settings

inductive Field where
  | aggregateAtomic
  | maxAtomicSteps
  | mergePolicy
  | widening
  | profileWindow
  | mergeStates
  | precision
  | order
  | maxIterations
  | stopOnFirstTarget
  | widenSuccessors
  | maxRounds
  | iterationsPerRound
deriving DecidableEq

namespace Field

abbrev Value : Field → Type
  | aggregateAtomic | mergeStates | stopOnFirstTarget | widenSuccessors => Bool
  | maxAtomicSteps | profileWindow | maxRounds => Nat
  | maxIterations | iterationsPerRound => Option Nat
  | mergePolicy => MergePolicy
  | widening => NodeWidening
  | precision => Precision
  | order => FrontierOrder

def key : Field → String
  | aggregateAtomic => "control.aggregate-atomic-transitions"
  | maxAtomicSteps => "control.max-atomic-steps"
  | mergePolicy => "graph.merge-into-operator"
  | widening => "graph.widening"
  | profileWindow => "time.profile-window"
  | mergeStates => "value.merge-states"
  | precision => "value.precision"
  | order => "worklist.order"
  | maxIterations => "worklist.max-iterations"
  | stopOnFirstTarget => "worklist.stop-on-first-target"
  | widenSuccessors => "worklist.widen-successors"
  | maxRounds => "bmc.max-rounds"
  | iterationsPerRound => "bmc.iterations-per-round"

def all : List Field :=
  [aggregateAtomic, maxAtomicSteps, mergePolicy, widening, profileWindow, mergeStates, precision,
    order, maxIterations, stopOnFirstTarget, widenSuccessors, maxRounds, iterationsPerRound]

def ofKey? (key : String) : Option Field := all.find? fun f => decide (f.key = key)

@[simp] theorem ofKey?_key (f : Field) : ofKey? f.key = some f := by
  cases f <;> decide +kernel

theorem key_of_ofKey? {key : String} {f : Field} (found : ofKey? key = some f) : f.key = key := by
  have named := List.find?_some found
  exact of_decide_eq_true named

theorem key_injective {f g : Field} (same : f.key = g.key) : f = g := by
  have found := ofKey?_key f
  rw [same, ofKey?_key] at found
  exact (Option.some.inj found).symm

theorem ofKey?_eq_none {key : String} (unknown : ∀ f : Field, f.key ≠ key) : ofKey? key = none := by
  apply List.find?_eq_none.mpr
  intro f _ found
  exact unknown f (of_decide_eq_true found)

def parse : (f : Field) → String → Except Error f.Value
  | aggregateAtomic => readBool aggregateAtomic.key
  | maxAtomicSteps => readNumber maxAtomicSteps.key
  | mergePolicy => MergePolicy.ofText
  | widening => NodeWidening.ofText
  | profileWindow => readNumber profileWindow.key
  | mergeStates => readBool mergeStates.key
  | precision => fun value => .ok (readPrecision value)
  | order => FrontierOrder.ofText
  | maxIterations => readBound maxIterations.key
  | stopOnFirstTarget => readBool stopOnFirstTarget.key
  | widenSuccessors => readBool widenSuccessors.key
  | maxRounds => readNumber maxRounds.key
  | iterationsPerRound => readBound iterationsPerRound.key

end Field

def get (s : Settings) : (f : Field) → f.Value
  | .aggregateAtomic => s.schedule.aggregateAtomic
  | .maxAtomicSteps => s.schedule.maxAtomicSteps
  | .mergePolicy => s.graph.policy
  | .widening => s.graph.widening
  | .profileWindow => s.time.window
  | .mergeStates => s.data.mergeStates
  | .precision => s.data.precision
  | .order => s.run.order
  | .maxIterations => s.run.maxIterations
  | .stopOnFirstTarget => s.run.stopOnFirstTarget
  | .widenSuccessors => s.run.widenSuccessors
  | .maxRounds => s.bounded.maxRounds
  | .iterationsPerRound => s.bounded.iterationsPerRound

def ofFields (value : (f : Field) → f.Value) : Settings where
  schedule := ⟨value .aggregateAtomic, value .maxAtomicSteps⟩
  graph := ⟨value .mergePolicy, value .widening⟩
  time := ⟨value .profileWindow⟩
  data := ⟨value .mergeStates, value .precision⟩
  run := ⟨value .order, value .maxIterations, value .stopOnFirstTarget, value .widenSuccessors⟩
  bounded := ⟨value .maxRounds, value .iterationsPerRound⟩

theorem ofFields_get (s : Settings) : ofFields s.get = s := rfl

@[simp] theorem get_ofFields (value : (f : Field) → f.Value) (f : Field) :
    (ofFields value).get f = value f := by
  cases f <;> rfl

theorem ext_get {s t : Settings} (same : ∀ f, s.get f = t.get f) : s = t := by
  have fields : s.get = t.get := funext same
  rw [← ofFields_get s, fields, ofFields_get]

def put (s : Settings) (f : Field) (v : f.Value) : Settings :=
  ofFields (Function.update s.get f v)

@[simp] theorem get_put_self (s : Settings) (f : Field) (v : f.Value) : (s.put f v).get f = v := by
  rw [put, get_ofFields, Function.update_self]

theorem get_put_other (s : Settings) {f g : Field} (apart : f ≠ g) (v : g.Value) :
    (s.put g v).get f = s.get f := by
  rw [put, get_ofFields, Function.update_of_ne apart]

abbrev Assignment := (f : Field) × f.Value

def assign (s : Settings) (a : Assignment) : Settings := s.put a.1 a.2

/-- What an entry assigns, whatever the settings are. -/
def assignment (key value : String) : Except Error Assignment :=
  match Field.ofKey? key with
  | some f => (f.parse value).map (⟨f, ·⟩)
  | none => .error (.badOption key value)

theorem assignment_key (f : Field) (value : String) :
    assignment f.key value = (f.parse value).map (⟨f, ·⟩) := by
  rw [assignment, Field.ofKey?_key]

theorem key_of_assignment {key value : String} {a : Assignment}
    (read : assignment key value = .ok a) : a.1.key = key := by
  unfold assignment at read
  split at read
  · rename_i f found
    cases parsed : f.parse value with
    | error e =>
      rw [parsed] at read
      cases read
    | ok v =>
      rw [parsed] at read
      cases read
      exact Field.key_of_ofKey? found
  · cases read

theorem set_key (s : Settings) (f : Field) (value : String) :
    s.set f.key value = (f.parse value).map (s.put f) := by
  cases f <;> rfl

theorem set_unknown (s : Settings) {key : String} (unknown : ∀ f : Field, f.key ≠ key)
    (value : String) : s.set key value = .error (.badOption key value) := by
  unfold set
  -- one case for each key that is known, and the last for all others
  split
  · exact absurd rfl (unknown .aggregateAtomic)
  · exact absurd rfl (unknown .maxAtomicSteps)
  · exact absurd rfl (unknown .mergePolicy)
  · exact absurd rfl (unknown .widening)
  · exact absurd rfl (unknown .profileWindow)
  · exact absurd rfl (unknown .mergeStates)
  · exact absurd rfl (unknown .precision)
  · exact absurd rfl (unknown .order)
  · exact absurd rfl (unknown .maxIterations)
  · exact absurd rfl (unknown .stopOnFirstTarget)
  · exact absurd rfl (unknown .widenSuccessors)
  · exact absurd rfl (unknown .maxRounds)
  · exact absurd rfl (unknown .iterationsPerRound)
  · rfl

theorem set_eq (s : Settings) (key value : String) :
    s.set key value = (assignment key value).map s.assign := by
  by_cases known : ∃ f : Field, f.key = key
  · obtain ⟨f, rfl⟩ := known
    rw [set_key, assignment_key]
    cases f.parse value <;> rfl
  · have unknown : ∀ f : Field, f.key ≠ key := fun f same => known ⟨f, same⟩
    rw [set_unknown s unknown, assignment, Field.ofKey?_eq_none unknown]
    rfl

def entryAssignment (entry : String × String) : Except Error Assignment :=
  assignment entry.1 (Text.trim entry.2)

def setEntry (s : Settings) (entry : String × String) : Except Error Settings :=
  s.set entry.1 (Text.trim entry.2)

theorem setEntry_ok {s : Settings} {entry : String × String} {a : Assignment}
    (read : entryAssignment entry = .ok a) : s.setEntry entry = .ok (s.assign a) := by
  rw [setEntry, set_eq, ← entryAssignment, read]
  rfl

theorem setEntry_error {s : Settings} {entry : String × String} {e : Error}
    (failed : entryAssignment entry = .error e) : s.setEntry entry = .error e := by
  rw [setEntry, set_eq, ← entryAssignment, failed]
  rfl

def Reads (entries : List (String × String)) (assignments : List Assignment) : Prop :=
  List.Forall₂ (fun entry a => entryAssignment entry = .ok a) entries assignments

theorem foldlM_setEntry_of_reads {entries : List (String × String)}
    {assignments : List Assignment} (reads : Reads entries assignments) (s : Settings) :
    entries.foldlM setEntry s = .ok (assignments.foldl assign s) := by
  induction reads generalizing s with
  | nil => rfl
  | cons read _ ih =>
    rw [List.foldlM_cons, setEntry_ok read]
    exact ih _

theorem foldlM_setEntry_of_error {before after : List (String × String)}
    {entry : String × String} {assignments : List Assignment} {e : Error}
    (reads : Reads before assignments) (failed : entryAssignment entry = .error e) (s : Settings) :
    (before ++ entry :: after).foldlM setEntry s = .error e := by
  induction reads generalizing s with
  | nil =>
    rw [List.nil_append, List.foldlM_cons, setEntry_error failed]
    rfl
  | cons read _ ih =>
    rw [List.cons_append, List.foldlM_cons, setEntry_ok read]
    exact ih _

/-- Either all entries can be read, or there is a first that cannot. -/
theorem reads_or_fails (entries : List (String × String)) :
    (∃ assignments, Reads entries assignments) ∨
      ∃ before entry after assignments e, entries = before ++ entry :: after ∧
        Reads before assignments ∧ entryAssignment entry = .error e := by
  induction entries with
  | nil => exact .inl ⟨[], .nil⟩
  | cons entry rest ih =>
    cases read : entryAssignment entry with
    | error e => exact .inr ⟨[], entry, rest, [], e, rfl, .nil, read⟩
    | ok a =>
      rcases ih with ⟨assignments, reads⟩ | ⟨before, x, after, assignments, e, rfl, reads, failed⟩
      · exact .inl ⟨a :: assignments, .cons read reads⟩
      · exact .inr ⟨entry :: before, x, after, a :: assignments, e, rfl, .cons read reads, failed⟩

theorem Reads.keys {entries : List (String × String)} {assignments : List Assignment}
    (reads : Reads entries assignments) :
    assignments.map (fun a => a.1.key) = entries.map Prod.fst := by
  induction reads with
  | nil => rfl
  | cons read _ ih => rw [List.map_cons, List.map_cons, ih, key_of_assignment read]

theorem Reads.of_mem {entries : List (String × String)} {assignments : List Assignment}
    (reads : Reads entries assignments) {entry : String × String} (listed : entry ∈ entries) :
    ∃ a ∈ assignments, entryAssignment entry = .ok a := by
  induction reads with
  | nil => cases listed
  | cons read _ ih =>
    rcases List.mem_cons.mp listed with rfl | later
    · exact ⟨_, List.mem_cons_self, read⟩
    · obtain ⟨a, member, same⟩ := ih later
      exact ⟨a, List.mem_cons_of_mem _ member, same⟩

theorem get_foldl_other {assignments : List Assignment} {f : Field}
    (apart : ∀ a ∈ assignments, f ≠ a.1) (s : Settings) :
    (assignments.foldl assign s).get f = s.get f := by
  induction assignments generalizing s with
  | nil => rfl
  | cons a rest ih =>
    have first : f ≠ a.1 := apart a List.mem_cons_self
    have later := ih fun x hx => apart x (List.mem_cons_of_mem _ hx)
    exact (later (s.assign a)).trans (get_put_other s first a.2)

theorem get_foldl_assigned {assignments : List Assignment}
    (distinct : assignments.Pairwise fun a b => a.1 ≠ b.1) {a : Assignment}
    (member : a ∈ assignments) (s : Settings) : (assignments.foldl assign s).get a.1 = a.2 := by
  induction distinct generalizing s with
  | nil => cases member
  | cons apart _ ih =>
    rcases List.mem_cons.mp member with rfl | later
    · rw [List.foldl_cons, get_foldl_other apart]
      exact get_put_self s a.1 a.2
    · exact ih later _

variable {options : SortedMap String String} {assignments : List Assignment}

theorem ofOptions_eq (options : SortedMap String String) :
    ofOptions options = options.entries.foldlM setEntry default := rfl

def only (key value : String) : SortedMap String String :=
  (∅ : SortedMap String String).insert key value

theorem ofOptions_only (key value : String) :
    ofOptions (only key value) = default.set key (Text.trim value) := by
  have single : (only key value).entries = [(key, value)] := rfl
  rw [ofOptions_eq, single, List.foldlM_cons]
  exact bind_pure _

theorem ofOptions_only_ok {key value : String} {a : Assignment}
    (read : entryAssignment (key, value) = .ok a) :
    ofOptions (only key value) = .ok (default.assign a) :=
  (ofOptions_only key value).trans (setEntry_ok read)

theorem ofOptions_only_error {key value : String} {e : Error}
    (failed : entryAssignment (key, value) = .error e) :
    ofOptions (only key value) = .error e :=
  (ofOptions_only key value).trans (setEntry_error failed)

def Readable (key value : String) : Prop := ∃ s, ofOptions (only key value) = .ok s

/-- The settings in which each field has the value of its entry, taken alone, or its default. -/
structure Combines (options : SortedMap String String) (s : Settings) : Prop where
  named : ∀ key ∈ options.keys, ∃! f : Field, f.key = key
  absent : ∀ f : Field, options.get? f.key = none → s.get f = default.get f
  given : ∀ (f : Field) value, options.get? f.key = some value →
    ∃ t, ofOptions (only f.key value) = .ok t ∧ s.get f = t.get f

theorem Combines.unique {s t : Settings} (left : Combines options s) (right : Combines options t) :
    s = t := by
  apply ext_get
  intro f
  cases found : options.get? f.key with
  | none => rw [left.absent f found, right.absent f found]
  | some value =>
    obtain ⟨u, hu, su⟩ := left.given f value found
    obtain ⟨w, hw, tw⟩ := right.given f value found
    have same : u = w := Except.ok.inj (hu.symm.trans hw)
    rw [su, tw, same]

theorem Reads.readable (reads : Reads options.entries assignments) {key value : String}
    (found : options.get? key = some value) : Readable key value := by
  obtain ⟨a, -, read⟩ := reads.of_mem (options.mem_entries_of_get? found)
  exact ⟨_, ofOptions_only_ok read⟩

theorem Reads.distinct (reads : Reads options.entries assignments) :
    assignments.Pairwise fun a b => a.1 ≠ b.1 := by
  have ascending : (options.entries.map Prod.fst).Pairwise (· < ·) :=
    List.pairwise_map.mpr options.ascending
  rw [← reads.keys, List.pairwise_map] at ascending
  apply ascending.imp
  intro a b below same
  rw [same] at below
  exact TotalLT.irrefl _ below

theorem Reads.combines (reads : Reads options.entries assignments) :
    Combines options (assignments.foldl assign default) where
  named key listed := by
    have assigned : key ∈ assignments.map (fun a => a.1.key) := reads.keys ▸ listed
    obtain ⟨a, -, rfl⟩ := List.mem_map.mp assigned
    exact ⟨a.1, rfl, fun g same => Field.key_injective same⟩
  absent f missing := by
    apply get_foldl_other
    rintro a member rfl
    have listed : a.1.key ∈ options.keys := by
      rw [SortedMap.keys, ← reads.keys]
      exact List.mem_map_of_mem member
    obtain ⟨value, found⟩ := options.get?_of_mem_keys listed
    rw [missing] at found
    cases found
  given f value found := by
    obtain ⟨⟨g, v⟩, member, read⟩ := reads.of_mem (options.mem_entries_of_get? found)
    have same : g = f := Field.key_injective (key_of_assignment read)
    subst same
    refine ⟨default.put g v, ofOptions_only_ok read, ?_⟩
    -- no other entry has the key, so that the value is still there at the end
    rw [get_put_self]
    exact get_foldl_assigned reads.distinct member default

/-- No entry with a smaller key fails by itself, and the one of `key` does. -/
structure FirstFailure (options : SortedMap String String) (key : String) (e : Error) : Prop where
  fails : ∃ value, options.get? key = some value ∧ ofOptions (only key value) = .error e
  first : ∀ smaller < key, ∀ value, options.get? smaller = some value → Readable smaller value

theorem FirstFailure.not_readable {key : String} {e : Error} (failure : FirstFailure options key e)
    (readable : ∀ value, options.get? key = some value → Readable key value) : False := by
  obtain ⟨value, found, failed⟩ := failure.fails
  obtain ⟨s, done⟩ := readable value found
  rw [failed] at done
  cases done

theorem FirstFailure.unique {key other : String} {e e' : Error}
    (left : FirstFailure options key e) (right : FirstFailure options other e') : e = e' := by
  have same : key = other := by
    apply TotalLT.connected
    · exact fun below => left.not_readable (right.first key below)
    · exact fun below => right.not_readable (left.first other below)
  subst same
  obtain ⟨value, found, failed⟩ := left.fails
  obtain ⟨value', found', failed'⟩ := right.fails
  have one : value = value' := Option.some.inj (found.symm.trans found')
  subst one
  exact Except.error.inj (failed.symm.trans failed')

theorem firstFailure_of_split {before after : List (String × String)} {key value : String}
    {e : Error} (split : options.entries = before ++ (key, value) :: after)
    (reads : Reads before assignments) (failed : entryAssignment (key, value) = .error e) :
    FirstFailure options key e where
  fails := by
    refine ⟨value, options.get?_of_mem_entries ?_, ofOptions_only_error failed⟩
    rw [split]
    exact List.mem_append_right _ List.mem_cons_self
  first smaller below other found := by
    have listed := options.mem_entries_of_get? found
    have ascending := options.ascending
    rw [split] at listed ascending
    have late := (List.pairwise_cons.mp (List.pairwise_append.mp ascending).2.1).1
    rcases List.mem_append.mp listed with early | rest
    · obtain ⟨a, -, read⟩ := reads.of_mem early
      exact ⟨_, ofOptions_only_ok read⟩
    · rcases List.mem_cons.mp rest with same | later
      · cases same
        exact absurd below (TotalLT.irrefl _)
      · exact absurd (TotalLT.trans below (late _ later)) (TotalLT.irrefl _)

theorem combines_or_fails (options : SortedMap String String) :
    (∃ s, ofOptions options = .ok s ∧ Combines options s ∧
      ∀ key value, options.get? key = some value → Readable key value) ∨
    ∃ key e, ofOptions options = .error e ∧ FirstFailure options key e := by
  rcases reads_or_fails options.entries with
    ⟨assignments, reads⟩ | ⟨before, ⟨key, value⟩, after, assignments, e, split, reads, failed⟩
  · have done := (ofOptions_eq options).trans (foldlM_setEntry_of_reads reads default)
    exact .inl ⟨_, done, reads.combines, fun key value found => reads.readable found⟩
  · have stopped : ofOptions options = .error e := by
      rw [ofOptions_eq, split]
      exact foldlM_setEntry_of_error reads failed default
    exact .inr ⟨key, e, stopped, firstFailure_of_split split reads failed⟩

theorem succeeds_iff_readable (options : SortedMap String String) :
    (∃ s, ofOptions options = .ok s) ↔
      ∀ key value, options.get? key = some value → Readable key value := by
  rcases combines_or_fails options with ⟨s, done, -, readable⟩ | ⟨key, e, failed, failure⟩
  · exact ⟨fun _ => readable, fun _ => ⟨s, done⟩⟩
  · constructor
    · rintro ⟨s, done⟩
      cases failed.symm.trans done
    · intro readable
      exact (failure.not_readable (readable key)).elim

theorem combines_of_ok {s : Settings} (done : ofOptions options = .ok s) : Combines options s := by
  rcases combines_or_fails options with ⟨t, done', combines, -⟩ | ⟨key, e, failed, -⟩
  · cases done.symm.trans done'
    exact combines
  · cases failed.symm.trans done

theorem fails_iff_firstFailure (options : SortedMap String String) (e : Error) :
    ofOptions options = .error e ↔ ∃ key, FirstFailure options key e := by
  rcases combines_or_fails options with ⟨s, done, -, readable⟩ | ⟨key, e', failed, failure⟩
  · constructor
    · intro failed
      cases failed.symm.trans done
    · rintro ⟨key, failure⟩
      exact (failure.not_readable (readable key)).elim
  · constructor
    · intro failed'
      cases failed.symm.trans failed'
      exact ⟨key, failure⟩
    · rintro ⟨other, failure'⟩
      rw [failed, failure.unique failure']

theorem ofOptions_only_trimmed (key value : String) :
    ∃ before core after, Text.Blank before ∧ Text.Blank after ∧ Text.Trimmed core ∧
      value = before ++ core ++ after ∧
      ofOptions (only key value) = (assignment key core).map default.assign := by
  obtain ⟨before, after, hb, ha, split⟩ := Text.trim_surrounded value
  refine ⟨before, Text.trim value, after, hb, ha, Text.trimmed_trim value, split, ?_⟩
  rw [ofOptions_only, set_eq]

/-- Options are read independently of each other. All of them are read if each is readable by
itself, and then they combine in only one way; otherwise the smallest key that fails by itself
gives the error. White space around a value does not count. -/
theorem entries_are_independent (options : SortedMap String String) :
    ((∃ s, ofOptions options = .ok s) ↔
      ∀ key value, options.get? key = some value → Readable key value) ∧
    (∀ s, ofOptions options = .ok s → Combines options s ∧ ∀ t, Combines options t → s = t) ∧
    (∀ e, ofOptions options = .error e ↔ ∃ key, FirstFailure options key e) ∧
    ∀ key value, ∃ before core after, Text.Blank before ∧ Text.Blank after ∧ Text.Trimmed core ∧
      value = before ++ core ++ after ∧
      ofOptions (only key value) = (assignment key core).map default.assign := by
  refine ⟨succeeds_iff_readable options, fun s done => ?_, fails_iff_firstFailure options,
    ofOptions_only_trimmed⟩
  have combines := combines_of_ok done
  exact ⟨combines, fun t other => combines.unique other⟩

-- Two entries that cannot be read: the error is that of the smaller key, not of the first written.
example : ofOptions ((only "time.profile-window" " many").insert "graph.colour" "red ") =
    .error (.badOption "graph.colour" "red") := by
  rfl

end ActorAnalysis.Settings
