import ActorAnalysis.Proofs.Space.Order
import Mathlib.Data.List.Nodup

namespace ActorAnalysis

namespace TotalLT

variable {α : Type} [LT α] [TotalLT α] {a b c : α}

theorem lt_of_lt_of_not_lt (below : a < b) (above : ¬c < b) : a < c := by
  by_cases between : b < c
  · exact TotalLT.trans below between
  · rw [TotalLT.connected above between]
    exact below

theorem lt_of_not_lt_of_lt (above : ¬b < a) (below : b < c) : a < c := by
  by_cases between : a < b
  · exact TotalLT.trans between below
  · rw [TotalLT.connected between above]
    exact below

end TotalLT

namespace Frontier

/-- A call that changes a frontier. A pop by key brings its own keys, in any total order. -/
inductive Call (S : Type) : Type 1 where
  | push (s : S)
  | popFront
  | popBack
  | popMinBy {K : Type} [LT K] [DecidableLT K] [TotalLT K] (key : S → K)
  | remove (s : S)

inductive Reply (S : Type) where
  /-- Whether the call changed anything. -/
  | changed (b : Bool)
  | taken (s : Option S)
deriving DecidableEq

@[ext] structure Answers (S : Type) where
  contains : S → Bool
  size : Nat
  isEmpty : Bool
  toList : List S

end Frontier

@[ext] structure Queue (S : Type) where
  states : List S
  distinct : states.Nodup

variable {S : Type} [DecidableEq S]

namespace Queue

instance : EmptyCollection (Queue S) := ⟨⟨[], List.nodup_nil⟩⟩

def push (q : Queue S) (s : S) : Bool × Queue S :=
  if present : s ∈ q.states then (false, q)
  else (true, ⟨q.states.concat s, q.distinct.concat present⟩)

def popFront (q : Queue S) : Option S × Queue S :=
  (q.states.head?, ⟨q.states.tail, q.distinct.sublist (List.tail_sublist _)⟩)

def popBack (q : Queue S) : Option S × Queue S :=
  (q.states.getLast?, ⟨q.states.dropLast, q.distinct.sublist (List.dropLast_sublist _)⟩)

def without (q : Queue S) (s : S) : Queue S :=
  ⟨q.states.filter (fun x => decide (x ≠ s)), q.distinct.sublist List.filter_sublist⟩

def remove (q : Queue S) (s : S) : Bool × Queue S := (decide (s ∈ q.states), q.without s)

section Keys

variable {K : Type} [LT K] [DecidableLT K]

def least? (key : S → K) (q : Queue S) : Option S :=
  q.states.find? (fun s => decide (∀ x ∈ q.states, ¬key x < key s))

def popMinBy (key : S → K) (q : Queue S) : Option S × Queue S :=
  (q.least? key, (q.least? key).elim q q.without)

end Keys

def perform : Frontier.Call S → StateM (Queue S) (Frontier.Reply S)
  | .push s, q => (.changed (q.push s).1, (q.push s).2)
  | .popFront, q => (.taken q.popFront.1, q.popFront.2)
  | .popBack, q => (.taken q.popBack.1, q.popBack.2)
  | @Frontier.Call.popMinBy _ _ _ _ _ key, q => (.taken (q.popMinBy key).1, (q.popMinBy key).2)
  | .remove s, q => (.changed (q.remove s).1, (q.remove s).2)

def answers (q : Queue S) : Frontier.Answers S where
  contains s := decide (s ∈ q.states)
  size := q.states.length
  isEmpty := q.states.isEmpty
  toList := q.states

end Queue

namespace Frontier

variable [Hashable S]

/-- A frontier from which there is nothing to take stays as it is. -/
def take (rule : Frontier S → Option (S × Frontier S)) (f : Frontier S) : Reply S × Frontier S :=
  ((.taken ((rule f).map Prod.fst)), ((rule f).map Prod.snd).getD f)

def perform : Call S → StateM (Frontier S) (Reply S)
  | .push s, f => (.changed (f.push s).1, (f.push s).2)
  | .popFront, f => f.take popFront?
  | .popBack, f => f.take popBack?
  | @Call.popMinBy _ _ _ _ _ key, f => f.take (popMinBy? key)
  | .remove s, f => (.changed (f.remove s).1, (f.remove s).2)

def answers (f : Frontier S) : Answers S where
  contains := f.contains
  size := f.size
  isEmpty := f.isEmpty
  toList := f.queue

/-- The hashed set agrees with the waiting states, and these are the queued ones. -/
structure Represents (f : Frontier S) (q : Queue S) : Prop where
  valid : f.Valid
  queue : f.queue = q.states

theorem queue_remove {f : Frontier S} (valid : f.Valid) (s : S) :
    (f.remove s).2.queue = f.queue.filter (fun x => decide (x ≠ s)) := by
  unfold remove
  split
  · show f.queue.erase s = _
    rw [valid.distinct.erase_eq_filter]
    apply List.filter_congr
    intro x _
    by_cases same : x = s <;> simp [same]
  · rename_i waits
    apply Eq.symm
    apply List.filter_eq_self.mpr
    intro x hx
    rw [decide_eq_true_iff]
    rintro rfl
    exact waits ((valid.members x).mpr hx)

section Keys

omit [DecidableEq S] [Hashable S]

variable {K : Type} [LT K]

/-- Every state before `least` has a greater key, and none behind it a smaller one. -/
def Oldest (key : S → K) (least : S) (l : List S) : Prop :=
  ∃ before behind, l = before ++ least :: behind ∧ (∀ x ∈ before, key least < key x) ∧
    ∀ x ∈ behind, ¬key x < key least

section Oldest

variable {key : S → K} {least best s : S} {l : List S}

theorem Oldest.cons (oldest : Oldest key least l) (greater : key least < key best) :
    Oldest key least (best :: l) := by
  obtain ⟨before, behind, rfl, later, noLess⟩ := oldest
  exact ⟨best :: before, behind, rfl, List.forall_mem_cons.mpr ⟨greater, later⟩, noLess⟩

variable [TotalLT K]

theorem Oldest.noLess (oldest : Oldest key least l) : ∀ x ∈ l, ¬key x < key least := by
  obtain ⟨before, behind, rfl, greater, noLess⟩ := oldest
  intro x hx
  rcases List.mem_append.mp hx with hx | hx
  · exact TotalLT.asymm (greater x hx)
  · rcases List.mem_cons.mp hx with rfl | hx
    · exact TotalLT.irrefl _
    · exact noLess x hx

theorem Oldest.second (oldest : Oldest key least (best :: l)) (above : ¬key s < key best) :
    Oldest key least (best :: s :: l) := by
  obtain ⟨before, behind, split, greater, noLess⟩ := oldest
  cases before with
  | nil =>
    obtain ⟨rfl, rfl⟩ := List.cons.inj split
    exact ⟨[], s :: l, rfl, greater, List.forall_mem_cons.mpr ⟨above, noLess⟩⟩
  | cons first before =>
    obtain ⟨rfl, rfl⟩ := List.cons.inj split
    obtain ⟨chosen, later⟩ := List.forall_mem_cons.mp greater
    have rest : Oldest key least (before ++ least :: behind) := ⟨before, behind, rfl, later, noLess⟩
    exact (rest.cons (TotalLT.lt_of_lt_of_not_lt chosen above)).cons chosen

end Oldest

variable [DecidableLT K] [TotalLT K]

theorem oldest_leastFrom (key : S → K) (best : S) (l : List S) :
    Oldest key (leastFrom key best l) (best :: l) := by
  induction l generalizing best with
  | nil => exact ⟨[], [], rfl, List.forall_mem_nil _, List.forall_mem_nil _⟩
  | cons s rest ih =>
    unfold leastFrom
    by_cases below : key s < key best
    · rw [if_pos below]
      have first := (ih s).noLess s List.mem_cons_self
      exact (ih s).cons (TotalLT.lt_of_not_lt_of_lt first below)
    · rw [if_neg below]
      exact (ih best).second below

theorem find?_least (key : S → K) (best : S) (l : List S) :
    (best :: l).find? (fun s => decide (∀ x ∈ best :: l, ¬key x < key s)) =
      some (leastFrom key best l) := by
  have oldest := oldest_leastFrom key best l
  have noLess := oldest.noLess
  obtain ⟨before, behind, split, greater, -⟩ := oldest
  rw [List.find?_eq_some_iff_append]
  refine ⟨decide_eq_true noLess, before, behind, split, fun x hx => ?_⟩
  have member : leastFrom key best l ∈ best :: l := leastFrom_mem key best l
  simp only [Bool.not_eq_true', decide_eq_false_iff_not]
  intro minimal
  exact minimal _ member (greater x hx)

end Keys

namespace Represents

theorem empty : (∅ : Frontier S).Represents ∅ := ⟨valid_empty, rfl⟩

variable {f : Frontier S} {q : Queue S} (represents : f.Represents q)
include represents

theorem contains (s : S) : f.contains s = decide (s ∈ q.states) := by
  rw [Bool.eq_iff_iff, represents.valid.members, represents.queue, decide_eq_true_iff]

theorem push (s : S) :
    (f.push s).1 = (q.push s).1 ∧ (f.push s).2.Represents (q.push s).2 := by
  have same := represents.contains s
  have listed := queue_push represents.valid s
  rw [represents.queue] at listed
  unfold Queue.push
  by_cases present : s ∈ q.states
  · rw [dif_pos present]
    rw [if_pos present] at listed
    refine ⟨?_, valid_push represents.valid s, listed⟩
    simp [Frontier.push, same, present]
  · rw [dif_neg present]
    rw [if_neg present, ← List.concat_eq_append] at listed
    refine ⟨?_, valid_push represents.valid s, listed⟩
    simp [Frontier.push, same, present]

theorem remove (s : S) :
    (f.remove s).1 = (q.remove s).1 ∧ (f.remove s).2.Represents (q.remove s).2 := by
  constructor
  · rw [Queue.remove, ← represents.contains s]
    unfold Frontier.remove
    cases f.contains s <;> rfl
  · refine ⟨valid_remove represents.valid s, ?_⟩
    rw [queue_remove represents.valid, represents.queue]
    rfl

theorem take {rule : Frontier S → Option (S × Frontier S)} (takes : Takes rule)
    {chosen : Option S} {left : Queue S}
    (shown : (rule f).map (fun p => (p.1, p.2.queue)) = chosen.map (fun s => (s, left.states)))
    (nothing : chosen = none → left = q) :
    (f.take rule).1 = .taken chosen ∧ (f.take rule).2.Represents left := by
  unfold Frontier.take
  cases taken : rule f with
  | none =>
    rw [taken] at shown
    have none : chosen = none := by simpa using shown.symm
    rw [none, nothing none]
    exact ⟨rfl, represents⟩
  | some p =>
    obtain ⟨s, rest⟩ := p
    rw [taken] at shown
    obtain ⟨_, rfl, same⟩ := Option.map_eq_some_iff.mp shown.symm
    obtain ⟨rfl, queue⟩ := Prod.mk.inj same
    exact ⟨rfl, (takes.one f _ rest represents.valid taken).2.1, queue.symm⟩

theorem popFront : (f.take popFront?).1 = .taken q.popFront.1 ∧
    (f.take popFront?).2.Represents q.popFront.2 := by
  apply represents.take takes_popFront?
  · unfold popFront?
    rw [represents.queue]
    obtain ⟨states, distinct⟩ := q
    cases states <;> rfl
  · intro none
    have empty : q.states = [] := List.head?_eq_none_iff.mp none
    ext1
    simp [Queue.popFront, empty]

theorem popBack : (f.take popBack?).1 = .taken q.popBack.1 ∧
    (f.take popBack?).2.Represents q.popBack.2 := by
  apply represents.take takes_popBack?
  · simp [popBack?, Queue.popBack, represents.queue, Function.comp_def]
  · intro none
    have empty : q.states = [] := List.getLast?_eq_none_iff.mp none
    ext1
    simp [Queue.popBack, empty]

theorem popMinBy {K : Type} [LT K] [DecidableLT K] [TotalLT K] (key : S → K) :
    (f.take (popMinBy? key)).1 = .taken (q.popMinBy key).1 ∧
      (f.take (popMinBy? key)).2.Represents (q.popMinBy key).2 := by
  apply represents.take (takes_popMinBy? key)
  · have left (s : S) : (f.remove s).2.queue = (q.without s).states := by
      rw [queue_remove represents.valid, represents.queue]
      rfl
    unfold popMinBy? Queue.popMinBy Queue.least?
    rw [represents.queue]
    cases waiting : q.states with
    | nil => rfl
    | cons s rest =>
      rw [find?_least]
      simp [left]
  · intro absent
    have absent : q.least? key = none := absent
    rw [Queue.popMinBy, absent]
    rfl

theorem perform (call : Call S) :
    (Frontier.perform call f).1 = (Queue.perform call q).1 ∧
      (Frontier.perform call f).2.Represents (Queue.perform call q).2 := by
  cases call with
  | push s =>
    obtain ⟨same, next⟩ := represents.push s
    exact ⟨congrArg Reply.changed same, next⟩
  | popFront => exact represents.popFront
  | popBack => exact represents.popBack
  | popMinBy key => exact represents.popMinBy key
  | remove s =>
    obtain ⟨same, next⟩ := represents.remove s
    exact ⟨congrArg Reply.changed same, next⟩

theorem answers : f.answers = q.answers := by
  have queue := represents.queue
  ext1
  · exact funext represents.contains
  · exact congrArg List.length queue
  · exact congrArg List.isEmpty queue
  · exact queue

end Represents

theorem mapM_represents (calls : List (Call S)) {f : Frontier S} {q : Queue S}
    (represents : f.Represents q) :
    ((calls.mapM perform).run f).1 = ((calls.mapM Queue.perform).run q).1 ∧
      ((calls.mapM perform).run f).2.Represents ((calls.mapM Queue.perform).run q).2 := by
  induction calls generalizing f q with
  | nil => exact ⟨rfl, represents⟩
  | cons call rest ih =>
    obtain ⟨same, next⟩ := represents.perform call
    obtain ⟨later, last⟩ := ih next
    rw [List.mapM_cons, List.mapM_cons]
    exact ⟨List.cons_eq_cons.mpr ⟨same, later⟩, last⟩

/-- Whatever is pushed, popped and removed, a frontier returns and answers the same as a queue of
distinct states; no state waits twice, and the hashed set holds the waiting states. -/
theorem calls_answer_like_a_queue (calls : List (Call S)) :
    ((calls.mapM perform).run (∅ : Frontier S)).1 =
      ((calls.mapM Queue.perform).run (∅ : Queue S)).1 ∧
    ((calls.mapM perform).run (∅ : Frontier S)).2.answers =
      ((calls.mapM Queue.perform).run (∅ : Queue S)).2.answers ∧
    ((calls.mapM perform).run (∅ : Frontier S)).2.queue.Nodup ∧
    ∀ s, s ∈ ((calls.mapM perform).run (∅ : Frontier S)).2.members ↔
      s ∈ ((calls.mapM perform).run (∅ : Frontier S)).2.queue := by
  obtain ⟨returned, represents⟩ := mapM_represents calls Represents.empty
  refine ⟨returned, represents.answers, represents.valid.distinct, fun s => ?_⟩
  rw [← Std.HashSet.contains_iff_mem]
  exact represents.valid.members s

/-- Of two states with the least key, the older one is taken first. -/
example : ((([.push 14, .push 21, .push 4, .push 11, .popMinBy (· % 10), .popMinBy (· % 10),
    .popMinBy (· % 10)] : List (Call Nat)).mapM perform).run (∅ : Frontier Nat)).1 =
    [.changed true, .changed true, .changed true, .changed true, .taken (some 21),
      .taken (some 11), .taken (some 14)] := by cbv

end Frontier
end ActorAnalysis
