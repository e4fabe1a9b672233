import ActorAnalysis.Leaf.Tuned
import ActorAnalysis.Proofs.Graph.Session
import ActorAnalysis.Proofs.Stack.Lookup

/-! The innermost state of a stack as a part of the whole. Taking it out and putting another one in
obey the laws of a lens, in any stack and over any analysis of data; the refiner of the stack is the
one of the data, lifted along this lens. Putting back what was taken out gives the same state only
because the keys that nodes hold are always those of their inner states. -/
namespace ActorAnalysis

namespace Wrapping

variable {O M I : Type}

def whole (S : Type) : Wrapping S S := ⟨fun s => s, fun _ s => s⟩

def comp (outer : Wrapping O M) (inner : Wrapping M I) : Wrapping O I where
  unwrap o := inner.unwrap (outer.unwrap o)
  wrap o i := outer.wrap o (inner.wrap (outer.unwrap o) i)

/-- The laws of a lens. Outer states that are not coherent change when their inner state is put
back. -/
structure Lens (w : Wrapping O I) (coherent : O → Prop) : Prop where
  unwrap_wrap : ∀ o i, w.unwrap (w.wrap o i) = i
  wrap_wrap : ∀ o i i', w.wrap (w.wrap o i) i' = w.wrap o i'
  wrap_unwrap : ∀ o, coherent o → w.wrap o (w.unwrap o) = o

theorem Lens.comp {outer : Wrapping O M} {inner : Wrapping M I} {coherent : O → Prop}
    {coherent' : M → Prop} (first : outer.Lens coherent) (second : inner.Lens coherent') :
    (outer.comp inner).Lens (fun o => coherent o ∧ coherent' (outer.unwrap o)) where
  unwrap_wrap o i := by
    show inner.unwrap (outer.unwrap (outer.wrap o _)) = i
    rw [first.unwrap_wrap, second.unwrap_wrap]
  wrap_wrap o i i' := by
    show outer.wrap (outer.wrap o _) (inner.wrap (outer.unwrap (outer.wrap o _)) i') =
      outer.wrap o (inner.wrap (outer.unwrap o) i')
    rw [first.wrap_wrap, first.unwrap_wrap, second.wrap_wrap]
  wrap_unwrap o h := by
    show outer.wrap o (inner.wrap (outer.unwrap o) (inner.unwrap (outer.unwrap o))) = o
    rw [second.wrap_unwrap _ h.2, first.wrap_unwrap o h.1]

end Wrapping

namespace Refiner

variable {O M I : Type}

theorem through_whole (r : Refiner I) : through (.whole I) r = r := by
  have same (s : I) : (through (.whole I) r).refine s = r.refine s := by
    show (r.refine s).map (Option.map fun s => s) = r.refine s
    cases r.refine s with
    | error e => rfl
    | ok refined => cases refined <;> rfl
  exact congrArg (Refiner.mk r.feasible) (funext same)

/-- Lifting along two layers one by one is lifting along both. -/
theorem through_comp (outer : Wrapping O M) (inner : Wrapping M I) (r : Refiner I) :
    through outer (through inner r) = through (outer.comp inner) r := by
  have same (o : O) :
      (through outer (through inner r)).refine o = (through (outer.comp inner) r).refine o := by
    show ((r.refine (inner.unwrap (outer.unwrap o))).map _).map _ =
      (r.refine (inner.unwrap (outer.unwrap o))).map _
    cases r.refine (inner.unwrap (outer.unwrap o)) with
    | error e => rfl
    | ok refined => cases refined <;> rfl
  exact congrArg (Refiner.mk _) (funext same)

end Refiner

namespace Analysis

/-- The states that an analysis produces by any of its operations, whatever numbers are drawn in
between. -/
inductive Produced {S : Type} (A : Analysis S) : S → Prop where
  | initial {program : Program} {ids after : Ids} {out : List S} {s : S} :
      (A.initial program).run ids = (.ok out, after) → s ∈ out → Produced A s
  | succ {ids after : Ids} {s t : S} {out : List S} : Produced A s →
      (A.succ s).run ids = (.ok out, after) → t ∈ out → Produced A t
  | widen {s t : S} : Produced A s → A.widen s = .ok t → Produced A t
  | combine {ids after : Ids} {s t u : S} : Produced A s → Produced A t →
      A.Combines ids s t after u → Produced A u
  | refine {s t : S} : Produced A s → A.refiner.refine s = .ok (some t) → Produced A t

theorem Lifts.produced {O S : Type} {A : Analysis O} {I : Analysis S} {view : O → S}
    (lifts : A.Lifts I view)
    (join : ∀ {s t j ids after}, (A.join s t).run ids = (.ok j, after) →
      ∃ mid, (I.join (view s) (view t)).run ids = (.ok (view j), mid))
    (refine : ∀ {s t}, A.refiner.refine s = .ok (some t) →
      I.refiner.refine (view s) = .ok (some (view t)))
    {o : O} (produced : A.Produced o) : I.Produced (view o) := by
  induction produced with
  | initial done member =>
    obtain ⟨mid, ran, -⟩ := lifts.initial done
    exact .initial ran (List.mem_map_of_mem member)
  | succ _ done member ih =>
    obtain ⟨mid, ran, -⟩ := lifts.succ done
    exact .succ ih ran (List.mem_map_of_mem member)
  | widen _ done ih =>
    rcases lifts.widen done with same | widened
    · exact same ▸ ih
    · exact .widen ih widened
  | combine _ _ done hs ht =>
    rcases done with done | done
    · obtain ⟨mid, ran⟩ := join done
      exact .combine hs ht (.inl ran)
    · obtain ⟨mid, ran, -⟩ := lifts.merge done
      exact .combine hs ht (.inr ran)
  | refine _ done ih => exact .refine ih (refine done)

end Analysis

theorem Scheduled.eq_wrap {D : Type} {s t : Scheduled D} {d : D} :
    t = (wrapping D).wrap s d ↔
      (t.threads = s.threads ∧ t.stepped = s.stepped ∧ t.violated = s.violated) ∧ t.data = d := by
  constructor
  · rintro rfl
    exact ⟨⟨rfl, rfl, rfl⟩, rfl⟩
  · rintro ⟨⟨threads, stepped, violated⟩, rfl⟩
    cases t
    cases threads
    cases stepped
    cases violated
    rfl

namespace Timed

variable {W : Type}

theorem lens (W : Type) : (wrapping W).Lens (fun _ => True) where
  unwrap_wrap _ _ := rfl
  wrap_wrap _ _ _ := rfl
  wrap_unwrap _ _ := rfl

theorem eq_wrap {s t : Timed W} {w : W} :
    t = (wrapping W).wrap s w ↔ t.profile = s.profile ∧ t.inner = w := by
  constructor
  · rintro rfl
    exact ⟨rfl, rfl⟩
  · rintro ⟨profile, rfl⟩
    cases t
    cases profile
    rfl

section Inner

variable {config : TimeConfig} {A : Analysis W} {s t j : Timed W}

theorem join_inner {ids after : Ids}
    (done : ((analysis config A).join s t).run ids = (.ok j, after)) :
    (A.join s.inner t.inner).run ids = (.ok j.inner, after) := by
  simp only [analysis] at done
  split at done
  · obtain ⟨inner, mid, ran, done⟩ := Alloc.run_bind_ok.mp done
    obtain ⟨rfl, rfl⟩ := Alloc.run_pure_ok.mp done
    exact ran
  · cases done

theorem refine_inner (done : (analysis config A).refiner.refine s = .ok (some t)) :
    A.refiner.refine s.inner = .ok (some t.inner) := by
  obtain ⟨inner, ran, rfl⟩ := Refiner.refine_through done
  exact ran

theorem produced_inner (produced : (analysis config A).Produced s) : A.Produced s.inner := by
  apply (lifts config A).produced _ refine_inner produced
  exact fun {s t j ids after} done => ⟨after, join_inner done⟩

end Inner

end Timed

namespace Node

variable {W : Type} {A : Analysis W}

theorem lens (A : Analysis W) : (wrapping A).Lens (fun n => n.keys = A.keys n.inner) where
  unwrap_wrap _ _ := rfl
  wrap_wrap _ _ _ := rfl
  wrap_unwrap n coherent := by
    show { n with inner := n.inner, keys := A.keys n.inner } = n
    rw [← coherent]

theorem eq_wrap {n t : Node W} {w : W} :
    t = (wrapping A).wrap n w ↔ t.SamePlace n ∧ t.inner = w ∧ t.keys = A.keys t.inner := by
  constructor
  · rintro rfl
    exact ⟨⟨rfl, rfl, rfl⟩, rfl, rfl⟩
  · rintro ⟨⟨id, predecessors, mergeOf⟩, rfl, keys⟩
    show t = { n with inner := t.inner, keys := A.keys t.inner }
    rw [← keys]
    cases t
    cases id
    cases predecessors
    cases mergeOf
    rfl

section Inner

variable {config : GraphConfig} {m n j : Node W}

theorem join_inner {ids after : Ids}
    (done : ((analysis config A).join m n).run ids = (.ok j, after)) :
    ∃ mid, (A.join m.inner n.inner).run ids = (.ok j.inner, mid) ∧ mid ≤ after := by
  obtain ⟨inner, mid, ran, done⟩ := Alloc.run_bind_ok.mp done
  obtain ⟨rfl, -⟩ := run_fresh_ok done
  exact ⟨mid, ran, Alloc.le_of_run done⟩

theorem refine_inner (done : (analysis config A).refiner.refine m = .ok (some n)) :
    A.refiner.refine m.inner = .ok (some n.inner) := by
  obtain ⟨inner, ran, rfl⟩ := Refiner.refine_through done
  exact ran

theorem produced_inner (produced : (analysis config A).Produced n) : A.Produced n.inner := by
  apply (lifts config A).produced _ refine_inner produced
  intro m n j ids after done
  obtain ⟨mid, ran, -⟩ := join_inner done
  exact ⟨mid, ran⟩

end Inner

theorem produced_keys {config : GraphConfig} {n : Node W}
    (produced : (analysis config A).Produced n) : n.keys = A.keys n.inner := by
  induction produced with
  | initial done member =>
    obtain ⟨states, mid, -, done⟩ := Alloc.run_bind_ok.mp done
    exact keys_of_fresh done _ member
  | succ _ done member =>
    obtain ⟨states, mid, -, done⟩ := Alloc.run_bind_ok.mp done
    exact keys_of_fresh done _ member
  | widen _ done ih =>
    rcases keys_of_widen done with rfl | keys
    · exact ih
    · exact keys
  | combine _ _ done =>
    rcases done with done | done
    · obtain ⟨inner, mid, -, done⟩ := Alloc.run_bind_ok.mp done
      exact keys_of_combine done
    · obtain ⟨inner, mid, -, done⟩ := Alloc.run_bind_ok.mp done
      exact keys_of_combine done
  | refine _ done =>
    obtain ⟨inner, -, rfl⟩ := Refiner.refine_through done
    rfl

end Node

namespace Stack

variable {D : Type}

def innermost : (k : Stack) → k.State D → D
  | data, d => d
  | scheduled _ _ _, s => s.data
  | graph _ below, n => below.innermost n.inner
  | timed _ below, s => below.innermost s.inner

/-- How the states of a stack hold the innermost ones: layer by layer. -/
def wrapping (leaf : DataAnalysis D) : (k : Stack) → Wrapping (k.State D) D
  | data => .whole D
  | scheduled _ _ _ => Scheduled.wrapping D
  | graph _ below => (Node.wrapping (below.analysis leaf)).comp (below.wrapping leaf)
  | timed _ below => (Timed.wrapping (below.State D)).comp (below.wrapping leaf)

/-- The states differ at most in the innermost state and in the keys that nodes hold. -/
def SameShell : (k : Stack) → k.State D → k.State D → Prop
  | data, _, _ => True
  | scheduled _ _ _, s, t =>
    s.threads = t.threads ∧ s.stepped = t.stepped ∧ s.violated = t.violated
  | graph _ below, m, n => m.SamePlace n ∧ below.SameShell m.inner n.inner
  | timed _ below, s, t => s.profile = t.profile ∧ below.SameShell s.inner t.inner

section Laws

variable (leaf : DataAnalysis D)

theorem unwrap_eq (k : Stack) (o : k.State D) : (k.wrapping leaf).unwrap o = k.innermost o := by
  induction k with
  | data => rfl
  | scheduled => rfl
  | graph config below ih => exact ih o.inner
  | timed config below ih => exact ih o.inner

theorem lens (k : Stack) : (k.wrapping leaf).Lens (k.Honest leaf) := by
  induction k with
  | data => exact ⟨fun _ _ => rfl, fun _ _ _ => rfl, fun _ _ => rfl⟩
  | scheduled => exact ⟨fun _ _ => rfl, fun _ _ _ => rfl, fun _ _ => rfl⟩
  | graph config below ih => exact (Node.lens (below.analysis leaf)).comp ih
  | timed config below ih =>
    have both := (Timed.lens (below.State D)).comp ih
    exact ⟨both.unwrap_wrap, both.wrap_wrap, fun o h => both.wrap_unwrap o ⟨trivial, h⟩⟩

theorem refiner_eq (k : Stack) :
    (k.analysis leaf).refiner = .through (k.wrapping leaf) leaf.refiner := by
  induction k with
  | data => exact (Refiner.through_whole leaf.refiner).symm
  | scheduled => rfl
  | graph config below ih =>
    show Refiner.through (Node.wrapping (below.analysis leaf)) (below.analysis leaf).refiner = _
    rw [ih, Refiner.through_comp]
    rfl
  | timed config below ih =>
    show Refiner.through (Timed.wrapping (below.State D)) (below.analysis leaf).refiner = _
    rw [ih, Refiner.through_comp]
    rfl

/-- Putting in another innermost state leaves the shell as it is and renews the keys. -/
theorem eq_wrap_iff (k : Stack) (o t : k.State D) (i : D) :
    t = (k.wrapping leaf).wrap o i ↔
      k.SameShell t o ∧ k.innermost t = i ∧ k.Honest leaf t := by
  induction k with
  | data => exact ⟨fun same => ⟨trivial, same, trivial⟩, fun h => h.2.1⟩
  | scheduled =>
    refine Scheduled.eq_wrap.trans ⟨fun h => ⟨h.1, h.2, trivial⟩, fun h => ⟨h.1, h.2.1⟩⟩
  | graph config below ih =>
    refine Node.eq_wrap.trans ?_
    rw [ih]
    constructor
    · rintro ⟨place, ⟨shell, held, honest⟩, keys⟩
      exact ⟨⟨place, shell⟩, held, keys, honest⟩
    · rintro ⟨⟨place, shell⟩, held, keys, honest⟩
      exact ⟨place, ⟨shell, held, honest⟩, keys⟩
  | timed config below ih =>
    refine Timed.eq_wrap.trans ?_
    rw [ih]
    constructor
    · rintro ⟨profile, shell, held, honest⟩
      exact ⟨⟨profile, shell⟩, held, honest⟩
    · rintro ⟨⟨profile, shell⟩, held, honest⟩
      exact ⟨profile, shell, held, honest⟩

theorem honest_of_produced (k : Stack) {o : k.State D} (produced : (k.analysis leaf).Produced o) :
    k.Honest leaf o := by
  induction k with
  | data => trivial
  | scheduled => trivial
  | graph config below ih => exact ⟨Node.produced_keys produced, ih (Node.produced_inner produced)⟩
  | timed config below ih => exact ih (Timed.produced_inner produced)

/-- The innermost state of a state that a stack produces can be taken out and put back, and another
one can be put in, as a lens has it. The refiner of the stack asks the one of the data about the
innermost state, and puts what it gets into the state. That changes the innermost state and the keys
that nodes hold, which become those of their new inner states, and nothing else. -/
theorem refiners_lift_along_a_lens (k : Stack) {o : k.State D}
    (produced : (k.analysis leaf).Produced o) :
    (k.wrapping leaf).unwrap o = k.innermost o ∧
    (∀ i, (k.wrapping leaf).unwrap ((k.wrapping leaf).wrap o i) = i) ∧
    (k.wrapping leaf).wrap o ((k.wrapping leaf).unwrap o) = o ∧
    (∀ i i', (k.wrapping leaf).wrap ((k.wrapping leaf).wrap o i) i' =
      (k.wrapping leaf).wrap o i') ∧
    (k.analysis leaf).refiner.feasible o = leaf.refiner.feasible (k.innermost o) ∧
    (k.analysis leaf).refiner.refine o = (leaf.refiner.refine (k.innermost o)).map
      (fun refined => refined.map ((k.wrapping leaf).wrap o)) ∧
    ∀ i t, t = (k.wrapping leaf).wrap o i ↔
      k.SameShell t o ∧ k.innermost t = i ∧ k.Honest leaf t := by
  have lens := k.lens leaf
  refine ⟨k.unwrap_eq leaf o, lens.unwrap_wrap o, lens.wrap_unwrap o ?_, lens.wrap_wrap o, ?_, ?_,
    fun i t => k.eq_wrap_iff leaf o t i⟩
  · exact k.honest_of_produced leaf produced
  · rw [refiner_eq, ← k.unwrap_eq leaf o]
    rfl
  · rw [refiner_eq, ← k.unwrap_eq leaf o]
    rfl

end Laws

namespace Spurious

def holding (value : Int64) : DataState :=
  .known ((∅ : SortedMap String Int64).insert "x" value)

/-- A state is spurious where the variable is one, and the variable gives the key. -/
def leaf : DataAnalysis DataState :=
  Tuning.analysis ⟨none, none, some ("x", 1), some (holding 2), none, some "x", none, .never⟩
    (DataState.analysis ⟨true, .all⟩)

def program : Program :=
  ⟨Loop.program.actors, (∅ : SortedMap String Int64).insert "x" 1, Loop.program.distinct⟩

abbrev stack : Stack :=
  timed ⟨16⟩ (graph ⟨.standard, .delegate⟩ (scheduled program ⟨false, 1000⟩ (fun _ => 0)))

abbrev analysis : Analysis (stack.State DataState) := stack.analysis leaf

def root : stack.State DataState :=
  Timed.mk [] (Node.mk 0 ∅ (.singleton 0) (.start Loop.threads (holding 1)) (.ofList [0, 1]))

def refined : stack.State DataState :=
  Timed.mk [] (Node.mk 0 ∅ (.singleton 0) (.start Loop.threads (holding 2)) (.ofList [0, 2]))

theorem starts : (analysis.initial program).run .start = (.ok [root], ⟨1, 1⟩) := rfl

end Spurious

theorem refinement_renews_the_keys :
    Spurious.analysis.Produced Spurious.root ∧
      (Spurious.stack.wrapping Spurious.leaf).wrap Spurious.root (Spurious.holding 1) =
        Spurious.root ∧
      Spurious.analysis.refiner.feasible Spurious.root = .ok false ∧
      Spurious.analysis.refiner.refine Spurious.root = .ok (some Spurious.refined) ∧
      Spurious.stack.SameShell Spurious.refined Spurious.root := by
  have produced : Spurious.analysis.Produced Spurious.root :=
    .initial Spurious.starts List.mem_cons_self
  obtain ⟨-, -, back, -, feasible, refine, wraps⟩ :=
    refiners_lift_along_a_lens Spurious.leaf Spurious.stack produced
  refine ⟨produced, back, feasible.trans rfl, refine.trans rfl, ?_⟩
  exact ((wraps (Spurious.holding 2) Spurious.refined).mp rfl).1

end Stack
end ActorAnalysis
