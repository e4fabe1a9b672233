import ActorAnalysis.Node
import ActorAnalysis.Proofs.Run.Coverage
import ActorAnalysis.Timed

/-! Layers. An analysis over another one does what the inner one does, on the states that its own
states hold; so invariants and coverage of the inner analysis carry over. Nodes of the graph bring
numbers of their own, which tell new states from merged ones. -/
namespace ActorAnalysis

namespace Analysis

variable {O S C : Type}

/-- Each operation of the outer analysis runs the one of the inner analysis first. -/
structure Lifts (A : Analysis O) (I : Analysis S) (view : O → S) : Prop where
  initial : ∀ {program ids out after}, (A.initial program).run ids = (.ok out, after) →
    ∃ mid, (I.initial program).run ids = (.ok (out.map view), mid) ∧ mid ≤ after
  succ : ∀ {s ids out after}, (A.succ s).run ids = (.ok out, after) →
    ∃ mid, (I.succ (view s)).run ids = (.ok (out.map view), mid) ∧ mid ≤ after
  shouldMerge : ∀ {s t}, A.shouldMerge s t = true → I.shouldMerge (view s) (view t) = true
  merge : ∀ {s t m ids after}, (A.merge s t).run ids = (.ok m, after) →
    ∃ mid, (I.merge (view s) (view t)).run ids = (.ok (view m), mid) ∧ mid ≤ after
  widen : ∀ {s t}, A.widen s = .ok t → view t = view s ∨ I.widen (view s) = .ok (view t)
  target : ∀ s, A.target s = I.target (view s)

variable {A : Analysis O} {I : Analysis S} {view : O → S} (lifts : A.Lifts I view)
include lifts

theorem Lifts.invariant {program : Program} {merges widens : Prop} {inv : Ids → S → Prop}
    (keeps : I.Invariant program merges widens inv) :
    A.Invariant program merges widens (fun ids o => inv ids (view o)) where
  grows h later := keeps.grows h later
  initial done s hs := by
    obtain ⟨mid, ran, later⟩ := lifts.initial done
    exact keeps.grows (keeps.initial ran _ (List.mem_map_of_mem hs)) later
  succ h done t ht := by
    obtain ⟨mid, ran, later⟩ := lifts.succ done
    exact keeps.grows (keeps.succ h ran _ (List.mem_map_of_mem ht)) later
  merge allowed _ _ _ _ _ hs ht should done := by
    obtain ⟨mid, ran, later⟩ := lifts.merge done
    exact keeps.grows (keeps.merge allowed hs ht (lifts.shouldMerge should) ran) later
  widen allowed _ _ _ h done := by
    rcases lifts.widen done with same | widened
    · exact same ▸ h
    · exact keeps.widen allowed h widened

theorem Lifts.separates {inv : Ids → S → Prop} {apart : S → S → Prop}
    (separates : I.Separates inv apart) :
    A.Separates (fun ids o => inv ids (view o)) (fun s r => apart (view s) (view r)) where
  succ h done t ht := by
    obtain ⟨mid, ran, -⟩ := lifts.succ done
    exact separates.succ h ran _ (List.mem_map_of_mem ht)
  distinct done := by
    obtain ⟨mid, ran, -⟩ := lifts.succ done
    exact List.pairwise_map.mp (separates.distinct ran)
  merge h hs hr done := by
    obtain ⟨mid, ran, -⟩ := lifts.merge done
    exact separates.merge h hs hr ran
  widen done x := by
    rcases lifts.widen done with same | widened
    · rw [same]
      exact ⟨fun h => h, fun h => h⟩
    · exact separates.widen widened (view x)

/-- Coverage carries over, provided that the outer analysis stops only where the inner one does. -/
theorem Lifts.covering {program : Program} {B : Behaviour C} {inv : Ids → S → Prop}
    {apart : S → S → Prop} {covers : S → C → Prop}
    (covering : I.Covering program B inv apart covers) {outer : Ids → O → Prop}
    {apart' : O → O → Prop} (inside : ∀ ids o, outer ids o → inv ids (view o))
    (stop : ∀ s l, (∀ r ∈ l, apart' s r) → A.stop s l = true →
      I.stop (view s) (l.map view) = true ∧ ∀ r ∈ l, apart (view s) (view r)) :
    A.Covering program B outer apart' (fun o c => covers (view o) c) where
  initial done c start := by
    obtain ⟨mid, ran, -⟩ := lifts.initial done
    obtain ⟨s, hs, h⟩ := covering.initial ran c start
    obtain ⟨o, ho, rfl⟩ := List.mem_map.mp hs
    exact ⟨o, ho, h⟩
  succ h done c d hc step := by
    obtain ⟨mid, ran, -⟩ := lifts.succ done
    refine (covering.succ (inside _ _ h) ran c d hc step).mono (fun _ h => h) ?_
    rintro e ⟨s, hs, h⟩
    obtain ⟨o, ho, rfl⟩ := List.mem_map.mp hs
    exact ⟨o, ho, h⟩
  stop := by
    intro s l new stops c hc
    obtain ⟨inner, separate⟩ := stop s l new stops
    have separate : ∀ r ∈ l.map view, apart (view s) r := by
      intro r hr
      obtain ⟨o, ho, rfl⟩ := List.mem_map.mp hr
      exact separate o ho
    obtain ⟨r, hr, h⟩ := covering.stop separate inner c hc
    obtain ⟨o, ho, rfl⟩ := List.mem_map.mp hr
    exact ⟨o, ho, h⟩
  merge should done c hc := by
    obtain ⟨mid, ran, -⟩ := lifts.merge done
    exact covering.merge (lifts.shouldMerge should) ran c hc
  widen done c hc := by
    rcases lifts.widen done with same | widened
    · exact same ▸ hc
    · exact covering.widen widened c hc
  target h hc violated := by
    rw [lifts.target]
    exact covering.target (inside _ _ h) hc violated

end Analysis

theorem except_map_ok {α β : Type} {f : α → β} {r : Except Error α} {b : β}
    (done : r.map f = .ok b) : ∃ a, r = .ok a ∧ f a = b := by
  cases r with
  | error e => exact nomatch done
  | ok a => exact ⟨a, rfl, Except.ok.inj done⟩

theorem except_map_error {α β : Type} {f : α → β} {r : Except Error α} {e : Error}
    (failed : r.map f = .error e) : r = .error e := by
  cases r with
  | error e' =>
    cases failed
    rfl
  | ok a => cases failed

theorem Timed.lifts {W : Type} (config : TimeConfig) (A : Analysis W) :
    (Timed.analysis config A).Lifts A Timed.inner where
  initial done := by
    obtain ⟨states, mid, ran, done⟩ := Alloc.run_bind_ok.mp done
    obtain ⟨rfl, rfl⟩ := Alloc.run_pure_ok.mp done
    have held : (states.map (Timed.mk [])).map Timed.inner = states := by simp [Function.comp_def]
    rw [held]
    exact ⟨_, ran, Ids.le_refl _⟩
  succ := by
    intro s ids out after done
    obtain ⟨states, mid, ran, done⟩ := Alloc.run_bind_ok.mp done
    obtain ⟨rfl, rfl⟩ := Alloc.run_pure_ok.mp done
    have held : (states.map (Timed.mk (s.profile.advance config.window))).map Timed.inner =
        states := by simp [Function.comp_def]
    rw [held]
    exact ⟨_, ran, Ids.le_refl _⟩
  shouldMerge should := (Bool.and_eq_true_iff.mp should).2
  merge done := by
    obtain ⟨inner, mid, ran, done⟩ := Alloc.run_bind_ok.mp done
    obtain ⟨rfl, rfl⟩ := Alloc.run_pure_ok.mp done
    exact ⟨_, ran, Ids.le_refl _⟩
  widen done := by
    obtain ⟨inner, widened, rfl⟩ := except_map_ok done
    exact .inr widened
  target _ := rfl

namespace Node

variable {W : Type}

def Numbered (ids : Ids) (n : Node W) : Prop :=
  n.id < ids.nodes ∧ ∀ x ∈ n.mergeOf, x < ids.nodes

structure SamePlace (m n : Node W) : Prop where
  id : m.id = n.id
  predecessors : m.predecessors = n.predecessors
  mergeOf : m.mergeOf = n.mergeOf

theorem SamePlace.refl (n : Node W) : n.SamePlace n := ⟨rfl, rfl, rfl⟩

/-- New nodes, numbered upwards from `ids` on. None of them has been merged yet. -/
structure Born (ids after : Ids) (predecessors : SortedSet NodeId) (nodes : List (Node W)) :
    Prop where
  drawn : ∀ n ∈ nodes, ids.nodes ≤ n.id ∧ n.id < after.nodes
  own : ∀ n ∈ nodes, ∀ x, x ∈ n.mergeOf ↔ x = n.id
  edges : ∀ n ∈ nodes, n.predecessors = predecessors
  ascending : nodes.Pairwise (fun m n => m.id < n.id)

structure Unites (ids after : Ids) (m n united : Node W) : Prop where
  drawn : ids.nodes ≤ united.id ∧ united.id < after.nodes
  members : ∀ x, x ∈ united.mergeOf ↔ x = united.id ∨ x ∈ m.mergeOf ∨ x ∈ n.mergeOf
  edges : ∀ p ∈ united.predecessors, p ∈ m.predecessors ∨ p ∈ n.predecessors

section Place

variable {ids ids' after after' : Ids} {predecessors : SortedSet NodeId} {nodes : List (Node W)}
  {m n united : Node W}

theorem Numbered.grows (numbered : n.Numbered ids) (later : ids ≤ after) : n.Numbered after :=
  ⟨Nat.lt_of_lt_of_le numbered.1 later.2, fun x hx => Nat.lt_of_lt_of_le (numbered.2 x hx) later.2⟩

theorem Born.within (born : Born ids after predecessors nodes) (before : ids' ≤ ids)
    (later : after ≤ after') : Born ids' after' predecessors nodes where
  drawn n hn := by
    obtain ⟨low, high⟩ := born.drawn n hn
    exact ⟨Nat.le_trans before.2 low, Nat.lt_of_lt_of_le high later.2⟩
  own := born.own
  edges := born.edges
  ascending := born.ascending

theorem Born.numbered (born : Born ids after predecessors nodes) (member : n ∈ nodes) :
    n.Numbered after := by
  have high := (born.drawn n member).2
  exact ⟨high, fun x hx => (born.own n member x).mp hx ▸ high⟩

theorem Unites.within (unites : Unites ids after m n united) (before : ids' ≤ ids)
    (later : after ≤ after') : Unites ids' after' m n united where
  drawn := by
    obtain ⟨low, high⟩ := unites.drawn
    exact ⟨Nat.le_trans before.2 low, Nat.lt_of_lt_of_le high later.2⟩
  members := unites.members
  edges := unites.edges

theorem Unites.numbered (unites : Unites ids after m n united) (hm : m.Numbered after)
    (hn : n.Numbered after) : united.Numbered after := by
  refine ⟨unites.drawn.2, fun x hx => ?_⟩
  rcases (unites.members x).mp hx with rfl | hx | hx
  · exact unites.drawn.2
  · exact hm.2 x hx
  · exact hn.2 x hx

end Place

theorem run_fresh_ok {A : Analysis W} {predecessors mergeOf : SortedSet NodeId} {inner : W}
    {n : Node W} {ids after : Ids}
    (done : (fresh A predecessors mergeOf inner).run ids = (.ok n, after)) :
    n = ⟨ids.nodes, predecessors, mergeOf.insert ids.nodes, inner, A.keys inner⟩ ∧
      after = { ids with nodes := ids.nodes + 1 } := by
  unfold fresh at done
  rw [Alloc.run_bind_ok] at done
  obtain ⟨id, mid, drawn, done⟩ := done
  cases drawn
  obtain ⟨made, rfl⟩ := Alloc.run_liftM_ok.mp done
  unfold make at made
  split at made
  · cases made
  · split at made
    · cases made
      exact ⟨rfl, rfl⟩
    · cases made

theorem run_mapM_fresh_ok {A : Analysis W} {predecessors : SortedSet NodeId} {states : List W}
    {out : List (Node W)} {ids after : Ids}
    (done : (states.mapM (fresh A predecessors ∅)).run ids = (.ok out, after)) :
    out.map Node.inner = states ∧ Born ids after predecessors out := by
  induction states generalizing ids out with
  | nil =>
    obtain ⟨rfl, -⟩ := Alloc.run_pure_ok.mp done
    exact ⟨rfl, by simp, by simp, by simp, .nil⟩
  | cons w rest ih =>
    rw [List.mapM_cons, Alloc.run_bind_ok] at done
    obtain ⟨n, mid, first, done⟩ := done
    rw [Alloc.run_bind_ok] at done
    obtain ⟨ns, last, others, done⟩ := done
    obtain ⟨rfl, rfl⟩ := Alloc.run_pure_ok.mp done
    obtain ⟨rfl, rfl⟩ := run_fresh_ok first
    obtain ⟨held, born⟩ := ih others
    have later : ids.nodes + 1 ≤ after.nodes := (Alloc.le_of_run others).2
    have rest : Born ids after predecessors ns :=
      born.within ⟨Nat.le_refl _, Nat.le_succ _⟩ (Ids.le_refl after)
    refine ⟨by simp [held], fun n hn => ?_, fun n hn x => ?_, fun n hn => ?_,
      List.pairwise_cons.mpr ⟨fun n hn => (born.drawn n hn).1, born.ascending⟩⟩
    · rcases List.mem_cons.mp hn with rfl | hn
      · exact ⟨Nat.le_refl _, later⟩
      · exact rest.drawn n hn
    · rcases List.mem_cons.mp hn with rfl | hn
      · simp
      · exact born.own n hn x
    · rcases List.mem_cons.mp hn with rfl | hn
      · rfl
      · exact born.edges n hn

section Layer

variable (config : GraphConfig) (A : Analysis W)

theorem lifts : (analysis config A).Lifts A Node.inner where
  initial done := by
    obtain ⟨states, mid, ran, done⟩ := Alloc.run_bind_ok.mp done
    exact ⟨mid, (run_mapM_fresh_ok done).1 ▸ ran, Alloc.le_of_run done⟩
  succ done := by
    obtain ⟨states, mid, ran, done⟩ := Alloc.run_bind_ok.mp done
    exact ⟨mid, (run_mapM_fresh_ok done).1 ▸ ran, Alloc.le_of_run done⟩
  shouldMerge should := should
  merge done := by
    obtain ⟨inner, mid, ran, done⟩ := Alloc.run_bind_ok.mp done
    obtain ⟨rfl, -⟩ := run_fresh_ok done
    exact ⟨mid, ran, Alloc.le_of_run done⟩
  widen := by
    intro s t done
    cases widening : config.widening with
    | passThrough =>
      simp only [analysis, widening] at done
      exact .inl (congrArg Node.inner (Except.ok.inj done).symm)
    | delegate =>
      simp only [analysis, widening] at done
      obtain ⟨inner, widened, rfl⟩ := except_map_ok done
      exact .inr widened
  target _ := rfl

variable {config A}

theorem initial_born {program : Program} {out : List (Node W)} {ids after : Ids}
    (done : ((analysis config A).initial program).run ids = (.ok out, after)) :
    Born ids after ∅ out := by
  obtain ⟨states, mid, ran, done⟩ := Alloc.run_bind_ok.mp done
  exact (run_mapM_fresh_ok done).2.within (Alloc.le_of_run ran) (Ids.le_refl after)

theorem succ_born {s : Node W} {out : List (Node W)} {ids after : Ids}
    (done : ((analysis config A).succ s).run ids = (.ok out, after)) :
    Born ids after (.singleton s.id) out := by
  obtain ⟨states, mid, ran, done⟩ := Alloc.run_bind_ok.mp done
  exact (run_mapM_fresh_ok done).2.within (Alloc.le_of_run ran) (Ids.le_refl after)

theorem merge_unites {s t m : Node W} {ids after : Ids}
    (done : ((analysis config A).merge s t).run ids = (.ok m, after)) :
    Unites ids after s t m := by
  obtain ⟨inner, mid, ran, done⟩ := Alloc.run_bind_ok.mp done
  obtain ⟨rfl, rfl⟩ := run_fresh_ok done
  refine ⟨⟨(Alloc.le_of_run ran).2, Nat.lt_succ_self _⟩, fun x => ?_, fun p hp => ?_⟩
  · rw [SortedSet.mem_insert, SortedSet.mem_union]
  · exact SortedSet.mem_union.mp (SortedSet.mem_filter.mp hp).1

theorem widen_ok {s t : Node W} (done : (analysis config A).widen s = .ok t) :
    t.SamePlace s := by
  cases widening : config.widening with
  | passThrough =>
    simp only [analysis, widening] at done
    cases done
    exact .refl s
  | delegate =>
    simp only [analysis, widening] at done
    obtain ⟨inner, -, rfl⟩ := except_map_ok done
    exact ⟨rfl, rfl, rfl⟩

variable (config A)

theorem numbered_invariant (program : Program) (merges widens : Prop) :
    (analysis config A).Invariant program merges widens Numbered where
  grows h later := h.grows later
  initial done _ hn := (initial_born done).numbered hn
  succ _ done _ hn := (succ_born done).numbered hn
  merge _ _ _ _ _ _ hs ht _ done := by
    have later := Alloc.le_of_run done
    exact (merge_unites done).numbered (hs.grows later) (ht.grows later)
  widen _ _ _ _ h done := by
    obtain ⟨id, -, mergeOf⟩ := widen_ok done
    unfold Numbered
    rw [id, mergeOf]
    exact h

def Apart (n r : Node W) : Prop := n.id ∉ r.mergeOf

theorem separates : (analysis config A).Separates Numbered Apart where
  succ h done n hn member := by
    have low := ((succ_born done).drawn n hn).1
    exact absurd (h.2 n.id member) (Nat.not_lt_of_le low)
  distinct done := by
    have born := succ_born done
    refine born.ascending.imp_of_mem fun {a b} ha _ below member => ?_
    exact absurd ((born.own a ha b.id).mp member) (Nat.ne_of_gt below)
  merge h hs ht done member := by
    have unites := merge_unites done
    rcases (unites.members _).mp member with same | inS | inT
    · exact absurd (same ▸ h.1) (Nat.not_lt_of_le unites.drawn.1)
    · exact hs inS
    · exact ht inT
  widen done x := by
    obtain ⟨id, -, mergeOf⟩ := widen_ok done
    unfold Apart
    rw [id, mergeOf]
    exact ⟨fun h => h, fun h => h⟩

theorem stop_of_apart {config : GraphConfig} {A : Analysis W} {s : Node W} {l : List (Node W)}
    (new : ∀ r ∈ l, s.Apart r) (stop : (analysis config A).stop s l = true) :
    A.stop s.inner (l.map Node.inner) = true := by
  rcases Bool.or_eq_true_iff.mp stop with merged | covered
  · obtain ⟨r, hr, member⟩ := List.any_eq_true.mp merged
    exact absurd (of_decide_eq_true member) (new r hr)
  · exact covered

end Layer
end Node
end ActorAnalysis
