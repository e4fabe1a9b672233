import ActorAnalysis.Proofs.Graph.Interleaving
import ActorAnalysis.Proofs.Stack.Coverage

/-! Merging many states, in any order. What a sequence of merges gives in the end can be told from
its members, layer by layer, and from the numbers that the merges draw; these depend on how many
there are. So the order does not matter, and neither does the state that absorbs the others. -/
namespace ActorAnalysis

def DataState.IsJoin (l : List DataState) (m : DataState) : Prop :=
  ∀ u, m.included u = true ↔ ∀ s ∈ l, s.included u = true

namespace DataState

variable {l l' : List DataState} {m m' : DataState}

theorem isJoin_self (s : DataState) : IsJoin [s] s := by
  intro u
  simp

theorem IsJoin.join (join : IsJoin l m) (t : DataState) : IsJoin (l ++ [t]) (m.join t) := by
  intro u
  rw [join_included, join u]
  simp [or_imp, forall_and]

theorem IsJoin.unique (join : IsJoin l m) (join' : IsJoin l' m') (same : ∀ s, s ∈ l ↔ s ∈ l') :
    m = m' := by
  have bound : ∀ s ∈ l, s.included m' = true := fun s hs =>
    (join' m').mp (included_refl m') s ((same s).mp hs)
  have bound' : ∀ s ∈ l', s.included m = true := fun s hs =>
    (join m).mp (included_refl m) s ((same s).mpr hs)
  exact included_antisymm ((join m').mpr bound) ((join' m).mpr bound')

end DataState

namespace SortedSet

variable {α S : Type} [LT α] {part : S → SortedSet α} {l l' : List S} {u u' : SortedSet α}

def IsUnion (part : S → SortedSet α) (l : List S) (u : SortedSet α) : Prop :=
  ∀ a, a ∈ u ↔ ∃ s ∈ l, a ∈ part s

theorem isUnion_self (s : S) : IsUnion part [s] (part s) := by
  intro a
  simp

theorem IsUnion.union [DecidableLT α] [TotalLT α] (union : IsUnion part l u) (t : S) :
    IsUnion part (l ++ [t]) (u.union (part t)) := by
  intro a
  rw [mem_union, union a]
  simp [or_and_right, exists_or]

theorem IsUnion.unique [TotalLT α] (union : IsUnion part l u) (union' : IsUnion part l' u')
    (same : ∀ s, s ∈ l ↔ s ∈ l') : u = u' := by
  apply ext
  intro a
  rw [union a, union' a]
  simp only [same]

end SortedSet

namespace Scheduled

structure Collects (l : List (Scheduled DataState)) (m : Scheduled DataState) : Prop where
  threads : ∀ s ∈ l, s.threads = m.threads
  stepped : SortedSet.IsUnion Scheduled.stepped l m.stepped
  violated : SortedSet.IsUnion Scheduled.violated l m.violated
  data : DataState.IsJoin (l.map Scheduled.data) m.data

variable {l l' : List (Scheduled DataState)} {m m' t : Scheduled DataState}

theorem collects_self (s : Scheduled DataState) : Collects [s] s where
  threads := by simp
  stepped := SortedSet.isUnion_self s
  violated := SortedSet.isUnion_self s
  data := DataState.isJoin_self s.data

theorem Collects.combine (collects : Collects l m) (same : m.threads = t.threads) :
    Collects (l ++ [t]) (m.combine t (m.data.join t.data)) where
  threads := List.forall_mem_append.mpr ⟨collects.threads, List.forall_mem_singleton.mpr same.symm⟩
  stepped := collects.stepped.union t
  violated := collects.violated.union t
  data := by
    rw [List.map_append]
    exact collects.data.join t.data

theorem Collects.unique (collects : Collects l m) (collects' : Collects l' m') (some : l ≠ [])
    (same : l.Perm l') : m = m' := by
  obtain ⟨s, hs⟩ := List.exists_mem_of_ne_nil l some
  have threads : m.threads = m'.threads :=
    (collects.threads s hs).symm.trans (collects'.threads s (same.mem_iff.mp hs))
  have stepped := collects.stepped.unique collects'.stepped fun _ => same.mem_iff
  have violated := collects.violated.unique collects'.violated fun _ => same.mem_iff
  have data : m.data = m'.data :=
    collects.data.unique collects'.data fun d => (same.map Scheduled.data).mem_iff
  cases m
  cases m'
  simp_all

end Scheduled

namespace Profile

/-- What profiles of the same length are merged to: the latest time stamps. -/
structure Collects (l : List Profile) (p : Profile) : Prop where
  length : ∀ q ∈ l, q.length = p.length
  latest : ∀ i t : Nat, p[i]? = some t ↔
    (∃ q ∈ l, q[i]? = some t) ∧ ∀ q ∈ l, ∀ u, q[i]? = some u → u ≤ t

variable {l l' : List Profile} {p p' q : Profile}

theorem collects_self (p : Profile) : Collects [p] p where
  length := by simp
  latest i t := by
    simp only [List.mem_singleton, exists_eq_left, forall_eq]
    constructor
    · intro found
      refine ⟨found, fun u same => ?_⟩
      exact Nat.le_of_eq (Option.some.inj (same.symm.trans found))
    · exact And.left

theorem merge_eq_zipWith (same : p.length = q.length) : p.merge q = List.zipWith max p q := by
  induction p generalizing q with
  | nil =>
    rw [List.eq_nil_of_length_eq_zero same.symm]
    rfl
  | cons a p ih =>
    cases q with
    | nil => simp at same
    | cons b q =>
      rw [merge, List.zipWith_cons_cons, ih (Nat.succ.inj same)]

theorem getElem?_merge (same : p.length = q.length) {i t : Nat} :
    (p.merge q)[i]? = some t ↔ ∃ a b, p[i]? = some a ∧ q[i]? = some b ∧ max a b = t := by
  rw [merge_eq_zipWith same, List.getElem?_zipWith_eq_some]

theorem length_merge (same : p.length = q.length) : (p.merge q).length = p.length := by
  rw [merge_eq_zipWith same, List.length_zipWith, same, Nat.min_self]

theorem Collects.length_append (collects : Collects l p) (same : p.length = q.length) :
    ∀ r ∈ l ++ [q], r.length = p.length :=
  List.forall_mem_append.mpr ⟨collects.length, List.forall_mem_singleton.mpr same.symm⟩

theorem Collects.merge (collects : Collects l p) (same : p.length = q.length) :
    Collects (l ++ [q]) (p.merge q) where
  length := by
    rw [length_merge same]
    exact collects.length_append same
  latest i t := by
    rw [getElem?_merge same]
    constructor
    · rintro ⟨a, b, ha, hb, rfl⟩
      obtain ⟨⟨r, hr, found⟩, latest⟩ := (collects.latest i a).mp ha
      constructor
      · rcases Nat.le_total a b with le | le
        · exact ⟨q, by simp, by rw [hb, Nat.max_eq_right le]⟩
        · exact ⟨r, by simp [hr], by rw [found, Nat.max_eq_left le]⟩
      · intro r hr u held
        rcases List.mem_append.mp hr with hr | hr
        · exact Nat.le_trans (latest r hr u held) (Nat.le_max_left a b)
        · rw [List.mem_singleton.mp hr, hb] at held
          exact Option.some.inj held ▸ Nat.le_max_right a b
    · rintro ⟨⟨r, hr, found⟩, latest⟩
      have inside : i < p.length :=
        collects.length_append same r hr ▸ (List.getElem?_eq_some_iff.mp found).1
      obtain ⟨a, ha⟩ : ∃ a, p[i]? = some a := ⟨_, List.getElem?_eq_getElem inside⟩
      obtain ⟨b, hb⟩ : ∃ b, q[i]? = some b := ⟨_, List.getElem?_eq_getElem (same ▸ inside)⟩
      obtain ⟨⟨r', hr', found'⟩, latest'⟩ := (collects.latest i a).mp ha
      have left : a ≤ t := latest r' (by simp [hr']) a found'
      have right : b ≤ t := latest q (by simp) b hb
      have attained : t = b ∨ t ≤ a := by
        rcases List.mem_append.mp hr with hr | hr
        · exact .inr (latest' r hr t found)
        · rw [List.mem_singleton.mp hr, hb] at found
          exact .inl (Option.some.inj found).symm
      exact ⟨a, b, ha, hb, by omega⟩

theorem Collects.unique (collects : Collects l p) (collects' : Collects l' p')
    (same : l.Perm l') : p = p' := by
  apply List.ext_getElem?
  intro i
  apply Option.ext
  intro t
  rw [collects.latest, collects'.latest]
  simp only [same.mem_iff]

end Profile

namespace Node

variable {W : Type}

/-- What nodes are merged to: it inherits their edges, but not those from nodes merged away, and
their numbers. The merges have drawn one number each. -/
structure Collects (A : Analysis W) (number : Nat → NodeId) (l : List (Node W)) (m : Node W) :
    Prop where
  predecessors : ∀ p, p ∈ m.predecessors ↔
    (∃ n ∈ l, p ∈ n.predecessors) ∧ ∀ n ∈ l, p ∉ n.mergeOf
  mergeOf : ∀ x, x ∈ m.mergeOf ↔
    (∃ n ∈ l, x ∈ n.mergeOf) ∨ ∃ i, i + 1 < l.length ∧ x = number i
  id : l = [m] ∨ ∃ i, i + 2 = l.length ∧ m.id = number i
  keys : m.keys = A.keys m.inner

variable {A : Analysis W} {number : Nat → NodeId} {l l' : List (Node W)} {m m' n t : Node W}

theorem collects_self (apart : ∀ p ∈ n.predecessors, p ∉ n.mergeOf)
    (keys : n.keys = A.keys n.inner) : Collects A number [n] n where
  predecessors p := by
    simp only [List.mem_singleton, exists_eq_left, forall_eq]
    exact ⟨fun hp => ⟨hp, apart p hp⟩, And.left⟩
  mergeOf x := by simp
  id := .inl rfl
  keys := keys

theorem exists_number_succ {x : NodeId} {n : Nat} (some : 0 < n) :
    (∃ i, i + 1 < n + 1 ∧ x = number i) ↔
      (∃ i, i + 1 < n ∧ x = number i) ∨ x = number (n - 1) := by
  constructor
  · rintro ⟨i, bound, same⟩
    by_cases last : i = n - 1
    · exact .inr (last ▸ same)
    · exact .inl ⟨i, by omega, same⟩
  · rintro (⟨i, bound, same⟩ | same)
    · exact ⟨i, by omega, same⟩
    · exact ⟨n - 1, by omega, same⟩

theorem Collects.combine (collects : Collects A number l m) (some : l ≠ []) (ids : Ids) (inner : W)
    (old : ∀ n ∈ l ++ [t], ∀ p ∈ n.predecessors, p < ids.nodes ∧ ∀ i, p ≠ number i)
    (next : ids.nodes = number (l.length - 1)) :
    ∃ u, (Node.combine A m t inner).run ids = (.ok u, { ids with nodes := ids.nodes + 1 }) ∧
      u.inner = inner ∧ Collects A number (l ++ [t]) u := by
  have inherited (p : NodeId) (hp : p ∈ m.predecessors) : p < ids.nodes := by
    obtain ⟨⟨n, hn, hp⟩, -⟩ := (collects.predecessors p).mp hp
    exact (old n (List.mem_append_left _ hn) p hp).1
  have drawn : ∀ p ∈ (m.predecessors.union t.predecessors).filter
      (fun p => decide (p ∉ m.mergeOf.union t.mergeOf)), p < ids.nodes := by
    intro p hp
    rcases SortedSet.mem_union.mp (SortedSet.mem_filter.mp hp).1 with hp | hp
    · exact inherited p hp
    · exact (old t (by simp) p hp).1
  refine ⟨_, run_fresh (A := A) (m.mergeOf.union t.mergeOf) inner drawn, rfl, ?_⟩
  constructor
  case predecessors =>
    intro p
    -- an edge comes from an older node, so none is dropped for the numbers drawn since
    have foreign (hp : (∃ n ∈ l, p ∈ n.predecessors) ∨ p ∈ t.predecessors) :
        ¬∃ i, i + 1 < l.length ∧ p = number i := by
      rintro ⟨i, -, same⟩
      rcases hp with ⟨n, hn, hp⟩ | hp
      · exact (old n (List.mem_append_left _ hn) p hp).2 i same
      · exact (old t (by simp) p hp).2 i same
    simp only [SortedSet.mem_filter, SortedSet.mem_union, collects.predecessors, collects.mergeOf,
      decide_eq_true_eq, List.mem_append, List.mem_singleton, or_and_right, exists_or,
      exists_eq_left, or_imp, forall_and, forall_eq, not_or]
    grind
  case mergeOf =>
    intro x
    simp only [SortedSet.mem_insert, SortedSet.mem_union, collects.mergeOf, next, List.mem_append,
      List.mem_singleton, or_and_right, exists_or, exists_eq_left, List.length_append,
      List.length_singleton]
    rw [exists_number_succ (List.length_pos_iff.mpr some)]
    grind
  case id =>
    have long : 0 < l.length := List.length_pos_iff.mpr some
    exact .inr ⟨l.length - 1, by rw [List.length_append, List.length_singleton]; omega, next⟩
  case keys => rfl

theorem Collects.unique (collects : Collects A number l m) (collects' : Collects A number l' m')
    (same : l.Perm l') (inner : m.inner = m'.inner) : m = m' := by
  have id : m.id = m'.id := by
    have long := same.length_eq
    rcases collects.id with alone | ⟨i, hi, id⟩
    · subst alone
      rcases collects'.id with alone | ⟨i, hi, -⟩
      · subst alone
        rw [List.singleton_perm_singleton.mp same]
      · rw [← long] at hi
        exact absurd hi (by simp)
    · rcases collects'.id with alone | ⟨i', hi', id'⟩
      · rw [long, alone] at hi
        exact absurd hi (by simp)
      · rw [id, id']
        congr 1
        omega
  have predecessors : m.predecessors = m'.predecessors := SortedSet.ext fun p => by
    rw [collects.predecessors, collects'.predecessors]
    simp only [same.mem_iff]
  have mergeOf : m.mergeOf = m'.mergeOf := SortedSet.ext fun x => by
    rw [collects.mergeOf, collects'.mergeOf]
    simp only [same.mem_iff, same.length_eq]
  have keys : m.keys = m'.keys := by rw [collects.keys, collects'.keys, inner]
  cases m
  cases m'
  simp_all

end Node

/-- What states have been merged to is told by `collects`. Each merge draws `graphs` numbers; those
of a sequence of merges follow each other from `start` on, at a distance of `stride`. -/
structure Analysis.Accumulates {S : Type} (A : Analysis S) (graphs : Nat)
    (drawn : Ids → S → Prop) (collects : Nat → Nat → List S → S → Prop) : Prop where
  merge : ∀ {base ids stride l s t}, collects base.nodes stride l s → l ≠ [] →
    (∀ n ∈ l ++ [t], drawn base n) → A.shouldMerge s t = true →
    ids.nodes = base.nodes + (l.length - 1) * stride →
    ∃ m, (A.merge s t).run ids = (.ok m, ⟨ids.threads, ids.nodes + graphs⟩) ∧
      collects base.nodes stride (l ++ [t]) m
  unique : ∀ {start stride l l' m m'}, collects start stride l m → collects start stride l' m' →
    l ≠ [] → l.Perm l' → m = m'
  alike : ∀ {start stride l m s}, collects start stride l m → s ∈ l → ∀ t,
    A.shouldMerge m t = A.shouldMerge s t
  comm : ∀ s t, A.shouldMerge s t = A.shouldMerge t s

namespace Analysis.Accumulates

variable {S : Type} {A : Analysis S} {graphs : Nat} {drawn : Ids → S → Prop}
  {collects : Nat → Nat → List S → S → Prop} (accumulates : A.Accumulates graphs drawn collects)
include accumulates

theorem merge_held {O : Type} {view : O → S} {base ids : Ids} {stride : Nat} {l : List O} {s t : O}
    (held : collects base.nodes stride (l.map view) (view s)) (some : l ≠ [])
    (old : ∀ o ∈ l ++ [t], drawn base (view o))
    (should : A.shouldMerge (view s) (view t) = true)
    (next : ids.nodes = base.nodes + (l.length - 1) * stride) :
    ∃ m, (A.merge (view s) (view t)).run ids = (.ok m, ⟨ids.threads, ids.nodes + graphs⟩) ∧
      collects base.nodes stride ((l ++ [t]).map view) m := by
  have older : ∀ w ∈ l.map view ++ [view t], drawn base w := by
    rw [← List.map_singleton, ← List.map_append]
    exact List.forall_mem_map.mpr old
  rw [List.map_append]
  apply accumulates.merge held (mt List.map_eq_nil_iff.mp some) older should
  rw [List.length_map, next]

/-- A whole sequence of merges, and the same as an absorption, which asks before each merge. -/
theorem fold {base ids : Ids} {l rest : List S} {s : S} (held : collects base.nodes graphs l s)
    (some : l ≠ []) (old : ∀ n ∈ l ++ rest, drawn base n)
    (should : ∀ t ∈ rest, A.shouldMerge s t = true)
    (next : ids.nodes = base.nodes + (l.length - 1) * graphs) :
    ∃ m, (rest.foldlM A.merge s).run ids =
        (.ok m, ⟨ids.threads, ids.nodes + rest.length * graphs⟩) ∧
      (A.absorb s rest).run ids =
        (.ok (m, rest), ⟨ids.threads, ids.nodes + rest.length * graphs⟩) ∧
      collects base.nodes graphs (l ++ rest) m := by
  induction rest generalizing l s ids with
  | nil =>
    rw [List.append_nil, List.length_nil, Nat.zero_mul]
    exact ⟨s, rfl, rfl, held⟩
  | cons t rest ih =>
    have first := should t List.mem_cons_self
    have members : ∀ n ∈ l ++ [t], n ∈ l ++ t :: rest := by
      intro n hn
      rw [List.append_cons]
      exact List.mem_append_left rest hn
    obtain ⟨m, ran, merged⟩ :=
      accumulates.merge held some (fun n hn => old n (members n hn)) first next
    have others : ∀ u ∈ rest, A.shouldMerge m u = true := by
      intro u hu
      obtain ⟨x, hx⟩ := List.exists_mem_of_ne_nil l some
      rw [accumulates.alike merged (List.mem_append_left [t] hx), ← accumulates.alike held hx]
      exact should u (List.mem_cons_of_mem t hu)
    have step : (Ids.mk ids.threads (ids.nodes + graphs)).nodes =
        base.nodes + ((l ++ [t]).length - 1) * graphs := by
      obtain ⟨n, long⟩ := Nat.exists_eq_add_one_of_ne_zero (mt List.eq_nil_of_length_eq_zero some)
      rw [next, List.length_append, long]
      simp [Nat.add_mul, Nat.add_assoc]
    obtain ⟨last, folds, absorbs, final⟩ := ih merged (by simp) (by simpa using old) others step
    have count : ids.nodes + graphs + rest.length * graphs =
        ids.nodes + (t :: rest).length * graphs := by
      rw [List.length_cons, Nat.succ_mul, Nat.add_comm (rest.length * graphs), Nat.add_assoc]
    rw [count] at folds absorbs
    refine ⟨last, ?_, ?_, by simpa using final⟩
    · rw [List.foldlM_cons]
      exact Alloc.run_bind_ok.mpr ⟨m, _, ran, folds⟩
    · unfold Analysis.absorb
      rw [if_pos first]
      exact Alloc.run_bind_ok.mpr ⟨m, _, ran, Alloc.run_bind_ok.mpr ⟨_, _, absorbs, rfl⟩⟩

/-- One order fixes the result. Every other order has one as well, which the same members tell. -/
theorem any_order {now : Ids} {members : List S} (some : members ≠ [])
    (alone : ∀ s ∈ members, collects now.nodes graphs [s] s)
    (old : ∀ s ∈ members, drawn now s)
    (mergeable : members.Pairwise fun s t => A.shouldMerge s t = true) :
    ∃ m, collects now.nodes graphs members m ∧ ∀ first rest, (first :: rest).Perm members →
      (rest.foldlM A.merge first).run now =
        (.ok m, ⟨now.threads, now.nodes + rest.length * graphs⟩) ∧
      (A.absorb first rest).run now =
        (.ok (m, rest), ⟨now.threads, now.nodes + rest.length * graphs⟩) := by
  have ordered (first : S) (rest : List S) (same : (first :: rest).Perm members) :
      ∃ m, (rest.foldlM A.merge first).run now =
          (.ok m, ⟨now.threads, now.nodes + rest.length * graphs⟩) ∧
        (A.absorb first rest).run now =
          (.ok (m, rest), ⟨now.threads, now.nodes + rest.length * graphs⟩) ∧
        collects now.nodes graphs ([first] ++ rest) m := by
    have pairs := (same.pairwise_iff fun {s t} h => accumulates.comm s t ▸ h).mpr mergeable
    apply accumulates.fold (alone first (same.mem_iff.mp List.mem_cons_self)) (by simp)
    · exact fun n hn => old n (same.mem_iff.mp hn)
    · exact (List.pairwise_cons.mp pairs).1
    · simp
  obtain ⟨first, rest, rfl⟩ := List.exists_cons_of_ne_nil some
  obtain ⟨m, -, -, held⟩ := ordered first rest (.refl _)
  refine ⟨m, held, fun first' rest' same => ?_⟩
  obtain ⟨m', folds, absorbs, held'⟩ := ordered first' rest' same
  obtain rfl : m = m' := accumulates.unique held held' some same.symm
  exact ⟨folds, absorbs⟩

end Analysis.Accumulates

theorem DataState.accumulates (config : DataConfig) :
    (DataState.analysis config).Accumulates 0 (fun _ _ => True) (fun _ _ => IsJoin) where
  merge {_ _ _ _ s t} join _ _ _ _ := ⟨s.join t, rfl, join.join t⟩
  unique join join' _ same := join.unique join' fun _ => same.mem_iff
  alike _ _ _ := rfl
  comm _ _ := rfl

theorem Scheduled.accumulates {program : Program} {config : ScheduleConfig}
    {key : List Thread → PartitionKey} (data : DataConfig) :
    (analysis program config key (DataState.analysis data)).Accumulates 0 (fun _ _ => True)
      (fun _ _ => Collects) where
  merge := by
    intro base ids stride l s t collects _ _ should _
    have same : s.threads = t.threads := of_decide_eq_true (Bool.and_eq_true_iff.mp should).1
    refine ⟨s.combine t (s.data.join t.data), ?_, collects.combine same⟩
    simp only [analysis, if_pos same]
    rfl
  unique := Collects.unique
  alike collects member t := by
    simp only [analysis, collects.threads _ member]
    rfl
  comm s t := by
    simp only [analysis, eq_comm]
    rfl

theorem Node.accumulates {W : Type} {A : Analysis W} {graphs : Nat} {drawn : Ids → W → Prop}
    {collects : Nat → Nat → List W → W → Prop} (config : GraphConfig)
    (inner : A.Accumulates graphs drawn collects) :
    (analysis config A).Accumulates (graphs + 1)
      (fun ids n => (∀ p ∈ n.predecessors, p < ids.nodes) ∧ drawn ids n.inner)
      (fun start stride l m => Collects A (fun i => start + i * stride + graphs) l m ∧
        collects start stride (l.map Node.inner) m.inner) where
  merge := by
    rintro base ids stride l m t ⟨own, held⟩ some old should next
    obtain ⟨w, ran, above⟩ := inner.merge_held held some (fun n hn => (old n hn).2) should next
    -- the graphs below have drawn their numbers before
    have early : ∀ n ∈ l ++ [t], ∀ p ∈ n.predecessors,
        p < ids.nodes + graphs ∧ ∀ i, p ≠ base.nodes + i * stride + graphs := by
      intro n hn p hp
      have before : p < base.nodes := (old n hn).1 p hp
      constructor
      · rw [next, Nat.add_assoc]
        exact Nat.lt_add_right _ before
      · intro i
        rw [Nat.add_assoc]
        exact Nat.ne_of_lt (Nat.lt_add_right _ before)
    have number : ids.nodes + graphs = base.nodes + (l.length - 1) * stride + graphs := by rw [next]
    obtain ⟨u, made, rfl, united⟩ :=
      own.combine some ⟨ids.threads, ids.nodes + graphs⟩ w early number
    exact ⟨u, Alloc.run_bind_ok.mpr ⟨_, _, ran, made⟩, united, above⟩
  unique := by
    rintro start stride l l' m m' ⟨own, held⟩ ⟨own', held'⟩ some same
    apply own.unique own' same
    exact inner.unique held held' (mt List.map_eq_nil_iff.mp some) (same.map Node.inner)
  alike collects member t := inner.alike collects.2 (List.mem_map_of_mem member) t.inner
  comm m n := inner.comm m.inner n.inner

theorem Timed.accumulates {W : Type} {A : Analysis W} {graphs : Nat} {drawn : Ids → W → Prop}
    {collects : Nat → Nat → List W → W → Prop} (config : TimeConfig)
    (inner : A.Accumulates graphs drawn collects) :
    (analysis config A).Accumulates graphs (fun ids s => drawn ids s.inner)
      (fun start stride l m => Profile.Collects (l.map Timed.profile) m.profile ∧
        collects start stride (l.map Timed.inner) m.inner) where
  merge := by
    rintro base ids stride l s t ⟨own, held⟩ some old should next
    obtain ⟨long, should⟩ := Bool.and_eq_true_iff.mp should
    obtain ⟨w, ran, above⟩ := inner.merge_held held some old should next
    refine ⟨⟨s.profile.merge t.profile, w⟩, Alloc.run_bind_ok.mpr ⟨w, _, ran, rfl⟩, ?_, above⟩
    rw [List.map_append]
    exact own.merge (of_decide_eq_true long)
  unique := by
    rintro start stride l l' m m' ⟨own, held⟩ ⟨own', held'⟩ some same
    have profile := own.unique own' (same.map Timed.profile)
    have below := inner.unique held held' (mt List.map_eq_nil_iff.mp some) (same.map Timed.inner)
    cases m
    cases m'
    simp_all
  alike := by
    intro start stride l m s collects member t
    have long : s.profile.length = m.profile.length :=
      collects.1.length s.profile (List.mem_map_of_mem member)
    have below := inner.alike collects.2 (List.mem_map_of_mem member) t.inner
    simp only [analysis, long, below]
  comm s t := by
    simp only [analysis, inner.comm s.inner t.inner, eq_comm]

/-- A layer makes of its states what the analysis below makes of the states that they hold; so what
is kept below is kept in the layer. -/
theorem Analysis.Lifts.makes {O S : Type} {A : Analysis O} {I : Analysis S} {view : O → S}
    (lifts : A.Lifts I view) (inv : Ids → S → Prop)
    (grows : ∀ {ids after s}, inv ids s → ids ≤ after → inv after s)
    (keeps : ∀ {ids operands after u}, (∀ s ∈ operands, inv ids s) →
      I.Makes ids operands after u → inv after u)
    (join : ∀ {s t j ids after}, (A.join s t).run ids = (.ok j, after) →
      ∃ mid, (I.join (view s) (view t)).run ids = (.ok (view j), mid) ∧ mid ≤ after)
    (refine : ∀ {s t}, A.refiner.refine s = .ok (some t) →
      I.refiner.refine (view s) = .ok (some (view t)))
    {ids after : Ids} {operands : List O} {u : O} (old : ∀ s ∈ operands, inv ids (view s))
    (makes : A.Makes ids operands after u) : inv after (view u) := by
  have below : ∀ s ∈ operands.map view, inv ids s := List.forall_mem_map.mpr old
  cases makes with
  | initial done member =>
    obtain ⟨mid, ran, later⟩ := lifts.initial done
    exact grows (keeps below (.initial ran (List.mem_map_of_mem member))) later
  | succ done member =>
    obtain ⟨mid, ran, later⟩ := lifts.succ done
    exact grows (keeps below (.succ ran (List.mem_map_of_mem member))) later
  | combine done =>
    rcases done with done | done
    · obtain ⟨mid, ran, later⟩ := join done
      exact grows (keeps below (.combine (.inl ran))) later
    · obtain ⟨mid, ran, later⟩ := lifts.merge done
      exact grows (keeps below (.combine (.inr ran))) later
  | widen done =>
    rcases lifts.widen done with same | widened
    · exact same ▸ old _ List.mem_cons_self
    · exact keeps below (.widen widened)
  | refine done => exact keeps below (.refine (refine done))

namespace Stack

section Settled

variable {D : Type}

def Settled (ids : Ids) : (k : Stack) → k.State D → Prop
  | data, _ => True
  | scheduled _ _ _, _ => True
  | graph _ below, n => (n.Ordered ∧ n.id < ids.nodes) ∧ below.Settled ids n.inner
  | timed _ below, s => below.Settled ids s.inner

theorem Settled.grows {k : Stack} {ids after : Ids} {s : k.State D} (settled : k.Settled ids s)
    (later : ids ≤ after) : k.Settled after s := by
  induction k with
  | data => trivial
  | scheduled => trivial
  | graph config below ih =>
    obtain ⟨⟨ordered, drawn⟩, inner⟩ := settled
    exact ⟨⟨ordered, Nat.lt_of_lt_of_le drawn later.2⟩, ih inner⟩
  | timed config below ih => exact ih settled

theorem Settled.drawn {k : Stack} {ids : Ids} {s : k.State D} (settled : k.Settled ids s) :
    k.Drawn ids s := by
  induction k with
  | data => trivial
  | scheduled => trivial
  | graph config below ih =>
    obtain ⟨⟨ordered, drawn⟩, inner⟩ := settled
    exact ⟨(ordered.placed drawn).predecessors, ih inner⟩
  | timed config below ih => exact ih settled

theorem settled_of_makes (leaf : DataAnalysis D) (k : Stack) {ids after : Ids}
    {operands : List (k.State D)} {u : k.State D} (old : ∀ s ∈ operands, k.Settled ids s)
    (makes : (k.analysis leaf).Makes ids operands after u) : k.Settled after u := by
  induction k generalizing ids after with
  | data => trivial
  | scheduled => trivial
  | graph config below ih =>
    constructor
    · exact Node.makes_ordered (fun n hn => (old n hn).1) makes
    · exact (Node.lifts config (below.analysis leaf)).makes (fun ids => below.Settled ids)
        Settled.grows ih Node.join_inner Node.refine_inner (fun n hn => (old n hn).2) makes
  | timed config below ih =>
    apply (Timed.lifts config (below.analysis leaf)).makes (fun ids => below.Settled ids)
      Settled.grows ih _ Timed.refine_inner old makes
    exact fun {s t j ids after} done => ⟨after, Timed.join_inner done, Ids.le_refl after⟩

end Settled

/-- The number of graphs in a stack. A merge draws one number for each. -/
def graphs : Stack → Nat
  | data => 0
  | scheduled _ _ _ => 0
  | graph _ below => below.graphs + 1
  | timed _ below => below.graphs

/-- What states are merged to, layer by layer. Numbers are drawn from `start` on, `stride` of them
for each merge; inner graphs come first. -/
def Collects (config : DataConfig) (start stride : Nat) :
    (k : Stack) → List (k.State DataState) → k.State DataState → Prop
  | data, l, m => DataState.IsJoin l m
  | scheduled _ _ _, l, m => Scheduled.Collects l m
  | graph _ below, l, m =>
    Node.Collects (below.valueAnalysis config) (fun i => start + i * stride + below.graphs) l m ∧
      below.Collects config start stride (l.map Node.inner) m.inner
  | timed _ below, l, m => Profile.Collects (l.map Timed.profile) m.profile ∧
      below.Collects config start stride (l.map Timed.inner) m.inner

variable (config : DataConfig)

theorem accumulates (k : Stack) :
    (k.valueAnalysis config).Accumulates k.graphs (fun ids => k.Drawn ids)
      (fun start stride => k.Collects config start stride) := by
  induction k with
  | data => exact DataState.accumulates config
  | scheduled => exact Scheduled.accumulates config
  | graph graph below ih => exact Node.accumulates graph ih
  | timed time below ih => exact Timed.accumulates time ih

theorem collects_self {k : Stack} {ids : Ids} {s : k.State DataState} (settled : k.Settled ids s)
    (honest : k.Honest (DataState.analysis config) s) (start stride : Nat) :
    k.Collects config start stride [s] s := by
  induction k with
  | data => exact DataState.isJoin_self s
  | scheduled => exact Scheduled.collects_self s
  | graph graph below ih =>
    exact ⟨Node.collects_self settled.1.1.apart honest.1, ih settled.2 honest.2⟩
  | timed time below ih => exact ⟨Profile.collects_self s.profile, ih settled honest⟩

/-- States that may be merged with each other are merged to the same state in every order, with the
same numbers, whichever of them absorbs the others. What comes out is told by the members alone, but
for the numbers that the merges have drawn. -/
theorem absorption_order_is_immaterial (k : Stack) {ids now : Ids}
    {made members : List (k.State DataState)}
    (calls : (k.valueAnalysis config).Interleaved ids made) (inside : ∀ s ∈ members, s ∈ made)
    (some : members ≠ [])
    (mergeable : members.Pairwise fun s t => (k.valueAnalysis config).shouldMerge s t = true)
    (later : ids ≤ now) :
    ∃ m, k.Collects config now.nodes k.graphs members m ∧
      ∀ first rest, (first :: rest).Perm members →
        (rest.foldlM (k.valueAnalysis config).merge first).run now =
          (.ok m, ⟨now.threads, now.nodes + rest.length * k.graphs⟩) ∧
        ((k.valueAnalysis config).absorb first rest).run now =
          (.ok (m, rest), ⟨now.threads, now.nodes + rest.length * k.graphs⟩) := by
  have settled : ∀ s ∈ made, k.Settled ids s :=
    calls.rule (fun ids => k.Settled ids) Settled.grows (k.settled_of_makes _)
  have honest (s : k.State DataState) (hs : s ∈ made) : k.Honest (DataState.analysis config) s :=
    k.honest_of_produced _ (calls.produced s hs)
  apply (k.accumulates config).any_order some
  · exact fun s hs => collects_self config (settled s (inside s hs)) (honest s (inside s hs)) _ _
  · exact fun s hs => ((settled s (inside s hs)).grows later).drawn
  · exact mergeable

end Stack

namespace Counter

/-- With the latest time stamp, and the counter is tracked. -/
abbrev layers : Stack :=
  .timed ⟨1⟩ (.graph ⟨.standard, .passThrough⟩ (.scheduled program ⟨false, 1000⟩ List.length))

abbrev tracked : Analysis (layers.State DataState) := layers.valueAnalysis ⟨true, .all⟩

def counted (profile : Profile) (id : NodeId) (predecessors mergeOf : SortedSet NodeId)
    (stepped : SortedSet Nat) (data : DataState) : layers.State DataState :=
  let s : Scheduled DataState := ⟨threads, stepped, ∅, data⟩
  Timed.mk profile
    (Node.mk id predecessors mergeOf s ((forgetful.control List.length program).keys s))

def zero : layers.State DataState := counted [] 0 ∅ (.singleton 0) ∅ (.known (holding 0))

def one : layers.State DataState :=
  counted [1] 1 (.singleton 0) (.singleton 1) (.singleton 0) (.known (holding 1))

def two : layers.State DataState :=
  counted [2] 2 (.singleton 1) (.singleton 2) (.singleton 0) (.known (holding 2))

def three : layers.State DataState :=
  counted [3] 3 (.singleton 2) (.singleton 3) (.singleton 0) (.known (holding 3))

/-- Only the edge from the first state is left, and the counter has many values. -/
def gathered : layers.State DataState :=
  counted [3] 5 (.singleton 0) (.ofList [1, 2, 3, 4, 5]) (.singleton 0) (.known ∅)

theorem counts : tracked.Interleaved ⟨1, 4⟩ [zero, one, two, three] := by
  have start : tracked.Interleaved ⟨1, 1⟩ [zero] :=
    (Analysis.Interleaved.start .start).call (c := .initial program)
      (by simp [Analysis.Call.operands]) rfl
  have once : tracked.Interleaved ⟨1, 2⟩ [zero, one] :=
    start.call (c := .succ zero) (by simp [Analysis.Call.operands]) rfl
  have twice : tracked.Interleaved ⟨1, 3⟩ [zero, one, two] :=
    once.call (c := .succ one) (by simp [Analysis.Call.operands]) rfl
  exact twice.call (c := .succ two) (by simp [Analysis.Call.operands]) rfl

end Counter

/-- The three states are merged one way and the other, with the last one first. -/
theorem Stack.counted_states_merge_either_way :
    Counter.tracked.Interleaved ⟨1, 4⟩ [Counter.zero, Counter.one, Counter.two, Counter.three] ∧
    [Counter.one, Counter.two, Counter.three].Pairwise
      (fun s t => Counter.tracked.shouldMerge s t = true) ∧
    ([Counter.two, Counter.three].foldlM Counter.tracked.merge Counter.one).run ⟨1, 4⟩ =
      (.ok Counter.gathered, ⟨1, 6⟩) ∧
    ([Counter.one, Counter.two].foldlM Counter.tracked.merge Counter.three).run ⟨1, 4⟩ =
      (.ok Counter.gathered, ⟨1, 6⟩) ∧
    Counter.layers.Collects ⟨true, .all⟩ 4 1 [Counter.one, Counter.two, Counter.three]
      Counter.gathered := by
  have mergeable : [Counter.one, Counter.two, Counter.three].Pairwise
      (fun s t => Counter.tracked.shouldMerge s t = true) := by decide
  have inside : ∀ s ∈ [Counter.one, Counter.two, Counter.three],
      s ∈ [Counter.zero, Counter.one, Counter.two, Counter.three] := by simp
  obtain ⟨m, collects, orders⟩ := absorption_order_is_immaterial ⟨true, .all⟩ Counter.layers
    Counter.counts inside (by simp) mergeable (Ids.le_refl _)
  have upward : ([Counter.two, Counter.three].foldlM Counter.tracked.merge Counter.one).run ⟨1, 4⟩ =
      (.ok Counter.gathered, ⟨1, 6⟩) := rfl
  obtain ⟨same, -⟩ := Prod.mk.inj (upward.symm.trans (orders _ _ (.refl _)).1)
  obtain rfl : Counter.gathered = m := Except.ok.inj same
  have rotated : (Counter.three :: [Counter.one, Counter.two]).Perm
      [Counter.one, Counter.two, Counter.three] :=
    (List.perm_append_singleton Counter.three [Counter.one, Counter.two]).symm
  exact ⟨Counter.counts, mergeable, upward, (orders _ _ rotated).1, collects⟩

end ActorAnalysis
