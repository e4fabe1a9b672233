import ActorAnalysis.Proofs.Run.Loop

namespace ActorAnalysis

variable {S : Type} [DecidableEq S] [Hashable S]

structure Lookup (S : Type) [BEq S] [Hashable S] where
  state : S
  reached : Reached S

namespace Analysis

/-- The treatment of successors, one after the other, and how each of them was looked up. -/
inductive Treated (A : Analysis S) (config : RunConfig) (start : Progress S) (first : Space S) :
    List S → List (Lookup S) → Progress S → Space S → Prop where
  | none : Treated A config start first [] [] start first
  | next {out : List S} {looked : List (Lookup S)} {p q : Progress S} {mid after : Space S}
      {t s : S} : Treated A config start first out looked p mid → A.Widens config t s →
      (A.visit config p t).on mid = (.ok q, after) →
      Treated A config start first (out ++ [t]) (looked ++ [⟨s, mid.reached⟩]) q after

def Expands (A : Analysis S) (config : RunConfig) (n : Statistics) (before : Space S) (s : S)
    (out : List S) (looked : List (Lookup S)) (p : Progress S) (after : Space S) : Prop :=
  ∃ popped ids, A.Selects config n before s popped ∧ (A.succ s).run popped.ids = (.ok out, ids) ∧
    A.Treated config ⟨{ n with iterations := n.iterations + 1 }, []⟩ (popped.withIds ids) out looked
      p after

/-- The points that a run comes by: its start, and behind each expansion that finds no violation. -/
inductive Passes (A : Analysis S) (config : RunConfig) (space : Space S) :
    Statistics → Space S → Prop where
  | start : Passes A config space {} space
  | next {n m : Statistics} {before after : Space S} {s : S} {out : List S}
      {looked : List (Lookup S)} : Passes A config space n before →
      A.Expands config n before s out looked ⟨m, []⟩ after → Passes A config space m after

/-- Some of the successors `out` have been treated, and those in `pending` have not. -/
def Treating (A : Analysis S) (config : RunConfig) (start : Progress S) (s : S) (popped : Space S)
    (out pending : List S) (p : Progress S) (space : Space S) : Prop :=
  ∃ ids done looked, (A.succ s).run popped.ids = (.ok out, ids) ∧ out = done ++ pending ∧
    A.Treated config start (popped.withIds ids) done looked p space

/-- A run from `space` on treats the successor `t`, with the progress and the space that it has come
to by then. -/
def Treats (A : Analysis S) (config : RunConfig) (space : Space S) (p : Progress S) (t : S)
    (now : Space S) : Prop :=
  ∃ n before s popped out rest, A.Passes config space n before ∧
    A.Selects config n before s popped ∧
    A.Treating config ⟨{ n with iterations := n.iterations + 1 }, []⟩ s popped out (t :: rest) p now

/-- The treatment of the successor `t` merges it with reached states into `m`. -/
def VisitMerges (A : Analysis S) (config : RunConfig) (p : Progress S) (t : S) (space : Space S)
    (m : S) : Prop :=
  ∃ s absorbed ids, A.Widens config t s ∧
    A.stop s (space.reached.partitionOf (A.keys s)) = false ∧
    ((A.target s).isEmpty = true ∨ config.stopOnFirstTarget = false) ∧ p.targets = [] ∧
    A.policy = .standard ∧ absorbed ≠ [] ∧
    (A.absorb s (A.candidates s (space.add s (A.keys s)))).run space.ids = (.ok (m, absorbed), ids)

/-- A run from `space` on makes `m` by a merge. -/
def RunMerges (A : Analysis S) (config : RunConfig) (space : Space S) (m : S) : Prop :=
  ∃ p t now, A.Treats config space p t now ∧ A.VisitMerges config p t now m

variable {A : Analysis S} {config : RunConfig}

theorem visit_treating {start : Progress S} {s : S} {popped : Space S} (out : List S)
    (p : Progress S) (t : S) (rest : List S) :
    Explore.Contract (A.Treating config start s popped out (t :: rest) p) (A.visit config p t)
      (A.Treating config start s popped out rest) (fun _ => True) := by
  rintro space ⟨ids, treatedBefore, looked, ran, all, treated⟩
  have visited := A.visit_visited config p t space
  cases done : (A.visit config p t).on space with | mk r after =>
  have next {q : Progress S} {u : S} (wide : A.Widens config t u)
      (ended : (A.visit config p t).on space = (.ok q, after)) :
      A.Treating config start s popped out rest q after :=
    ⟨ids, treatedBefore ++ [t], _, ran, by simp [all], treated.next wide ended⟩
  rw [done] at visited
  cases visited with
  | failed | unmerged => trivial
  | covered _ wide | target _ wide | pending _ wide | merging _ wide => exact next wide done

theorem expand_expands {n : Statistics} {before popped : Space S} {s : S}
    (selects : A.Selects config n before s popped) :
    Explore.Contract (fun space => space = popped)
      (A.expand config { n with iterations := n.iterations + 1 } s)
      (fun p space => ∃ out looked, A.Expands config n before s out looked p space)
      (fun _ => True) := by
  have steps : Explore.Contract (fun space => space = popped)
      (A.expand config { n with iterations := n.iterations + 1 } s)
      (fun p space => ∃ out, A.Treating config ⟨{ n with iterations := n.iterations + 1 }, []⟩ s
        popped out [] p space) (fun _ => True) :=
    expand_contract _ (A.Treating config _ s popped) (fun _ _ _ => trivial)
      (fun _ ids ran => ⟨ids, [], [], ran, rfl, .none⟩) visit_treating
  refine steps.weaken ?_
  rintro p space ⟨out, ids, done, looked, ran, all, treated⟩
  obtain rfl : out = done := by simpa using all
  exact ⟨out, looked, popped, ids, selects, ran, treated⟩

end Analysis
end ActorAnalysis
