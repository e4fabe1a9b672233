import ActorAnalysis.Program.Operation

namespace ActorAnalysis

structure Behaviour (C : Type) where
  start : C → Prop
  next : C → C → Prop
  violates : C → Property → Prop

namespace Behaviour

variable {C : Type}

inductive Reaches (B : Behaviour C) : C → Prop where
  | start {c : C} : B.start c → Reaches B c
  | next {c d : C} : Reaches B c → B.next c d → Reaches B d

/-- Every way on from a state comes to a state with `P`, and before that only properties in
`known` are violated. -/
inductive Caught (B : Behaviour C) (known : Property → Prop) (P : C → Prop) : C → Prop where
  | here {c : C} : P c → Caught B known P c
  | later {c : C} : (∀ p, B.violates c p → known p) →
      (∀ d, B.next c d → Caught B known P d) → Caught B known P c

theorem Caught.mono {B : Behaviour C} {known known' : Property → Prop} {P P' : C → Prop} {c : C}
    (weaker : ∀ p, known p → known' p) (wider : ∀ c, P c → P' c) (caught : B.Caught known P c) :
    B.Caught known' P' c := by
  induction caught with
  | here h => exact .here (wider _ h)
  | later quiet _ ih => exact .later (fun p violated => weaker p (quiet p violated)) ih

/-- If all ways on from states with `P` come to such states again, so do all ways from the
start. -/
theorem Reaches.caught {B : Behaviour C} {known : Property → Prop} {P : C → Prop}
    (starts : ∀ c, B.start c → P c)
    (closed : ∀ c d, P c → B.next c d → B.Caught known P d) {c : C} (reaches : B.Reaches c) :
    B.Caught known P c := by
  induction reaches with
  | start h => exact .here (starts _ h)
  | next _ step ih =>
    cases ih with
    | here h => exact closed _ _ h step
    | later _ ahead => exact ahead _ step

end Behaviour

end ActorAnalysis
