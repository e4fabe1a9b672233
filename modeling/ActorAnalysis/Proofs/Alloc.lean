import ActorAnalysis.Ids
import Mathlib.Data.List.Forall2

namespace ActorAnalysis

namespace Ids

def skip (ids : Ids) (n : Nat) : Ids := { ids with threads := ids.threads + n }

theorem skip_skip (ids : Ids) (n k : Nat) : (ids.skip n).skip k = ids.skip (n + k) := by
  simp [skip, Nat.add_assoc]

end Ids

theorem getElem?_of_forall₂ {α β : Type} {R : α → β → Prop} {l : List α} {l' : List β}
    (pairs : List.Forall₂ R l l') {c : Nat} {a : α} (found : l[c]? = some a) :
    ∃ b, l'[c]? = some b ∧ R a b := by
  obtain ⟨inside, rfl⟩ := List.getElem?_eq_some_iff.mp found
  have inside' : c < l'.length := pairs.length_eq ▸ inside
  exact ⟨l'[c], List.getElem?_eq_getElem inside', pairs.get inside inside'⟩

theorem mem_of_forall₂ {α β : Type} {R : α → β → Prop} {l : List α} {l' : List β}
    (pairs : List.Forall₂ R l l') {a : α} (member : a ∈ l) : ∃ b ∈ l', R a b := by
  obtain ⟨c, found⟩ := List.getElem?_of_mem member
  obtain ⟨b, hb, related⟩ := getElem?_of_forall₂ pairs found
  exact ⟨b, List.mem_of_getElem? hb, related⟩

namespace Alloc

variable {α β : Type}

theorem run_bind_ok {x : Alloc α} {f : α → Alloc β} {ids after : Ids} {b : β} :
    (x >>= f).run ids = (.ok b, after) ↔
      ∃ a mid, x.run ids = (.ok a, mid) ∧ (f a).run mid = (.ok b, after) := by
  rw [run_bind]
  cases h : x.run ids with | mk result mid =>
  cases result with
  | error e => simp
  | ok a =>
    constructor
    · intro done
      exact ⟨a, mid, rfl, done⟩
    · rintro ⟨_, _, same, done⟩
      cases same
      exact done

theorem run_bind_error {x : Alloc α} {f : α → Alloc β} {ids after : Ids} {e : Error}
    (failed : x.run ids = (.error e, after)) : (x >>= f).run ids = (.error e, after) := by
  rw [run_bind, failed, next_error]

theorem error_of_bind {x : Alloc α} {f : α → Alloc β} {ids after : Ids}
    {e : Error} (failed : (x >>= f).run ids = (.error e, after))
    (succeeds : ∀ a mid, x.run ids = (.ok a, mid) → ∃ b last, (f a).run mid = (.ok b, last)) :
    x.run ids = (.error e, after) := by
  cases h : x.run ids with | mk result mid =>
  cases result with
  | error e' =>
    rw [run_bind_error h] at failed
    cases failed
    rfl
  | ok a =>
    obtain ⟨b, last, ran⟩ := succeeds a mid h
    rw [run_bind_ok.mpr ⟨a, mid, h, ran⟩] at failed
    cases failed

theorem run_pure_ok {a b : α} {ids after : Ids} :
    (pure a : Alloc α).run ids = (.ok b, after) ↔ b = a ∧ after = ids := by
  rw [run_pure]
  constructor
  · intro h
    cases h
    exact ⟨rfl, rfl⟩
  · rintro ⟨rfl, rfl⟩
    rfl

theorem run_liftM_ok {r : Except Error α} {a : α} {ids after : Ids} :
    (liftM r : Alloc α).run ids = (.ok a, after) ↔ r = .ok a ∧ after = ids := by
  rw [run_liftM, Prod.mk.injEq]
  exact and_congr_right fun _ => eq_comm

theorem run_liftM_error {r : Except Error α} {ids after : Ids} {e : Error} :
    (liftM r : Alloc α).run ids = (.error e, after) ↔ r = .error e ∧ after = ids := by
  rw [run_liftM, Prod.mk.injEq]
  exact and_congr_right fun _ => eq_comm

theorem run_freshThread_ok {id : ThreadId} {ids after : Ids} :
    freshThread.run ids = (.ok id, after) ↔ id = ids.threads ∧ after = ids.skip 1 := by
  simp only [freshThread, Ids.skip, Prod.mk.injEq, Except.ok.injEq, eq_comm]

theorem le_of_run {x : Alloc α} {ids after : Ids} {r : Except Error α}
    (done : x.run ids = (r, after)) : ids ≤ after := by
  have h := x.grows ids
  rwa [done] at h

/-- Between `ids` and `after`, `x` was run once, and gave `a`. -/
def Gave (x : Alloc α) (ids : Ids) (a : α) (after : Ids) : Prop :=
  ∃ first last, ids ≤ first ∧ last ≤ after ∧ x.run first = (.ok a, last)

theorem Gave.of_run {x : Alloc α} {ids after : Ids} {a : α} (done : x.run ids = (.ok a, after)) :
    x.Gave ids a after := ⟨ids, after, Ids.le_refl ids, Ids.le_refl after, done⟩

theorem Gave.within {x : Alloc α} {ids ids' after after' : Ids} {a : α}
    (gave : x.Gave ids a after) (before : ids' ≤ ids) (later : after ≤ after') :
    x.Gave ids' a after' := by
  obtain ⟨first, last, hfirst, hlast, done⟩ := gave
  exact ⟨first, last, Ids.le_trans before hfirst, Ids.le_trans hlast later, done⟩

/-- The results are those of the elements, one by one, each computed at some point of the run. -/
theorem mapM_each {f : α → Alloc β} {l : List α} {ids after : Ids} {out : List β}
    (done : (l.mapM f).run ids = (.ok out, after)) :
    List.Forall₂ (fun a b => (f a).Gave ids b after) l out := by
  induction l generalizing ids out with
  | nil =>
    obtain ⟨rfl, -⟩ := run_pure_ok.mp done
    exact .nil
  | cons x rest ih =>
    rw [List.mapM_cons, run_bind_ok] at done
    obtain ⟨y, mid, hy, done⟩ := done
    rw [run_bind_ok] at done
    obtain ⟨ys, last, hys, done⟩ := done
    obtain ⟨rfl, rfl⟩ := run_pure_ok.mp done
    have head : (f x).Gave ids y after :=
      (Gave.of_run hy).within (Ids.le_refl ids) (le_of_run hys)
    exact .cons head ((ih hys).imp fun _ _ gave => gave.within (le_of_run hy) (Ids.le_refl after))

theorem mapM_gave {f : α → Alloc β} {l : List α} {ids after : Ids} {out : List β}
    (done : (l.mapM f).run ids = (.ok out, after)) :
    (∀ b ∈ out, ∃ a ∈ l, (f a).Gave ids b after) ∧
      ∀ a ∈ l, ∃ b ∈ out, (f a).Gave ids b after := by
  have each := mapM_each done
  have back : List.Forall₂ (fun b a => (f a).Gave ids b after) out l := List.Forall₂.flip each
  exact ⟨fun b hb => mem_of_forall₂ back hb, fun a ha => mem_of_forall₂ each ha⟩

theorem mapM_succeeds {f : α → Alloc β} {l : List α} {ids : Ids}
    (each : ∀ a ∈ l, ∀ first, ids ≤ first → ∃ b last, (f a).run first = (.ok b, last)) :
    ∃ out after, (l.mapM f).run ids = (.ok out, after) := by
  induction l generalizing ids with
  | nil => exact ⟨[], ids, rfl⟩
  | cons x rest ih =>
    obtain ⟨b, mid, hb⟩ := each x List.mem_cons_self ids (Ids.le_refl ids)
    have tail : ∀ a ∈ rest, ∀ first, mid ≤ first → ∃ b last, (f a).run first = (.ok b, last) :=
      fun a ha first later =>
        each a (List.mem_cons_of_mem x ha) first (Ids.le_trans (le_of_run hb) later)
    obtain ⟨out, after, hout⟩ := ih tail
    refine ⟨b :: out, after, ?_⟩
    rw [List.mapM_cons, run_bind_ok]
    exact ⟨b, mid, hb, run_bind_ok.mpr ⟨out, after, hout, rfl⟩⟩

theorem foldlM_succeeds {f : β → α → Alloc β} {l : List α}
    (each : ∀ a ∈ l, ∀ b ids, ∃ b' after, (f b a).run ids = (.ok b', after)) (b : β) (ids : Ids) :
    ∃ b' after, (l.foldlM f b).run ids = (.ok b', after) := by
  induction l generalizing b ids with
  | nil => exact ⟨b, ids, rfl⟩
  | cons a rest ih =>
    obtain ⟨next, mid, first⟩ := each a List.mem_cons_self b ids
    obtain ⟨b', after, later⟩ := ih (fun x hx => each x (List.mem_cons_of_mem a hx)) next mid
    refine ⟨b', after, ?_⟩
    rw [List.foldlM_cons, run_bind_ok]
    exact ⟨next, mid, first, later⟩

theorem foldlM_rule {f : β → α → Alloc β} {l : List α} (inv : List α → Ids → β → Prop)
    (step : ∀ before a rest, l = before ++ a :: rest → ∀ ids b b' after, inv before ids b →
      (f b a).run ids = (.ok b', after) → inv (before ++ [a]) after b')
    {ids after : Ids} {b b' : β} (start : inv [] ids b)
    (done : (l.foldlM f b).run ids = (.ok b', after)) : inv l after b' := by
  have go (rest before : List α) (split : l = before ++ rest) (ids : Ids) (b : β)
      (h : inv before ids b) (done : (rest.foldlM f b).run ids = (.ok b', after)) :
      inv l after b' := by
    induction rest generalizing before ids b with
    | nil =>
      obtain ⟨rfl, rfl⟩ := run_pure_ok.mp done
      rwa [split, List.append_nil]
    | cons a rest ih =>
      rw [List.foldlM_cons, run_bind_ok] at done
      obtain ⟨next, mid, first, done⟩ := done
      refine ih (before ++ [a]) ?_ mid next (step before a rest split ids b next mid h first) done
      rw [split, List.append_assoc, List.singleton_append]
  exact go l [] rfl ids b start done

theorem foldlM_keeps {f : β → α → Alloc β} {l : List α} (inv : Ids → β → Prop)
    (step : ∀ a ∈ l, ∀ ids b b' after, inv ids b → (f b a).run ids = (.ok b', after) →
      inv after b') {ids after : Ids} {b b' : β} (start : inv ids b)
    (done : (l.foldlM f b).run ids = (.ok b', after)) : inv after b' := by
  refine foldlM_rule (fun _ => inv) (fun before a rest split => step a ?_) start done
  rw [split]
  exact List.mem_append_right before List.mem_cons_self

/-- Whenever `x` succeeds from `ids` on, `y` succeeds from `ids'` on, however many numbers are drawn
before, and the results are related. -/
def Matches (R : α → β → Prop) (ids : Ids) (x : Alloc α) (ids' : Ids) (y : Alloc β) : Prop :=
  ∀ a after, x.Gave ids a after → ∀ first, ids' ≤ first →
    ∃ b last, y.run first = (.ok b, last) ∧ R a b

section Matches

variable {γ δ : Type} {R : α → β → Prop} {Q : γ → δ → Prop} {ids ids' : Ids} {x : Alloc α}
  {y : Alloc β}

theorem Matches.pure {a : α} {b : β} (related : R a b) :
    Matches R ids (Pure.pure a) ids' (Pure.pure b) := by
  rintro a' after ⟨first, last, -, -, ran⟩ first' -
  obtain ⟨rfl, -⟩ := run_pure_ok.mp ran
  exact ⟨b, first', rfl, related⟩

theorem Matches.liftM (r : Except Error α) :
    Matches Eq ids (MonadLift.monadLift r) ids' (MonadLift.monadLift r : Alloc α) := by
  rintro a after ⟨first, last, -, -, ran⟩ first' -
  obtain ⟨rfl, -⟩ := run_liftM_ok.mp ran
  exact ⟨a, first', rfl, rfl⟩

theorem Matches.bind {f : α → Alloc γ} {g : β → Alloc δ} (head : Matches R ids x ids' y)
    (tail : ∀ a b, R a b → Matches Q ids (f a) ids' (g b)) :
    Matches Q ids (x >>= f) ids' (y >>= g) := by
  rintro c after ⟨first, last, before, later, ran⟩ first' before'
  obtain ⟨a, mid, hx, hf⟩ := run_bind_ok.mp ran
  obtain ⟨b, mid', hy, related⟩ :=
    head a mid ⟨first, mid, before, Ids.le_refl mid, hx⟩ first' before'
  obtain ⟨d, last', hg, related'⟩ := tail a b related c last
    ⟨mid, last, Ids.le_trans before (le_of_run hx), Ids.le_refl last, hf⟩ mid'
    (Ids.le_trans before' (le_of_run hy))
  exact ⟨d, last', run_bind_ok.mpr ⟨b, mid', hy, hg⟩, related'⟩

theorem Matches.mapM {f : α → Alloc γ} {g : β → Alloc δ} {l : List α} {l' : List β}
    (each : List.Forall₂ (fun a b => Matches Q ids (f a) ids' (g b)) l l') :
    Matches (List.Forall₂ Q) ids (l.mapM f) ids' (l'.mapM g) := by
  induction each with
  | nil => exact .pure .nil
  | cons head _ ih =>
    rw [List.mapM_cons, List.mapM_cons]
    exact head.bind fun c d related => ih.bind fun cs ds rest => .pure (.cons related rest)

theorem Matches.gave {a : α} {b : β} {after after' : Ids} (same : Matches R ids x ids' y)
    (first : x.Gave ids a after) (second : y.Gave ids' b after') : R a b := by
  obtain ⟨start, last, before, -, ran⟩ := second
  obtain ⟨b', last', ran', related⟩ := same a after first start before
  rw [ran] at ran'
  cases ran'
  exact related

end Matches

end Alloc
end ActorAnalysis
