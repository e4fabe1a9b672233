import ActorAnalysis.Text
import Mathlib.Data.List.TakeWhile

namespace ActorAnalysis.Text

def lines (s : String) : List String := (s.split '\n').toList.map (·.copy)

def OneLine (s : String) : Prop := '\n' ∉ s.toList

instance (s : String) : Decidable (OneLine s) := inferInstanceAs (Decidable ('\n' ∉ s.toList))

theorem lines_join {ls : List String} (oneLine : ∀ l ∈ ls, OneLine l) :
    lines (String.join (ls.map (· ++ "\n"))) = ls ++ [""] := by
  unfold lines
  rw [String.toList_split_char, String.toList_join]
  induction ls with
  | nil => rfl
  | cons l rest ih =>
    have first : '\n' ∉ l.toList := oneLine l List.mem_cons_self
    have later := ih fun x hx => oneLine x (List.mem_cons_of_mem _ hx)
    have shape : ((l :: rest).map (· ++ "\n")).flatMap String.toList =
        l.toList ++ '\n' :: (rest.map (· ++ "\n")).flatMap String.toList := by simp
    rw [shape, List.splitOn_append_cons_self_of_not_mem first, List.map_cons, later]
    simp

@[simp] theorem oneLine_append {a b : String} : OneLine (a ++ b) ↔ OneLine a ∧ OneLine b := by
  simp [OneLine]

theorem oneLine_join {ls : List String} (oneLine : ∀ l ∈ ls, OneLine l) :
    OneLine (String.join ls) := by
  unfold OneLine
  rw [String.toList_join, List.mem_flatMap]
  rintro ⟨l, hl, inside⟩
  exact oneLine l hl inside

theorem isDigit_of_mem_repr {n : Nat} {c : Char} (h : c ∈ n.repr.toList) : c.isDigit = true := by
  rw [Nat.toList_repr] at h
  exact Nat.isDigit_of_mem_toDigits (by decide) (by decide) h

@[simp] theorem oneLine_repr (n : Nat) : OneLine n.repr := fun inside =>
  absurd (isDigit_of_mem_repr inside) (by decide)

theorem repr_injective {m n : Nat} (same : m.repr.toList = n.repr.toList) : m = n := by
  rw [Nat.toList_repr, Nat.toList_repr] at same
  rw [← @Nat.ofDigitChars_ten_toDigits m, same, Nat.ofDigitChars_ten_toDigits]

theorem append_separator_inj {α : Type} {a : α} {x y v w : List α} (hx : a ∉ x) (hy : a ∉ y)
    (same : x ++ a :: v = y ++ a :: w) : x = y ∧ v = w := by
  induction x generalizing y with
  | nil =>
    cases y with
    | nil => exact ⟨rfl, (List.cons.inj same).2⟩
    | cons c y => exact absurd (List.mem_cons.mpr (.inl (List.cons.inj same).1)) hy
  | cons b x ih =>
    cases y with
    | nil => exact absurd (List.mem_cons.mpr (.inl (List.cons.inj same).1.symm)) hx
    | cons c y =>
      obtain ⟨rfl, tail⟩ := List.cons.inj same
      obtain ⟨rfl, rest⟩ := ih (fun h => hx (List.mem_cons_of_mem _ h))
        (fun h => hy (List.mem_cons_of_mem _ h)) tail
      exact ⟨rfl, rest⟩

/-- A numeral and a blank begin a text only with the same numeral. -/
theorem numeral_prefix_iff {m n : Nat} {v w : List Char} :
    m.repr.toList ++ ' ' :: v <+: n.repr.toList ++ ' ' :: w ↔ m = n ∧ v <+: w := by
  have noBlank (k : Nat) : ' ' ∉ k.repr.toList := fun inside =>
    absurd (isDigit_of_mem_repr inside) (by decide)
  constructor
  · rintro ⟨rest, same⟩
    rw [List.append_assoc, List.cons_append] at same
    obtain ⟨numeral, tail⟩ := append_separator_inj (noBlank m) (noBlank n) same
    exact ⟨repr_injective numeral, rest, tail⟩
  · rintro ⟨rfl, rest, rfl⟩
    exact ⟨rest, by simp⟩

def Blank (s : String) : Prop := ∀ c ∈ s.toList, isBlank c = true

def Trimmed (s : String) : Prop :=
  (∀ c ∈ s.toList.head?, isBlank c = false) ∧ ∀ c ∈ s.toList.getLast?, isBlank c = false

theorem not_blank_of_head?_dropWhile {l : List Char} {c : Char}
    (first : (l.dropWhile isBlank).head? = some c) : isBlank c = false := by
  have stop := List.head?_dropWhile_not isBlank l
  rw [first] at stop
  exact stop

theorem trimmed_trim (s : String) : Trimmed (trim s) := by
  let core := s.toList.dropWhile isBlank
  constructor
  · intro c first
    rw [trim, String.toList_ofList] at first
    -- What is left of `core` is a front part of it, so it starts like `core`.
    have front : (core.reverse.dropWhile isBlank).reverse <+: core := by
      rw [← List.reverse_suffix, List.reverse_reverse]
      exact List.dropWhile_suffix isBlank
    obtain ⟨rest, whole⟩ := front
    have start : core.head? = some c := by
      rw [← whole, List.head?_append, first]
      rfl
    exact not_blank_of_head?_dropWhile start
  · intro c last
    rw [trim, String.toList_ofList, List.getLast?_reverse] at last
    exact not_blank_of_head?_dropWhile last

theorem trim_surrounded (s : String) : ∃ before after, Blank before ∧ Blank after ∧
    s = before ++ trim s ++ after := by
  let core := s.toList.dropWhile isBlank
  have front := List.takeWhile_append_dropWhile (p := isBlank) (l := s.toList)
  have back := List.takeWhile_append_dropWhile (p := isBlank) (l := core.reverse)
  refine ⟨.ofList (s.toList.takeWhile isBlank), .ofList (core.reverse.takeWhile isBlank).reverse,
    ?_, ?_, ?_⟩
  · intro c hc
    rw [String.toList_ofList] at hc
    exact List.mem_takeWhile_imp hc
  · intro c hc
    rw [String.toList_ofList, List.mem_reverse] at hc
    exact List.mem_takeWhile_imp hc
  · have whole : core = (core.reverse.dropWhile isBlank).reverse ++
        (core.reverse.takeWhile isBlank).reverse := by
      rw [← List.reverse_append, back, List.reverse_reverse]
    rw [← String.toList_inj]
    simp only [trim, String.toList_append, String.toList_ofList, List.append_assoc]
    rw [← whole]
    exact front.symm

end ActorAnalysis.Text
