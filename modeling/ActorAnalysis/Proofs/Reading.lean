import ActorAnalysis.Proofs.Data.Valuation
import ActorAnalysis.Proofs.Text

/-! Written expressions and conditions are read in one way only. A text is compared together with
what stands behind it: an operand ends where no letter, digit or sign can continue it, and a
condition ends before a closing bracket or a conjunction. A condition and an operand both may open
with a bracket, but then the operator behind the first part tells them apart. -/
namespace ActorAnalysis

namespace Text

/-- The characters beyond ASCII all count as letters, so names of every script are covered. -/
def isLetter (c : Char) : Bool := c.isAlpha || decide (128 ≤ c.toNat)

def isInitial (c : Char) : Bool := isLetter c || c == '_'

structure Identifier (s : String) : Prop where
  first : s.toList.head?.any isInitial = true
  later : s.toList.tail.all (fun c => isInitial c || c.isDigit) = true

instance (s : String) : Decidable (Identifier s) :=
  decidable_of_iff (_ ∧ _) ⟨fun h => ⟨h.1, h.2⟩, fun h => ⟨h.first, h.later⟩⟩

def isWordChar (c : Char) : Bool := isInitial c || c.isDigit || c == '-'

def Word (x : List Char) : Prop := x ≠ [] ∧ ∀ c ∈ x, isWordChar c = true

/-- No word goes on into the text. -/
def Ends (v : List Char) : Prop := ∀ c ∈ v.head?, isWordChar c = false

theorem ends_cons {c : Char} {v : List Char} : Ends (c :: v) ↔ isWordChar c = false := by
  simp [Ends]

theorem takeWhile_of_ends {v : List Char} (ends : Ends v) : v.takeWhile isWordChar = [] := by
  cases v with
  | nil => rfl
  | cons c v => simp [ends_cons.mp ends]

theorem word_append_inj {x y v w : List Char} (hx : Word x) (hy : Word y) (hv : Ends v)
    (hw : Ends w) (same : x ++ v = y ++ w) : x = y ∧ v = w := by
  have longest {x v : List Char} (hx : Word x) (hv : Ends v) :
      (x ++ v).takeWhile isWordChar = x := by
    rw [List.takeWhile_append_of_pos hx.2, takeWhile_of_ends hv, List.append_nil]
  have first : x = y := by rw [← longest hx hv, same, longest hy hw]
  subst first
  exact ⟨rfl, List.append_cancel_left same⟩

theorem Word.ne_cons {x v w : List Char} {c : Char} (hx : Word x)
    (other : isWordChar c = false) : x ++ v ≠ c :: w := by
  intro same
  cases x with
  | nil => exact hx.1 rfl
  | cons d x =>
    have inside := hx.2 d List.mem_cons_self
    rw [(List.cons.inj same).1, other] at inside
    contradiction

theorem Identifier.exists_cons {s : String} (named : Identifier s) :
    ∃ c rest, s.toList = c :: rest ∧ isInitial c = true ∧
      ∀ d ∈ rest, (isInitial d || d.isDigit) = true := by
  have first := named.first
  have later := named.later
  cases spelled : s.toList with
  | nil => simp [spelled] at first
  | cons c rest =>
    rw [spelled] at first later
    exact ⟨c, rest, rfl, first, List.all_eq_true.mp later⟩

theorem Identifier.word {s : String} (named : Identifier s) : Word s.toList := by
  obtain ⟨c, rest, spelled, first, later⟩ := named.exists_cons
  rw [spelled]
  refine ⟨List.cons_ne_nil c rest, fun d hd => ?_⟩
  rcases List.mem_cons.mp hd with rfl | hd
  · simp [isWordChar, first]
  · simp [isWordChar, later d hd]

theorem toList_toString (i : Int) :
    0 ≤ i ∧ (toString i).toList = i.toNat.repr.toList ∨
      i < 0 ∧ (toString i).toList = '-' :: (-i).toNat.repr.toList := by
  rw [Int.toString_eq_repr, Int.repr_eq_if]
  by_cases sign : 0 ≤ i
  · exact .inl ⟨sign, by rw [if_pos sign]⟩
  · exact .inr ⟨Int.not_le.mp sign, by simp [if_neg sign]⟩

theorem repr_ne_nil (n : Nat) : n.repr.toList ≠ [] := by
  rw [Nat.toList_repr]
  exact Nat.toDigits_ne_nil

theorem isInitial_of_isDigit {c : Char} (digit : c.isDigit = true) : isInitial c = false := by
  have below : c.toNat ≤ 57 := (Char.isDigit_iff_toNat.mp digit).2
  have upper : c.isUpper = false := by
    apply decide_eq_false
    rintro ⟨from65, -⟩
    have : 65 ≤ c.toNat := UInt32.le_iff_toNat_le.mp from65
    omega
  have lower : c.isLower = false := by
    refine Bool.and_eq_false_iff.mpr (.inl (decide_eq_false fun from97 => ?_))
    have : 97 ≤ c.toNat := UInt32.le_iff_toNat_le.mp from97
    omega
  have alpha : c.isAlpha = false := Bool.or_eq_false_iff.mpr ⟨upper, lower⟩
  have ascii : ¬ 128 ≤ c.toNat := by omega
  have apart : c ≠ '_' := by
    rintro rfl
    contradiction
  simp [isInitial, isLetter, alpha, ascii, apart]

theorem toString_not_identifier (i : Int) : ¬ Identifier (toString i) := by
  intro named
  obtain ⟨c, rest, spelled, first, -⟩ := named.exists_cons
  rcases toList_toString i with ⟨-, plain⟩ | ⟨-, negative⟩
  · have digit : c.isDigit = true := isDigit_of_mem_repr (by rw [← plain, spelled]; simp)
    rw [isInitial_of_isDigit digit] at first
    contradiction
  · rw [spelled] at negative
    rw [(List.cons.inj negative).1] at first
    exact absurd first (by decide)

theorem word_toString (i : Int) : Word (toString i).toList := by
  have digits (n : Nat) : ∀ c ∈ n.repr.toList, isWordChar c = true := by
    intro c hc
    simp [isWordChar, isDigit_of_mem_repr hc]
  rcases toList_toString i with ⟨-, spelled⟩ | ⟨-, spelled⟩
  · rw [spelled]
    exact ⟨repr_ne_nil _, digits _⟩
  · rw [spelled]
    exact ⟨List.cons_ne_nil _ _, List.forall_mem_cons.mpr ⟨by decide, digits _⟩⟩

theorem toString_injective {i j : Int} (same : (toString i).toList = (toString j).toList) :
    i = j := by
  have unsigned (m n : Nat) : m.repr.toList ≠ '-' :: n.repr.toList := by
    intro same
    have digit : ('-' : Char).isDigit = true := isDigit_of_mem_repr (by rw [same]; simp)
    exact absurd digit (by decide)
  rcases toList_toString i with ⟨hi, left⟩ | ⟨hi, left⟩ <;>
    rcases toList_toString j with ⟨hj, right⟩ | ⟨hj, right⟩ <;> rw [left, right] at same
  · have := repr_injective same
    omega
  · exact absurd same (unsigned _ _)
  · exact absurd same.symm (unsigned _ _)
  · have := repr_injective (List.cons.inj same).2
    omega

end Text

open Text (Ends Word ends_cons)

namespace Expr

variable {e f a b : Expr} {s : Char} {v w : List Char}

def Named (e : Expr) : Prop := ∀ x ∈ e.reads, Text.Identifier x

instance (e : Expr) : Decidable e.Named := inferInstanceAs (Decidable (∀ x ∈ e.reads, _))

/-- The text can be read in no other way, whatever stands behind it, if no word goes on there. -/
def Determined (e : Expr) : Prop := ∀ {f : Expr} {v w : List Char}, f.Named → Ends v → Ends w →
  e.text.toList ++ v = f.text.toList ++ w → e = f ∧ v = w

inductive Atom : Expr → Prop
  | const (c : Int64) : Atom (.const c)
  | var (x : String) : Atom (.var x)

inductive Joins (a b : Expr) : Char → Expr → Prop
  | add : Joins a b '+' (.add a b)
  | sub : Joins a b '-' (.sub a b)

theorem atom_or_joins (e : Expr) : Atom e ∨ ∃ a b s, Joins a b s e := by
  cases e with
  | const c => exact .inl (.const c)
  | var x => exact .inl (.var x)
  | add a b => exact .inr ⟨a, b, '+', .add⟩
  | sub a b => exact .inr ⟨a, b, '-', .sub⟩

theorem named_var {x : String} : (var x).Named ↔ Text.Identifier x := by
  simp [Named, reads]

theorem Joins.named (joins : Joins a b s e) : e.Named ↔ a.Named ∧ b.Named := by
  cases joins <;> simp [Named, reads, or_imp, forall_and]

theorem Joins.text_append (joins : Joins a b s e) (v : List Char) : e.text.toList ++ v =
    '(' :: (a.text.toList ++ ' ' :: s :: ' ' :: (b.text.toList ++ ')' :: v)) := by
  cases joins <;> simp [text]

theorem Joins.unique (left : Joins a b s e) (right : Joins a b s f) : e = f := by
  cases left <;> cases right <;> rfl

theorem Atom.word (atom : Atom e) (named : e.Named) : Word e.text.toList := by
  cases atom with
  | const c => exact Text.word_toString c.toInt
  | var x => exact (named_var.mp named).word

theorem Atom.text_inj (left : Atom e) (right : Atom f) (he : e.Named) (hf : f.Named)
    (same : e.text.toList = f.text.toList) : e = f := by
  cases left with
  | const c =>
    cases right with
    | const d => exact congrArg Expr.const (Int64.toInt_inj.mp (Text.toString_injective same))
    | var x =>
      have numeral : toString c.toInt = x := String.toList_inj.mp same
      exact absurd (numeral ▸ named_var.mp hf) (Text.toString_not_identifier c.toInt)
  | var x =>
    cases right with
    | const d =>
      have numeral : x = toString d.toInt := String.toList_inj.mp same
      exact absurd (numeral ▸ named_var.mp he) (Text.toString_not_identifier d.toInt)
    | var y => exact congrArg Expr.var (String.toList_inj.mp same)

theorem Atom.determined (atom : Atom e) (he : e.Named) : e.Determined := by
  intro f v w hf hv hw same
  rcases f.atom_or_joins with other | ⟨a, b, s, joins⟩
  · obtain ⟨texts, rest⟩ := Text.word_append_inj (atom.word he) (other.word hf) hv hw same
    exact ⟨atom.text_inj other he hf texts, rest⟩
  · rw [joins.text_append] at same
    exact absurd same ((atom.word he).ne_cons (by decide))

theorem Joins.determined (joins : Joins a b s e) (ha : a.Determined) (hb : b.Determined) :
    e.Determined := by
  intro f v w hf hv hw same
  rw [joins.text_append] at same
  rcases f.atom_or_joins with atom | ⟨a', b', s', other⟩
  · exact absurd same.symm ((atom.word hf).ne_cons (by decide))
  · have blank (x : List Char) : Ends (' ' :: x) := ends_cons.mpr (by decide)
    have bracket (x : List Char) : Ends (')' :: x) := ends_cons.mpr (by decide)
    obtain ⟨hfa, hfb⟩ := other.named.mp hf
    rw [other.text_append] at same
    obtain ⟨rfl, behind⟩ := ha hfa (blank _) (blank _) (List.cons.inj same).2
    simp only [List.cons.injEq, true_and] at behind
    obtain ⟨rfl, second⟩ := behind
    obtain ⟨rfl, closing⟩ := hb hfb (bracket _) (bracket _) second
    exact ⟨joins.unique other, (List.cons.inj closing).2⟩

theorem determined (named : e.Named) : e.Determined := by
  induction e with
  | const c => exact Atom.determined (.const c) named
  | var x => exact Atom.determined (.var x) named
  | add a b iha ihb =>
    obtain ⟨ha, hb⟩ := Joins.add.named.mp named
    exact Joins.add.determined (iha ha) (ihb hb)
  | sub a b iha ihb =>
    obtain ⟨ha, hb⟩ := Joins.sub.named.mp named
    exact Joins.sub.determined (iha ha) (ihb hb)

theorem text_append_ne_bang (named : e.Named) : e.text.toList ++ v ≠ '!' :: w := by
  rcases e.atom_or_joins with atom | ⟨a, b, s, joins⟩
  · exact (atom.word named).ne_cons (by decide)
  · rw [joins.text_append]
    simp

end Expr

namespace Cond

variable {c d : Cond} {a b e : Expr} {s : Char} {symbol t v w : List Char}

def Named (c : Cond) : Prop := ∀ x ∈ c.reads, Text.Identifier x

instance (c : Cond) : Decidable c.Named := inferInstanceAs (Decidable (∀ x ∈ c.reads, _))

/-- What may stand behind a condition: the end, a closing bracket or a conjunction. -/
inductive Closes : List Char → Prop
  | nil : Closes []
  | bracket (v : List Char) : Closes (')' :: v)
  | conjunction (v : List Char) : Closes (' ' :: '&' :: v)

/-- The constants are written like variables. -/
inductive Constant : String → Cond → Prop
  | always : Constant "true" .always
  | never : Constant "false" .never

inductive Compares (a b : Expr) : List Char → Cond → Prop
  | eq : Compares a b ['=', '='] (.eq a b)
  | lt : Compares a b ['<'] (.lt a b)

/-- The condition, with `v` behind it, begins with an operand, and `t` is behind that. -/
inductive Leads (v : List Char) : Expr → List Char → Cond → Prop
  | constant {x : String} {c : Cond} : Constant x c → Leads v (.var x) v c
  | compare {a b : Expr} {symbol : List Char} {c : Cond} : Compares a b symbol c →
      Leads v a (' ' :: (symbol ++ ' ' :: (b.text.toList ++ v))) c

theorem leads_or (c : Cond) (v : List Char) :
    (∃ e t, Leads v e t c) ∨ (∃ b, c = not b) ∨ ∃ a b, c = and a b := by
  cases c with
  | always => exact .inl ⟨_, _, .constant .always⟩
  | never => exact .inl ⟨_, _, .constant .never⟩
  | eq a b => exact .inl ⟨_, _, .compare .eq⟩
  | lt a b => exact .inl ⟨_, _, .compare .lt⟩
  | not b => exact .inr (.inl ⟨b, rfl⟩)
  | and a b => exact .inr (.inr ⟨a, b, rfl⟩)

theorem named_not : (not c).Named ↔ c.Named := .rfl

theorem named_and : (and c d).Named ↔ c.Named ∧ d.Named := by
  simp [Named, reads, or_imp, forall_and]

theorem text_not_append (c : Cond) (v : List Char) :
    (not c).text.toList ++ v = '!' :: '(' :: (c.text.toList ++ ')' :: v) := by
  simp [text]

theorem text_and_append (c d : Cond) (v : List Char) : (and c d).text.toList ++ v =
    '(' :: (c.text.toList ++ ' ' :: '&' :: '&' :: ' ' :: (d.text.toList ++ ')' :: v)) := by
  simp [text]

theorem Closes.ends (closes : Closes v) : Ends v := by
  cases closes <;> simp [Ends] <;> decide

theorem Closes.sign (closes : Closes (' ' :: s :: t)) : s = '&' := by
  cases closes
  rfl

theorem Constant.unique {x : String} (left : Constant x c) (right : Constant x d) : c = d := by
  generalize same : x = y at right
  cases left <;> cases right <;> simp_all

theorem Compares.named (compares : Compares a b symbol c) : c.Named ↔ a.Named ∧ b.Named := by
  cases compares <;> simp [Named, Expr.Named, reads, or_imp, forall_and]

theorem Compares.symbol_eq (compares : Compares a b symbol c) :
    symbol = ['=', '='] ∨ symbol = ['<'] := by
  cases compares <;> simp

theorem Compares.blank_not_mem (compares : Compares a b symbol c) : ' ' ∉ symbol := by
  rcases compares.symbol_eq with rfl | rfl <;> decide

theorem Compares.ne_of_closes (compares : Compares a b symbol c) (closes : Closes v) :
    v ≠ ' ' :: (symbol ++ w) := by
  rintro rfl
  rcases compares.symbol_eq with rfl | rfl <;> exact absurd closes.sign (by decide)

theorem Compares.unique (left : Compares a b symbol c) (right : Compares a b symbol d) : c = d := by
  generalize same : symbol = other at right
  cases left <;> cases right <;> simp_all

namespace Leads

theorem text_append (leads : Leads v e t c) : c.text.toList ++ v = e.text.toList ++ t := by
  cases leads with
  | constant constant => cases constant <;> simp [text, Expr.text]
  | compare compares => cases compares <;> simp [text]

theorem named (leads : Leads v e t c) (named : c.Named) : e.Named := by
  cases leads with
  | constant constant => cases constant <;> exact Expr.named_var.mpr (by decide)
  | compare compares => exact (compares.named.mp named).1

theorem ends (leads : Leads v e t c) (closes : Closes v) : Ends t := by
  cases leads with
  | constant _ => exact closes.ends
  | compare _ => exact ends_cons.mpr (by decide)

theorem sign (leads : Leads v e (' ' :: s :: t) c) (closes : Closes v) :
    s = '&' ∨ s = '=' ∨ s = '<' := by
  generalize behind : ' ' :: s :: t = u at leads
  cases leads with
  | constant _ =>
    rw [← behind] at closes
    exact .inl closes.sign
  | compare compares =>
    rcases compares.symbol_eq with rfl | rfl <;> simp_all

theorem unique (left : Leads v e t c) (right : Leads w e t d) (hc : c.Named) (hd : d.Named)
    (hv : Closes v) (hw : Closes w) : c = d ∧ v = w := by
  generalize operand : e = f at right
  generalize behind : t = u at right
  cases left with
  | constant left =>
    cases right with
    | constant right =>
      cases operand
      exact ⟨left.unique right, behind⟩
    | compare right => exact absurd behind (right.ne_of_closes hv)
  | compare left =>
    cases right with
    | constant right => exact absurd behind.symm (left.ne_of_closes hw)
    | compare right =>
      subst operand
      obtain ⟨rfl, second⟩ := Text.append_separator_inj left.blank_not_mem right.blank_not_mem
        (List.cons.inj behind).2
      have named := (left.named.mp hc).2
      obtain ⟨rfl, rest⟩ := Expr.determined named (right.named.mp hd).2 hv.ends hw.ends second
      exact ⟨left.unique right, rest⟩

theorem operand {f : Expr} {u : List Char} (leads : Leads v f u c) (hc : c.Named) (he : e.Named)
    (hv : Closes v) (ht : Ends t) (same : c.text.toList ++ v = e.text.toList ++ t) :
    Leads v e t c := by
  obtain ⟨rfl, rfl⟩ := Expr.determined (leads.named hc) he (leads.ends hv) ht
    (leads.text_append.symm.trans same)
  exact leads

end Leads

/-- A condition that reads like an operand and something behind it does begin with that operand. -/
theorem leads_of_operand (hc : c.Named) (he : e.Named) (hv : Closes v) (ht : Ends t)
    (same : c.text.toList ++ v = e.text.toList ++ t) : Leads v e t c := by
  induction c generalizing e t v with
  | always => exact (Leads.constant .always).operand hc he hv ht same
  | never => exact (Leads.constant .never).operand hc he hv ht same
  | eq a b => exact (Leads.compare .eq).operand hc he hv ht same
  | lt a b => exact (Leads.compare .lt).operand hc he hv ht same
  | not c =>
    rw [text_not_append] at same
    exact absurd same.symm (Expr.text_append_ne_bang he)
  | and a b iha _ =>
    -- Both open with a bracket, and behind their first parts stand different signs.
    rw [text_and_append] at same
    rcases e.atom_or_joins with atom | ⟨x, y, s, joins⟩
    · exact absurd same.symm ((atom.word he).ne_cons (by decide))
    · rw [joins.text_append] at same
      have first := iha (named_and.mp hc).1 (joins.named.mp he).1 (.conjunction _)
        (ends_cons.mpr (by decide)) (List.cons.inj same).2
      have sign := first.sign (.conjunction _)
      cases joins <;> simp at sign

theorem Leads.text_append_inj (leads : Leads v e t c) (hc : c.Named) (hd : d.Named) (hv : Closes v)
    (hw : Closes w) (same : c.text.toList ++ v = d.text.toList ++ w) : c = d ∧ v = w := by
  have other : Leads w e t d := leads_of_operand hd (leads.named hc) hw (leads.ends hv)
    (same.symm.trans leads.text_append)
  exact leads.unique other hc hd hv hw

theorem text_append_inj (hc : c.Named) (hd : d.Named) (hv : Closes v) (hw : Closes w)
    (same : c.text.toList ++ v = d.text.toList ++ w) : c = d ∧ v = w := by
  -- An operand in front decides on either side. What is left opens with a bracket.
  induction c generalizing d v w with
  | always => exact (Leads.constant .always).text_append_inj hc hd hv hw same
  | never => exact (Leads.constant .never).text_append_inj hc hd hv hw same
  | eq a b => exact (Leads.compare .eq).text_append_inj hc hd hv hw same
  | lt a b => exact (Leads.compare .lt).text_append_inj hc hd hv hw same
  | not c ih =>
    rcases leads_or d w with ⟨e, t, leads⟩ | ⟨d, rfl⟩ | ⟨a, b, rfl⟩
    · exact (leads.text_append_inj hd hc hw hv same.symm).imp Eq.symm Eq.symm
    · simp only [text_not_append, List.cons.injEq, true_and] at same
      obtain ⟨rfl, closing⟩ := ih (named_not.mp hc) (named_not.mp hd) (.bracket v) (.bracket w) same
      exact ⟨rfl, (List.cons.inj closing).2⟩
    · rw [text_not_append, text_and_append] at same
      simp at same
  | and a b iha ihb =>
    rcases leads_or d w with ⟨e, t, leads⟩ | ⟨d, rfl⟩ | ⟨a', b', rfl⟩
    · exact (leads.text_append_inj hd hc hw hv same.symm).imp Eq.symm Eq.symm
    · rw [text_not_append, text_and_append] at same
      simp at same
    · obtain ⟨hca, hcb⟩ := named_and.mp hc
      obtain ⟨hda, hdb⟩ := named_and.mp hd
      simp only [text_and_append, List.cons.injEq, true_and] at same
      obtain ⟨rfl, behind⟩ := iha hca hda (.conjunction _) (.conjunction _) same
      simp only [List.cons.injEq, true_and] at behind
      obtain ⟨rfl, closing⟩ := ihb hcb hdb (.bracket v) (.bracket w) behind
      exact ⟨rfl, (List.cons.inj closing).2⟩

end Cond

/-- Expressions and conditions whose variables are identifiers are determined by what is written. -/
theorem Cond.writing_is_unambiguous :
    (∀ e f : Expr, e.Named → f.Named → e.text = f.text → e = f) ∧
    ∀ c d : Cond, c.Named → d.Named → c.text = d.text → c = d := by
  refine ⟨fun e f he hf same => ?_, fun c d hc hd same => ?_⟩
  · have ends : Ends [] := by simp [Ends]
    exact (Expr.determined he hf ends ends (by rw [same])).1
  · exact (text_append_inj hc hd .nil .nil (by rw [same])).1

/-- Two texts that open with a bracket, a variable and a sign; only the sign tells how to go on. The
last word is a constant in the first and a variable in the second. -/
theorem Cond.bracketed_texts_are_read_once :
    (∃! c : Cond, c.Named ∧ c.text = "(x == -1 && true)") ∧
    ∃! c : Cond, c.Named ∧ c.text = "(x - -1) == true" := by
  have reading (c : Cond) (named : c.Named) : ∃! d : Cond, d.Named ∧ d.text = c.text :=
    ⟨c, ⟨named, rfl⟩, fun d hd => writing_is_unambiguous.2 d c hd.1 named hd.2⟩
  exact ⟨reading (.and (.eq (.var "x") (.const (-1))) .always) (by decide),
    reading (.eq (.sub (.var "x") (.const (-1))) (.var "true")) (by decide)⟩

/-- A variable that is no identifier can be written like a constant. -/
example : (Expr.var "-1").text = (Expr.const (-1)).text := by decide

end ActorAnalysis
