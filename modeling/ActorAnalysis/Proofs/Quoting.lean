import ActorAnalysis.Proofs.Dot
import Mathlib.Algebra.Ring.Parity

/-! Escaped texts between quotes. Escaping leaves no line break, puts an odd number of backslashes
before each quote and an even number at the end, so that a reader who takes a backslash together
with the character behind it stops at the closing quote. Nothing is lost by it: an escaped line
break differs from a backslash before a letter, and the text is recovered. -/
namespace ActorAnalysis.Dot

variable {c : Char} {l w : List Char}

inductive Written : Char → List Char → Prop
  | quote : Written '"' ['\\', '"']
  | backslash : Written '\\' ['\\', '\\']
  | newline : Written '\n' ['\\', 'l']
  | plain {c : Char} : c ≠ '"' → c ≠ '\\' → c ≠ '\n' → Written c [c]

theorem written_escapeChar (c : Char) : Written c (escapeChar c) := by
  unfold escapeChar
  split
  · exact .quote
  · exact .backslash
  · exact .newline
  · exact .plain ‹_› ‹_› ‹_›

/-- How many backslashes a text ends in. -/
def run (l : List Char) : Nat := (l.reverse.takeWhile (· == '\\')).length

/-- Each quote stands behind an odd number of backslashes. -/
def Guarded (l : List Char) : Prop := ∀ before after, l = before ++ '"' :: after → Odd (run before)

theorem run_concat (l : List Char) (c : Char) :
    run (l ++ [c]) = if c = '\\' then run l + 1 else 0 := by
  unfold run
  rw [List.reverse_append, List.reverse_singleton, List.singleton_append, List.takeWhile_cons]
  by_cases same : c = '\\' <;> simp [same]

theorem guarded_nil : Guarded [] := fun before after same => by simp at same

theorem guarded_concat (l : List Char) (c : Char) :
    Guarded (l ++ [c]) ↔ Guarded l ∧ (c = '"' → Odd (run l)) := by
  constructor
  · intro guarded
    refine ⟨fun before after same => ?_, ?_⟩
    · exact guarded before (after ++ [c]) (by simp [same])
    · rintro rfl
      exact guarded l [] rfl
  · rintro ⟨guarded, last⟩ before after same
    -- The quote is the last character, or it stands in `l`.
    rcases List.eq_nil_or_concat after with rfl | ⟨inner, d, rfl⟩
    · obtain ⟨rfl, quote⟩ := List.append_inj' same rfl
      exact last (List.cons.inj quote).1
    · rw [List.concat_eq_append, ← List.cons_append, ← List.append_assoc] at same
      exact guarded before inner (List.append_inj' same rfl).1

/-- A written character keeps the quotes guarded and the run at the end even. -/
theorem Written.guards (written : Written c w) (guarded : Guarded l) (even : Even (run l)) :
    Guarded (l ++ w) ∧ Even (run (l ++ w)) := by
  have pair (d e : Char) : l ++ [d, e] = l ++ [d] ++ [e] := by simp
  have odd : Odd (run l + 1) := even.add_one
  have next : Even (run l + 1 + 1) := odd.add_one
  cases written with
  | quote =>
    simp only [pair, guarded_concat, run_concat]
    simp [guarded, odd]
  | backslash =>
    simp only [pair, guarded_concat, run_concat]
    simp [guarded, next]
  | newline =>
    simp only [pair, guarded_concat, run_concat]
    simp [guarded]
  | plain quote backslash _ =>
    simp only [guarded_concat, run_concat]
    simp [guarded, quote, backslash]

theorem guarded_escaped (l : List Char) :
    Guarded (l.flatMap escapeChar) ∧ Even (run (l.flatMap escapeChar)) := by
  induction l using List.reverseRecOn with
  | nil => exact ⟨guarded_nil, by decide⟩
  | append_singleton l c ih =>
    rw [List.flatMap_append, List.flatMap_singleton]
    exact (written_escapeChar c).guards ih.1 ih.2

/-- The text up to the closing quote, and what stands behind the quote. A backslash takes the next
character with it. -/
def readRest : List Char → Option (List Char × List Char)
  | [] => none
  | '"' :: rest => some ([], rest)
  | '\\' :: c :: rest => (readRest rest).map (fun r => ('\\' :: c :: r.1, r.2))
  | c :: rest => (readRest rest).map (fun r => (c :: r.1, r.2))

def readQuoted : List Char → Option (List Char × List Char)
  | '"' :: rest => readRest rest
  | _ => none

theorem Written.readRest (written : Written c w) (rest : List Char) :
    readRest (w ++ rest) = (Dot.readRest rest).map (fun r => (w ++ r.1, r.2)) := by
  cases written with
  | quote => rfl
  | backslash => rfl
  | newline => rfl
  | plain _ backslash _ => simp [Dot.readRest, backslash]

theorem readRest_escaped (l rest : List Char) :
    readRest (l.flatMap escapeChar ++ '"' :: rest) = some (l.flatMap escapeChar, rest) := by
  induction l with
  | nil => rfl
  | cons c l ih =>
    rw [List.flatMap_cons, List.append_assoc, (written_escapeChar c).readRest, ih]
    rfl

def unescapeChars : List Char → List Char
  | [] => []
  | '\\' :: 'l' :: rest => '\n' :: unescapeChars rest
  | '\\' :: c :: rest => c :: unescapeChars rest
  | c :: rest => c :: unescapeChars rest

def unescape (s : String) : String := String.ofList (unescapeChars s.toList)

theorem Written.unescape (written : Written c w) (rest : List Char) :
    unescapeChars (w ++ rest) = c :: unescapeChars rest := by
  cases written with
  | quote => rfl
  | backslash => rfl
  | newline => rfl
  | plain _ backslash _ => simp [unescapeChars, backslash]

theorem unescapeChars_escaped (l : List Char) : unescapeChars (l.flatMap escapeChar) = l := by
  induction l with
  | nil => rfl
  | cons c l ih => rw [List.flatMap_cons, (written_escapeChar c).unescape, ih]

theorem toList_escape (s : String) : (escape s).toList = s.toList.flatMap escapeChar :=
  String.toList_ofList

theorem unescape_escape : Function.LeftInverse unescape escape := by
  intro s
  rw [unescape, toList_escape, unescapeChars_escaped, String.ofList_toList]

/-- An escaped text has no line break, an odd number of backslashes before each quote and an even
number at its end. Between quotes it is read as one text, whatever follows, and it can be turned
back. -/
theorem escaping_is_safe_and_reversible :
    (∀ s : String, Text.OneLine (escape s) ∧
      (∀ before after, (escape s).toList = before ++ '"' :: after → Odd (run before)) ∧
      ¬ Odd (run (escape s).toList) ∧
      ∀ rest, readQuoted ((quoted s).toList ++ rest) = some ((escape s).toList, rest)) ∧
    Function.LeftInverse unescape escape ∧ Function.Injective escape := by
  refine ⟨fun s => ?_, unescape_escape, unescape_escape.injective⟩
  have guards := guarded_escaped s.toList
  rw [← toList_escape] at guards
  refine ⟨oneLine_escape s, guards.1, Nat.not_odd_iff_even.mpr guards.2, fun rest => ?_⟩
  have opened : (quoted s).toList ++ rest = '"' :: ((escape s).toList ++ '"' :: rest) := by
    simp [quoted]
  rw [opened, toList_escape]
  exact readRest_escaped s.toList rest

/-- A backslash and a letter are no line break. -/
example : escape "\\l\n\"" = "\\\\l\\l\\\"" ∧ unescape "\\\\l\\l\\\"" = "\\l\n\"" := by decide

end ActorAnalysis.Dot
