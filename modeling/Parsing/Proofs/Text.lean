/-
# Texts put together and taken apart

A run of characters of one class is taken whole up to a character of another. Parts put in a row are
told apart when what separates them is in none of them: by the first separator, or by the last. The
text of a number is made of digits, and tells the number. Words of which none is empty and none has
a blank are the words of their row.

Key theorems: `Text.takeWhile_dropWhile_append`, `Text.intercalate_cons_eq`,
`Text.append_cons_inj_of_first`, `Text.append_cons_inj_of_last`, `Text.toString_inj`,
`Text.words_intercalate`.
-/
import Mathlib.Data.List.TakeWhile
import Parsing.Text.Words

namespace Parsing.Text

/-! ### Runs -/

section

variable {p : Char → Bool} {run after : List Char}

/-- A run of a class with another character behind it is taken whole. -/
theorem takeWhile_dropWhile_append (h : ∀ c ∈ run, p c = true)
    (hafter : ∀ c ∈ after.head?, p c = false) :
    (run ++ after).takeWhile p = run ∧ (run ++ after).dropWhile p = after := by
  rw [List.takeWhile_append_of_pos h, List.dropWhile_append_of_pos h]
  cases after with
  | nil => simp
  | cons c after => simp [hafter c rfl]

/-- What is left behind a run does not go on with it. -/
theorem head?_dropWhile_eq_false (p : Char → Bool) (cs : List Char) :
    ∀ c ∈ (cs.dropWhile p).head?, p c = false := by
  intro c hc
  have h := List.head?_dropWhile_not p cs
  rw [Option.mem_def.mp hc] at h
  exact h

end

/-! ### Rows -/

/-- A separated row is its first part and the others, each behind a separator. -/
theorem intercalate_cons_eq {α : Type} (sep part : List α) (parts : List (List α)) :
    sep.intercalate (part :: parts) = part ++ parts.flatMap (sep ++ ·) := by
  induction parts generalizing part with
  | nil => simp
  | cons next parts ih =>
    rw [List.intercalate_cons_cons, ih, List.flatMap_cons, List.append_assoc, List.append_assoc]

variable {α : Type} {a : α} {front front' back back' : List α}

/-- **Lists are told apart by their first `a`.** -/
theorem append_cons_inj_of_first (hfront : a ∉ front) (hfront' : a ∉ front')
    (h : front ++ a :: back = front' ++ a :: back') : front = front' ∧ back = back' := by
  induction front generalizing front' with
  | nil =>
    cases front' with
    | nil => exact ⟨rfl, List.tail_eq_of_cons_eq h⟩
    | cons b front' =>
      obtain ⟨rfl, -⟩ := List.cons_eq_cons.mp h
      exact absurd List.mem_cons_self hfront'
  | cons b front ih =>
    cases front' with
    | nil =>
      obtain ⟨rfl, -⟩ := List.cons_eq_cons.mp h
      exact absurd List.mem_cons_self hfront
    | cons b' front' =>
      obtain ⟨rfl, hrest⟩ := List.cons_eq_cons.mp h
      obtain ⟨rfl, rfl⟩ := ih (List.not_mem_of_not_mem_cons hfront)
        (List.not_mem_of_not_mem_cons hfront') hrest
      exact ⟨rfl, rfl⟩

/-- **Lists are told apart by their last `a`.** -/
theorem append_cons_inj_of_last (hback : a ∉ back) (hback' : a ∉ back')
    (h : front ++ a :: back = front' ++ a :: back') : front = front' ∧ back = back' := by
  have hrev : back.reverse ++ a :: front.reverse = back'.reverse ++ a :: front'.reverse := by
    simpa using congrArg List.reverse h
  obtain ⟨hb, hf⟩ := append_cons_inj_of_first (by simpa using hback) (by simpa using hback') hrev
  exact ⟨List.reverse_inj.mp hf, List.reverse_inj.mp hb⟩

/-! ### Numbers -/

/-- The text of a number is made of digits. -/
theorem isDigit_of_mem_toString {n : Nat} {c : Char} (h : c ∈ (toString n).toList) :
    c.isDigit = true := by
  rw [Nat.toString_eq_repr, Nat.toList_repr] at h
  exact Nat.isDigit_of_mem_toDigits (by decide) (by decide) h

theorem notMem_toString {c : Char} (hc : c.isDigit = false) (n : Nat) :
    c ∉ (toString n).toList := fun h => by
  rw [isDigit_of_mem_toString h] at hc
  contradiction

/-- Numbers are told apart by their texts. -/
theorem toString_inj {m n : Nat} (h : (toString m).toList = (toString n).toList) : m = n := by
  rw [Nat.toString_eq_repr, Nat.toString_eq_repr, Nat.toList_repr, Nat.toList_repr] at h
  rw [← m.ofDigitChars_ten_toDigits, h, Nat.ofDigitChars_ten_toDigits]

/-! ### Words -/

/-- A text without blanks is one word. -/
theorem words_of_unbroken {w : List Char} (hne : w ≠ []) (hw : ∀ c ∈ w, isBlank c = false) :
    words w = [w] := by
  induction w with
  | nil => exact absurd rfl hne
  | cons c w ih =>
    obtain ⟨hc, hw⟩ := List.forall_mem_cons.mp hw
    rw [words_cons hc]
    cases w with
    | nil => rfl
    | cons d w =>
      have hd : isBlank d = false := hw d List.mem_cons_self
      simp [hd, ih (List.cons_ne_nil _ _) hw]

/-- **The words of a row** are what it is made of. -/
theorem words_intercalate {ws : List (List Char)}
    (hws : ∀ w ∈ ws, w ≠ [] ∧ ∀ c ∈ w, isBlank c = false) : words ([' '].intercalate ws) = ws := by
  induction ws with
  | nil => rfl
  | cons w ws ih =>
    obtain ⟨⟨hne, hw⟩, hws⟩ := List.forall_mem_cons.mp hws
    cases ws with
    | nil => rw [List.intercalate_singleton, words_of_unbroken hne hw]
    | cons next ws =>
      have hblank : isBlank ' ' = true := rfl
      rw [List.intercalate_cons_cons, List.append_assoc, List.singleton_append,
        words_append_cons hblank, words_of_unbroken hne hw, ih hws, List.singleton_append]

end Parsing.Text
