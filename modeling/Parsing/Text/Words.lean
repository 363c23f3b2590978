/-
# Words between blanks

The words of a text are its maximal runs of characters that are not blank.

Key definitions: `words`.
Key theorems: `ne_nil_of_mem_words`, `not_isBlank_of_mem_words`, `words_append_cons`.
-/
import Parsing.Text.Classes

namespace Parsing.Text

/-- The maximal runs of characters that are not blank, in order. -/
def words : List Char → List (List Char)
  | [] => []
  | c :: cs =>
    if isBlank c then words cs
    else if cs.head?.all isBlank then [c] :: words cs
    else (words cs).modifyHead (c :: ·)

theorem words_cons_of_blank {c : Char} (h : isBlank c = true) (cs : List Char) :
    words (c :: cs) = words cs := by simp [words, h]

theorem mem_modifyHead {α : Type} {f : α → α} {a : α} :
    ∀ {l : List α}, a ∈ l.modifyHead f → (∃ b ∈ l, a = f b) ∨ a ∈ l
  | [], h => by simp at h
  | b :: l, h => by
    simp only [List.modifyHead_cons, List.mem_cons] at h ⊢
    rcases h with h | h
    · exact .inl ⟨b, .inl rfl, h⟩
    · exact .inr (.inr h)

theorem ne_nil_of_mem_words {cs w : List Char} (h : w ∈ words cs) : w ≠ [] := by
  induction cs generalizing w with
  | nil => simp [words] at h
  | cons c cs ih =>
    simp only [words] at h
    split at h
    · exact ih h
    · split at h
      · rcases List.mem_cons.mp h with rfl | h
        · simp
        · exact ih h
      · rcases mem_modifyHead h with ⟨b, _, rfl⟩ | h
        · simp
        · exact ih h

theorem not_isBlank_of_mem_words {cs w : List Char} (h : w ∈ words cs) :
    ∀ c ∈ w, isBlank c = false := by
  induction cs generalizing w with
  | nil => simp [words] at h
  | cons c cs ih =>
    simp only [words] at h
    split at h
    · exact ih h
    · next hc =>
      have hc : isBlank c = false := by simpa using hc
      split at h
      · rcases List.mem_cons.mp h with rfl | h
        · simpa using hc
        · exact ih h
      · rcases mem_modifyHead h with ⟨b, hb, rfl⟩ | h
        · intro d hd
          rcases List.mem_cons.mp hd with rfl | hd
          · exact hc
          · exact ih hb d hd
        · exact ih h

theorem words_ne_nil {c : Char} (h : isBlank c = false) (cs : List Char) :
    words (c :: cs) ≠ [] := by
  induction cs generalizing c with
  | nil => simp [words, h]
  | cons d cs ih =>
    by_cases hd : isBlank d = true
    · simp [words, h, hd]
    · have hd : isBlank d = false := by simpa using hd
      obtain ⟨w, ws, hw⟩ := List.exists_cons_of_ne_nil (ih hd)
      rw [words]
      simp [h, hd, hw]

theorem words_cons {c : Char} (h : isBlank c = false) (cs : List Char) :
    words (c :: cs) =
      if cs.head?.all isBlank then [c] :: words cs else (words cs).modifyHead (c :: ·) := by
  simp [words, h]

/-- **A blank separates words.** -/
theorem words_append_cons {c : Char} (h : isBlank c = true) (xs ys : List Char) :
    words (xs ++ c :: ys) = words xs ++ words ys := by
  induction xs with
  | nil => simp [words, h]
  | cons a xs ih =>
    by_cases ha : isBlank a = true
    · rw [List.cons_append, words_cons_of_blank ha, words_cons_of_blank ha, ih]
    · have ha : isBlank a = false := by simpa using ha
      rw [List.cons_append, words_cons ha, words_cons ha, ih]
      cases xs with
      | nil => simp [words, h]
      | cons b xs =>
        by_cases hb : isBlank b = true
        · simp [hb]
        · have hb : isBlank b = false := by simpa using hb
          obtain ⟨w, ws, hw⟩ := List.exists_cons_of_ne_nil (words_ne_nil hb xs)
          simp [hb, hw]

end Parsing.Text
