import Mathlib.Data.List.Basic
import Mathlib.Tactic.Common
import ProductLine.Text.Blank
/-!
# Words have no blanks

Words that are joined by single spaces have no blank at either end, so nothing is taken off them.

* `Text.not_isBlank_of_mem_words` and `Text.ne_nil_of_mem_words` say what the words of a text are;
* `Text.trim_of_trimmed` says that a text without blanks at its ends stays as it is, and
  `Text.trimmed_intercalate` that joined words are one.
-/
namespace ProductLine.Text

/-! ## Words -/

/-- Blanks before words do not matter. -/
theorem words_cons_of_isBlank {c : Char} {cs : List Char} (hc : isBlank c = true) :
    words (c :: cs) = words cs := by
  cases cs <;> simp [words, hc]

/-- A character that is no blank is a word of its own, or belongs to the next one. -/
theorem words_cons {c : Char} (cs : List Char) (hc : isBlank c = false) :
    words (c :: cs) = [c] :: words cs ∨
      ∃ w ws, words cs = w :: ws ∧ words (c :: cs) = (c :: w) :: ws := by
  cases cs with
  | nil => simp [words, hc]
  | cons d cs =>
    rw [words.eq_def (c :: d :: cs)]
    simp only [hc, Bool.false_eq_true, if_false]
    split
    · exact .inl rfl
    · split
      · rename_i hnone
        exact .inl (by rw [hnone])
      · rename_i w ws hwords
        exact .inr ⟨w, ws, hwords, rfl⟩

/-- No word is empty. -/
theorem ne_nil_of_mem_words {cs w : List Char} (h : w ∈ words cs) : w ≠ [] := by
  induction cs generalizing w with
  | nil => simp [words] at h
  | cons c cs ih =>
    cases hc : isBlank c with
    | true => exact ih (words_cons_of_isBlank hc ▸ h)
    | false =>
      rcases words_cons cs hc with hwords | ⟨v, ws, hwords, hjoined⟩
      · rw [hwords] at h
        rcases List.mem_cons.1 h with rfl | h
        · exact List.cons_ne_nil _ _
        · exact ih h
      · rw [hjoined] at h
        rcases List.mem_cons.1 h with rfl | h
        · exact List.cons_ne_nil _ _
        · exact ih (hwords ▸ List.mem_cons_of_mem v h)

/-- No word has a blank. -/
theorem not_isBlank_of_mem_words {cs w : List Char} (h : w ∈ words cs) :
    ∀ c ∈ w, isBlank c = false := by
  induction cs generalizing w with
  | nil => simp [words] at h
  | cons c cs ih =>
    cases hc : isBlank c with
    | true => exact ih (words_cons_of_isBlank hc ▸ h)
    | false =>
      rcases words_cons cs hc with hwords | ⟨v, ws, hwords, hjoined⟩
      · rw [hwords] at h
        rcases List.mem_cons.1 h with rfl | h
        · simpa using hc
        · exact ih h
      · rw [hjoined] at h
        rcases List.mem_cons.1 h with rfl | h
        · exact List.forall_mem_cons.2 ⟨hc, ih (hwords ▸ List.mem_cons_self ..)⟩
        · exact ih (hwords ▸ List.mem_cons_of_mem v h)

/-! ## Texts without blanks at their ends -/

/-- There is no blank at either end. -/
structure Trimmed (cs : List Char) : Prop where
  start : ∀ c ∈ cs.head?, isBlank c = false
  last : ∀ c ∈ cs.getLast?, isBlank c = false

/-- Nothing is trimmed where there is no blank first. -/
theorem trimStart_of_head {cs : List Char} (h : ∀ c ∈ cs.head?, isBlank c = false) :
    trimStart cs = cs := by
  cases cs with
  | nil => rfl
  | cons c cs => rw [trimStart, List.dropWhile_cons_of_neg (by simp [h c rfl])]

/-- Nothing is taken off a text without blanks at its ends. -/
theorem trim_of_trimmed {cs : List Char} (h : Trimmed cs) : trim cs = cs := by
  have hlast : trimStart cs.reverse = cs.reverse :=
    trimStart_of_head (by simpa [List.head?_reverse] using h.last)
  rw [trim, trimStart_of_head h.start, hlast, List.reverse_reverse]

theorem trimmed_nil : Trimmed [] := ⟨by simp, by simp⟩

/-- A text without blanks is trimmed. -/
theorem trimmed_of_forall {cs : List Char} (h : ∀ c ∈ cs, isBlank c = false) : Trimmed cs :=
  ⟨fun c hc => h c (List.mem_of_mem_head? hc), fun c hc => h c (List.mem_of_mem_getLast? hc)⟩

/-- A character that is not blank may stand in front of a trimmed text. -/
theorem Trimmed.cons {c : Char} {cs : List Char} (hc : isBlank c = false) (h : Trimmed cs) :
    Trimmed (c :: cs) := by
  refine ⟨by simpa using hc, ?_⟩
  cases cs with
  | nil => simpa using hc
  | cons d cs => simpa using h.last

/-- What stands between the ends does not matter. -/
theorem Trimmed.append {cs ds : List Char} (hcs : Trimmed cs) (hds : Trimmed ds) (hne : cs ≠ [])
    (hne' : ds ≠ []) (middle : List Char) : Trimmed (cs ++ middle ++ ds) := by
  constructor
  · intro c hc
    rw [List.append_assoc, List.head?_append, List.head?_eq_some_head hne, Option.some_or] at hc
    exact hcs.start c (List.head?_eq_some_head hne ▸ hc)
  · intro c hc
    rw [List.getLast?_append_of_ne_nil _ hne'] at hc
    exact hds.last c hc

/-- Words that are joined have no blank at either end. -/
theorem trimmed_intercalate {separator : List Char} {ws : List (List Char)}
    (hne : ∀ w ∈ ws, w ≠ []) (hws : ∀ w ∈ ws, Trimmed w) :
    Trimmed (separator.intercalate ws) ∧ (ws ≠ [] → separator.intercalate ws ≠ []) := by
  induction ws with
  | nil => exact ⟨trimmed_nil, by simp⟩
  | cons w ws ih =>
    obtain ⟨hwne, hne⟩ := List.forall_mem_cons.1 hne
    obtain ⟨hw, hws⟩ := List.forall_mem_cons.1 hws
    cases ws with
    | nil => simpa [List.intercalate] using ⟨hw, hwne⟩
    | cons v ws =>
      obtain ⟨hrest, hrestne⟩ := ih hne hws
      rw [List.intercalate_cons_cons]
      exact ⟨hw.append hrest hwne (hrestne (List.cons_ne_nil _ _)) separator, by simp [hwne]⟩

end ProductLine.Text
