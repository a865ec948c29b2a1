import Stencil.Text.Blank

/-!
# The words of a text

* `words_of_isAllBlank`   blanks only are no words;
* `words_word`            a text without blanks is one word;
* `words_word_blank`      a word and a blank go in front of the words behind them.
-/

namespace Stencil.Text

theorem words_of_isAllBlank {s : List Char} (h : isAllBlank s = true) : words s = [] := by
  induction s with
  | nil => exact words_nil
  | cons c s ih =>
    obtain ⟨hc, hs⟩ := Bool.and_eq_true_iff.mp h
    rw [words_cons_blank hc, ih hs]

theorem wordsFrom_blank {b : Char} (hb : isBlank b = true) (s : List Char) :
    wordsFrom (b :: s) = ([], words s) := by
  rw [wordsFrom, if_pos hb]
  rfl

/-- characters that are not blank belong to the word at the start -/
theorem wordsFrom_append {w : List Char} (hw : ∀ c ∈ w, isBlank c = false) (s : List Char) :
    wordsFrom (w ++ s) = (w ++ (wordsFrom s).1, (wordsFrom s).2) := by
  induction w with
  | nil => rfl
  | cons c w ih =>
    obtain ⟨hc, hw⟩ := List.forall_mem_cons.mp hw
    rw [List.cons_append, wordsFrom, ih hw, hc]
    rfl

theorem consWord_of_ne {w : List Char} (h : w ≠ []) (ws : List (List Char)) :
    consWord w ws = w :: ws :=
  if_neg (fun he => h (List.isEmpty_iff.mp he))

theorem words_word {w : List Char} (hne : w ≠ []) (hw : ∀ c ∈ w, isBlank c = false) :
    words w = [w] := by
  have h := wordsFrom_append hw []
  rw [List.append_nil] at h
  rw [words, h]
  exact (congrArg (consWord · []) (List.append_nil w)).trans (consWord_of_ne hne [])

theorem words_word_blank {w : List Char} (hne : w ≠ []) (hw : ∀ c ∈ w, isBlank c = false)
    {b : Char} (hb : isBlank b = true) (s : List Char) : words (w ++ b :: s) = w :: words s := by
  rw [words, wordsFrom_append hw, wordsFrom_blank hb, List.append_nil, consWord_of_ne hne]

end Stencil.Text
