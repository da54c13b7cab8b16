import Mathlib

/-!
# Lines and words of a text

A text is read line by line, and a line word by word: `lines` is what calls of
`getline` return until the end, and `extract` is one extraction of a word from
a stream, which leaves the word as it was when there is none left.

`words` says what the words of a text are without reading it, by cutting it at
white space and leaving the empty pieces out. The two lemmas about `extract`
are all there is to know of it: it returns the first word, or the old one, and
what is left has the other words. This module is a library, over any alphabet.
-/

namespace TextStream

variable {α : Type}

/-- The lines of a text. A text that ends with the end of a line has no empty
line behind it. -/
def lines [DecidableEq α] (newline : α) : List α → List (List α)
  | [] => []
  | a :: text =>
    if a = newline then [] :: lines newline text
    else
      match lines newline text with
      | [] => [[a]]
      | line :: rest => (a :: line) :: rest

variable (space : α → Bool)

/-- `stream >> word`: what is left of the stream, and the word. At the end of
the stream the word is as it was. -/
def extract (stream word : List α) : List α × List α :=
  match stream.dropWhile space with
  | [] => ([], word)
  | a :: rest =>
    ((a :: rest).dropWhile (fun b => !space b), (a :: rest).takeWhile (fun b => !space b))

/-- **The words of a text**: what stands between white space. -/
def words (text : List α) : List (List α) := (text.splitOnP space).filter (fun w => !w.isEmpty)

variable {space} {text : List α}

theorem words_nil : words space [] = [] := rfl

/-- White space in front is not part of a word. -/
theorem words_cons_of_pos {a : α} (h : space a = true) :
    words space (a :: text) = words space text := by
  rw [words, List.splitOnP_cons_eq_if_modifyHead, if_pos h]
  rfl

/-- What is behind white space does not begin with it. -/
theorem not_space_of_dropWhile {p : α → Bool} {a : α} {rest : List α}
    (h : text.dropWhile p = a :: rest) : p a = false := by
  have hhead := List.head?_dropWhile_not p text
  rw [h] at hhead
  exact hhead

theorem words_dropWhile (text : List α) :
    words space (text.dropWhile space) = words space text := by
  induction text with
  | nil => rfl
  | cons a text ih =>
    by_cases h : space a = true
    · rw [List.dropWhile_cons_of_pos h, words_cons_of_pos h, ih]
    · rw [List.dropWhile_cons_of_neg h]

/-- **The first word** goes as far as there is no white space. -/
theorem words_cons_of_neg {a : α} (h : ¬ space a = true) :
    words space (a :: text) = (a :: text).takeWhile (fun b => !space b)
      :: words space ((a :: text).dropWhile (fun b => !space b)) := by
  have hword : ∀ b ∈ (a :: text).takeWhile (fun b => !space b), space b = false := by
    intro b hb
    simpa using List.mem_takeWhile_imp hb
  have hne : (a :: text).takeWhile (fun b => !space b) ≠ [] := by
    rw [List.takeWhile_cons_of_pos (by simpa using h)]
    exact List.cons_ne_nil _ _
  have hsplit := List.takeWhile_append_dropWhile (p := fun b => !space b) (l := a :: text)
  generalize (a :: text).takeWhile (fun b => !space b) = w at *
  cases hrest : (a :: text).dropWhile (fun b => !space b) with
  | nil =>
    rw [hrest, List.append_nil] at hsplit
    rw [← hsplit, words, List.splitOnP_eq_singleton hword]
    simp [hne, words_nil]
  | cons sep rest =>
    have hsep : space sep = true := by simpa using not_space_of_dropWhile hrest
    rw [hrest] at hsplit
    rw [words_cons_of_pos hsep, ← hsplit, words,
      List.splitOnP_append_cons_of_forall_mem hword sep hsep,
      List.filter_cons_of_pos (by simpa using hne)]
    rfl

/-- **The word that is extracted is the first one**, or the old one if there is
none. -/
theorem extract_snd (stream word : List α) :
    (extract space stream word).2 = (words space stream).headD word := by
  rw [← words_dropWhile stream, extract]
  cases hdrop : stream.dropWhile space with
  | nil => rfl
  | cons a rest =>
    rw [words_cons_of_neg (ne_true_of_eq_false (not_space_of_dropWhile hdrop))]
    rfl

/-- **What is left has the other words.** -/
theorem words_extract (stream word : List α) :
    words space (extract space stream word).1 = (words space stream).tail := by
  rw [← words_dropWhile stream, extract]
  cases hdrop : stream.dropWhile space with
  | nil => rfl
  | cons a rest =>
    rw [words_cons_of_neg (ne_true_of_eq_false (not_space_of_dropWhile hdrop))]
    rfl

/-- A word is not empty. -/
theorem ne_nil_of_mem_words {w : List α} (h : w ∈ words space text) : w ≠ [] := by
  have := (List.mem_filter.mp h).2
  simpa using this

end TextStream
