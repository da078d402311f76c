import Docsmith.Text.Blank

namespace Docsmith.Text

/-!
# Fewer words

A text has no more words when letters are taken out of it, whatever they stood between.  A word that takes the
place of a letter makes it no more either, for the letter belonged to a word.

* `wordStarts`: the number of words that begin among some letters, and `length_words`: those of a text.
* `Tamer`: letters that come of others when some are taken out or give way to words.
* `Tamer.wordStarts_le`: there are no more words among them.
-/

variable {α : Type} {blank : α → Bool} {c : α} {w xs xs' ys ys' : List α}

/-- The number of words that begin among some letters.  The flag says that a word is under way before. -/
def wordStarts (blank : α → Bool) : Bool → List α → Nat
  | _, [] => 0
  | within, c :: rest =>
    if blank c then wordStarts blank false rest
    else (if within then 0 else 1) + wordStarts blank true rest

theorem wordStarts_blank (within : Bool) (hc : blank c = true) :
    wordStarts blank within (c :: xs) = wordStarts blank false xs := by
  rw [wordStarts, if_pos hc]

theorem wordStarts_ink (within : Bool) (hc : blank c = false) :
    wordStarts blank within (c :: xs) = (if within then 0 else 1) + wordStarts blank true xs := by
  rw [wordStarts, if_neg (by rw [hc]; decide)]

/-- The words that are split off are the one under way, if there is one, and those that begin. -/
theorem length_wordsFrom (acc cs : List Char) :
    (wordsFrom acc cs).length = (if acc.isEmpty then 0 else 1) + wordStarts isBlank (!acc.isEmpty) cs := by
  fun_induction wordsFrom acc cs with
  | case1 => rfl
  | case2 c acc => rfl
  | case3 c rest hc ih => rw [ih, wordStarts_blank _ hc]; rfl
  | case4 c rest hc a acc ih =>
    rw [List.length_cons, ih, wordStarts_blank _ hc, List.isEmpty_cons, List.isEmpty_nil]
    simp only [if_true, Bool.not_true, Bool.false_eq_true, if_false]
    omega
  | case5 acc c rest hc ih =>
    rw [ih, wordStarts_ink _ (by simpa using hc), List.isEmpty_cons]
    cases acc <;> simp

/-- The number of words of a text. -/
theorem length_words (s : String) : (words s).length = wordStarts isBlank false s.toList := by
  rw [words, List.length_map, wordsOf, length_wordsFrom]
  simp

/-- Some letters come of others: some of them are taken out, and some that are no white space give way to
    words. -/
inductive Tamer (blank : α → Bool) : List α → List α → Prop where
  | nil : Tamer blank [] []
  | keep (c : α) {xs ys : List α} (h : Tamer blank xs ys) : Tamer blank (c :: xs) (c :: ys)
  | drop (c : α) {xs ys : List α} (h : Tamer blank xs ys) : Tamer blank (c :: xs) ys
  | word {c : α} {w xs ys : List α} (hc : blank c = false) (hw : ∀ d ∈ w, blank d = false)
      (h : Tamer blank xs ys) : Tamer blank (c :: xs) (w ++ ys)

namespace Tamer

theorem of_sublist (h : ys.Sublist xs) : Tamer blank xs ys := by
  induction h with
  | slnil => exact .nil
  | cons c _ ih => exact .drop c ih
  | cons_cons c _ ih => exact .keep c ih

theorem append (h : Tamer blank xs ys) (h' : Tamer blank xs' ys') : Tamer blank (xs ++ xs') (ys ++ ys') := by
  induction h with
  | nil => exact h'
  | keep c _ ih => exact .keep c ih
  | drop c _ ih => exact .drop c ih
  | word hc hw _ ih =>
    rw [List.append_assoc]
    exact .word hc hw ih

end Tamer

/-- The letters of a word begin no other. -/
theorem wordStarts_word (within : Bool) (hw : ∀ d ∈ w, blank d = false) (hne : w ≠ []) (xs : List α) :
    wordStarts blank within (w ++ xs) = (if within then 0 else 1) + wordStarts blank true xs := by
  induction w generalizing within with
  | nil => exact absurd rfl hne
  | cons d rest ih =>
    rw [List.cons_append, wordStarts_ink _ (hw d List.mem_cons_self)]
    by_cases hrest : rest = []
    · rw [hrest]
      rfl
    · rw [ih true (fun e he => hw e (List.mem_cons_of_mem d he)) hrest]
      simp

/-- **There are no more words** when letters are taken out or give way to words.  A word that is under way
    before one of the two only may be counted for the other. -/
theorem Tamer.wordStarts_le (h : Tamer blank xs ys) (p q : Bool) :
    wordStarts blank p ys ≤ wordStarts blank q xs + if q && !p then 1 else 0 := by
  -- the flags say whether a word is open at the front of each text, and the bound grows by one where they differ
  induction h generalizing p q with
  | nil => exact Nat.zero_le _
  | @keep c xs ys _ ih =>
    cases hc : blank c with
    | true =>
      have hrest := ih false false
      rw [wordStarts_blank _ hc, wordStarts_blank _ hc]
      simp only [Bool.false_and, Bool.false_eq_true, if_false] at hrest
      omega
    | false =>
      have hrest := ih true true
      rw [wordStarts_ink _ hc, wordStarts_ink _ hc]
      cases p <;> cases q <;> simp at hrest ⊢ <;> omega
  -- what is dropped starts no word: it may join two of them or shorten one
  | @drop c xs ys _ ih =>
    cases hc : blank c with
    | true =>
      have hrest := ih p false
      rw [wordStarts_blank _ hc]
      simp only [Bool.false_and, Bool.false_eq_true, if_false] at hrest
      omega
    | false =>
      have hrest := ih p true
      rw [wordStarts_ink _ hc]
      cases p <;> cases q <;> simp at hrest ⊢ <;> omega
  -- the word stands where the letter did, and has a start of its own only where the letter had one
  | @word c w xs ys hc hw _ ih =>
    rw [wordStarts_ink _ hc]
    by_cases hne : w = []
    · have hrest := ih p true
      rw [hne, List.nil_append]
      cases p <;> cases q <;> simp at hrest ⊢ <;> omega
    · have hrest := ih true true
      rw [wordStarts_word _ hw hne]
      cases p <;> cases q <;> simp at hrest ⊢ <;> omega

end Docsmith.Text
