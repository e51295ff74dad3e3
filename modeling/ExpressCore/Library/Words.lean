import Mathlib.Data.List.Chain
import Mathlib.Data.List.TakeWhile

/-! # Words between separators

The runs of a list between separators, and how a list is put together from them again. -/

namespace Words

variable {α : Type} {sep sep' : α → Bool} {c : α} {text text' front back : List α}

/-- The maximal runs of elements that are no separators. -/
def words (sep : α → Bool) : List α → List (List α)
  | [] => []
  | c :: rest =>
      if sep c then words sep rest
      else if rest.head?.all sep then [c] :: words sep rest
      else (words sep rest).modifyHead (c :: ·)

theorem words_cons_sep (h : sep c = true) : words sep (c :: text) = words sep text := by
  simp [words, h]

theorem words_ne_nil (sep : α → Bool) {text : List α} (h : text.head?.all sep = false) :
    words sep text ≠ [] := by
  induction text with
  | nil => simp at h
  | cons c rest ih =>
      have hc : sep c = false := by simpa using h
      by_cases hrest : rest.head?.all sep = true
      · simp [words, hc, hrest]
      · simpa [words, hc, hrest] using ih (by simpa using hrest)

/-! ## Texts with the same words -/

/-- The same words, and at the front a separator in both or in neither. -/
structure Alike (sep sep' : α → Bool) (text text' : List α) : Prop where
  head : text.head?.all sep = text'.head?.all sep'
  same : words sep text = words sep' text'

theorem Alike.refl : Alike sep sep text text := ⟨rfl, rfl⟩

theorem Alike.cons (h : Alike sep sep' text text') (hc : sep c = sep' c) :
    Alike sep sep' (c :: text) (c :: text') where
  head := by simpa using hc
  same := by simp only [words, h.head, h.same, hc]

theorem words_append_seps (h : ∀ c ∈ front, sep c = true) :
    words sep (front ++ text) = words sep text := by
  induction front with
  | nil => rfl
  | cons c front ih =>
      rw [List.cons_append, words_cons_sep (h c (.head _))]
      exact ih fun d hd => h d (.tail _ hd)

/-- Separators at the end change nothing. -/
theorem alike_append_seps (h : ∀ c ∈ back, sep c = true) :
    Alike sep sep (text ++ back) text := by
  induction text with
  | nil =>
      have hwords : words sep (back ++ []) = words sep [] := words_append_seps h
      cases back with
      | nil => exact .refl
      | cons c back => exact ⟨by simpa using h c (.head _), by simpa using hwords⟩
  | cons c text ih => exact ih.cons rfl

theorem words_between (hfront : ∀ c ∈ front, sep c = true) (hback : ∀ c ∈ back, sep c = true) :
    words sep (front ++ text ++ back) = words sep text := by
  rw [List.append_assoc, words_append_seps hfront]
  exact (alike_append_seps hback).same

/-- What trimming takes off a list. -/
theorem exists_trim (p : α → Bool) (text : List α) :
    ∃ front back, text = front ++ ((text.dropWhile p).reverse.dropWhile p).reverse ++ back ∧
      (∀ c ∈ front, p c = true) ∧ ∀ c ∈ back, p c = true := by
  refine ⟨text.takeWhile p, ((text.dropWhile p).reverse.takeWhile p).reverse, ?_, ?_, ?_⟩
  · rw [List.append_assoc, ← List.reverse_append, List.takeWhile_append_dropWhile,
      List.reverse_reverse, List.takeWhile_append_dropWhile]
  · exact fun c hc => List.mem_takeWhile_imp hc
  · exact fun c hc => List.mem_takeWhile_imp (List.mem_reverse.mp hc)

/-! ## Joined words -/

/-- A list with single separators between its words, and none at the end, is its words joined. -/
theorem intercalate_words (text : List α) {dash : α} (hsep : ∀ c, sep c = true ↔ c = dash)
    (hlast : text.getLast? ≠ some dash) (hapart : text.IsChain fun c d => c ≠ dash ∨ d ≠ dash) :
    [dash].intercalate (words sep text) = text.dropWhile sep := by
  induction text with
  | nil => rfl
  | cons c rest ih =>
      have hrest : [dash].intercalate (words sep rest) = rest.dropWhile sep := by
        cases rest with
        | nil => rfl
        | cons d others => exact ih (by simpa using hlast) (List.isChain_cons_cons.mp hapart).2
      by_cases hc : sep c = true
      · rw [words_cons_sep hc, hrest, List.dropWhile_cons_of_pos hc]
      · rw [List.dropWhile_cons_of_neg hc]
        cases rest with
        | nil => simp [words, hc]
        | cons d others =>
            by_cases hd : sep d = true
            · -- `d` is the one separator after the word `[c]`
              obtain rfl := (hsep d).mp hd
              cases others with
              | nil => simp at hlast
              | cons e others =>
                  have he : sep e ≠ true := fun he => by
                    have h := (List.isChain_cons_cons.mp (List.isChain_cons_cons.mp hapart).2).1
                    simp [(hsep e).mp he] at h
                  have hne : words sep (d :: e :: others) ≠ [] := by
                    rw [words_cons_sep hd]
                    exact words_ne_nil sep (by simpa using he)
                  have hwords : words sep (c :: d :: e :: others) =
                      [c] :: words sep (d :: e :: others) := by
                    rw [words, if_neg hc, if_pos (by simpa using hd)]
                  rw [hwords, List.intercalate_cons_of_ne_nil hne, hrest,
                    List.dropWhile_cons_of_pos hd, List.dropWhile_cons_of_neg he]
                  rfl
            · -- `c` belongs to the word that `d` begins
              have hwords : words sep (c :: d :: others) =
                  (words sep (d :: others)).modifyHead (c :: ·) := by
                rw [words, if_neg hc, if_neg (by simpa using hd)]
              rw [List.dropWhile_cons_of_neg hd] at hrest
              obtain ⟨w, ws, heq⟩ := List.exists_cons_of_ne_nil
                (words_ne_nil sep (show (d :: others).head?.all sep = false by simpa using hd))
              rw [hwords, heq, List.modifyHead_cons, ← hrest, heq, List.intercalate_cons_cons_left]

end Words
