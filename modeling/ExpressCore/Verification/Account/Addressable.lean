import ExpressCore.Library.Words
import ExpressCore.Verification.Account.Candidates
import ExpressCore.Verification.System.Characters
import Mathlib.Data.List.Chain
import Mathlib.Data.List.TakeWhile

/-! # The shape of slugs

A slug that can be put into a path: groups of lowercase letters and digits. -/

namespace ExpressCore.Candidates

open Interleaving Words

/-- Lowercase ASCII letters and digits. -/
def isSlugChar (c : Char) : Bool := c.isLower || c.isDigit

/-- Not two hyphens. -/
def Apart (c d : Char) : Prop := c ≠ '-' ∨ d ≠ '-'

/-- Lowercase ASCII letters and digits in groups with single hyphens between them. -/
structure Addressable (slug : String) : Prop where
  nonempty : slug.toList ≠ []
  chars : ∀ c ∈ slug.toList, isSlugChar c = true ∨ c = '-'
  head : slug.toList.head? ≠ some '-'
  last : slug.toList.getLast? ≠ some '-'
  apart : slug.toList.IsChain Apart

/-! ## The rewrites of `toSlug` -/

section Rewrites

variable {p : Char → Bool} {c : Char} {text : List Char}

theorem mem_hyphenate (h : c ∈ hyphenate p text) : c = '-' ∨ c ∈ text ∧ p c = false := by
  induction text with
  | nil => cases h
  | cons d rest ih =>
      have hrest (hc : c ∈ hyphenate p rest) : c = '-' ∨ c ∈ d :: rest ∧ p c = false :=
        (ih hc).imp id fun h => ⟨.tail _ h.1, h.2⟩
      rw [hyphenate] at h
      split at h
      · split at h
        · rename_i others heq
          split at h
          · exact hrest (heq ▸ h)
          · rcases List.mem_cons.mp h with rfl | h
            · exact .inl rfl
            · exact hrest (heq ▸ h)
        · rcases List.mem_cons.mp h with rfl | h
          · exact .inl rfl
          · exact hrest h
      · rename_i hp
        rcases List.mem_cons.mp h with rfl | h
        · exact .inr ⟨.head _, by simpa using hp⟩
        · exact hrest h

theorem mem_hyphenate_of_not (h : c ∈ text) (hp : p c = false) : c ∈ hyphenate p text := by
  induction text with
  | nil => cases h
  | cons d rest ih =>
      rw [hyphenate]
      split
      · rename_i hd
        have hrest : c ∈ hyphenate p rest := by
          rcases List.mem_cons.mp h with rfl | h
          · rw [hp] at hd
            cases hd
          · exact ih h
        split
        · rename_i others heq
          rw [heq] at hrest
          split
          · exact hrest
          · exact .tail _ hrest
        · exact .tail _ hrest
      · rcases List.mem_cons.mp h with rfl | h
        · exact .head _
        · exact .tail _ (ih h)

/-- Collapsing hyphens leaves a hyphen in front only where there was one. -/
theorem head_hyphenate (h : (hyphenate (· = '-') text).head? = some '-') :
    text.head? = some '-' := by
  cases text with
  | nil => cases h
  | cons d rest =>
      by_cases hd : d = '-'
      · rw [hd, List.head?_cons]
      · simp [hyphenate, hd] at h

theorem hyphenate_apart : (hyphenate (· = '-') text).IsChain Apart := by
  induction text with
  | nil => exact .nil
  | cons d rest ih =>
      rw [hyphenate]
      split
      · split
        · rename_i others heq
          have hhead : rest.head? = some '-' := head_hyphenate (by rw [heq]; rfl)
          simp only [hhead, Option.any_some, decide_true, if_true]
          exact heq ▸ ih
        · rename_i hnot
          refine List.isChain_cons.mpr ⟨fun e he => .inr ?_, ih⟩
          rintro rfl
          cases heq : hyphenate (· = '-') rest with
          | nil => simp [heq] at he
          | cons f others =>
              obtain rfl : f = '-' := by simpa [heq] using he
              exact hnot others heq
      · rename_i hd
        exact List.isChain_cons.mpr ⟨fun e _ => .inl (by simpa using hd), ih⟩

/-! ## Trimming -/

theorem infix_dropWhile : text.dropWhile p <:+: text :=
  (List.dropWhile_suffix p).isInfix

theorem infix_trim : ((text.dropWhile p).reverse.dropWhile p).reverse <:+: text := by
  have h : ((text.dropWhile p).reverse.dropWhile p).reverse <+: text.dropWhile p := by
    have hsuffix := List.dropWhile_suffix p (l := (text.dropWhile p).reverse)
    simpa using List.reverse_prefix.mpr hsuffix
  exact h.isInfix.trans infix_dropWhile

theorem mem_dropWhile_of_not (h : c ∈ text) (hp : p c = false) : c ∈ text.dropWhile p := by
  rw [← List.takeWhile_append_dropWhile (p := p) (l := text)] at h
  rcases List.mem_append.mp h with h | h
  · simp [List.mem_takeWhile_imp h] at hp
  · exact h

theorem mem_trim_of_not (h : c ∈ text) (hp : p c = false) :
    c ∈ ((text.dropWhile p).reverse.dropWhile p).reverse :=
  List.mem_reverse.mpr (mem_dropWhile_of_not
    (List.mem_reverse.mpr (mem_dropWhile_of_not h hp)) hp)

theorem head_dropWhile (h : (text.dropWhile p).head? = some c) : p c = false := by
  have hall := List.head?_dropWhile_not p text
  rw [h] at hall
  simpa using hall

theorem head_trim (h : ((text.dropWhile p).reverse.dropWhile p).reverse.head? = some c) :
    p c = false := by
  have hp : ((text.dropWhile p).reverse.dropWhile p).reverse <+: text.dropWhile p := by
    have hsuffix := List.dropWhile_suffix p (l := (text.dropWhile p).reverse)
    simpa using List.reverse_prefix.mpr hsuffix
  obtain ⟨rest, hrest⟩ := hp
  have hhead : (text.dropWhile p).head? = some c := by
    rw [← hrest, List.head?_append, h]
    rfl
  exact head_dropWhile hhead

theorem last_trim (h : ((text.dropWhile p).reverse.dropWhile p).reverse.getLast? = some c) :
    p c = false := by
  rw [List.getLast?_reverse] at h
  exact head_dropWhile h

end Rewrites

/-! ## The characters -/

theorem toLowerCase_not_upper {c d : Char} (h : d ∈ toLowerCase c) : d.isUpper = false := by
  unfold toLowerCase at h
  split at h
  · rw [List.mem_singleton.mp h]
    rfl
  · split at h
    · rcases List.mem_cons.mp h with rfl | h
      · rfl
      · rw [List.mem_singleton.mp h]
        decide
    · rw [List.mem_singleton.mp h]
      exact toLower_not_upper c

/-- What `toSlug` keeps of a lowercase character that it does not make a hyphen. -/
theorem isSlugChar_of_kept {c : Char} (hupper : c.isUpper = false)
    (hkept : (isWord c || isSpace c || decide (c = '-')) = true)
    (hseparator : (isSpace c || decide (c = '_')) = false) (hne : c ≠ '-') :
    isSlugChar c = true := by
  simp only [isWord, Char.isAlphanum, isAlpha_eq] at hkept
  simp_all [isSlugChar]

theorem separators_of_isSlugChar {c : Char} (h : isSlugChar c = true) :
    isWord c = true ∧ isSpace c = false ∧ c ≠ '_' ∧ c ≠ '-' := by
  have hword : isWord c = true := by
    simp only [isSlugChar, Bool.or_eq_true] at h
    rcases h with h | h <;> simp [isWord, Char.isAlphanum, isAlpha_eq, h]
  refine ⟨hword, isSpace_of_isWord hword, ?_, ?_⟩ <;> rintro rfl <;> cases h

/-! ## `toSlug` -/

/-- What is left of a text after the third rewrite. -/
def hyphened (text : String) : List Char :=
  let lowered := text.toList.flatMap toLowerCase
  let trimmed := ((lowered.dropWhile isSpace).reverse.dropWhile isSpace).reverse
  hyphenate (fun c => isSpace c || c = '_')
    (trimmed.filter fun c => isWord c || isSpace c || c = '-')

theorem toList_toSlug (text : String) :
    (toSlug text).toList = trimHyphens (hyphenate (· = '-') (hyphened text)) :=
  String.toList_ofList

/-- The text has a letter or a digit that is ASCII in lower case. -/
def HasSlugChar (text : String) : Prop :=
  ∃ c ∈ text.toList, ∃ d ∈ toLowerCase c, isSlugChar d = true

theorem mem_hyphened {text : String} {c : Char} (h : c ∈ hyphened text) (hne : c ≠ '-') :
    isSlugChar c = true ∧ HasSlugChar text := by
  rcases mem_hyphenate h with rfl | ⟨h, hseparator⟩
  · exact (hne rfl).elim
  · obtain ⟨hmem, hkept⟩ := List.mem_filter.mp h
    obtain ⟨d, hd, hc⟩ := List.mem_flatMap.mp (infix_trim.subset hmem)
    have hslug := isSlugChar_of_kept (toLowerCase_not_upper hc) hkept hseparator hne
    exact ⟨hslug, d, hd, c, hc, hslug⟩

theorem mem_toSlug {text : String} {c : Char} (h : c ∈ (toSlug text).toList) :
    isSlugChar c = true ∨ c = '-' := by
  rw [toList_toSlug] at h
  by_cases hne : c = '-'
  · exact .inr hne
  · rcases mem_hyphenate (infix_trim.subset h) with hc | ⟨hc, -⟩
    · exact .inr hc
    · exact .inl (mem_hyphened hc hne).1

theorem toSlug_nonempty_iff {text : String} : (toSlug text).toList ≠ [] ↔ HasSlugChar text := by
  rw [toList_toSlug]
  constructor
  · intro h
    obtain ⟨c, rest, heq⟩ := List.exists_cons_of_ne_nil h
    have hc : c ≠ '-' := by
      have hhead : (trimHyphens (hyphenate (· = '-') (hyphened text))).head? = some c := by
        rw [heq]
        rfl
      simpa using head_trim hhead
    have hmem : c ∈ trimHyphens (hyphenate (· = '-') (hyphened text)) := heq ▸ .head _
    rcases mem_hyphenate (infix_trim.subset hmem) with hdash | ⟨hmem, -⟩
    · exact (hc hdash).elim
    · exact (mem_hyphened hmem hc).2
  · rintro ⟨c, hc, d, hd, hslug⟩
    obtain ⟨hword, hspace, hunderscore, hdash⟩ := separators_of_isSlugChar hslug
    have hlowered : d ∈ text.toList.flatMap toLowerCase := List.mem_flatMap.mpr ⟨c, hc, hd⟩
    have hhyphened : d ∈ hyphened text :=
      mem_hyphenate_of_not (List.mem_filter.mpr ⟨mem_trim_of_not hlowered hspace, by simp [hword]⟩)
        (by simp [hspace, hunderscore])
    exact List.ne_nil_of_mem (mem_trim_of_not
      (mem_hyphenate_of_not hhyphened (by simpa using hdash)) (by simpa using hdash))

theorem head_toSlug {text : String} : (toSlug text).toList.head? ≠ some '-' := by
  rw [toList_toSlug]
  intro h
  simpa using head_trim h

theorem last_toSlug {text : String} : (toSlug text).toList.getLast? ≠ some '-' := by
  rw [toList_toSlug]
  intro h
  simpa using last_trim h

theorem apart_toSlug {text : String} : (toSlug text).toList.IsChain Apart := by
  rw [toList_toSlug]
  exact hyphenate_apart.infix infix_trim

theorem addressable_toSlug {text : String} (h : HasSlugChar text) : Addressable (toSlug text) where
  nonempty := toSlug_nonempty_iff.mpr h
  chars _ hc := mem_toSlug hc
  head := head_toSlug
  last := last_toSlug
  apart := apart_toSlug

/-! ## The words of a text -/

/-- What stands between words. -/
def isBreak (c : Char) : Bool := isSpace c || c = '_' || c = '-'

/-- The words of a text: the runs of ASCII letters and digits of its lower case, where characters
that are neither these nor breaks are passed over. -/
def slugWords (text : String) : List (List Char) :=
  words isBreak
    ((text.toList.flatMap toLowerCase).filter fun c => isSlugChar c || isBreak c)

def isHyphen (c : Char) : Bool := c = '-'

/-- The hyphens are as good as the runs they replace. -/
theorem alike_hyphenate {p sep : Char → Bool} (hsep : ∀ c, sep c = (p c || isHyphen c))
    (text : List Char) : Alike isHyphen sep (hyphenate p text) text := by
  induction text with
  | nil => exact ⟨rfl, rfl⟩
  | cons c rest ih =>
      rw [hyphenate]
      split
      · rename_i hp
        have hc : sep c = true := by simp [hsep, hp]
        have hdash : Alike isHyphen sep ('-' :: hyphenate p rest) (c :: rest) := by
          constructor
          · simp [hc, isHyphen]
          · rw [words_cons_sep (by rfl), words_cons_sep hc, ih.same]
        split
        · rename_i others heq
          split
          · refine ⟨by simp [hc, isHyphen], ?_⟩
            rw [words_cons_sep hc, ← heq]
            exact ih.same
          · rwa [heq] at hdash
        · exact hdash
      · rename_i hp
        exact ih.cons (by simp [hsep, hp])

theorem isBreak_of_isSpace {c : Char} (h : isSpace c = true) : isBreak c = true := by
  simp [isBreak, h]

/-- Among lowercase characters `toSlug` keeps those of the words and the breaks. -/
theorem kept_eq {c : Char} (hupper : c.isUpper = false) :
    (isWord c || isSpace c || decide (c = '-')) = (isSlugChar c || isBreak c) := by
  have hword : isWord c = (isSlugChar c || c == '_') := by
    simp [isWord, Char.isAlphanum, isAlpha_eq, hupper, isSlugChar]
  rw [hword]
  unfold isBreak
  cases isSlugChar c <;> cases isSpace c <;> by_cases hc : c = '_' <;> simp [hc]

theorem words_hyphened (text : String) : words isHyphen (hyphened text) = slugWords text := by
  obtain ⟨front, back, hsplit, hfront, hback⟩ :=
    exists_trim isSpace (text.toList.flatMap toLowerCase)
  have hkept : (text.toList.flatMap toLowerCase).filter (fun c => isSlugChar c || isBreak c) =
      (text.toList.flatMap toLowerCase).filter fun c => isWord c || isSpace c || c = '-' := by
    refine List.filter_congr fun c hc => ?_
    obtain ⟨d, -, hd⟩ := List.mem_flatMap.mp hc
    exact (kept_eq (toLowerCase_not_upper hd)).symm
  have hbreak : ∀ c, isBreak c = ((isSpace c || decide (c = '_')) || isHyphen c) := fun _ => rfl
  calc words isHyphen (hyphened text)
    _ = words isBreak _ := (alike_hyphenate hbreak _).same
    _ = slugWords text := by
        unfold slugWords
        conv_rhs => rw [hkept, hsplit, List.filter_append, List.filter_append]
        refine (words_between ?_ ?_).symm
        · exact fun c hc => isBreak_of_isSpace (hfront c (List.mem_of_mem_filter hc))
        · exact fun c hc => isBreak_of_isSpace (hback c (List.mem_of_mem_filter hc))

theorem words_toSlug (text : String) : words isHyphen (toSlug text).toList = slugWords text := by
  obtain ⟨front, back, hsplit, hfront, hback⟩ :=
    exists_trim (· = '-') (hyphenate (· = '-') (hyphened text))
  rw [toList_toSlug, ← words_hyphened]
  calc words isHyphen (trimHyphens (hyphenate (· = '-') (hyphened text)))
    _ = words isHyphen (hyphenate (· = '-') (hyphened text)) := by
        conv_rhs => rw [hsplit]
        exact (words_between hfront hback).symm
    _ = words isHyphen (hyphened text) := (alike_hyphenate (by simp [isHyphen]) _).same

/-- `toSlug` joins the words of a text by hyphens. -/
theorem toSlug_eq_words (text : String) :
    (toSlug text).toList = ['-'].intercalate (slugWords text) := by
  have hhyphen : ∀ c, isHyphen c = true ↔ c = '-' := by simp [isHyphen]
  rw [← words_toSlug, intercalate_words (toSlug text).toList hhyphen last_toSlug apart_toSlug]
  refine (List.dropWhile_eq_self_iff.mpr fun hpos hfirst => ?_).symm
  have hhead : (toSlug text).toList.head? ≠ some '-' := head_toSlug
  rw [List.head?_eq_getElem?, List.getElem?_eq_getElem hpos] at hhead
  exact hhead (congrArg some ((hhyphen _).mp hfirst))

/-! ## Candidates -/

theorem apart_of_not_mem {chars : List Char} (h : '-' ∉ chars) : chars.IsChain Apart := by
  induction chars with
  | nil => exact .nil
  | cons c rest ih =>
      exact List.isChain_cons.mpr ⟨fun _ _ => .inl fun hc => h (hc ▸ .head _),
        ih fun hmem => h (.tail _ hmem)⟩

theorem toList_candidate_succ (text : String) (n : ℕ) :
    (candidate text (n + 1)).toList = (toSlug text).toList ++ '-' :: Nat.toDigits 10 (n + 1) := by
  have hdash : "-".toList = ['-'] := by decide
  simp [candidate, hdash]

theorem last_candidate_succ (text : String) (n : ℕ) :
    ∃ d, (candidate text (n + 1)).toList.getLast? = some d ∧ d.isDigit = true := by
  cases hd : (Nat.toDigits 10 (n + 1)).getLast? with
  | none => exact (Nat.toDigits_ne_nil (List.getLast?_eq_none_iff.mp hd)).elim
  | some d =>
      refine ⟨d, ?_, Nat.isDigit_of_mem_toDigits (by decide) (by decide) (List.mem_of_getLast? hd)⟩
      rw [toList_candidate_succ, List.getLast?_append, List.getLast?_cons, hd]
      rfl

/-- A number after a hyphen keeps the shape. -/
theorem Addressable.candidate {text : String} (h : Addressable (toSlug text)) (n : ℕ) :
    Addressable (candidate text n) := by
  cases n with
  | zero => exact h
  | succ n =>
      have hdigit (c : Char) (hc : c ∈ Nat.toDigits 10 (n + 1)) : c.isDigit = true :=
        Nat.isDigit_of_mem_toDigits (by decide) (by decide) hc
      have hdash : '-' ∉ Nat.toDigits 10 (n + 1) := fun hmem => by
        have := hdigit '-' hmem
        cases this
      obtain ⟨c, rest, hslug⟩ := List.exists_cons_of_ne_nil h.nonempty
      have htext := toList_candidate_succ text n
      constructor
      · simp [htext]
      · intro d hd
        rw [htext] at hd
        rcases List.mem_append.mp hd with hd | hd
        · exact h.chars d hd
        · rcases List.mem_cons.mp hd with rfl | hd
          · exact .inr rfl
          · exact .inl (by simp [isSlugChar, hdigit d hd])
      · have hhead := h.head
        rw [hslug] at hhead
        rw [htext, hslug]
        exact hhead
      · intro hlast
        obtain ⟨d, hd, hdigit⟩ := last_candidate_succ text n
        obtain rfl := Option.some.inj (hd.symm.trans hlast)
        cases hdigit
      · rw [htext]
        refine List.isChain_append.mpr ⟨h.apart, List.isChain_cons.mpr ⟨?_, apart_of_not_mem hdash⟩,
          ?_⟩
        · exact fun d hd => .inr fun heq => hdash (heq ▸ List.mem_of_mem_head? hd)
        · exact fun d hd _ _ => .inl fun heq => h.last (heq ▸ hd)

theorem not_addressable {text : String} (h : (toSlug text).toList = []) (n : ℕ) :
    ¬ Addressable (candidate text n) := by
  intro haddressable
  cases n with
  | zero => exact haddressable.nonempty h
  | succ n =>
      refine haddressable.head ?_
      rw [toList_candidate_succ, h]
      rfl

theorem addressable_candidate_iff (text : String) (n : ℕ) :
    Addressable (candidate text n) ↔ HasSlugChar text := by
  constructor
  · intro h
    by_contra hnot
    exact not_addressable (by_contra fun hne => hnot (toSlug_nonempty_iff.mp hne)) n h
  · exact fun h => (addressable_toSlug h).candidate n

end ExpressCore.Candidates
