import Mathlib.Data.List.TakeWhile

/-! # Global matches of a pattern

A pattern is a sequence of character classes with their quantifiers, as in a regular expression
without alternatives. Quantifiers are greedy and give back what the rest of the pattern needs. -/

namespace Pattern

variable {α β : Type}

inductive Count where
  | one
  | some
  | many
  deriving DecidableEq

/-- A class of characters, how many of them, and whether they belong to the group. -/
structure Part (α : Type) where
  accepts : α → Bool
  count : Count
  captured : Bool := false

def Count.Allows : Count → ℕ → Prop
  | .one, n => n = 1
  | .some, n => 1 ≤ n
  | .many, _ => True

/-- The lengths up to `n`, the longest first. -/
def Count.lengths : Count → ℕ → List ℕ
  | .one, n => if 1 ≤ n then [1] else []
  | .some, n => (List.range n).reverse.map (· + 1)
  | .many, n => (List.range (n + 1)).reverse

theorem Count.mem_lengths {count : Count} {n k : ℕ} :
    k ∈ count.lengths n ↔ k ≤ n ∧ count.Allows k := by
  cases count with
  | one =>
      simp only [lengths, Allows]
      split
      · simp; omega
      · simp; omega
  | some =>
      simp only [lengths, Allows, List.mem_map, List.mem_reverse, List.mem_range]
      constructor
      · rintro ⟨i, hi, rfl⟩
        omega
      · intro h
        exact ⟨k - 1, by omega, by omega⟩
  | many => simp [lengths, Allows, Nat.lt_succ_iff]

structure Match (α : Type) where
  text : List α
  group : List α
  rest : List α
  deriving DecidableEq

/-- The match at the start of `xs`, found by trying the longest runs first. -/
def matchAt : List (Part α) → List α → Option (Match α)
  | [], xs => some { text := [], group := [], rest := xs }
  | part :: parts, xs =>
      (part.count.lengths (xs.takeWhile part.accepts).length).findSome? fun n =>
        (matchAt parts (xs.drop n)).map fun found =>
          { text := xs.take n ++ found.text
            group := if part.captured then xs.take n ++ found.group else found.group
            rest := found.rest }

/-- `text` fits the whole pattern, with the group that it gives. -/
def Fits : List (Part α) → List α → List α → Prop
  | [], text, group => text = [] ∧ group = []
  | part :: parts, text, group => ∃ run text' group', text = run ++ text' ∧
      (∀ c ∈ run, part.accepts c = true) ∧ part.count.Allows run.length ∧
      group = (if part.captured then run ++ group' else group') ∧ Fits parts text' group'

variable {parts : List (Part α)} {xs text group rest : List α}

theorem take_takeWhile_length {p : α → Bool} {n : ℕ} (h : n ≤ (xs.takeWhile p).length) :
    ∀ c ∈ xs.take n, p c = true := by
  have hsplit : (xs.takeWhile p ++ xs.dropWhile p).take n = xs.take n := by
    rw [List.takeWhile_append_dropWhile]
  have htake : xs.take n = (xs.takeWhile p).take n :=
    hsplit.symm.trans (List.take_append_of_le_length h)
  intro c hc
  rw [htake] at hc
  exact List.mem_takeWhile_imp (List.mem_of_mem_take hc)

/-- What is found fits the pattern. -/
theorem fits_of_matchAt {found : Match α} (h : matchAt parts xs = some found) :
    xs = found.text ++ found.rest ∧ Fits parts found.text found.group := by
  induction parts generalizing xs found with
  | nil =>
      simp only [matchAt, Option.some.injEq] at h
      simp [← h, Fits]
  | cons part parts ih =>
      simp only [matchAt] at h
      obtain ⟨n, hn, hfound⟩ := List.exists_of_findSome?_eq_some h
      obtain ⟨inner, hinner, rfl⟩ := Option.map_eq_some_iff.mp hfound
      obtain ⟨hdrop, hfits⟩ := ih hinner
      obtain ⟨hle, hallows⟩ := Count.mem_lengths.mp hn
      have hlength : (xs.take n).length = n := by
        have hshort := (List.takeWhile_prefix (l := xs) part.accepts).length_le
        rw [List.length_take]
        omega
      refine ⟨?_, xs.take n, inner.text, inner.group, rfl, take_takeWhile_length hle, ?_, rfl,
        hfits⟩
      · rw [List.append_assoc, ← hdrop, List.take_append_drop]
      · rwa [hlength]

/-- Where a text fits, a match is found. -/
theorem matchAt_isSome (h : Fits parts text group) : (matchAt parts (text ++ rest)).isSome := by
  induction parts generalizing text group with
  | nil => rfl
  | cons part parts ih =>
      obtain ⟨run, text', group', rfl, haccepts, hallows, -, hfits⟩ := h
      have hlong : run.length ≤ ((run ++ text' ++ rest).takeWhile part.accepts).length := by
        rw [List.append_assoc, List.takeWhile_append_of_pos haccepts, List.length_append]
        omega
      have hdrop : (run ++ text' ++ rest).drop run.length = text' ++ rest := by
        rw [List.append_assoc, List.drop_left]
      rw [matchAt, List.findSome?_isSome_iff]
      refine ⟨run.length, Count.mem_lengths.mpr ⟨hlong, hallows⟩, ?_⟩
      rw [hdrop, Option.isSome_map]
      exact ih hfits

theorem matchAt_eq_none_iff : matchAt parts xs = none ↔
    ∀ text group rest, xs = text ++ rest → ¬ Fits parts text group := by
  constructor
  · rintro hnone text group rest rfl hfits
    have hsome : (matchAt parts (text ++ rest)).isSome := matchAt_isSome hfits
    rw [hnone] at hsome
    cases hsome
  · intro h
    cases hfound : matchAt parts xs with
    | none => rfl
    | some found =>
        obtain ⟨heq, hfits⟩ := fits_of_matchAt hfound
        exact (h _ _ _ heq hfits).elim

/-- No match is empty. -/
def Consumes (parts : List (Part α)) : Prop := ∃ part ∈ parts, part.count ≠ .many

instance : Decidable (Consumes parts) := inferInstanceAs (Decidable (∃ part ∈ parts, _))

theorem Fits.ne_nil (h : Fits parts text group) (hconsumes : Consumes parts) : text ≠ [] := by
  induction parts generalizing text group with
  | nil =>
      obtain ⟨part, hpart, -⟩ := hconsumes
      cases hpart
  | cons part parts ih =>
      obtain ⟨run, text', group', rfl, -, hallows, -, hfits⟩ := h
      obtain ⟨other, hother, hcount⟩ := hconsumes
      rcases List.mem_cons.mp hother with rfl | hother
      · have hpos : run ≠ [] := by
          rintro rfl
          cases hother' : other.count with
          | one => simp [hother', Count.Allows] at hallows
          | some => simp [hother', Count.Allows] at hallows
          | many => exact hcount hother'
        simp [hpos]
      · simp [ih hfits ⟨other, hother, hcount⟩]

/-! ### One part at a time -/

theorem fits_nil : Fits [] text group ↔ text = [] ∧ group = [] := Iff.rfl

theorem fits_one {accepts : α → Bool} :
    Fits ({ accepts, count := .one } :: parts) text group ↔
      ∃ c text', text = c :: text' ∧ accepts c = true ∧ Fits parts text' group := by
  constructor
  · rintro ⟨run, text', group', rfl, haccepts, hone, rfl, hfits⟩
    obtain ⟨c, rfl⟩ := List.length_eq_one_iff.mp hone
    exact ⟨c, text', rfl, haccepts c (List.mem_singleton_self c), hfits⟩
  · rintro ⟨c, text', rfl, haccepts, hfits⟩
    exact ⟨[c], text', group, rfl, by simpa using haccepts, rfl, rfl, hfits⟩

theorem fits_many {accepts : α → Bool} :
    Fits ({ accepts, count := .many } :: parts) text group ↔
      ∃ run text', text = run ++ text' ∧ (∀ c ∈ run, accepts c = true) ∧
        Fits parts text' group := by
  constructor
  · rintro ⟨run, text', group', rfl, haccepts, -, rfl, hfits⟩
    exact ⟨run, text', rfl, haccepts, hfits⟩
  · rintro ⟨run, text', rfl, haccepts, hfits⟩
    exact ⟨run, text', group, rfl, haccepts, trivial, rfl, hfits⟩

theorem fits_some {accepts : α → Bool} {captured : Bool} :
    Fits ({ accepts, count := .some, captured } :: parts) text group ↔
      ∃ run text' group', text = run ++ text' ∧ (∀ c ∈ run, accepts c = true) ∧ run ≠ [] ∧
        group = (if captured then run ++ group' else group') ∧ Fits parts text' group' := by
  constructor
  · rintro ⟨run, text', group', rfl, haccepts, hpos, rfl, hfits⟩
    exact ⟨run, text', group', rfl, haccepts, List.length_pos_iff.mp hpos, rfl, hfits⟩
  · rintro ⟨run, text', group', rfl, haccepts, hne, rfl, hfits⟩
    exact ⟨run, text', group', rfl, haccepts, List.length_pos_iff.mpr hne, rfl, hfits⟩

/-! ## All matches -/

inductive Piece (α : Type) where
  | plain (c : α)
  | found (text group : List α)
  deriving DecidableEq

def Piece.source : Piece α → List α
  | .plain c => [c]
  | .found text _ => text

/-- The text in pieces, with the matches from left to right; the number bounds its length. -/
def piecesFrom (parts : List (Part α)) : ℕ → List α → List (Piece α)
  | 0, _ => []
  | _, [] => []
  | n + 1, c :: rest =>
      match matchAt parts (c :: rest) with
      | some found => .found found.text found.group :: piecesFrom parts n found.rest
      | none => .plain c :: piecesFrom parts n rest

def pieces (parts : List (Part α)) (xs : List α) : List (Piece α) := piecesFrom parts xs.length xs

/-- Every match is the leftmost one that does not overlap those before it. -/
inductive Splits (parts : List (Part α)) : List α → List (Piece α) → Prop where
  | nil : Splits parts [] []
  | plain {c : α} {rest : List α} {ps : List (Piece α)}
      (hnone : ∀ text group rest', c :: rest = text ++ rest' → ¬ Fits parts text group)
      (hrest : Splits parts rest ps) : Splits parts (c :: rest) (.plain c :: ps)
  | found {text group rest : List α} {ps : List (Piece α)} (hfits : Fits parts text group)
      (hrest : Splits parts rest ps) : Splits parts (text ++ rest) (.found text group :: ps)

variable {ps ps' : List (Piece α)}

theorem splits_piecesFrom (hconsumes : Consumes parts) {n : ℕ} (h : xs.length ≤ n) :
    Splits parts xs (piecesFrom parts n xs) := by
  induction n generalizing xs with
  | zero =>
      obtain rfl : xs = [] := List.length_eq_zero_iff.mp (Nat.le_zero.mp h)
      exact .nil
  | succ n ih =>
      cases xs with
      | nil => exact .nil
      | cons c rest =>
          cases hfound : matchAt parts (c :: rest) with
          | none =>
              simp only [piecesFrom, hfound]
              exact .plain (matchAt_eq_none_iff.mp hfound) (ih (Nat.le_of_succ_le_succ h))
          | some found =>
              obtain ⟨heq, hfits⟩ := fits_of_matchAt hfound
              have hpos := List.length_pos_iff.mpr (hfits.ne_nil hconsumes)
              have hshort : found.rest.length ≤ n := by
                have hlength := congrArg List.length heq
                rw [List.length_append] at hlength
                omega
              simp only [piecesFrom, hfound]
              rw [heq]
              exact .found hfits (ih hshort)

theorem splits_pieces (hconsumes : Consumes parts) : Splits parts xs (pieces parts xs) :=
  splits_piecesFrom hconsumes (Nat.le_refl _)

/-- The pieces make up the text. -/
theorem Splits.source (h : Splits parts xs ps) : ps.flatMap Piece.source = xs := by
  induction h with
  | nil => rfl
  | plain _ _ ih => simp [Piece.source, ih]
  | found _ _ ih => simp [Piece.source, ih]

theorem Splits.fits (h : Splits parts xs ps) (hmem : .found text group ∈ ps) :
    Fits parts text group := by
  induction h with
  | nil => cases hmem
  | plain _ _ ih =>
      rcases List.mem_cons.mp hmem with heq | hmem
      · cases heq
      · exact ih hmem
  | found hfits _ ih =>
      rcases List.mem_cons.mp hmem with heq | hmem
      · cases heq
        exact hfits
      · exact ih hmem

/-- No match starts at a plain character. -/
theorem Splits.plain_mem {c : α} (h : Splits parts xs ps) (hmem : .plain c ∈ ps) :
    ∃ rest, ∀ text group rest', c :: rest = text ++ rest' → ¬ Fits parts text group := by
  induction h with
  | nil => cases hmem
  | plain hnone _ ih =>
      rcases List.mem_cons.mp hmem with heq | hmem
      · cases heq
        exact ⟨_, hnone⟩
      · exact ih hmem
  | found _ _ ih =>
      rcases List.mem_cons.mp hmem with heq | hmem
      · cases heq
      · exact ih hmem

/-- A text that fits ends where it ends, whatever follows. -/
def Unambiguous (parts : List (Part α)) : Prop :=
  ∀ text group rest text' group' rest', text ++ rest = text' ++ rest' → Fits parts text group →
    Fits parts text' group' → text = text' ∧ group = group'

/-- There is one way to split a text. -/
theorem Splits.unique (hunambiguous : Unambiguous parts) (hconsumes : Consumes parts)
    (h : Splits parts xs ps) (h' : Splits parts xs ps') : ps = ps' := by
  induction h generalizing ps' with
  | nil =>
      generalize hxs : ([] : List α) = xs at h'
      cases h' with
      | nil => rfl
      | plain _ _ => cases hxs
      | found hfits _ =>
          exact absurd (List.append_eq_nil_iff.mp hxs.symm).1 (hfits.ne_nil hconsumes)
  | @plain c rest ps hnone _ ih =>
      generalize hxs : c :: rest = xs at h'
      cases h' with
      | nil => cases hxs
      | plain _ hrest =>
          cases hxs
          rw [ih hrest]
      | found hfits _ => exact (hnone _ _ _ hxs hfits).elim
  | @found text group rest ps hfits _ ih =>
      generalize hxs : text ++ rest = xs at h'
      cases h' with
      | nil => exact absurd (List.append_eq_nil_iff.mp hxs).1 (hfits.ne_nil hconsumes)
      | plain hnone _ => exact (hnone _ _ _ hxs.symm hfits).elim
      | found hfits' hrest =>
          obtain ⟨rfl, rfl⟩ := hunambiguous _ _ _ _ _ _ hxs hfits hfits'
          rw [ih (List.append_cancel_left hxs ▸ hrest)]

/-! ## Replacement -/

def Piece.replace (expand : List α → List α → List α) : Piece α → List α
  | .plain c => [c]
  | .found text group => expand text group

/-- Every match is replaced by what `expand` makes of its text and its group. -/
def replace (parts : List (Part α)) (expand : List α → List α → List α) (xs : List α) : List α :=
  (pieces parts xs).flatMap (Piece.replace expand)

end Pattern
