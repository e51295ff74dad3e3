import ExpressCore.Model.EmailRender
import ExpressCore.Verification.System.Characters

/-! # Rendered emails -/

namespace ExpressCore.Rendering

open Pattern

variable {N : Type} [ToString N]

/-! ## Entities -/

/-- The entity of a character that HTML gives a meaning. -/
def entity : Char → List Char
  | '&' => "&amp;".toList
  | '<' => "&lt;".toList
  | '>' => "&gt;".toList
  | '"' => "&quot;".toList
  | '\'' => "&#39;".toList
  | c => [c]

/-- Reads the five entities. -/
def decodeChars : List Char → List Char
  | '&' :: 'a' :: 'm' :: 'p' :: ';' :: rest => '&' :: decodeChars rest
  | '&' :: 'l' :: 't' :: ';' :: rest => '<' :: decodeChars rest
  | '&' :: 'g' :: 't' :: ';' :: rest => '>' :: decodeChars rest
  | '&' :: 'q' :: 'u' :: 'o' :: 't' :: ';' :: rest => '"' :: decodeChars rest
  | '&' :: '#' :: '3' :: '9' :: ';' :: rest => '\'' :: decodeChars rest
  | c :: rest => c :: decodeChars rest
  | [] => []

def decodeEntities (text : String) : String := String.ofList (decodeChars text.toList)

theorem entity_plain {c : Char} (hamp : c ≠ '&') (hlt : c ≠ '<') (hgt : c ≠ '>') (hquot : c ≠ '"')
    (hapos : c ≠ '\'') : entity c = [c] := by
  unfold entity
  split <;> first | contradiction | rfl

/-- No replacement touches what the earlier ones wrote: the ampersand goes first. -/
theorem replaced_char (c : Char) :
    replaceChar '\'' "&#39;" (replaceChar '"' "&quot;" (replaceChar '>' "&gt;"
      (replaceChar '<' "&lt;" (replaceChar '&' "&amp;" [c])))) = entity c := by
  by_cases hamp : c = '&'
  · subst hamp
    decide
  by_cases hlt : c = '<'
  · subst hlt
    decide
  by_cases hgt : c = '>'
  · subst hgt
    decide
  by_cases hquot : c = '"'
  · subst hquot
    decide
  by_cases hapos : c = '\''
  · subst hapos
    decide
  rw [entity_plain hamp hlt hgt hquot hapos]
  simp only [replaceChar, List.flatMap_singleton, if_neg hamp, if_neg hlt, if_neg hgt, if_neg hquot,
    if_neg hapos]

theorem replaceChar_append (c : Char) (entity' : String) (xs ys : List Char) :
    replaceChar c entity' (xs ++ ys) = replaceChar c entity' xs ++ replaceChar c entity' ys :=
  List.flatMap_append

theorem escapeHtml_toList (value : String) :
    (escapeHtml value).toList = value.toList.flatMap entity := by
  simp only [escapeHtml, String.toList_ofList]
  generalize value.toList = cs
  induction cs with
  | nil => rfl
  | cons c cs ih =>
      have hsplit : c :: cs = [c] ++ cs := rfl
      rw [hsplit]
      simp only [replaceChar_append]
      rw [ih, replaced_char, List.flatMap_append, List.flatMap_singleton]

theorem not_mem_entity {c x : Char} (hx : x ∈ entity c) : x ∉ ['<', '>', '"', '\''] := by
  have hplain {cs : List Char} (hx : x ∈ cs)
      (h : cs.all (fun x => !(['<', '>', '"', '\''].contains x)) = true) :
      x ∉ ['<', '>', '"', '\''] := by
    have hnot := List.all_eq_true.mp h x hx
    simpa using hnot
  unfold entity at hx
  split at hx
  · exact hplain hx (by decide)
  · exact hplain hx (by decide)
  · exact hplain hx (by decide)
  · exact hplain hx (by decide)
  · exact hplain hx (by decide)
  · rw [List.mem_singleton] at hx
    subst hx
    intro hmem
    simp only [List.mem_cons, List.not_mem_nil, or_false] at hmem
    rcases hmem with h | h | h | h <;> contradiction

theorem not_mem_escapeHtml {value : String} {c : Char} (hc : c ∈ (escapeHtml value).toList) :
    c ∉ ['<', '>', '"', '\''] := by
  rw [escapeHtml_toList] at hc
  obtain ⟨x, -, hx⟩ := List.mem_flatMap.mp hc
  exact not_mem_entity hx

theorem decodeChars_entity (c : Char) (rest : List Char) :
    decodeChars (entity c ++ rest) = c :: decodeChars rest := by
  unfold entity
  split
  · rfl
  · rfl
  · rfl
  · rfl
  · rfl
  · rw [List.singleton_append, decodeChars]
    all_goals
      intros
      contradiction

theorem decodeEntities_escapeHtml (value : String) : decodeEntities (escapeHtml value) = value := by
  have hchars (cs : List Char) : decodeChars (cs.flatMap entity) = cs := by
    induction cs with
    | nil => rfl
    | cons c cs ih => rw [List.flatMap_cons, decodeChars_entity, ih]
  rw [decodeEntities, escapeHtml_toList, hchars, String.ofList_toList]

/-! ## Placeholders -/

/-- Two braces, a word with spaces around it, and two braces. -/
theorem fits_placeholder {text name : List Char} : Fits PLACEHOLDER text name ↔
    ∃ before after, text = '\x7b' :: '\x7b' :: (before ++ (name ++ (after ++ ['\x7d', '\x7d']))) ∧
      (∀ c ∈ before, isSpace c = true) ∧ (∀ c ∈ name, isWord c = true) ∧ name ≠ [] ∧
        ∀ c ∈ after, isSpace c = true := by
  simp only [PLACEHOLDER, fits_one, fits_many, fits_some, fits_nil, beq_iff_eq, if_true]
  constructor
  · rintro ⟨_, _, rfl, rfl, _, _, rfl, rfl, before, _, rfl, hbefore, _, _, _, rfl, hname, hne, rfl,
      after, _, rfl, hafter, _, _, rfl, rfl, _, _, rfl, rfl, rfl, rfl⟩
    exact ⟨before, after, by rw [List.append_nil], hbefore, by simpa using hname,
      by simpa using hne, hafter⟩
  · rintro ⟨before, after, rfl, hbefore, hname, hne, hafter⟩
    exact ⟨_, _, rfl, rfl, _, _, rfl, rfl, before, _, rfl, hbefore, name, _, [], rfl, hname, hne,
      (List.append_nil name).symm, after, _, rfl, hafter, _, _, rfl, rfl, _, _, rfl, rfl, rfl, rfl⟩

theorem dropWhile_run {p : Char → Bool} {run : List Char} {c : Char} (rest : List Char)
    (hrun : ∀ x ∈ run, p x = true) (hc : p c = false) :
    (run ++ c :: rest).dropWhile p = c :: rest := by
  rw [List.dropWhile_append_of_pos hrun, List.dropWhile_cons_of_neg (by simp [hc])]

theorem takeWhile_run {p : Char → Bool} {run : List Char} {c : Char} (rest : List Char)
    (hrun : ∀ x ∈ run, p x = true) (hc : p c = false) :
    (run ++ c :: rest).takeWhile p = run := by
  rw [List.takeWhile_append_of_pos hrun, List.takeWhile_cons_of_neg (by simp [hc]),
    List.append_nil]

/-- The name and the rest of the text, read on from the braces. -/
def readName (cs : List Char) : List Char × List Char :=
  let named := cs.dropWhile isSpace
  (named.takeWhile isWord, (named.dropWhile isWord).dropWhile isSpace)

/-- Each part of a placeholder is as long as it can be. -/
theorem readName_eq (rest : List Char) {before name after : List Char}
    (hbefore : ∀ c ∈ before, isSpace c = true) (hname : ∀ c ∈ name, isWord c = true)
    (hne : name ≠ []) (hafter : ∀ c ∈ after, isSpace c = true) :
    readName (before ++ (name ++ (after ++ '\x7d' :: rest))) = (name, '\x7d' :: rest) := by
  obtain ⟨first, others, rfl⟩ := List.exists_cons_of_ne_nil hne
  have hfirst : isSpace first = false := isSpace_of_isWord (hname first (.head _))
  have hdrop := dropWhile_run (others ++ (after ++ '\x7d' :: rest)) hbefore hfirst
  have hclosing : ∃ c cs, after ++ '\x7d' :: rest = c :: cs ∧ isWord c = false := by
    cases after with
    | nil => exact ⟨'\x7d', rest, rfl, by decide⟩
    | cons c cs =>
        refine ⟨c, cs ++ '\x7d' :: rest, rfl, Bool.eq_false_iff.mpr fun hword => ?_⟩
        have hspace := hafter c (.head _)
        rw [isSpace_of_isWord hword] at hspace
        cases hspace
  obtain ⟨c, cs, hcs, hc⟩ := hclosing
  have hbrace : isSpace '\x7d' = false := by decide
  have hspaces := dropWhile_run rest hafter hbrace
  simp only [readName]
  rw [List.cons_append, hdrop, ← List.cons_append, hcs, takeWhile_run cs hname hc,
    dropWhile_run cs hname hc, ← hcs, hspaces]

theorem unambiguous_placeholder : Unambiguous PLACEHOLDER := by
  intro text group rest text' group' rest' heq hfits hfits'
  obtain ⟨before, after, rfl, hbefore, hname, hne, hafter⟩ := fits_placeholder.mp hfits
  obtain ⟨before', after', rfl, hbefore', hname', hne', hafter'⟩ := fits_placeholder.mp hfits'
  have hread := readName_eq ('\x7d' :: rest) hbefore hname hne hafter
  have hread' := readName_eq ('\x7d' :: rest') hbefore' hname' hne' hafter'
  have hinner : before ++ (group ++ (after ++ '\x7d' :: '\x7d' :: rest)) =
      before' ++ (group' ++ (after' ++ '\x7d' :: '\x7d' :: rest')) := by
    simpa using heq
  rw [hinner, hread'] at hread
  injection hread with hgroup hrest
  injection hrest with _ hrest
  injection hrest with _ hrest
  subst hrest
  exact ⟨List.append_cancel_right heq, hgroup.symm⟩

theorem consumes_placeholder : Consumes PLACEHOLDER := ⟨_, .head _, by decide⟩

/-! ## Substitution -/

/-- A placeholder of a variable becomes its encoded value; all else stays. -/
def filled (vars : TemplateVariables N) (encode : String → String) : Piece Char → List Char
  | .plain c => [c]
  | .found text name =>
      match vars.get? (String.ofList name) with
      | some value => (encode value.text).toList
      | none => text

variable {vars : TemplateVariables N}

theorem substitute_eq (text : String) (encode : String → String) :
    substitute text vars encode =
      String.ofList ((pieces PLACEHOLDER text.toList).flatMap (filled vars encode)) := by
  refine congrArg String.ofList (List.flatMap_congr fun piece _ => ?_)
  cases piece <;> rfl

/-! ## The subject -/

theorem fits_line_break {c : Char} (hc : c = '\r' ∨ c = '\n') : Fits LINE_BREAKS [c] [] := by
  have haccepts : (c == '\r' || c == '\n') = true := by simpa using hc
  exact fits_many.mpr ⟨[], [c], rfl, by simp, fits_some.mpr ⟨[c], [], [], rfl, by simpa using hc,
    by simp, rfl, fits_many.mpr ⟨[], [], rfl, by simp, fits_nil.mpr ⟨rfl, rfl⟩⟩⟩⟩

theorem consumes_line_breaks : Consumes LINE_BREAKS := ⟨_, .tail _ (.head _), by decide⟩

theorem mem_trim {s : String} {c : Char} (h : c ∈ (trim s).toList) : c ∈ s.toList := by
  rw [trim, String.toList_ofList, List.mem_reverse] at h
  have hback := (List.dropWhile_sublist isSpace).mem h
  exact (List.dropWhile_sublist isSpace).mem (List.mem_reverse.mp hback)

theorem oneLine_spec {text : String} {c : Char} (h : c ∈ (oneLine text).toList) :
    c ≠ '\r' ∧ c ≠ '\n' := by
  have hmem := mem_trim h
  rw [String.toList_ofList] at hmem
  obtain ⟨piece, hpiece, hc⟩ := List.mem_flatMap.mp hmem
  cases piece with
  | plain x =>
      obtain rfl := List.mem_singleton.mp hc
      obtain ⟨rest, hnone⟩ := (splits_pieces consumes_line_breaks).plain_mem hpiece
      constructor
      · intro heq
        exact hnone [c] [] rest rfl (fits_line_break (.inl heq))
      · intro heq
        exact hnone [c] [] rest rfl (fits_line_break (.inr heq))
  | found _ _ =>
      obtain rfl := List.mem_singleton.mp hc
      decide

/-! ## The claim about rendering -/

/-- The body is the template with its placeholders filled in, values can be read back from their
escaped form, and the subject is one line. -/
theorem render_exact (APP_NAME : String) (template : TemplateText) (vars : TemplateVariables N) :
    (∃ ps, Splits PLACEHOLDER template.body.toList ps ∧
      (∀ other, Splits PLACEHOLDER template.body.toList other → other = ps) ∧
      (renderTemplate APP_NAME template vars).html =
        baseTemplate APP_NAME (String.ofList (ps.flatMap (filled vars escapeHtml)))) ∧
      (∀ value, (∀ c ∈ (escapeHtml value).toList, c ∉ ['<', '>', '"', '\'']) ∧
        decodeEntities (escapeHtml value) = value) ∧
      ∀ c ∈ (renderTemplate APP_NAME template vars).subject.toList, c ≠ '\r' ∧ c ≠ '\n' := by
  have hsplits : Splits PLACEHOLDER template.body.toList
      (pieces PLACEHOLDER template.body.toList) := splits_pieces consumes_placeholder
  refine ⟨⟨_, hsplits, fun other hother => ?_, ?_⟩, fun value => ⟨fun c => not_mem_escapeHtml,
    decodeEntities_escapeHtml value⟩, fun c => oneLine_spec⟩
  · exact hother.unique unambiguous_placeholder consumes_placeholder hsplits
  · exact congrArg (baseTemplate APP_NAME) (substitute_eq template.body escapeHtml)

end ExpressCore.Rendering
