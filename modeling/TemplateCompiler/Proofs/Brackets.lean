import TemplateCompiler.Proofs.TokenClasses

/-! Open brackets. Beside the braces that the scanner keeps account of, the round and square
brackets that are open before a token are told from the tokens before it. -/
namespace TemplateCompiler.Expression

open Text

inductive Bracket where
  | round
  | square
  | brace (b : Brace)
  deriving DecidableEq, Repr

def Bracket.brace? : Bracket → Option Brace
  | .brace b => some b
  | _ => none

/-- The brackets open behind a closing brace: it closes the innermost brace with all that is open
inside of it. -/
def closeBrace : List Bracket → List Bracket
  | [] => []
  | .brace _ :: outer => outer
  | _ :: outer => closeBrace outer

/-- The brackets open behind a token, innermost first. A closing round or square bracket closes one
of its own sort only. -/
def Token.bracketsAfter (before : List Char) (brackets : List Bracket) : Token → List Bracket
  | .templateText text =>
    let outer := if text.head? = some '\x7d' then closeBrace brackets else brackets
    if text.getLast? = some '\x7b' then .brace .hole :: outer else outer
  | .symbol c =>
    if c = '\x7b' then .brace (openedBrace before) :: brackets
    else if c = '\x7d' then closeBrace brackets
    else if c = '(' then .round :: brackets
    else if c = '[' then .square :: brackets
    else if c = ')' ∧ brackets.head? = some .round then brackets.tail
    else if c = ']' ∧ brackets.head? = some .square then brackets.tail
    else brackets
  | _ => brackets

def bracketsOver (before : List Char) (brackets : List Bracket) : List Token → List Bracket
  | [] => brackets
  | t :: ts => bracketsOver (t.text.reverse ++ before) (t.bracketsAfter before brackets) ts

private theorem braces_closeBrace (brackets : List Bracket) :
    (closeBrace brackets).filterMap Bracket.brace? =
      (brackets.filterMap Bracket.brace?).tail := by
  induction brackets with
  | nil => rfl
  | cons bracket outer ih =>
    cases bracket with
    | brace b => rfl
    | round => exact ih
    | square => exact ih

private theorem braces_bracketsAfter (before : List Char) (brackets : List Bracket) (t : Token) :
    (t.bracketsAfter before brackets).filterMap Bracket.brace? =
      t.bracesAfter before (brackets.filterMap Bracket.brace?) := by
  cases t with
  | quoted | number | name => rfl
  | templateText text =>
    rw [Token.bracketsAfter, Token.bracesAfter, ← braces_closeBrace]
    split <;> split <;> rfl
  | symbol c =>
    rw [Token.bracketsAfter, Token.bracesAfter, ← braces_closeBrace]
    split
    · rfl
    split
    · rfl
    split
    · rfl
    split
    · rfl
    split
    · rename_i hround
      obtain ⟨outer, rfl⟩ := List.head?_eq_some_iff.mp hround.2
      rfl
    split
    · rename_i hsquare
      obtain ⟨outer, rfl⟩ := List.head?_eq_some_iff.mp hsquare.2
      rfl
    · rfl

/-- The open braces are the open brackets with parentheses and square brackets left out. -/
theorem braces_bracketsOver (before : List Char) (brackets : List Bracket) (ts : List Token) :
    (bracketsOver before brackets ts).filterMap Bracket.brace? =
      bracesOver before (brackets.filterMap Bracket.brace?) ts := by
  induction ts generalizing before brackets with
  | nil => rfl
  | cons t ts ih => rw [bracketsOver, ih, braces_bracketsAfter, bracesOver]

/-- Right behind an opening brace, blanks aside, that brace is the innermost open bracket. -/
def BehindBrace (before : List Char) (brackets : List Bracket) : Prop :=
  (significantBefore before).head? = some '\x7b' → ∃ b, brackets.head? = some (.brace b)

theorem significantBefore_reverse_append {text before : List Char} {c : Char}
    (h : text.getLast? = some c) (hc : isAsciiBlank c = false) :
    (significantBefore (text.reverse ++ before)).head? = some c := by
  obtain ⟨t, rfl⟩ := List.getLast?_eq_some_iff.mp h
  simp [significantBefore, hc]

private theorem behindBrace_of_getLast? {text before : List Char} {brackets : List Bracket}
    {c : Char}
    (h : text.getLast? = some c) (hblank : isAsciiBlank c = false)
    (hc : c = '\x7b' → ∃ b, brackets.head? = some (.brace b)) :
    BehindBrace (text.reverse ++ before) brackets := by
  intro hbefore
  rw [significantBefore_reverse_append h hblank] at hbefore
  exact hc (Option.some.inj hbefore)

private theorem of_asciiBlank {p : Char → Prop} (hp : ∀ d ∈ [' ', '\t', '\n', '\x0c', '\r'], p d)
    {c : Char} (hc : isAsciiBlank c = true) : p c := by
  apply hp
  simpa [isAsciiBlank, or_assoc] using hc

theorem all_asciiBlank {p : Char → Bool} (hp : [' ', '\t', '\n', '\x0c', '\r'].all p = true)
    {c : Char} (hc : isAsciiBlank c = true) : p c = true :=
  of_asciiBlank (List.all_eq_true.mp hp) hc

theorem not_asciiBlank {p : Char → Bool} (hp : [' ', '\t', '\n', '\x0c', '\r'].any p = false)
    {c : Char} (hc : p c = true) : isAsciiBlank c = false := by
  refine Bool.eq_false_iff.mpr fun hblank => ?_
  exact of_asciiBlank (List.any_eq_false.mp hp) hblank hc

private theorem behindBrace_of_all {p : Char → Bool} {text before : List Char}
    {brackets : List Bracket}
    (ht : ∀ c ∈ text, p c = true) (hne : text ≠ [])
    (hp : [' ', '\t', '\n', '\x0c', '\r'].any p = false) (hbrace : p '\x7b' = false) :
    BehindBrace (text.reverse ++ before) brackets := by
  have hlast := ht _ (List.getLast_mem hne)
  refine behindBrace_of_getLast? (List.getLast?_eq_some_getLast hne) (not_asciiBlank hp hlast) ?_
  intro hc
  rw [hc, hbrace] at hlast
  cases hlast

private theorem behindBrace_template {text rest before : List Char} {brackets : List Bracket}
    {isHole : Bool} {c : Char} (h : TemplateStretch text rest isHole) (hrest : rest ≠ []) :
    BehindBrace ((c :: text).reverse ++ before)
      (Token.bracketsAfter before brackets (.templateText (c :: text))) := by
  have hlast : (c :: text).getLast? = some (if isHole then '\x7b' else '\x60') := by
    rw [List.getLast?_cons_of_ne_nil (h.text_ne_nil hrest), h.getLast?_eq hrest]
  refine behindBrace_of_getLast? hlast (by cases isHole <;> rfl) fun hc => ⟨.hole, ?_⟩
  rw [Token.bracketsAfter, hlast, hc, if_pos rfl, List.head?_cons]

private theorem BehindBrace.step {before rest : List Char} {braces : List Brace}
    {brackets : List Bracket}
    {t : Token} (hb : BehindBrace before brackets) (h : t.Fits before braces rest)
    (hrest : rest ≠ []) :
    BehindBrace (t.text.reverse ++ before) (t.bracketsAfter before brackets) := by
  cases h with
  | @quoted quote text hq h =>
    have hlast : (quote :: text).getLast? = some quote := by
      rw [List.getLast?_cons_of_ne_nil (h.text_ne_nil hrest), h.getLast?_eq hrest]
    refine behindBrace_of_getLast? hlast (not_asciiBlank (by decide) hq) ?_
    rintro rfl
    cases hq
  | template h => exact behindBrace_template h hrest
  | resumed _ h => exact behindBrace_template h hrest
  | @number c text hc ht hr =>
    have hpart : isNumberPart c = true := by
      rcases startsNumber_cases hc with hdigit | ⟨rfl, -⟩
      · simp [isNumberPart, Char.isAlphanum, hdigit]
      · rfl
    exact behindBrace_of_all (List.forall_mem_cons.mpr ⟨hpart, ht⟩) (List.cons_ne_nil _ _)
      (by decide) rfl
  | @name c text hc ht hr =>
    exact behindBrace_of_all (List.forall_mem_cons.mpr ⟨isIdentifierPart_of_start hc, ht⟩)
      (List.cons_ne_nil _ _) (by decide) (by decide)
  | @symbol c hq ht _ hn hi =>
    cases hblank : isAsciiBlank c with
    | true =>
      -- a blank changes neither the brackets nor the last significant character
      have hsame : Token.bracketsAfter before brackets (.symbol c) = brackets := by
        refine of_asciiBlank (p := fun d =>
          Token.bracketsAfter before brackets (.symbol d) = brackets) ?_ hblank
        simp [Token.bracketsAfter]
      have hbefore : significantBefore (c :: before) = significantBefore before := by
        rw [significantBefore, List.dropWhile_cons_of_pos hblank, significantBefore]
      rw [hsame]
      intro hhead
      exact hb (hbefore ▸ hhead)
    | false =>
      refine behindBrace_of_getLast? (c := c) rfl hblank ?_
      rintro rfl
      exact ⟨_, rfl⟩

/-- Along the tokens of a text, at any place but its end. -/
theorem BehindBrace.run {before : List Char} {brackets : List Bracket} {pre post : List Token}
    (hb : BehindBrace before brackets)
    (h : Spelled before (brackets.filterMap Bracket.brace?) (pre ++ post))
    (hpost : post.flatMap Token.text ≠ []) :
    BehindBrace ((pre.flatMap Token.text).reverse ++ before)
      (bracketsOver before brackets pre) := by
  induction pre generalizing before brackets with
  | nil => exact hb
  | cons t pre ih =>
    obtain ⟨ht, hts⟩ := h
    rw [← braces_bracketsAfter] at hts
    have hrest : (pre ++ post).flatMap Token.text ≠ [] := by
      rw [List.flatMap_append]
      exact List.append_ne_nil_of_right_ne_nil _ hpost
    have := ih (hb.step ht hrest) hts
    rwa [← List.append_assoc, ← List.reverse_append, ← List.flatMap_cons] at this

end TemplateCompiler.Expression
