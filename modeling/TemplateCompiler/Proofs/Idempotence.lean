import TemplateCompiler.Proofs.Shorthand

/-! Resolution happens once. Outside of setup code a resolved text without arrow functions resolves
to itself: the second scan goes along with the first, past the code that the first one has put
before some of the names. -/
namespace TemplateCompiler.Expression

open Text

variable {o : LoweringOptions} {scope : Scope}

/-- The second text is the first, both read from their ends, with an access to the component's state
before some of the names, which may be labelled. -/
inductive Widened : List Char → List Char → Prop
  | nil : Widened [] []
  | cons (c : Char) {b b' : List Char} (h : Widened b b') : Widened (c :: b) (c :: b')
  | insert {c : Char} {u b b' : List Char} (hc : isIdentifierStart c = true) (hu : '>' ∉ u)
      (h : Widened b b') : Widened (c :: b) (c :: '.' :: 'x' :: 't' :: 'c' :: '_' :: (u ++ b'))

namespace Widened

variable {b b' : List Char}

private theorem append (h : Widened b b') (text : List Char) : Widened (text ++ b)
    (text ++ b') := by
  induction text with
  | nil => exact h
  | cons c text ih => exact ih.cons c

private theorem head?_eq (h : Widened b b') : b.head? = b'.head? := by
  cases h <;> rfl

private theorem significantBefore (h : Widened b b') :
    Widened (significantBefore b) (significantBefore b') := by
  unfold Expression.significantBefore
  induction h with
  | nil => exact .nil
  | cons c h ih =>
    by_cases hc : isAsciiBlank c = true
    · rwa [List.dropWhile_cons_of_pos hc, List.dropWhile_cons_of_pos hc]
    · rw [List.dropWhile_cons_of_neg hc, List.dropWhile_cons_of_neg hc]
      exact h.cons c
  | insert hc hu h ih =>
    have hblank := not_asciiBlank (p := isIdentifierStart) (by decide) hc
    rw [List.dropWhile_cons_of_neg (by simp [hblank]),
      List.dropWhile_cons_of_neg (by simp [hblank])]
    exact h.insert hc hu

private theorem of_mark {c : Char} (h : Widened (c :: b) b') (hc : isIdentifierStart c = false) :
    ∃ t, b' = c :: t ∧ Widened b t := by
  cases h with
  | cons _ h => exact ⟨_, rfl, h⟩
  | insert hstart =>
    rw [hc] at hstart
    cases hstart

private theorem isPrefixOf_eq (h : Widened b b') {c : Char} (hc : isIdentifierStart c = false)
    (d : Char) :
    [c, d].isPrefixOf b = [c, d].isPrefixOf b' := by
  have hsingle {x y : List Char} (h : x.head? = y.head?) : [d].isPrefixOf x = [d].isPrefixOf y := by
    cases x <;> cases y <;> simp_all [List.isPrefixOf]
  cases h with
  | nil => rfl
  | cons e h => rw [List.isPrefixOf, List.isPrefixOf, hsingle h.head?_eq]
  | @insert e _ _ _ he =>
    have hne : (c == e) = false := by
      rw [beq_eq_false_iff_ne]
      rintro rfl
      rw [hc] at he
      cases he
    rw [List.isPrefixOf, List.isPrefixOf, hne, Bool.false_and, Bool.false_and]

private theorem openedBrace_eq (h : Widened b b') : openedBrace b = openedBrace b' := by
  rw [openedBrace_eq_if, openedBrace_eq_if, h.significantBefore.isPrefixOf_eq (by decide)]

private theorem splitsCharacter_eq (h : Widened b b') (hb : splitsCharacter b = false) :
    splitsCharacter b' = false := by
  cases h with
  | nil => exact hb
  | cons c h =>
    rw [splitsCharacter, h.head?_eq] at hb
    exact hb
  | insert =>
    rw [splitsCharacter] at hb ⊢
    split
    · rfl
    · rename_i hsize
      rwa [if_neg hsize] at hb

private theorem isMember?_eq (h : Widened b b') {m : Bool} (hm : isMember? b = some m) :
    isMember? b' = some m := by
  by_cases hpoint : (Expression.significantBefore b).head? = some '.'
  · obtain ⟨earlier, hearlier⟩ := List.head?_eq_some_iff.mp hpoint
    have hs := h.significantBefore
    rw [hearlier] at hs
    obtain ⟨earlier', hearlier', hw⟩ := hs.of_mark (by decide)
    rw [isMember?_pointed hearlier] at hm
    split at hm
    · cases hm
    · rename_i hsplit
      rw [isMember?_pointed hearlier', hw.splitsCharacter_eq (by simpa using hsplit),
        ← hw.isPrefixOf_eq (by decide)]
      exact hm
  · rw [isMember?_unpointed hpoint] at hm
    rw [h.significantBefore.head?_eq] at hpoint
    rw [isMember?_unpointed hpoint, hm]

private theorem infix_of_append {u b : List Char} {c d : Char} (hu : c ∉ u)
    (h : [c, d] <:+: u ++ b) :
    [c, d] <:+: b := by
  induction u with
  | nil => exact h
  | cons e u ih =>
    rw [List.mem_cons, not_or] at hu
    rcases List.infix_cons_iff.mp h with h | h
    · exact absurd (List.cons_prefix_cons.mp h).1 hu.1
    · exact ih hu.2 h

private theorem hasArrow (h : Widened b b') (ha : ['>', '='] <:+: b') : ['>', '='] <:+: b := by
  induction h with
  | nil => exact ha
  | cons c h ih =>
    rcases List.infix_cons_iff.mp ha with ha | ha
    · obtain ⟨rfl, r, hr⟩ := List.cons_prefix_cons.mp ha
      have hhead := h.head?_eq
      rw [← hr] at hhead
      obtain ⟨t, rfl⟩ := List.head?_eq_some_iff.mp hhead
      exact ⟨[], t, rfl⟩
    · exact (ih ha).trans (List.suffix_cons c _).isInfix
  | @insert c u b b' hc hu h ih =>
    have hmark : '>' ∉ c :: '.' :: 'x' :: 't' :: 'c' :: '_' :: u := by
      have hne : '>' ≠ c := (ne_of_identifierPart (isIdentifierPart_of_start hc) (by decide)).symm
      simp [hne, hu]
    exact (ih (infix_of_append hmark ha)).trans (List.suffix_cons c b).isInfix

end Widened

private theorem accessCode_outside (ho : o.inline = false) (name : String) :
    accessCode o name = "_ctx." ++ name := by
  simp [accessCode, visibleBinding?, ho]

/-- What stands before the code for a name in shorthand. -/
def NameToken.label (n : NameToken) : List Char :=
  if n.isShorthand then n.name ++ [':', ' '] else []

private theorem spelling_replaced (ho : o.inline = false) {n : NameToken}
    (hn : n.isKept o scope [] = false) : (Token.name n).spelling o scope [] =
      n.label ++ ['_', 'c', 't', 'x', '.'] ++ n.name := by
  have hname : n.text.toList = n.name := String.toList_ofList
  rw [Token.spelling, if_neg (by simp [hn]), accessCode_outside ho, String.toList_append, hname,
    List.append_assoc]
  rfl

private theorem spelling_kept {n : NameToken} (hn : n.isKept o scope [] = true) :
    (Token.name n).spelling o scope [] = n.name := by
  rw [Token.spelling, if_pos hn]

/-- Two texts start with the same character, or each with a name. -/
def StartsAlike (s t : List Char) : Prop :=
  s.head? = t.head? ∨
    ∃ c d, s.head? = some c ∧ t.head? = some d ∧ isIdentifierStart c = true ∧
      isIdentifierStart d = true

namespace StartsAlike

variable {s t : List Char}

private theorem any_eq (h : StartsAlike s t) {p : Char → Bool}
    (hp : ∀ c, isIdentifierStart c = true → p c = false) : s.head?.any p = t.head?.any p := by
  rcases h with h | ⟨c, d, hs, ht, hc, hd⟩
  · rw [h]
  · rw [hs, ht, Option.any_some, Option.any_some, hp c hc, hp d hd]

private theorem head?_eq (h : StartsAlike s t) (hs : ∀ c ∈ s.head?, isIdentifierPart c = false) :
    s.head? = t.head? := by
  rcases h with h | ⟨c, d, hc, -, hstart, -⟩
  · exact h
  · have hpart := hs c hc
    rw [isIdentifierPart_of_start hstart] at hpart
    cases hpart

end StartsAlike

private theorem Token.Fits.startsAlike (ho : o.inline = false) {before : List Char}
    {braces : List Brace}
    {rest : List Char} {t : Token} (h : t.Fits before braces rest) (u v : List Char) :
    StartsAlike (t.text ++ u) (t.spelling o scope [] ++ v) := by
  cases h with
  | quoted | template | resumed | number | symbol => exact .inl rfl
  | @name c text hc =>
    by_cases hkept : NameToken.isKept o scope [] ⟨c :: text, before, rest, braces.head?⟩ = true
    · rw [spelling_kept hkept]
      exact .inl rfl
    · rw [spelling_replaced ho (by simpa using hkept), NameToken.label]
      split
      · exact .inl rfl
      · exact .inr ⟨c, '_', rfl, rfl, hc, by decide⟩

private theorem startsAlike_respelled (ho : o.inline = false) (before : List Char)
    (braces : List Brace)
    (s : List Char) : StartsAlike s (respelled o scope [] before braces s) := by
  by_cases hs : s = []
  · rw [hs, respelled, tokensFrom]
    exact .inl rfl
  · obtain ⟨t, rest, rfl, h⟩ := exists_fits before braces hs
    rw [h.respelled_eq]
    exact h.startsAlike ho _ _

private theorem respelled_nil (before : List Char) (braces : List Brace) :
    respelled o scope [] before braces [] = [] := by
  rw [respelled, tokensFrom, List.flatMap_nil]

private theorem respelled_blank {c : Char} (hc : Text.isBlank c = true) (before : List Char)
    (braces : List Brace) (rest : List Char) : respelled o scope [] before braces (c :: rest) =
      c :: respelled o scope [] (c :: before) braces rest := by
  rw [respelled, tokensFrom_blank hc, List.flatMap_cons, respelled]
  rfl

private theorem startsAlike_significant (ho : o.inline = false) (before : List Char)
    (braces : List Brace)
    (s : List Char) : StartsAlike (s.dropWhile isAsciiBlank)
      ((respelled o scope [] before braces s).dropWhile isAsciiBlank) := by
  induction s generalizing before with
  | nil =>
    rw [respelled_nil]
    exact .inl rfl
  | cons c s ih =>
    by_cases hc : isAsciiBlank c = true
    · have hblank : Text.isBlank c = true := all_asciiBlank (by decide) hc
      rw [respelled_blank hblank, List.dropWhile_cons_of_pos hc, List.dropWhile_cons_of_pos hc]
      exact ih _
    · have halike : StartsAlike (c :: s) (respelled o scope [] before braces (c :: s)) :=
        startsAlike_respelled ho before braces (c :: s)
      obtain ⟨d, hd, hblank⟩ : ∃ d, (respelled o scope [] before braces (c :: s)).head? = some d ∧
          isAsciiBlank d = false := by
        rcases halike with hhead | ⟨_, d, -, hd, -, hstart⟩
        · exact ⟨c, hhead.symm, by simpa using hc⟩
        · exact ⟨d, hd, not_asciiBlank (by decide) hstart⟩
      obtain ⟨r, hr⟩ := List.head?_eq_some_iff.mp hd
      rw [hr] at halike ⊢
      rwa [List.dropWhile_cons_of_neg hc, List.dropWhile_cons_of_neg (by simp [hblank])]

private theorem not_mem_label {n : NameToken} (hn : ∀ c ∈ n.name, isIdentifierPart c = true) :
    '>' ∉ n.label := by
  rw [NameToken.label]
  split
  · intro hmem
    rcases List.mem_append.mp hmem with hmem | hmem
    · exact absurd (hn _ hmem) (by decide)
    · exact absurd hmem (by decide)
  · exact List.not_mem_nil

private theorem Token.Fits.widened (ho : o.inline = false) {before before' : List Char}
    {braces : List Brace} {rest : List Char} {t : Token} (h : t.Fits before braces rest)
    (hw : Widened before before') :
    Widened (t.text.reverse ++ before) ((t.spelling o scope []).reverse ++ before') := by
  cases h with
  | quoted | template | resumed | number | symbol => exact hw.append _
  | @name c text hc ht =>
    by_cases hkept : NameToken.isKept o scope [] ⟨c :: text, before, rest, braces.head?⟩ = true
    · rw [spelling_kept hkept]
      exact hw.append _
    · rw [spelling_replaced ho (by simpa using hkept)]
      simp only [Token.text, List.reverse_append, List.reverse_cons, List.append_assoc,
        List.nil_append, List.cons_append]
      refine Widened.append (.insert hc ?_ hw) text.reverse
      rw [List.mem_reverse]
      exact not_mem_label (List.forall_mem_cons.mpr ⟨isIdentifierPart_of_start hc, ht⟩)

private theorem widened_respelled (ho : o.inline = false) {before before' : List Char}
    (hw : Widened before before') (braces : List Brace) (s : List Char) :
    Widened (s.reverse ++ before) ((respelled o scope [] before braces s).reverse ++ before') := by
  by_cases hs : s = []
  · rw [hs, respelled_nil]
    exact hw
  · obtain ⟨t, rest, rfl, h⟩ := exists_fits before braces hs
    have hlength : rest.length < (t.text ++ rest).length := by
      have := List.length_pos_iff.mpr h.text_ne_nil
      rw [List.length_append]
      omega
    have hstep : Widened (t.text.reverse ++ before) ((t.spelling o scope []).reverse ++ before') :=
      h.widened ho hw
    rw [h.respelled_eq, List.reverse_append, List.reverse_append, List.append_assoc,
      List.append_assoc]
    exact widened_respelled ho hstep _ rest
termination_by s.length

/-- There is an answer for the token, and it stays as it is. -/
def Token.IsSettled (o : LoweringOptions) (scope : Scope) : Token → Prop
  | .name n => (isMember? n.before).isSome = true ∧ n.isKept o scope [] = true
  | _ => True

/-- All tokens of the text stay as they are. -/
def Settled (o : LoweringOptions) (scope : Scope) (before : List Char) (braces : List Brace)
    (s : List Char) : Prop :=
  ∀ t ∈ tokensFrom before braces s, t.IsSettled o scope

section
variable {before rest : List Char} {braces : List Brace}

private theorem settled_nil : Settled o scope before braces [] := by
  rw [Settled, tokensFrom]
  exact List.forall_mem_nil _

private theorem Token.Fits.settled {t : Token} (h : t.Fits before braces rest)
    (ht : t.IsSettled o scope)
    (hrest : Settled o scope (t.text.reverse ++ before) (t.bracesAfter before braces) rest) :
    Settled o scope before braces (t.text ++ rest) := by
  rw [Settled, h.tokensFrom_eq]
  exact List.forall_mem_cons.mpr ⟨ht, hrest⟩

private theorem settled_mark {c : Char} (hc : c = ':' ∨ c = ' ')
    (h : Settled o scope (c :: before) braces rest) :
    Settled o scope before braces (c :: rest) := by
  have hfits : (Token.symbol c).Fits before braces rest := by
    rcases hc with rfl | rfl <;> exact .symbol rfl (by decide) (by simp) rfl (by decide)
  have hbraces : (Token.symbol c).bracesAfter before braces = braces := by
    rcases hc with rfl | rfl <;> rfl
  refine hfits.settled trivial ?_
  rwa [hbraces]

section
variable {c : Char} {text : List Char} (hc : isIdentifierStart c = true)
  (ht : ∀ d ∈ text, isIdentifierPart d = true)
include hc ht

private theorem settled_member (hr : ∀ d ∈ rest.head?, isIdentifierPart d = false)
    (h : Settled o scope ((c :: text).reverse ++ '.' :: 'x' :: 't' :: before) braces rest) :
    Settled o scope ('.' :: 'x' :: 't' :: before) braces (c :: text ++ rest) := by
  have hpoint : significantBefore ('.' :: 'x' :: 't' :: before) = '.' :: 'x' :: 't' :: before := rfl
  have hmember : isMember? ('.' :: 'x' :: 't' :: before) = some true := isMember?_pointed hpoint
  refine (Token.Fits.name hc ht hr).settled ⟨?_, ?_⟩ h
  · rw [hmember]
    rfl
  · simp [NameToken.isKept, hmember]

private theorem settled_access (hmember : isMember? before = some false)
    (hr : ∀ d ∈ rest.head?, isIdentifierPart d = false)
    (h : Settled o scope ((c :: text).reverse ++ '.' :: 'x' :: 't' :: 'c' :: '_' :: before) braces
      rest) :
    Settled o scope before braces (['_', 'c', 't', 'x', '.'] ++ (c :: text ++ rest)) := by
  have hstate : (Token.name ⟨['_', 'c', 't', 'x'], before, '.' :: (c :: text ++ rest),
      braces.head?⟩).Fits before braces ('.' :: (c :: text ++ rest)) := by
    refine .name (by decide) (List.all_eq_true.mp (by decide)) ?_
    intro d hd
    cases hd
    decide
  have hpoint : (Token.symbol '.').Fits ('x' :: 't' :: 'c' :: '_' :: before) braces
      (c :: text ++ rest) := by
    refine .symbol rfl (by decide) (by simp) ?_ (by decide)
    simp [startsNumber, not_digit_of_start hc]
  refine hstate.settled ⟨?_, ?_⟩ (hpoint.settled trivial (settled_member hc ht hr h))
  · rw [hmember]
    rfl
  · have hlocal : ReservedNames.isRenderLocal (String.ofList ['_', 'c', 't', 'x']) = true := by
      decide
    simp [NameToken.isKept, NameToken.text, hlocal]

end

end

private theorem QuotedText.of_rest {quote : Char} {text rest rest' : List Char}
    (h : QuotedText quote text rest) (hr : rest = [] → rest' = []) :
    QuotedText quote text rest' := by
  induction h with
  | close => exact .close rest'
  | unclosed =>
    rw [hr rfl]
    exact .unclosed
  | cut =>
    rw [hr rfl]
    exact .cut
  | escaped c _ ih => exact .escaped c (ih hr)
  | plain hc hq _ ih => exact .plain hc hq (ih hr)

private theorem TemplateStretch.of_rest {text rest rest' : List Char} {isHole : Bool}
    (h : TemplateStretch text rest isHole) (hr : rest = [] → rest' = []) :
    TemplateStretch text rest' isHole := by
  induction h with
  | close => exact .close rest'
  | hole => exact .hole rest'
  | unclosed =>
    rw [hr rfl]
    exact .unclosed
  | cut =>
    rw [hr rfl]
    exact .cut
  | escaped c _ ih => exact .escaped c (ih hr)
  | plain hc hq hd _ ih => exact .plain hc hq hd (ih hr)

private theorem StartsAlike.eq_nil {s t : List Char} (h : StartsAlike s t) (hs : s = []) : t =
    [] := by
  subst hs
  rcases h with h | ⟨c, d, hc, -⟩
  · exact List.head?_eq_none_iff.mp h.symm
  · cases hc

section
variable {before before' : List Char} (hw : Widened before before')
include hw

private theorem startsNumber_eq (c : Char) {rest rest' : List Char} (h : StartsAlike rest rest') :
    startsNumber before c rest = startsNumber before' c rest' := by
  rw [startsNumber, startsNumber, h.any_eq fun _ => not_digit_of_start,
    hw.significantBefore.head?_eq]

private theorem startsNumber_along {c : Char} {text rest : List Char}
    (hc : startsNumber before c (text ++ rest) = true)
    (hr : ∀ d ∈ rest.head?, isNumberPart d = false) (rest' : List Char) :
    startsNumber before' c (text ++ rest') = true := by
  cases text with
  | nil =>
    rcases startsNumber_cases hc with hdigit | ⟨rfl, d, r, hrest, hdigit⟩
    · simp [startsNumber, hdigit]
    · have hd : isNumberPart d = false := hr d (by rw [List.nil_append] at hrest; rw [hrest]; rfl)
      simp [isNumberPart, Char.isAlphanum, hdigit] at hd
  | cons d text =>
    rw [← hc]
    exact (startsNumber_eq hw c (.inl rfl)).symm

private theorem bracesAfter_eq (braces : List Brace) (t : Token) :
    t.bracesAfter before braces = t.bracesAfter before' braces := by
  cases t with
  | quoted | templateText | number | name => rfl
  | symbol c => rw [Token.bracesAfter, Token.bracesAfter, hw.openedBrace_eq]

/-- A token other than a name fits in the second text as in the first. A number must not run into
what follows there. -/
private theorem Token.Fits.along {braces : List Brace} {rest rest' : List Char} {t : Token}
    (h : t.Fits before braces rest) (hstart : StartsAlike rest rest')
    (hname : ∀ n, t ≠ .name n)
    (hnumber : (∃ text, t = .number text) → ∀ d ∈ rest'.head?, isNumberPart d = false) :
    t.Fits before' braces rest' := by
  cases h with
  | quoted hq h => exact .quoted hq (h.of_rest hstart.eq_nil)
  | template h => exact .template (h.of_rest hstart.eq_nil)
  | resumed hb h => exact .resumed hb (h.of_rest hstart.eq_nil)
  | @number c text hc ht hr =>
    exact .number (startsNumber_along hw hc hr rest') ht (hnumber ⟨_, rfl⟩)
  | name => exact absurd rfl (hname _)
  | symbol hq ht hb hn hi =>
    rw [startsNumber_eq hw _ hstart] at hn
    exact .symbol hq ht hb hn hi

private theorem settled_other {braces : List Brace} {rest rest' : List Char} {t : Token}
    (h : t.Fits before braces rest) (hstart : StartsAlike rest rest')
    (hname : ∀ n, t ≠ .name n)
    (hnumber : (∃ text, t = .number text) → ∀ d ∈ rest'.head?, isNumberPart d = false)
    (ih : Settled o scope ((t.spelling o scope []).reverse ++ before')
      (t.bracesAfter before braces) rest') :
    Settled o scope before' braces (t.spelling o scope [] ++ rest') := by
  obtain ⟨hspelling, hsettled⟩ : t.spelling o scope [] = t.text ∧ t.IsSettled o scope := by
    cases t with
    | quoted | templateText | number | symbol => exact ⟨rfl, trivial⟩
    | name n => exact absurd rfl (hname n)
  rw [hspelling, bracesAfter_eq hw] at ih
  rw [hspelling]
  exact (h.along hw hstart hname hnumber).settled hsettled ih

private theorem atKey_eq {rest rest' : List Char} (name : List Char) (brace : Option Brace) :
    NameToken.atKey ⟨name, before, rest, brace⟩ =
      NameToken.atKey ⟨name, before', rest', brace⟩ := by
  rw [NameToken.atKey, NameToken.atKey, hw.significantBefore.head?_eq]

private theorem isKept_eq {rest rest' : List Char} {m : Bool} (hm : isMember? before = some m)
    (hnext : StartsAlike (rest.dropWhile isAsciiBlank) (rest'.dropWhile isAsciiBlank))
    (name : List Char) (brace : Option Brace) :
    NameToken.isKept o scope [] ⟨name, before, rest, brace⟩ =
      NameToken.isKept o scope [] ⟨name, before', rest', brace⟩ := by
  have hkey : NameToken.isKey ⟨name, before, rest, brace⟩ =
      NameToken.isKey ⟨name, before', rest', brace⟩ := by
    have hcolon : ((rest.dropWhile isAsciiBlank).head? == some ':') =
        ((rest'.dropWhile isAsciiBlank).head? == some ':') := by
      have hany (x : Option Char) : (x == some ':') = x.any (· == ':') := by cases x <;> rfl
      rw [hany, hany, hnext.any_eq]
      intro c hc
      rw [beq_eq_false_iff_ne]
      exact ne_of_identifierPart (isIdentifierPart_of_start hc) (by decide)
    rw [NameToken.isKey, NameToken.isKey, atKey_eq hw, NameToken.next?, NameToken.next?, hcolon]
  rw [NameToken.isKept, NameToken.isKept, hm, hw.isMember?_eq hm, hkey]
  rfl

end

section
variable {before before' : List Char} {braces : List Brace} {rest rest' : List Char} {c : Char}
  {text : List Char} (hw : Widened before before') (hc : isIdentifierStart c = true)
  (ht : ∀ d ∈ text, isIdentifierPart d = true)
include hw hc ht

private theorem settled_kept {m : Bool} (hm : isMember? before = some m)
    (hr : ∀ d ∈ rest'.head?, isIdentifierPart d = false)
    (hnext : StartsAlike (rest.dropWhile isAsciiBlank) (rest'.dropWhile isAsciiBlank))
    (hkept : NameToken.isKept o scope [] ⟨c :: text, before, rest, braces.head?⟩ = true)
    (ih : Settled o scope ((c :: text).reverse ++ before') braces rest') :
    Settled o scope before' braces (c :: text ++ rest') := by
  refine (Token.Fits.name hc ht hr).settled ⟨?_, ?_⟩ ih
  · rw [hw.isMember?_eq hm]
    rfl
  · rw [← isKept_eq hw hm hnext]
    exact hkept

private theorem settled_replaced (hm : isMember? before = some false)
    (hr : ∀ d ∈ rest'.head?, isIdentifierPart d = false)
    (ih : Settled o scope ((NameToken.label ⟨c :: text, before, rest, braces.head?⟩ ++
      ['_', 'c', 't', 'x', '.'] ++ c :: text).reverse ++ before') braces rest') :
    Settled o scope before' braces (NameToken.label ⟨c :: text, before, rest, braces.head?⟩ ++
      ['_', 'c', 't', 'x', '.'] ++ (c :: text) ++ rest') := by
  have hm' := hw.isMember?_eq hm
  by_cases hshort : NameToken.isShorthand ⟨c :: text, before, rest, braces.head?⟩ = true
  · rw [NameToken.label, if_pos hshort] at ih ⊢
    simp only [List.reverse_append, List.append_assoc] at ih
    simp only [List.append_assoc, List.cons_append, List.nil_append]
    have hkey : NameToken.isKey ⟨c :: text, before', ':' :: ' ' :: '_' :: 'c' :: 't' :: 'x' ::
        '.' :: c :: (text ++ rest'), braces.head?⟩ = true := by
      rw [NameToken.isShorthand, Bool.and_eq_true, atKey_eq hw] at hshort
      rw [NameToken.isKey, hshort.1]
      rfl
    have hcolon : isMember? (' ' :: ':' :: ((c :: text).reverse ++ before')) = some false :=
      isMember?_unpointed (by simp [significantBefore, isAsciiBlank])
    have hlabel : (Token.name ⟨c :: text, before', ':' :: ' ' :: '_' :: 'c' :: 't' :: 'x' ::
        '.' :: c :: (text ++ rest'), braces.head?⟩).Fits before' braces (':' :: ' ' :: '_' :: 'c' ::
          't' :: 'x' :: '.' :: c :: (text ++ rest')) := by
      refine .name hc ht ?_
      intro d hd
      cases hd
      decide
    refine hlabel.settled ⟨?_, ?_⟩ ?_
    · rw [hm']
      rfl
    · simp [NameToken.isKept, hkey]
    · refine settled_mark (.inl rfl) (settled_mark (.inr rfl) ?_)
      exact settled_access hc ht hcolon hr ih
  · rw [NameToken.label, if_neg hshort] at ih ⊢
    simp only [List.nil_append, List.reverse_append, List.append_assoc] at ih ⊢
    exact settled_access hc ht hm' hr ih

end

private theorem label_behind_number {n : NameToken} {text : List Char} (hne : text ≠ [])
    (ht : ∀ d ∈ text, isNumberPart d = true) {before : List Char}
    (hn : n.before = text.reverse ++ before) : n.label = [] := by
  have hlast := ht _ (List.getLast_mem hne)
  have hhead : (significantBefore n.before).head? = some (text.getLast hne) := by
    rw [hn]
    exact significantBefore_reverse_append (List.getLast?_eq_some_getLast hne)
      (not_asciiBlank (by decide) hlast)
  rw [NameToken.label, if_neg]
  intro hshort
  obtain ⟨-, hprev, -⟩ := (isShorthand_iff n).mp hshort
  rw [hhead] at hprev
  rcases hprev with hprev | hprev <;>
    rw [Option.some.inj hprev] at hlast <;> exact absurd hlast (by decide)

private theorem settled_number {before before' : List Char} (hw : Widened before before')
    {braces : List Brace} {c : Char} {text rest rest' : List Char}
    (hc : startsNumber before c (text ++ rest) = true)
    (ht : ∀ d ∈ text, isNumberPart d = true) (hr : ∀ d ∈ rest.head?, isNumberPart d = false)
    {d : Char} {name : List Char} (hd : isIdentifierStart d = true)
    (hname : ∀ e ∈ name, isIdentifierPart e = true) (hpart : isNumberPart d = false)
    (hr' : ∀ e ∈ rest'.head?, isIdentifierPart e = false)
    (ih : Settled o scope ((d :: name).reverse ++ '.' :: 'x' :: 't' :: 'c' :: '_' ::
      ((c :: text).reverse ++ before')) braces rest') :
    Settled o scope before' braces
      (c :: text ++ (['_', 'c', 't', 'x', '.'] ++ (d :: name ++ rest'))) := by
  have hfits : (Token.number (c :: (text ++ ['_', 'c', 't', 'x', '.']))).Fits before' braces
      (d :: name ++ rest') := by
    refine .number ?_ ?_ ?_
    · rw [List.append_assoc]
      exact startsNumber_along hw hc hr _
    · exact List.forall_mem_append.mpr ⟨ht, List.all_eq_true.mp (by decide)⟩
    · intro e he
      cases he
      exact hpart
  have hmember := settled_member hd hname hr' ih
  have hbefore : (Token.number (c :: (text ++ ['_', 'c', 't', 'x', '.']))).text.reverse ++ before' =
      '.' :: 'x' :: 't' :: 'c' :: '_' :: ((c :: text).reverse ++ before') := by
    simp [Token.text]
  have hnumber := hfits.settled trivial (hbefore ▸ hmember)
  rw [Token.text, List.cons_append, List.append_assoc] at hnumber
  exact hnumber

private theorem isNumberPart_of_starts {before rest : List Char} {c : Char}
    (h : startsNumber before c rest = true) : isNumberPart c = true := by
  rcases startsNumber_cases h with hdigit | ⟨rfl, -⟩
  · simp [isNumberPart, Char.isAlphanum, hdigit]
  · rfl

private theorem replaced_of_run (ho : o.inline = false) {text before rest : List Char}
    {braces : List Brace} (hne : text ≠ []) (ht : ∀ d ∈ text, isNumberPart d = true)
    (hr : ∀ d ∈ rest.head?, isNumberPart d = false)
    (hrun : ¬∀ d ∈ (respelled o scope [] (text.reverse ++ before) braces rest).head?,
      isNumberPart d = false) :
    ∃ d name rest₂, rest = d :: name ++ rest₂ ∧ isIdentifierStart d = true ∧
      (∀ e ∈ name, isIdentifierPart e = true) ∧ (∀ e ∈ rest₂.head?, isIdentifierPart e = false) ∧
      respelled o scope [] (text.reverse ++ before) braces rest =
        ['_', 'c', 't', 'x', '.'] ++ (d :: name ++
          respelled o scope [] ((d :: name).reverse ++ (text.reverse ++ before)) braces rest₂) := by
  have hrest : rest ≠ [] := by
    rintro rfl
    apply hrun
    rw [respelled_nil]
    simp
  obtain ⟨t, rest₂, rfl, h⟩ := exists_fits (text.reverse ++ before) braces hrest
  rw [h.respelled_eq] at hrun ⊢
  cases h with
  | quoted | template | resumed | number | symbol => exact absurd hr hrun
  | @name d name hd hname hr₂ =>
    by_cases hkept : NameToken.isKept o scope []
        ⟨d :: name, text.reverse ++ before, rest₂, braces.head?⟩ = true
    · rw [spelling_kept hkept] at hrun
      exact absurd hr hrun
    · refine ⟨d, name, rest₂, rfl, hd, hname, hr₂, ?_⟩
      rw [spelling_replaced ho (by simpa using hkept), label_behind_number hne ht rfl,
        List.nil_append, List.append_assoc]
      rfl

private theorem settled_respelled (ho : o.inline = false) {before before' : List Char}
    (hw : Widened before before') (braces : List Brace) (s : List Char)
    (hs : ∀ n, .name n ∈ tokensFrom before braces s → (isMember? n.before).isSome = true) :
    Settled o scope before' braces (respelled o scope [] before braces s) := by
  by_cases hnil : s = []
  · rw [hnil, respelled_nil]
    exact settled_nil
  obtain ⟨t, rest, rfl, h⟩ := exists_fits before braces hnil
  have hlength : rest.length < (t.text ++ rest).length := by
    have := List.length_pos_iff.mpr h.text_ne_nil
    rw [List.length_append]
    omega
  rw [h.tokensFrom_eq] at hs
  have hstep : Widened (t.text.reverse ++ before) ((t.spelling o scope []).reverse ++ before') :=
    h.widened ho hw
  have ih := settled_respelled ho hstep (t.bracesAfter before braces) rest
    fun n hn => hs n (List.mem_cons_of_mem t hn)
  have hstart : StartsAlike rest
      (respelled o scope [] (t.text.reverse ++ before) (t.bracesAfter before braces) rest) :=
    startsAlike_respelled ho _ _ rest
  rw [h.respelled_eq]
  cases t with
  | quoted | templateText | symbol => exact settled_other hw h hstart (by simp) (by simp) ih
  | number text =>
    by_cases hrun : ∀ d ∈ (respelled o scope [] (text.reverse ++ before) braces rest).head?,
        isNumberPart d = false
    · exact settled_other hw h hstart (by simp) (fun _ => hrun) ih
    cases h with
    | @number c text hc ht hr =>
      have hparts : ∀ d ∈ c :: text, isNumberPart d = true :=
        List.forall_mem_cons.mpr ⟨isNumberPart_of_starts hc, ht⟩
      obtain ⟨d, name, rest₂, rfl, hd, hname, hr₂, hrest⟩ :=
        replaced_of_run ho (List.cons_ne_nil c text) hparts hr hrun
      have hout : ∀ e ∈ (respelled o scope []
          ((d :: name).reverse ++ ((c :: text).reverse ++ before)) braces rest₂).head?,
          isIdentifierPart e = false :=
        (startsAlike_respelled ho _ _ rest₂).head?_eq hr₂ ▸ hr₂
      have hstep₂ : Widened ((d :: name).reverse ++ ((c :: text).reverse ++ before))
          ((d :: name).reverse ++ '.' :: 'x' :: 't' :: 'c' :: '_' ::
            ((c :: text).reverse ++ before')) := by
        rw [List.reverse_cons, List.append_assoc, List.append_assoc]
        exact (Widened.insert hd List.not_mem_nil hstep).append name.reverse
      have hfits : (Token.name ⟨d :: name, (c :: text).reverse ++ before, rest₂, braces.head?⟩).Fits
          ((c :: text).reverse ++ before) braces rest₂ := .name hd hname hr₂
      have ih₂ := settled_respelled ho hstep₂ braces rest₂ fun n hn =>
        hs n (List.mem_cons_of_mem _ (hfits.tokensFrom_eq ▸ List.mem_cons_of_mem _ hn))
      have hsettled := settled_number hw hc ht hr hd hname (hr d rfl) hout ih₂
      rw [← hrest] at hsettled
      exact hsettled
  | name n =>
    cases h with
    | @name c text hc ht hr =>
      have hout := hstart.head?_eq hr ▸ hr
      obtain ⟨m, hm⟩ := Option.isSome_iff_exists.mp (hs _ List.mem_cons_self)
      by_cases hkept : NameToken.isKept o scope [] ⟨c :: text, before, rest, braces.head?⟩ = true
      · rw [spelling_kept hkept] at ih ⊢
        exact settled_kept hw hc ht hm hout (startsAlike_significant ho _ _ rest) hkept ih
      · have hfree : isMember? before = some false := by
          cases m with
          | true => exact absurd (by simp [NameToken.isKept, hm]) hkept
          | false => exact hm
        rw [spelling_replaced ho (by simpa using hkept)] at ih ⊢
        exact settled_replaced hw hc ht hfree hout ih
termination_by s.length

private theorem resolved_settled {source : String}
    (h : ∀ t ∈ tokens source.toList, t.IsSettled o scope)
    (harrow : ¬HasArrow source.toList) :
    ∃ r, resolve? o scope source = some r ∧ r.code = source := by
  have hsome : (resolve? o scope source).isSome = true :=
    resolve?_isSome_iff.mpr fun n hn => (h _ hn).1
  obtain ⟨r, hr⟩ := Option.isSome_iff_exists.mp hsome
  refine ⟨r, hr, String.toList_inj.mp ?_⟩
  have hspelling : ∀ t ∈ tokens source.toList, t.spelling o scope [] = t.text := by
    intro t ht
    cases t with
    | quoted | templateText | number | symbol => rfl
    | name n => exact spelling_kept (h _ ht).2
  rw [toList_resolved hr, arrowScopes, arrowScopesFrom_nil harrow, List.flatMap_congr hspelling]
  exact flatMap_text_tokensFrom [] [] source.toList

/-- Outside of setup code, resolution of a text without arrows is done once: the resolved code has
an answer again, and it is that code. -/
theorem resolve_idempotent (ho : o.inline = false) {source : String} {r : Resolved}
    (harrow : ¬HasArrow source.toList) (h : resolve? o scope source = some r) :
    ∃ r', resolve? o scope r.code = some r' ∧ r'.code = r.code := by
  have hcode : r.code.toList = respelled o scope [] [] [] source.toList := by
    rw [toList_resolved h, arrowScopes, arrowScopesFrom_nil harrow]
    rfl
  have hanswers := resolve?_isSome_iff.mp (Option.isSome_of_eq_some h)
  apply resolved_settled
  · rw [hcode]
    exact settled_respelled ho .nil [] source.toList hanswers
  · intro hmem
    apply harrow
    have hwidened : Widened (source.toList.reverse ++ [])
        ((respelled o scope [] [] [] source.toList).reverse ++ []) :=
      widened_respelled ho .nil [] source.toList
    rw [List.append_nil, List.append_nil, ← hcode] at hwidened
    have hreverse : ['=', '>'].reverse <:+: r.code.toList.reverse := List.reverse_infix.mpr hmem
    exact List.reverse_infix.mp (hwidened.hasArrow hreverse)

/-- A spread, a property in shorthand, a name right behind a number, and a name of the template. -/
def spreadObject : String := "\x7b a, k: [...b, 5日, x.y] \x7d + \x60$\x7bc\x7d\x60"

def spreadObjectResolved : Resolved where
  code := "\x7b a: _ctx.a, k: [..._ctx.b, 5_ctx.日, x.y] \x7d + \x60$\x7b_ctx.c\x7d\x60"
  constancy := .notConstant
  usesUnref := false

theorem spreadObject_idempotent :
    ¬HasArrow spreadObject.toList ∧
      resolve? {} (Scope.add {} ["x"]) spreadObject = some spreadObjectResolved ∧
      ∃ r, resolve? {} (Scope.add {} ["x"]) spreadObjectResolved.code = some r ∧
        r.code = spreadObjectResolved.code := by
  have harrow : ¬HasArrow spreadObject.toList := by decide +kernel
  have h : resolve? {} (Scope.add {} ["x"]) spreadObject = some spreadObjectResolved := by
    decide +kernel
  exact ⟨harrow, h, resolve_idempotent rfl harrow h⟩

end TemplateCompiler.Expression
