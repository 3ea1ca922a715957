import TemplateCompiler.Proofs.Brackets
import TemplateCompiler.Proofs.Literals

/-! What stands in a string at the start of an expression, and the rest of the expression. The
tokens behind the string are the same whatever its contents are. The contents are looked at in two
places only: heads of arrow functions are found in them, and a point right behind the string is
followed back to their last character. -/
namespace TemplateCompiler.Expression

open Text

variable {o : LoweringOptions} {scope : Scope}

/-- The text of a string with the contents. -/
def stringLiteral (contents : List Char) : List Char := '\x27' :: (contents ++ ['\x27'])

/-- The contents stand in the string as they are. -/
def IsPlainContents (contents : List Char) : Prop := ∀ c ∈ contents, c ≠ '\\' ∧ c ≠ '\x27'

/-- The expression that starts with the string. -/
def stringFirst (contents t : List Char) : String := String.ofList (stringLiteral contents ++ t)

/-- The name with more text before all that stands before it. -/
def NameToken.behind (u : List Char) (n : NameToken) : NameToken :=
  { n with before := n.before ++ u }

def Token.behind (u : List Char) : Token → Token
  | .name n => .name (n.behind u)
  | t => t

private theorem text_behind (u : List Char) (t : Token) : (t.behind u).text = t.text := by
  cases t <;> rfl

private theorem flatMap_text_behind (u : List Char) (ts : List Token) :
    (ts.map (Token.behind u)).flatMap Token.text = ts.flatMap Token.text := by
  induction ts with
  | nil => rfl
  | cons t ts ih => rw [List.map_cons, List.flatMap_cons, List.flatMap_cons, text_behind, ih]

section
variable (b u : List Char)

private theorem significantBefore_quote :
    significantBefore (b ++ '\x27' :: u) = significantBefore b ++ '\x27' :: u :=
  dropWhile_before (by decide) b u

private theorem head?_significantBefore_quote : (significantBefore (b ++ '\x27' :: u)).head? =
    (significantBefore (b ++ ['\x27'])).head? := by
  rw [significantBefore_quote, significantBefore_quote]
  cases significantBefore b <;> rfl

private theorem isPrefixOf_quote {c : Char} (hc : c ≠ '\x27') (d : Char) :
    [c, d].isPrefixOf (b ++ '\x27' :: u) = [c, d].isPrefixOf (b ++ ['\x27']) := by
  rcases b with _ | ⟨x, _ | ⟨y, b⟩⟩
  · simp [List.isPrefixOf, hc]
  · simp [List.isPrefixOf]
  · simp [List.isPrefixOf]

private theorem openedBrace_quote : openedBrace (b ++ '\x27' :: u) = openedBrace
    (b ++ ['\x27']) := by
  rw [openedBrace_eq_if, openedBrace_eq_if, significantBefore_quote, significantBefore_quote,
    isPrefixOf_quote _ u (by decide)]

private theorem startsNumber_quote (c : Char) (rest : List Char) :
    startsNumber (b ++ '\x27' :: u) c rest = startsNumber (b ++ ['\x27']) c rest := by
  rw [startsNumber, startsNumber, head?_significantBefore_quote]

private theorem bracesAfter_quote (braces : List Brace) (t : Token) :
    (t.behind u).bracesAfter (b ++ '\x27' :: u) braces =
      t.bracesAfter (b ++ ['\x27']) braces := by
  cases t with
  | quoted | templateText | number | name => rfl
  | symbol c =>
    change (Token.symbol c).bracesAfter _ _ = _
    rw [Token.bracesAfter, Token.bracesAfter, openedBrace_quote]

private theorem Token.Fits.behind {braces : List Brace} {rest : List Char} {t : Token}
    (h : t.Fits (b ++ ['\x27']) braces rest) :
    (t.behind u).Fits (b ++ '\x27' :: u) braces rest := by
  cases h with
  | quoted hq h => exact .quoted hq h
  | template h => exact .template h
  | resumed hb h => exact .resumed hb h
  | number hc ht hr => exact .number (by rwa [startsNumber_quote]) ht hr
  | name hc ht hr =>
    rw [Token.behind, NameToken.behind, List.append_assoc]
    exact .name hc ht hr
  | symbol hq ht hb hn hi => exact .symbol hq ht hb (by rwa [startsNumber_quote]) hi

end

private theorem Spelled.behind {u : List Char} {ts : List Token} {b : List Char}
    {braces : List Brace}
    (h : Spelled (b ++ ['\x27']) braces ts) :
    Spelled (b ++ '\x27' :: u) braces (ts.map (Token.behind u)) := by
  induction ts generalizing b braces with
  | nil => trivial
  | cons t ts ih =>
    obtain ⟨ht, hts⟩ := h
    rw [← List.append_assoc] at hts
    refine ⟨?_, ?_⟩
    · rw [flatMap_text_behind]
      exact ht.behind b u
    · rw [text_behind, bracesAfter_quote, ← List.append_assoc]
      exact ih hts

private theorem tokensFrom_quote (u t : List Char) : tokensFrom ('\x27' :: u) [] t =
    (tokensFrom ['\x27'] [] t).map (Token.behind u) := by
  have hspelled : Spelled ([] ++ ['\x27']) [] (tokensFrom ['\x27'] [] t) :=
    spelled_tokensFrom _ _ t
  refine tokensFrom_eq_iff.mpr ⟨?_, hspelled.behind⟩
  rw [flatMap_text_behind, flatMap_text_tokensFrom]

private theorem tokens_stringLiteral {contents : List Char} (h : IsPlainContents contents)
    (t : List Char) : tokens (stringLiteral contents ++ t) = .quoted (stringLiteral contents) ::
      (tokensFrom ['\x27'] [] t).map (Token.behind (contents.reverse ++ ['\x27'])) := by
  have hfits : (Token.quoted (stringLiteral contents)).Fits [] [] t :=
    .quoted (by decide) (.after_plain h (.close t))
  have hreverse : (stringLiteral contents).reverse ++ [] =
      '\x27' :: (contents.reverse ++ ['\x27']) := by
    simp [stringLiteral]
  have htokens := hfits.tokensFrom_eq
  rw [Token.text, hreverse] at htokens
  rw [tokens, htokens, ← tokensFrom_quote]
  rfl

/-- Whether the text ends with a character beyond ASCII. -/
def endsWide (contents : List Char) : Bool := contents.getLast?.any fun c => c.utf8Size != 1

/-- Whether the text starts with a point and a name behind it. -/
def startsMember : List Char → Bool
  | '.' :: rest => (rest.dropWhile isAsciiBlank).head?.any isIdentifierStart
  | _ => false

private theorem splitsCharacter_quote (b u : List Char) : splitsCharacter (b ++ '\x27' :: u) =
    (b.isEmpty && u.head?.any (fun c => c.utf8Size != 1) ||
      splitsCharacter (b ++ ['\x27'])) := by
  have hsize : '\x27'.utf8Size = 1 := by decide
  rcases b with _ | ⟨x, _ | ⟨y, b⟩⟩ <;> simp [splitsCharacter, hsize]

private theorem isMember?_quote (b u : List Char) : isMember? (b ++ '\x27' :: u) =
    if significantBefore b = ['.'] ∧ u.head?.any (fun c => c.utf8Size != 1) = true then none
    else isMember? (b ++ ['\x27']) := by
  by_cases hpoint : (significantBefore b).head? = some '.'
  · obtain ⟨earlier, hearlier⟩ := List.head?_eq_some_iff.mp hpoint
    have hbefore (v : List Char) :
        significantBefore (b ++ '\x27' :: v) = '.' :: (earlier ++ '\x27' :: v) := by
      rw [significantBefore_quote, hearlier]
      rfl
    rw [isMember?_pointed (hbefore u), isMember?_pointed (hbefore []), splitsCharacter_quote,
      isPrefixOf_quote _ u (by decide), hearlier]
    cases earlier with
    | nil =>
      -- the point follows the quote, so the second byte before it is the last of `u`
      cases u.head?.any fun c => c.utf8Size != 1 <;> simp
    | cons c earlier => simp
  · have hunpointed (v : List Char) : (significantBefore (b ++ '\x27' :: v)).head? ≠ some '.' := by
      rw [significantBefore_quote]
      cases hb : significantBefore b with
      | nil => simp
      | cons c w => simpa [hb] using hpoint
    rw [isMember?_unpointed (hunpointed u), isMember?_unpointed (hunpointed []), if_neg]
    rintro ⟨hb, -⟩
    rw [hb] at hpoint
    exact hpoint rfl

private theorem head?_reversed_contents (contents : List Char) :
    (contents.reverse ++ ['\x27']).head?.any (fun c => c.utf8Size != 1) = endsWide contents := by
  rw [endsWide, List.head?_append, List.head?_reverse]
  cases contents.getLast? with
  | none => decide
  | some c => rfl

private theorem name_place {before s : List Char} {braces : List Brace} {n : NameToken}
    (h : .name n ∈ tokensFrom before braces s) : ∃ pre c rest, s = pre ++ c :: rest ∧
      isIdentifierStart c = true ∧ n.before = pre.reverse ++ before := by
  obtain ⟨pre, post, hsplit⟩ := List.append_of_mem h
  have hspelled := spelled_tokensFrom before braces s
  have htext := flatMap_text_tokensFrom before braces s
  rw [hsplit] at hspelled htext
  rw [List.flatMap_append, List.flatMap_cons] at htext
  cases hspelled.fits with
  | @name c text hc =>
    exact ⟨pre.flatMap Token.text, c, text ++ post.flatMap Token.text, htext.symm, hc, rfl⟩

private theorem significantBefore_point (b : List Char) :
    significantBefore (b ++ ['\x27']) = ['.', '\x27'] ↔ significantBefore b = ['.'] := by
  have hsplit : ['.', '\x27'] = ['.'] ++ ['\x27'] := rfl
  rw [significantBefore_quote, hsplit, List.append_left_inj]

private theorem before_behind {n : NameToken} {t : List Char}
    (hn : .name n ∈ tokensFrom ['\x27'] [] t)
    (u : List Char) : ∃ b, n.before = b ++ ['\x27'] ∧ (n.behind u).before = b ++ '\x27' :: u := by
  obtain ⟨pre, _, _, -, -, hbefore⟩ := name_place hn
  refine ⟨pre.reverse, hbefore, ?_⟩
  rw [NameToken.behind, hbefore, List.append_assoc]
  rfl

private theorem isMember?_behind {n : NameToken} {t : List Char}
    (hn : .name n ∈ tokensFrom ['\x27'] [] t) (u : List Char) : isMember? (n.behind u).before =
      if significantBefore n.before = ['.', '\x27'] ∧
        u.head?.any (fun c => c.utf8Size != 1) = true then none else isMember? n.before := by
  obtain ⟨b, hbefore, hbehind⟩ := before_behind hn u
  rw [hbehind, isMember?_quote, hbefore]
  simp only [significantBefore_point]

private theorem name_mem_point {blanks rest : List Char} {c : Char}
    (hblanks : ∀ d ∈ blanks, isAsciiBlank d = true) (hc : isIdentifierStart c = true) :
    .name ⟨c :: rest.takeWhile isIdentifierPart, blanks.reverse ++ ['.', '\x27'],
      rest.dropWhile isIdentifierPart, none⟩ ∈
      tokensFrom ['\x27'] [] ('.' :: (blanks ++ c :: rest)) := by
  have hpadding : ∀ d ∈ blanks, isPadding d = true := fun d hd =>
    all_asciiBlank (by decide) (hblanks d hd)
  have hnext : (blanks ++ c :: rest).head?.any Char.isDigit = false := by
    cases blanks with
    | nil => simpa using not_digit_of_start hc
    | cons d blanks =>
      refine Bool.eq_false_iff.mpr fun hdigit => ?_
      have hblank := hblanks d List.mem_cons_self
      rw [not_asciiBlank (p := Char.isDigit) (by decide) hdigit] at hblank
      cases hblank
  have hfits : (Token.symbol '.').Fits ['\x27'] [] (blanks ++ c :: rest) := by
    refine .symbol (by decide) (by decide) (by decide) ?_ (by decide)
    rw [startsNumber, hnext]
    rfl
  have htokens : tokensFrom ['\x27'] [] ('.' :: (blanks ++ c :: rest)) =
      .symbol '.' :: tokensFrom ['.', '\x27'] [] (blanks ++ c :: rest) := hfits.tokensFrom_eq
  rw [htokens, List.mem_cons, name_mem_padding hpadding, tokensFrom_name hc]
  exact .inr List.mem_cons_self

private theorem startsMember_iff (t : List Char) : startsMember t = true ↔
    ∃ n, .name n ∈ tokensFrom ['\x27'] [] t ∧ significantBefore n.before = ['.', '\x27'] := by
  constructor
  · intro h
    unfold startsMember at h
    split at h
    · rename_i rest
      obtain ⟨c, hhead, hc⟩ := (Option.any_eq_true ..).mp h
      obtain ⟨rest', hrest'⟩ := List.head?_eq_some_iff.mp hhead
      have hrest : rest = rest.takeWhile isAsciiBlank ++ c :: rest' := by
        rw [← hrest', List.takeWhile_append_dropWhile]
      have hblanks : ∀ d ∈ rest.takeWhile isAsciiBlank, isAsciiBlank d = true :=
        fun _ => List.mem_takeWhile_imp
      rw [hrest]
      refine ⟨_, name_mem_point hblanks hc, ?_⟩
      rw [significantBefore, List.dropWhile_append_of_pos]
      · rfl
      · exact fun d hd => hblanks d (List.mem_reverse.mp hd)
    · cases h
  · rintro ⟨n, hn, hbefore⟩
    obtain ⟨pre, c, rest, rfl, hc, hplace⟩ := name_place hn
    rw [hplace, significantBefore_point] at hbefore
    obtain ⟨blanks, hblanks, rfl⟩ :
        ∃ blanks, (∀ d ∈ blanks, isAsciiBlank d = true) ∧ pre = '.' :: blanks := by
      have hsplit : pre.reverse.takeWhile isAsciiBlank ++ ['.'] = pre.reverse := by
        rw [← hbefore]
        exact List.takeWhile_append_dropWhile
      refine ⟨(pre.reverse.takeWhile isAsciiBlank).reverse, ?_, ?_⟩
      · exact fun d hd => List.mem_takeWhile_imp (List.mem_reverse.mp hd)
      · have hpre := congrArg List.reverse hsplit
        rw [List.reverse_append, List.reverse_reverse] at hpre
        exact hpre.symm
    have hrest : (blanks ++ c :: rest).dropWhile isAsciiBlank = c :: rest := by
      rw [List.dropWhile_append_of_pos hblanks, List.dropWhile_cons_of_neg]
      simp [not_asciiBlank (p := isIdentifierStart) (by decide) hc]
    rw [List.cons_append, startsMember, hrest]
    exact hc

private theorem name_mem_stringLiteral {contents t : List Char} (h : IsPlainContents contents)
    (n : NameToken) : .name n ∈ tokens (stringLiteral contents ++ t) ↔
      ∃ m, .name m ∈ tokensFrom ['\x27'] [] t ∧ n = m.behind (contents.reverse ++ ['\x27']) := by
  rw [tokens_stringLiteral h, List.mem_cons, or_iff_right Token.noConfusion, List.mem_map]
  constructor
  · rintro ⟨k, hk, heq⟩
    cases k with
    | name m => exact ⟨m, hk, (Token.name.inj heq).symm⟩
    | _ => cases heq
  · rintro ⟨m, hm, rfl⟩
    exact ⟨.name m, hm, rfl⟩

private theorem isSome_isMember?_behind {n : NameToken} {t : List Char}
    (hn : .name n ∈ tokensFrom ['\x27'] [] t) (contents : List Char) :
    (isMember? (n.behind (contents.reverse ++ ['\x27'])).before).isSome = true ↔
      ¬(significantBefore n.before = ['.', '\x27'] ∧ endsWide contents = true) ∧
        (isMember? n.before).isSome = true := by
  rw [isMember?_behind hn, head?_reversed_contents]
  split
  · rename_i hwide
    simp [hwide]
  · rename_i hwide
    simp [hwide]

/-- There is an answer where there is one with an empty string, unless the string ends with a
character beyond ASCII and a member follows. -/
private theorem isSome_stringFirst {contents : List Char} (h : IsPlainContents contents)
    (t : List Char) :
    (resolve? o scope (stringFirst contents t)).isSome = true ↔
      (resolve? o scope (stringFirst [] t)).isSome = true ∧
        ¬(endsWide contents = true ∧ startsMember t = true) := by
  have hanswers {contents : List Char} (h : IsPlainContents contents) :
      (resolve? o scope (stringFirst contents t)).isSome = true ↔
        ∀ n, .name n ∈ tokensFrom ['\x27'] [] t →
          ¬(significantBefore n.before = ['.', '\x27'] ∧ endsWide contents = true) ∧
            (isMember? n.before).isSome = true := by
    rw [resolve?_isSome_iff, stringFirst, String.toList_ofList]
    constructor
    · intro hall n hn
      rw [← isSome_isMember?_behind hn]
      exact hall _ ((name_mem_stringLiteral h _).mpr ⟨n, hn, rfl⟩)
    · intro hall n hn
      obtain ⟨m, hm, rfl⟩ := (name_mem_stringLiteral h n).mp hn
      exact (isSome_isMember?_behind hm contents).mpr (hall m hm)
  rw [hanswers h, hanswers (List.forall_mem_nil _), startsMember_iff]
  constructor
  · refine fun hall => ⟨fun n hn => ⟨fun hwide => ?_, (hall n hn).2⟩, ?_⟩
    · cases hwide.2
    · rintro ⟨hwide, n, hn, hpoint⟩
      exact (hall n hn).1 ⟨hpoint, hwide⟩
  · rintro ⟨hall, hnone⟩ n hn
    exact ⟨fun hwide => hnone ⟨hwide.2, n, hn, hwide.1⟩, (hall n hn).2⟩

/-- Whether the name, which stands in the text behind the string, means a parameter of an arrow
function. -/
def NameToken.isParameter (contents t : List Char) (n : NameToken) : Bool :=
  (arrowScopes (stringLiteral contents ++ t)).any fun a =>
    a.covers n.text (n.before.length + (contents.length + 1))

/-- The text of a token behind the string in the resolved code. -/
def Token.spellingBehind (o : LoweringOptions) (scope : Scope) (contents t : List Char)
    (k : Token) : List Char :=
  (k.behind (contents.reverse ++ ['\x27'])).spelling o scope
    (arrowScopes (stringLiteral contents ++ t))

private theorem toList_stringFirst {contents t : List Char} (h : IsPlainContents contents)
    {r : Resolved}
    (hr : resolve? o scope (stringFirst contents t) = some r) :
    r.code.toList = stringLiteral contents ++
      (tokensFrom ['\x27'] [] t).flatMap (Token.spellingBehind o scope contents t) := by
  rw [toList_resolved hr, stringFirst, String.toList_ofList, tokens_stringLiteral h,
    List.flatMap_cons, List.flatMap_map]
  rfl

private theorem atKey_behind {n : NameToken} {t : List Char}
    (hn : .name n ∈ tokensFrom ['\x27'] [] t)
    (u : List Char) : (n.behind u).atKey = n.atKey := by
  obtain ⟨b, hbefore, hbehind⟩ := before_behind hn u
  rw [NameToken.atKey, NameToken.atKey, hbehind, hbefore, head?_significantBefore_quote]
  rfl

private theorem isKept_behind {n : NameToken} {contents t : List Char}
    (hn : .name n ∈ tokensFrom ['\x27'] [] t)
    (hsome : (isMember? (n.behind (contents.reverse ++ ['\x27'])).before).isSome = true) :
    (n.behind (contents.reverse ++ ['\x27'])).isKept o scope
        (arrowScopes (stringLiteral contents ++ t)) =
      (n.isKept o scope [] || n.isParameter contents t) := by
  have hmember := isMember?_behind hn (contents.reverse ++ ['\x27'])
  rw [if_neg] at hmember
  · have hkey : (n.behind (contents.reverse ++ ['\x27'])).isKey = n.isKey := by
      rw [NameToken.isKey, NameToken.isKey, atKey_behind hn]
      rfl
    have htext : (n.behind (contents.reverse ++ ['\x27'])).text = n.text := rfl
    have hplace : (n.behind (contents.reverse ++ ['\x27'])).before.length =
        n.before.length + (contents.length + 1) := by
      simp [NameToken.behind]
    rw [NameToken.isKept, NameToken.isKept, hmember, hkey, htext, hplace, NameToken.isParameter,
      List.any_nil]
    simp only [Bool.or_false]
    ac_rfl
  · intro hnone
    rw [hmember, if_pos hnone] at hsome
    cases hsome

private theorem spellingBehind_name {n : NameToken} {contents t : List Char}
    (hn : .name n ∈ tokensFrom ['\x27'] [] t)
    (hsome : (isMember? (n.behind (contents.reverse ++ ['\x27'])).before).isSome = true) :
    (Token.name n).spellingBehind o scope contents t =
      if n.isKept o scope [] || n.isParameter contents t then n.name
      else (if n.isShorthand then n.name ++ [':', ' '] else []) ++
        (accessCode o n.text).toList := by
  have hshorthand : (n.behind (contents.reverse ++ ['\x27'])).isShorthand = n.isShorthand := by
    rw [NameToken.isShorthand, NameToken.isShorthand, atKey_behind hn]
    rfl
  rw [Token.spellingBehind, Token.behind, Token.spelling, isKept_behind hn hsome, hshorthand]
  rfl

/-- Two strings make a difference to a name that is not kept otherwise and a parameter of an arrow
function behind one of them only. -/
private theorem spellingBehind_eq_iff {n : NameToken} {c₁ c₂ t : List Char}
    (hn : .name n ∈ tokensFrom ['\x27'] [] t)
    (h₁ : (isMember? (n.behind (c₁.reverse ++ ['\x27'])).before).isSome = true)
    (h₂ : (isMember? (n.behind (c₂.reverse ++ ['\x27'])).before).isSome = true) :
    (Token.name n).spellingBehind o scope c₁ t = (Token.name n).spellingBehind o scope c₂ t ↔
      n.isKept o scope [] = true ∨ n.isParameter c₁ t = n.isParameter c₂ t := by
  -- the code of a name is longer than the name, so the spelling tells which of the two it is
  have hreplaced : (if n.isShorthand then n.name ++ [':', ' '] else []) ++
      (accessCode o n.text).toList ≠ n.name := by
    intro heq
    have hlength := length_accessCode o n
    have := congrArg List.length heq
    rw [List.length_append] at this
    omega
  rw [spellingBehind_name hn h₁, spellingBehind_name hn h₂]
  cases n.isKept o scope [] with
  | true => simp
  | false =>
    cases n.isParameter c₁ t <;> cases n.isParameter c₂ t <;> simp [hreplaced, hreplaced.symm]

private theorem le_start_of_plainContents {contents : List Char} (hround : '(' ∉ contents)
    (harrow : ¬HasArrow contents) (t : List Char) :
    ∀ a ∈ arrowScopes (stringLiteral contents ++ t), (stringLiteral contents).length ≤ a.start := by
  have hround' : '(' ∉ '\x27' :: contents := by
    rw [List.mem_cons, not_or]
    exact ⟨by decide, hround⟩
  have harrow' : ¬HasArrow ('\x27' :: contents) := by
    intro h
    rcases List.infix_cons_iff.mp h with h | h
    · exact absurd (List.cons_prefix_cons.mp h).1 (by decide)
    · exact harrow h
  have hsplit : stringLiteral contents ++ t = ('\x27' :: contents) ++ '\x27' :: t := by
    simp [stringLiteral]
  have hstart : ∀ a ∈ arrowScopesFrom 0 (('\x27' :: contents) ++ '\x27' :: t),
      0 + ('\x27' :: contents).length ≤ a.start :=
    le_start_of_plain (by decide) (by decide) (by decide) hround' harrow' 0
  have hquote : arrowHead? ('\x27' :: t) = none := by
    rw [arrowHead?, if_neg (by decide)]
    decide
  -- the quote that closes the string starts no head itself
  rw [arrowScopes, hsplit, arrowScopesFrom_append hstart, arrowScopesFrom_none hquote]
  intro a ha
  have := le_start_of_mem ha
  simp only [stringLiteral, List.length_cons, List.length_append, List.length_nil] at this ⊢
  omega

private theorem isParameter_eq {contents t : List Char}
    (h : ∀ a ∈ arrowScopes (stringLiteral contents ++ t),
      (stringLiteral contents).length ≤ a.start) (n : NameToken) :
    n.isParameter contents t =
      (arrowScopesFrom 1 t).any fun a => a.covers n.text n.before.length := by
  have hlength : 0 + (stringLiteral contents).length = 1 + (contents.length + 1) := by
    simp [stringLiteral]
    omega
  have hscopes : arrowScopes (stringLiteral contents ++ t) =
      (arrowScopesFrom 1 t).map (ArrowScope.shift (contents.length + 1)) := by
    rw [arrowScopes, arrowScopesFrom_append (by simpa [arrowScopes] using h), hlength,
      arrowScopesFrom_add]
  rw [NameToken.isParameter, hscopes, List.any_map]
  simp only [Function.comp_def, covers_shift]

private theorem isSome_behind {contents t : List Char} (h : IsPlainContents contents) {r : Resolved}
    (hr : resolve? o scope (stringFirst contents t) = some r) {n : NameToken}
    (hn : .name n ∈ tokensFrom ['\x27'] [] t) :
    (isMember? (n.behind (contents.reverse ++ ['\x27'])).before).isSome = true := by
  have hsome := congrArg Option.isSome hr
  rw [Option.isSome_some, resolve?_isSome_iff, stringFirst, String.toList_ofList] at hsome
  exact hsome _ ((name_mem_stringLiteral h _).mpr ⟨n, hn, rfl⟩)

/-- The rest of an expression that starts with a string, for two contents of the string. There is an
answer for both if there is one for the empty string, unless the contents end with a character
beyond ASCII and a member follows the string. The tokens of the rest are the same, and a token is
spelled alike behind both unless it is a name that is not kept otherwise and the parameter of an
arrow function for one of them only. If no arrow function starts in the strings, which is so where
they hold neither a round bracket nor an arrow, the rest is the same. -/
theorem rest_behind_string {c₁ c₂ t : List Char} (h₁ : IsPlainContents c₁)
    (h₂ : IsPlainContents c₂) :
    (∀ c ∈ [c₁, c₂], (resolve? o scope (stringFirst c t)).isSome = true ↔
      (resolve? o scope (stringFirst [] t)).isSome = true ∧
        ¬(endsWide c = true ∧ startsMember t = true)) ∧
    ∀ r₁ r₂, resolve? o scope (stringFirst c₁ t) = some r₁ →
      resolve? o scope (stringFirst c₂ t) = some r₂ →
      r₁.code.toList = stringLiteral c₁ ++
        (tokensFrom ['\x27'] [] t).flatMap (Token.spellingBehind o scope c₁ t) ∧
      r₂.code.toList = stringLiteral c₂ ++
        (tokensFrom ['\x27'] [] t).flatMap (Token.spellingBehind o scope c₂ t) ∧
      (∀ k ∈ tokensFrom ['\x27'] [] t,
        k.spellingBehind o scope c₁ t = k.spellingBehind o scope c₂ t ↔
          ∀ n, k = .name n → n.isKept o scope [] = true ∨
            n.isParameter c₁ t = n.isParameter c₂ t) ∧
      ((∀ c ∈ [c₁, c₂], ('(' ∉ c ∧ ¬HasArrow c) ∨
        ∀ a ∈ arrowScopes (stringLiteral c ++ t), (stringLiteral c).length ≤ a.start) →
        ∃ rest, r₁.code.toList = stringLiteral c₁ ++ rest ∧
          r₂.code.toList = stringLiteral c₂ ++ rest) := by
  refine ⟨?_, fun r₁ r₂ hr₁ hr₂ => ?_⟩
  · simp only [List.forall_mem_cons, List.not_mem_nil, false_implies, implies_true, and_true]
    exact ⟨isSome_stringFirst h₁ t, isSome_stringFirst h₂ t⟩
  have halike : ∀ k ∈ tokensFrom ['\x27'] [] t,
      k.spellingBehind o scope c₁ t = k.spellingBehind o scope c₂ t ↔
        ∀ n, k = .name n → n.isKept o scope [] = true ∨
          n.isParameter c₁ t = n.isParameter c₂ t := by
    intro k hk
    cases k with
    | name n =>
      rw [spellingBehind_eq_iff hk (isSome_behind h₁ hr₁ hk) (isSome_behind h₂ hr₂ hk)]
      exact ⟨fun h m hm => Token.name.inj hm ▸ h, fun h => h n rfl⟩
    | _ =>
      refine ⟨fun _ n hn => ?_, fun _ => rfl⟩
      cases hn
  have hcode₁ := toList_stringFirst h₁ hr₁
  have hcode₂ := toList_stringFirst h₂ hr₂
  refine ⟨hcode₁, hcode₂, halike, fun hplain => ?_⟩
  have hparameter : ∀ c ∈ [c₁, c₂], ∀ n : NameToken, n.isParameter c t =
      (arrowScopesFrom 1 t).any fun a => a.covers n.text n.before.length := by
    intro c hc
    rcases hplain c hc with ⟨hround, harrow⟩ | hstart
    · exact isParameter_eq (le_start_of_plainContents hround harrow t)
    · exact isParameter_eq hstart
  have hrest : ∀ k ∈ tokensFrom ['\x27'] [] t,
      k.spellingBehind o scope c₁ t = k.spellingBehind o scope c₂ t := by
    refine fun k hk => (halike k hk).mpr fun n _ => .inr ?_
    rw [hparameter c₁ (by simp), hparameter c₂ (by simp)]
  refine ⟨_, hcode₁, ?_⟩
  rw [hcode₂, List.flatMap_def, List.flatMap_def, List.map_congr_left hrest]

/-- A member that calls an arrow function. -/
def joinedItems : List Char := ".concat(xs.map(x => x + y))".toList

theorem joinedItems_behind_string : ∃ r₁ r₂ rest,
    resolve? {} {} (stringFirst [] joinedItems) = some r₁ ∧
      resolve? {} {} (stringFirst "x = >".toList joinedItems) = some r₂ ∧
      r₁.code.toList = stringLiteral [] ++ rest ∧
      r₂.code.toList = stringLiteral "x = >".toList ++ rest := by
  have hplain : IsPlainContents "x = >".toList := by
    simp [IsPlainContents]
  have hnil : IsPlainContents [] := List.forall_mem_nil _
  have hfirst : (resolve? {} {} (stringFirst [] joinedItems)).isSome = true := by decide +kernel
  have hsecond : (resolve? {} {} (stringFirst "x = >".toList joinedItems)).isSome = true :=
    ((rest_behind_string hnil hplain).1 _ (by simp)).mpr ⟨hfirst, by decide +kernel⟩
  obtain ⟨r₁, hr₁⟩ := Option.isSome_iff_exists.mp hfirst
  obtain ⟨r₂, hr₂⟩ := Option.isSome_iff_exists.mp hsecond
  have hcontents : ∀ c ∈ [[], "x = >".toList], '(' ∉ c ∧ ¬HasArrow c := by decide
  obtain ⟨-, -, -, hrest⟩ := (rest_behind_string hnil hplain).2 r₁ r₂ hr₁ hr₂
  obtain ⟨rest, hcode₁, hcode₂⟩ := hrest fun c hc => .inl (hcontents c hc)
  exact ⟨r₁, r₂, rest, hr₁, hr₂, hcode₁, hcode₂⟩

/-- The contents of a string reach the rest in two ways: a name in it that an arrow follows is a
parameter for the rest, and if a member follows, a character beyond ASCII at the end of the string
leaves the expression without an answer. -/
theorem contents_change_rest :
    resolve? {} {} (stringFirst [] " + a".toList) = some ⟨"'' + _ctx.a", .notConstant, false⟩ ∧
      resolve? {} {} (stringFirst "a =>".toList " + a".toList) =
        some ⟨"'a =>' + a", .notConstant, false⟩ ∧
      (¬∃ rest, "'' + _ctx.a".toList = stringLiteral [] ++ rest ∧
        "'a =>' + a".toList = stringLiteral "a =>".toList ++ rest) ∧
      (resolve? {} {} (stringFirst [] ".length".toList)).isSome = true ∧
      resolve? {} {} (stringFirst ['\u65e5'] ".length".toList) = none := by
  refine ⟨by decide +kernel, by decide +kernel, ?_, by decide +kernel, by decide +kernel⟩
  rintro ⟨rest, hempty, harrow⟩
  have hlength := congrArg List.length hempty
  have hlength' := congrArg List.length harrow
  rw [List.length_append] at hlength hlength'
  have hfixed : "'' + _ctx.a".toList.length = 11 ∧ (stringLiteral []).length = 2 ∧
      "'a =>' + a".toList.length = 10 ∧ (stringLiteral "a =>".toList).length = 6 := by decide
  omega

end TemplateCompiler.Expression
