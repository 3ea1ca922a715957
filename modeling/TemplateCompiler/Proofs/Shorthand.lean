import TemplateCompiler.Proofs.ArrowHeads
import TemplateCompiler.Proofs.Brackets
import TemplateCompiler.Proofs.TokenMap

/-! Properties in shorthand. Whether a name is taken for one is told from the innermost brace and
the neighbours of the name. Round and square brackets are not looked at, so that the items of a list
within an object are taken for properties too, all but the first and the last. -/
namespace TemplateCompiler.Expression

open Text

variable {o : LoweringOptions} {scope : Scope} {arrows : List ArrowScope}

/-- The code that reads a variable, labelled with its name. -/
def NameToken.expansion (o : LoweringOptions) (n : NameToken) : List Char :=
  n.name ++ [':', ' '] ++ (accessCode o n.text).toList

private theorem spelling_eq_expansion_iff (n : NameToken) :
    (Token.name n).spelling o scope arrows = n.expansion o ↔
      n.isKept o scope arrows = false ∧ n.isShorthand = true := by
  have hcode := length_accessCode o n
  have hlength : (n.expansion o).length =
      n.name.length + 2 + (accessCode o n.text).toList.length := by
    rw [NameToken.expansion, List.length_append, List.length_append]
    rfl
  rw [Token.spelling]
  cases hkept : n.isKept o scope arrows with
  | true =>
    constructor
    · intro heq
      rw [if_pos rfl] at heq
      rw [← heq] at hlength
      omega
    · rintro ⟨⟨⟩, -⟩
  | false =>
    rw [if_neg Bool.false_ne_true]
    cases hshort : n.isShorthand with
    | true => exact ⟨fun _ => ⟨rfl, rfl⟩, fun _ => rfl⟩
    | false =>
      constructor
      · intro heq
        rw [if_neg Bool.false_ne_true, List.nil_append] at heq
        rw [← heq] at hlength
        omega
      · rintro ⟨-, ⟨⟩⟩

private theorem behindBrace_of_tokens {s : List Char} {pre post : List Token} {n : NameToken}
    (h : tokens s = pre ++ .name n :: post) : BehindBrace n.before (bracketsOver [] [] pre) := by
  have hspelled : Spelled [] [] (pre ++ .name n :: post) := h ▸ spelled_tokensFrom [] [] s
  have hne : (Token.name n :: post).flatMap Token.text ≠ [] := by
    rw [List.flatMap_cons]
    exact List.append_ne_nil_of_left_ne_nil hspelled.fits.text_ne_nil _
  have hstart : BehindBrace [] [] := by
    intro h
    cases h
  have hrun := hstart.run hspelled hne
  rwa [List.append_nil, ← (name_of_tokens h).1] at hrun

/-- The innermost bracket before a name in shorthand is the brace of an object, unless the name
follows a comma between brackets of another sort. -/
private theorem innermost_of_shorthand {s : List Char} {pre post : List Token} {n : NameToken}
    (h : tokens s = pre ++ .name n :: post) (hn : n.isShorthand = true) :
    (bracketsOver [] [] pre).head? = some (.brace .object) ∨
      ((bracketsOver [] [] pre).head? = some .round ∨
        (bracketsOver [] [] pre).head? = some .square) ∧
        (significantBefore n.before).head? = some ',' := by
  obtain ⟨hobject, hprev, -⟩ := (isShorthand_iff n).mp hn
  have hbehind := behindBrace_of_tokens h
  have hbrace : some .object = ((bracketsOver [] [] pre).filterMap Bracket.brace?).head? := by
    rw [← hobject, braces_bracketsOver]
    exact (name_of_tokens h).2.2
  cases hbrackets : bracketsOver [] [] pre with
  | nil =>
    rw [hbrackets] at hbrace
    cases hbrace
  | cons bracket outer =>
    rw [hbrackets] at hbrace hbehind
    cases bracket with
    | brace b =>
      left
      rw [List.head?_cons, Option.some.inj hbrace]
    | round | square =>
      right
      -- right behind an opening brace no other bracket can be the innermost
      refine ⟨by simp, hprev.resolve_left fun hopen => ?_⟩
      obtain ⟨b, hb⟩ := hbehind hopen
      cases hb

/-- A name that is read from the component's state wherever it stands for a variable. -/
structure IsFree (scope : Scope) (name : String) : Prop where
  isIdentifier : Text.isIdentifier name = true
  keyword : ReservedNames.isKeyword name = false
  global : ReservedNames.isGlobal name = false
  renderLocal : ReservedNames.isRenderLocal name = false
  declared : scope.contains name = false

/-- The code for the items of a list within an object that stand behind its first: all but the last
are taken for properties. -/
def laterItems : List String → List String
  | [] => []
  | [x] => ["_ctx." ++ x]
  | x :: y :: xs => (x ++ ": _ctx." ++ x) :: laterItems (y :: xs)

/-- The code for the items of a list within an object. -/
def listItems : List String → List String
  | [] => []
  | x :: xs => ("_ctx." ++ x) :: laterItems xs

/-- The spellings of the tokens of a text, one behind the other. -/
def respelled (o : LoweringOptions) (scope : Scope) (arrows : List ArrowScope) (before : List Char)
    (braces : List Brace) (s : List Char) : List Char :=
  (tokensFrom before braces s).flatMap (Token.spelling o scope arrows)

/-- A text that starts with a fitting token is respelled as that token and then the rest. -/
theorem Token.Fits.respelled_eq {before : List Char} {braces : List Brace} {rest : List Char}
    {t : Token} (h : t.Fits before braces rest) :
    respelled o scope arrows before braces (t.text ++ rest) =
      t.spelling o scope arrows ++
        respelled o scope arrows (t.text.reverse ++ before) (t.bracesAfter before braces) rest := by
  rw [respelled, h.tokensFrom_eq, List.flatMap_cons, respelled]

private theorem respelled_mark {c : Char} (hc : c ∈ [' ', ':', ',', '[', ']', '(', ')'])
    (before : List Char) (braces : List Brace) (rest : List Char) :
    respelled o scope arrows before braces (c :: rest) =
      c :: respelled o scope arrows (c :: before) braces rest := by
  obtain ⟨hfits, hbraces⟩ : (Token.symbol c).Fits before braces rest ∧
      (Token.symbol c).bracesAfter before braces = braces := by
    simp only [List.mem_cons, List.not_mem_nil, or_false] at hc
    rcases hc with rfl | rfl | rfl | rfl | rfl | rfl | rfl <;>
      exact ⟨.symbol rfl (by decide) (by simp) rfl (by decide), rfl⟩
  refine hfits.respelled_eq.trans ?_
  rw [hbraces]
  rfl

private theorem respelled_open (rest : List Char) :
    respelled o scope arrows [] [] ('\x7b' :: rest) =
      '\x7b' :: respelled o scope arrows ['\x7b'] [.object] rest :=
  (Token.Fits.symbol rfl (by decide) (by decide) rfl (by decide)).respelled_eq

private theorem respelled_close (before : List Char) :
    respelled o scope arrows before [.object] ['\x7d'] = ['\x7d'] := by
  have hfits : (Token.symbol '\x7d').Fits before [.object] [] :=
    .symbol rfl (by decide) (by decide) rfl (by decide)
  have hnil : respelled o scope arrows ('\x7d' :: before) [] [] = [] := by
    rw [respelled, tokensFrom, List.flatMap_nil]
  exact hfits.respelled_eq.trans (congrArg _ hnil)

private theorem isIdentifier_cons {x : String} (h : isIdentifier x = true) :
    ∃ c text, x.toList = c :: text ∧ isIdentifierStart c = true ∧
      ∀ d ∈ text, isIdentifierPart d = true := by
  rw [isIdentifier] at h
  cases htext : x.toList with
  | nil =>
    rw [htext] at h
    cases h
  | cons c text =>
    rw [htext, isIdentifierText, Bool.and_eq_true, List.all_eq_true] at h
    exact ⟨c, text, rfl, h⟩

private theorem respelled_name {x : String} (hx : isIdentifier x = true) {c : Char}
    (hc : isIdentifierPart c = false) (before : List Char) (braces : List Brace)
    (rest : List Char) :
    respelled o scope arrows before braces (x.toList ++ c :: rest) =
      (Token.name ⟨x.toList, before, c :: rest, braces.head?⟩).spelling o scope arrows ++
        respelled o scope arrows (x.toList.reverse ++ before) braces (c :: rest) := by
  have hfits : (Token.name ⟨x.toList, before, c :: rest, braces.head?⟩).Fits before braces
      (c :: rest) := by
    obtain ⟨d, text, htext, hd, hparts⟩ := isIdentifier_cons hx
    rw [htext]
    refine .name hd hparts ?_
    intro e he
    cases he
    exact hc
  exact hfits.respelled_eq

private theorem spelling_free {n : NameToken} (hn : IsFree scope n.text)
    (hmember : isMember? n.before = some false) (hkey : n.isKey = false) :
    (Token.name n).spelling {} scope [] =
      (if n.isShorthand then n.name ++ [':', ' '] else []) ++ ("_ctx." ++ n.text).toList := by
  have hkept : n.isKept {} scope [] = false := by
    rw [NameToken.isKept, hmember, hkey, hn.keyword, hn.global, hn.renderLocal, hn.declared]
    rfl
  rw [Token.spelling, hkept, if_neg Bool.false_ne_true]
  rfl

private theorem respelled_free {x : String} (hx : IsFree scope x) {before : List Char} {p q : Char}
    (hbefore : (significantBefore before).head? = some p) (hp : p ≠ '.')
    (hpart : isIdentifierPart q = false) (hblank : isAsciiBlank q = false) (hq : q ≠ ':')
    (rest : List Char) :
    respelled {} scope [] before [.object] (x.toList ++ q :: rest) =
      (if (p = '\x7b' ∨ p = ',') ∧ (q = ',' ∨ q = '\x7d') then x.toList ++ [':', ' '] else []) ++
        ("_ctx." ++ x).toList ++
        respelled {} scope [] (x.toList.reverse ++ before) [.object] (q :: rest) := by
  have hmember : isMember? before = some false := by
    apply isMember?_unpointed
    rw [hbefore]
    intro hpoint
    exact hp (Option.some.inj hpoint)
  rw [respelled_name hx.isIdentifier hpart]
  have hnext : (NameToken.mk x.toList before (q :: rest) (some .object)).next? = some q := by
    rw [NameToken.next?, List.dropWhile_cons_of_neg (by simp [hblank]), List.head?_cons]
  have htext : (NameToken.mk x.toList before (q :: rest) (some .object)).text = x :=
    String.ofList_toList
  have hkey : (NameToken.mk x.toList before (q :: rest) (some .object)).isKey = false := by
    simp [NameToken.isKey, hnext, hq]
  have hshort : (NameToken.mk x.toList before (q :: rest) (some .object)).isShorthand = true ↔
      (p = '\x7b' ∨ p = ',') ∧ (q = ',' ∨ q = '\x7d') := by
    rw [isShorthand_iff, hnext]
    simp [hbefore]
  rw [List.head?_cons, spelling_free (htext.symm ▸ hx) hmember hkey, htext]
  simp only [hshort]

/-- How a list starts and ends. -/
def IsListBrackets (opening closing : Char) : Prop :=
  opening = '[' ∧ closing = ']' ∨ opening = '(' ∧ closing = ')'

private theorem respelled_ending {opening closing : Char} (h : IsListBrackets opening closing)
    (before : List Char) :
    respelled o scope arrows before [.object] [closing, ' ', '\x7d'] = [closing, ' ', '\x7d'] := by
  have hclosing : closing ∈ [' ', ':', ',', '[', ']', '(', ')'] := by
    rcases h with ⟨-, rfl⟩ | ⟨-, rfl⟩ <;> decide
  rw [respelled_mark hclosing, respelled_mark (by decide), respelled_close]

private theorem toList_intercalate_cons (x : String) {xs : List String} (hne : xs ≠ []) :
    (", ".intercalate (x :: xs)).toList =
      x.toList ++ ',' :: ' ' :: (", ".intercalate xs).toList := by
  rw [String.intercalate_cons_of_ne_nil hne, String.toList_append, String.toList_append,
    List.append_assoc]
  rfl

private theorem laterItems_ne_nil {xs : List String} (hne : xs ≠ []) : laterItems xs ≠ [] := by
  cases xs with
  | nil => exact absurd rfl hne
  | cons x xs => cases xs <;> exact List.cons_ne_nil _ _

private theorem respelled_followed {x : String} (hx : IsFree scope x) {before : List Char}
    {p : Char}
    (hbefore : (significantBefore before).head? = some p) (hp : p ≠ '.') (rest : List Char) :
    respelled {} scope [] before [.object] (x.toList ++ ',' :: ' ' :: rest) =
      (if p = '\x7b' ∨ p = ',' then x.toList ++ [':', ' '] else []) ++ ("_ctx." ++ x).toList ++
        ',' :: ' ' ::
          respelled {} scope [] (' ' :: ',' :: (x.toList.reverse ++ before)) [.object] rest := by
  rw [respelled_free hx hbefore hp (by decide) (by decide) (by decide), respelled_mark (by decide),
    respelled_mark (by decide)]
  simp only [true_or, and_true]

section
variable {opening closing : Char} (hb : IsListBrackets opening closing)
include hb

private theorem respelled_last {x : String} (hx : IsFree scope x) {before : List Char} {p : Char}
    (hbefore : (significantBefore before).head? = some p) (hp : p ≠ '.') :
    respelled {} scope [] before [.object] (x.toList ++ [closing, ' ', '\x7d']) =
      ("_ctx." ++ x).toList ++ [closing, ' ', '\x7d'] := by
  have hclosing : isIdentifierPart closing = false ∧ isAsciiBlank closing = false ∧
      closing ≠ ':' ∧ ¬(closing = ',' ∨ closing = '\x7d') := by
    rcases hb with ⟨-, rfl⟩ | ⟨-, rfl⟩ <;> decide
  obtain ⟨hpart, hblank, hcolon, hnext⟩ := hclosing
  rw [respelled_free hx hbefore hp hpart hblank hcolon, if_neg fun h => hnext h.2,
    respelled_ending hb, List.nil_append]

private theorem respelled_laterItems {xs : List String} (hxs : ∀ x ∈ xs, IsFree scope x)
    (hne : xs ≠ [])
    (before : List Char) :
    respelled {} scope [] (' ' :: ',' :: before) [.object]
      ((", ".intercalate xs).toList ++ [closing, ' ', '\x7d']) =
      (", ".intercalate (laterItems xs)).toList ++ [closing, ' ', '\x7d'] := by
  induction xs generalizing before with
  | nil => exact absurd rfl hne
  | cons x xs ih =>
    obtain ⟨hx, hxs⟩ := List.forall_mem_cons.mp hxs
    cases xs with
    | nil =>
      rw [laterItems, String.intercalate_singleton, String.intercalate_singleton]
      exact respelled_last hb hx rfl (by decide)
    | cons y ys =>
      have hys := List.cons_ne_nil y ys
      rw [laterItems, toList_intercalate_cons x hys,
        toList_intercalate_cons _ (laterItems_ne_nil hys)]
      simp only [List.append_assoc, List.cons_append]
      rw [respelled_followed hx rfl (by decide), ih hxs hys, if_pos (.inr rfl)]
      simp

private theorem respelled_listItems {xs : List String} (hxs : ∀ x ∈ xs, IsFree scope x)
    (before : List Char) :
    respelled {} scope [] (opening :: before) [.object]
      ((", ".intercalate xs).toList ++ [closing, ' ', '\x7d']) =
      (", ".intercalate (listItems xs)).toList ++ [closing, ' ', '\x7d'] := by
  have hopening : isAsciiBlank opening = false ∧ opening ≠ '.' ∧
      ¬(opening = '\x7b' ∨ opening = ',') := by
    rcases hb with ⟨rfl, -⟩ | ⟨rfl, -⟩ <;> decide
  obtain ⟨hblank, hpoint, hkey⟩ := hopening
  have hbefore : (significantBefore (opening :: before)).head? = some opening := by
    rw [significantBefore, List.dropWhile_cons_of_neg (by simp [hblank]), List.head?_cons]
  cases xs with
  | nil => exact respelled_ending hb _
  | cons x xs =>
    obtain ⟨hx, hxs⟩ := List.forall_mem_cons.mp hxs
    cases xs with
    | nil =>
      rw [listItems, laterItems, String.intercalate_singleton, String.intercalate_singleton]
      exact respelled_last hb hx hbefore hpoint
    | cons y ys =>
      have hys := List.cons_ne_nil y ys
      rw [listItems, toList_intercalate_cons x hys,
        toList_intercalate_cons _ (laterItems_ne_nil hys)]
      simp only [List.append_assoc, List.cons_append]
      rw [respelled_followed hx hbefore hpoint, if_neg hkey, respelled_laterItems hb hxs hys]
      simp

end

private theorem respelled_key (rest : List Char) :
    respelled {} scope [] [] [] ("\x7b k: ".toList ++ rest) =
      "\x7b k: ".toList ++
        respelled {} scope [] [' ', ':', 'k', ' ', '\x7b'] [.object] rest := by
  have hkey : (Token.name ⟨['k'], [' ', '\x7b'], ':' :: ' ' :: rest, some .object⟩).spelling {}
      scope [] = ['k'] := by
    rw [Token.spelling, NameToken.isKept]
    simp [NameToken.isKey, NameToken.atKey, NameToken.next?, significantBefore, isAsciiBlank]
  have hname : respelled {} scope [] [' ', '\x7b'] [.object] ("k".toList ++ ':' :: ' ' :: rest) =
      'k' :: respelled {} scope [] ['k', ' ', '\x7b'] [.object] (':' :: ' ' :: rest) :=
    (respelled_name (by decide) (by decide) _ _ _).trans (congrArg (· ++ _) hkey)
  calc respelled {} scope [] [] [] ("\x7b k: ".toList ++ rest)
    _ = '\x7b' :: ' ' ::
        respelled {} scope [] [' ', '\x7b'] [.object] ("k".toList ++ ':' :: ' ' :: rest) :=
      (respelled_open _).trans (congrArg _ (respelled_mark (by decide) _ _ _))
    _ = '\x7b' :: ' ' :: 'k' ::
        respelled {} scope [] ['k', ' ', '\x7b'] [.object] (':' :: ' ' :: rest) := by rw [hname]
    _ = "\x7b k: ".toList ++
        respelled {} scope [] [' ', ':', 'k', ' ', '\x7b'] [.object] rest := by
      rw [respelled_mark (by decide), respelled_mark (by decide)]
      rfl

private theorem not_mem_intercalate {xs : List String} (hxs : ∀ x ∈ xs, IsFree scope x) {c : Char}
    (hpart : isIdentifierPart c = false) (hcomma : c ≠ ',') (hblank : c ≠ ' ') :
    c ∉ (", ".intercalate xs).toList := by
  induction xs with
  | nil => simp
  | cons x xs ih =>
    obtain ⟨hx, hxs⟩ := List.forall_mem_cons.mp hxs
    have hname : c ∉ x.toList := by
      obtain ⟨d, text, htext, hd, hparts⟩ := isIdentifier_cons hx.isIdentifier
      have hall : ∀ e ∈ d :: text, isIdentifierPart e = true :=
        List.forall_mem_cons.mpr ⟨isIdentifierPart_of_start hd, hparts⟩
      rw [htext]
      intro hc
      rw [hall c hc] at hpart
      cases hpart
    cases xs with
    | nil => rwa [String.intercalate_singleton]
    | cons y ys =>
      rw [toList_intercalate_cons x (List.cons_ne_nil y ys)]
      simp only [List.mem_append, List.mem_cons, hname, hcomma, hblank, ih hxs, or_self,
        not_false_eq_true]

private theorem exists_resolved {source : String} (h : '.' ∉ source.toList) :
    ∃ r, resolve? o scope source = some r := by
  rw [← Option.isSome_iff_exists, resolve?_isSome_iff]
  intro n hn
  obtain ⟨pre, post, hsplit⟩ := List.append_of_mem hn
  have hpoint : '.' ∉ n.before := by
    rw [(name_of_tokens hsplit).1, List.mem_reverse]
    intro hmem
    apply h
    rw [← flatMap_text_tokensFrom [] [] source.toList, ← tokens, hsplit, List.flatMap_append]
    exact List.mem_append_left _ hmem
  rw [isMember?_pointless hpoint]
  rfl

/-- The expression can be resolved, and this is the code for it. -/
def ResolvesTo (o : LoweringOptions) (scope : Scope) (source code : String) : Prop :=
  ∃ r, resolve? o scope source = some r ∧ r.code = code

private theorem ResolvesTo.iff_eq {source code : String} (h : ResolvesTo o scope source code)
    (other : String) : ResolvesTo o scope source other ↔ code = other := by
  obtain ⟨r, hr, rfl⟩ := h
  constructor
  · rintro ⟨r', hr', rfl⟩
    rw [Option.some.inj (hr.symm.trans hr')]
  · intro hcode
    exact ⟨r, hr, hcode⟩

private theorem resolvesTo_of_respelled {source code : String} (hpoint : '.' ∉ source.toList)
    (harrow : '=' ∉ source.toList)
    (h : respelled o scope [] [] [] source.toList = code.toList) :
    ResolvesTo o scope source code := by
  obtain ⟨r, hr⟩ : ∃ r, resolve? o scope source = some r := exists_resolved hpoint
  refine ⟨r, hr, String.toList_inj.mp ?_⟩
  have hnone : ¬HasArrow source.toList := by
    intro hmem
    exact harrow (hmem.subset List.mem_cons_self)
  rw [toList_resolved hr, arrowScopes, arrowScopesFrom_nil hnone, ← h]
  rfl

private theorem array_resolvesTo {xs : List String} (hxs : ∀ x ∈ xs, IsFree scope x) :
    ResolvesTo {} scope ("\x7b k: [" ++ ", ".intercalate xs ++ "] \x7d")
      ("\x7b k: [" ++ ", ".intercalate (listItems xs) ++ "] \x7d") := by
  have hpoint := not_mem_intercalate hxs (c := '.') (by decide) (by decide) (by decide)
  have harrow := not_mem_intercalate hxs (c := '=') (by decide) (by decide) (by decide)
  have hb : IsListBrackets '[' ']' := .inl ⟨rfl, rfl⟩
  have hsource (items : String) : ("\x7b k: [" ++ items ++ "] \x7d").toList =
      "\x7b k: ".toList ++ '[' :: (items.toList ++ [']', ' ', '\x7d']) := by simp
  refine resolvesTo_of_respelled ?_ ?_ ?_
  · simpa using hpoint
  · simpa using harrow
  · rw [hsource, hsource, respelled_key, respelled_mark (by decide), respelled_listItems hb hxs]

private theorem call_resolvesTo {xs : List String} (hxs : ∀ x ∈ xs, IsFree scope x)
    (hf : scope.contains "f" = false) :
    ResolvesTo {} scope ("\x7b k: f(" ++ ", ".intercalate xs ++ ") \x7d")
      ("\x7b k: _ctx.f(" ++ ", ".intercalate (listItems xs) ++ ") \x7d") := by
  have hpoint := not_mem_intercalate hxs (c := '.') (by decide) (by decide) (by decide)
  have harrow := not_mem_intercalate hxs (c := '=') (by decide) (by decide) (by decide)
  have hb : IsListBrackets '(' ')' := .inr ⟨rfl, rfl⟩
  have hfree : IsFree scope "f" := ⟨by decide, by decide, by decide, by decide, hf⟩
  have hsource (items : String) : ("\x7b k: f(" ++ items ++ ") \x7d").toList =
      "\x7b k: ".toList ++ ("f".toList ++ '(' :: (items.toList ++ [')', ' ', '\x7d'])) := by simp
  have hcode (items : String) : ("\x7b k: _ctx.f(" ++ items ++ ") \x7d").toList =
      "\x7b k: ".toList ++
        (("_ctx." ++ "f").toList ++ '(' :: (items.toList ++ [')', ' ', '\x7d'])) := by
    simp
  refine resolvesTo_of_respelled ?_ ?_ ?_
  · simpa using hpoint
  · simpa using harrow
  · rw [hsource, hcode, respelled_key, respelled_free hfree rfl (by decide) (by decide) (by decide)
      (by decide), if_neg (by decide), respelled_mark (by decide), respelled_listItems hb hxs,
      List.nil_append]

private theorem length_laterItems {xs : List String} (hne : xs ≠ []) :
    (", ".intercalate (xs.map ("_ctx." ++ ·))).toList.length + 2 * xs.length ≤
      (", ".intercalate (laterItems xs)).toList.length + 2 := by
  induction xs with
  | nil => exact absurd rfl hne
  | cons x xs ih =>
    cases xs with
    | nil => simp [laterItems]
    | cons y ys =>
      have hys := List.cons_ne_nil y ys
      have hlength := ih hys
      have hplain : "_ctx.".toList.length = 5 := rfl
      have hlabel : ": _ctx.".toList.length = 7 := rfl
      rw [laterItems, List.map_cons, toList_intercalate_cons _ (by simp),
        toList_intercalate_cons _ (laterItems_ne_nil hys)]
      simp only [List.length_append, List.length_cons, String.toList_append] at hlength ⊢
      omega

private theorem listItems_plain_iff (xs : List String) :
    ", ".intercalate (listItems xs) = ", ".intercalate (xs.map ("_ctx." ++ ·)) ↔
      xs.length ≤ 2 := by
  cases xs with
  | nil => simp [listItems]
  | cons x xs =>
    cases xs with
    | nil => simp [listItems, laterItems]
    | cons y ys =>
      have hys := List.cons_ne_nil y ys
      constructor
      · intro heq
        have hlength := length_laterItems hys
        have := congrArg (fun s => s.toList.length) heq
        rw [listItems, List.map_cons, toList_intercalate_cons _ (laterItems_ne_nil hys),
          toList_intercalate_cons _ (by simp)] at this
        simp only [List.length_append, List.length_cons] at this hlength ⊢
        omega
      · intro hle
        cases ys with
        | nil => simp [listItems, laterItems]
        | cons z zs =>
          simp only [List.length_cons] at hle
          omega

/-- Labels and brackets. The code labels a name exactly if it replaces it, the innermost open brace
is that of an object, and the name stands there between a brace or a comma and a comma or a brace.
The innermost bracket of all is then that brace or, behind a comma, one of another sort. So a list
of free names within an object is resolved item by item, without labels, only up to two items. -/
theorem labels_reach_into_lists (scope : Scope) :
    (∀ (o : LoweringOptions) (source : String) (r : Resolved) (pre post : List Token)
      (n : NameToken), resolve? o scope source = some r →
      tokens source.toList = pre ++ .name n :: post →
      r.code.toList = pre.flatMap (Token.spelling o scope (arrowScopes source.toList)) ++
        (Token.name n).spelling o scope (arrowScopes source.toList) ++
        post.flatMap (Token.spelling o scope (arrowScopes source.toList)) ∧
      ((Token.name n).spelling o scope (arrowScopes source.toList) = n.expansion o ↔
        n.isKept o scope (arrowScopes source.toList) = false ∧
          ((bracketsOver [] [] pre).filterMap Bracket.brace?).head? = some .object ∧
          ((significantBefore n.before).head? = some '\x7b' ∨
            (significantBefore n.before).head? = some ',') ∧
          (n.next? = some ',' ∨ n.next? = some '\x7d')) ∧
      ((Token.name n).spelling o scope (arrowScopes source.toList) = n.expansion o →
        (bracketsOver [] [] pre).head? = some (.brace .object) ∨
          ((bracketsOver [] [] pre).head? = some .round ∨
            (bracketsOver [] [] pre).head? = some .square) ∧
            (significantBefore n.before).head? = some ',')) ∧
    ∀ xs : List String, (∀ x ∈ xs, IsFree scope x) →
      (ResolvesTo {} scope ("\x7b k: [" ++ ", ".intercalate xs ++ "] \x7d")
          ("\x7b k: [" ++ ", ".intercalate (listItems xs) ++ "] \x7d") ∧
        (ResolvesTo {} scope ("\x7b k: [" ++ ", ".intercalate xs ++ "] \x7d")
          ("\x7b k: [" ++ ", ".intercalate (xs.map ("_ctx." ++ ·)) ++ "] \x7d") ↔
          xs.length ≤ 2)) ∧
      (scope.contains "f" = false →
        ResolvesTo {} scope ("\x7b k: f(" ++ ", ".intercalate xs ++ ") \x7d")
          ("\x7b k: _ctx.f(" ++ ", ".intercalate (listItems xs) ++ ") \x7d") ∧
        (ResolvesTo {} scope ("\x7b k: f(" ++ ", ".intercalate xs ++ ") \x7d")
          ("\x7b k: _ctx.f(" ++ ", ".intercalate (xs.map ("_ctx." ++ ·)) ++ ") \x7d") ↔
          xs.length ≤ 2)) := by
  constructor
  · intro o source r pre post n hr h
    refine ⟨?_, ?_, fun hlabel => ?_⟩
    · rw [toList_resolved hr, h, List.flatMap_append, List.flatMap_cons, List.append_assoc]
    · rw [spelling_eq_expansion_iff, isShorthand_iff, (name_of_tokens h).2.2, braces_bracketsOver]
      rfl
    · exact innermost_of_shorthand h ((spelling_eq_expansion_iff n).mp hlabel).2
  · intro xs hxs
    constructor
    · have harray := array_resolvesTo hxs
      refine ⟨harray, ?_⟩
      rw [harray.iff_eq, String.append_left_inj, String.append_right_inj, listItems_plain_iff]
    · intro hf
      have hcall := call_resolvesTo hxs hf
      refine ⟨hcall, ?_⟩
      rw [hcall.iff_eq, String.append_left_inj, String.append_right_inj, listItems_plain_iff]

/-- An object whose one property is a list of three names. -/
def threeItems : String := "\x7b k: [a, b, c] \x7d"

/-- The second of the three names. -/
def secondItem : NameToken where
  name := ['b']
  before := [' ', ',', 'a', '[', ' ', ':', 'k', ' ', '\x7b']
  after := [',', ' ', 'c', ']', ' ', '\x7d']
  brace := some .object

def threeItemsResolved : Resolved where
  code := "\x7b k: [_ctx.a, b: _ctx.b, _ctx.c] \x7d"
  constancy := .notConstant
  usesUnref := false

theorem threeItems_labelled :
    (resolve? {} {} threeItems = some threeItemsResolved ∧
      (Token.name secondItem).spelling {} {} [] = secondItem.expansion {} ∧
      ((bracketsOver [] [] ((tokens threeItems.toList).take 9)).head? = some (.brace .object) ∨
        ((bracketsOver [] [] ((tokens threeItems.toList).take 9)).head? = some .round ∨
          (bracketsOver [] [] ((tokens threeItems.toList).take 9)).head? = some .square) ∧
          (significantBefore secondItem.before).head? = some ',')) ∧
      (∀ x ∈ ["a", "b", "c"], IsFree {} x) ∧
      ResolvesTo {} {} threeItems "\x7b k: [_ctx.a, b: _ctx.b, _ctx.c] \x7d" := by
  have hresolved : resolve? {} {} threeItems = some threeItemsResolved := by decide +kernel
  have harrows : arrowScopes threeItems.toList = [] := by decide +kernel
  have htokens : tokens threeItems.toList = (tokens threeItems.toList).take 9 ++
      .name secondItem :: (tokens threeItems.toList).drop 10 := by decide +kernel
  have hfree : ∀ x ∈ ["a", "b", "c"], IsFree {} x := by
    simp only [List.forall_mem_cons, List.not_mem_nil, false_imp_iff, implies_true, and_true]
    exact ⟨⟨by decide, by decide, by decide, by decide, by decide⟩,
      ⟨by decide, by decide, by decide, by decide, by decide⟩,
      ⟨by decide, by decide, by decide, by decide, by decide⟩⟩
  obtain ⟨hnames, hlists⟩ := labels_reach_into_lists {}
  obtain ⟨-, -, hinnermost⟩ :=
    hnames {} threeItems threeItemsResolved _ _ secondItem hresolved htokens
  rw [harrows] at hinnermost
  have hlabel : (Token.name secondItem).spelling {} {} [] = secondItem.expansion {} := by
    decide +kernel
  exact ⟨⟨hresolved, hlabel, hinnermost hlabel⟩, hfree, (hlists _ hfree).1.1⟩

/-- The innermost bracket before the second name is square, and yet the name has a label. -/
theorem secondItem_labelled :
    tokens threeItems.toList = (tokens threeItems.toList).take 9 ++
      .name secondItem :: (tokens threeItems.toList).drop 10 ∧
    (bracketsOver [] [] ((tokens threeItems.toList).take 9)).head? = some .square ∧
    ResolvesTo {} {} threeItems "\x7b k: [_ctx.a, b: _ctx.b, _ctx.c] \x7d" :=
  ⟨by decide +kernel, by decide +kernel, threeItemsResolved, by decide +kernel, rfl⟩

end TemplateCompiler.Expression
