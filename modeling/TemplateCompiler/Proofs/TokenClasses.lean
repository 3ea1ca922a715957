import TemplateCompiler.Proofs.PathResolution

/-! Tokens told by their classes. A split of an expression into tokens each of which fits where it
stands is the one that the scanner finds, and there is always one. -/
namespace TemplateCompiler.Expression

open Text

/-- A text behind an opening quote and what follows it: the text ends with the first quote of its
sort that no backslash takes along, or there is none and it takes all. -/
inductive QuotedText (quote : Char) : List Char → List Char → Prop
  | close (rest : List Char) : QuotedText quote [quote] rest
  | unclosed : QuotedText quote [] []
  | cut : QuotedText quote ['\\'] []
  | escaped (c : Char) {text rest : List Char} (h : QuotedText quote text rest) :
      QuotedText quote ('\\' :: c :: text) rest
  | plain {c : Char} {text rest : List Char} (hc : c ≠ '\\') (hq : c ≠ quote)
      (h : QuotedText quote text rest) : QuotedText quote (c :: text) rest

/-- A stretch of template-literal text, what follows it, and whether it opens a hole: the stretch
ends with the first backtick or opened hole that no backslash takes along, or there is none and it
takes all. -/
inductive TemplateStretch : List Char → List Char → Bool → Prop
  | close (rest : List Char) : TemplateStretch ['\x60'] rest false
  | hole (rest : List Char) : TemplateStretch ['$', '\x7b'] rest true
  | unclosed : TemplateStretch [] [] false
  | cut : TemplateStretch ['\\'] [] false
  | escaped (c : Char) {text rest : List Char} {isHole : Bool}
      (h : TemplateStretch text rest isHole) : TemplateStretch ('\\' :: c :: text) rest isHole
  | plain {c : Char} {text rest : List Char} {isHole : Bool} (hc : c ≠ '\\') (hq : c ≠ '\x60')
      (hd : c = '$' → text.head? ≠ some '\x7b') (h : TemplateStretch text rest isHole) :
      TemplateStretch (c :: text) rest isHole

/-- The end that is found is the end of the quoted text. -/
theorem quotedText_closeQuote (quote : Char) (s : List Char) :
    QuotedText quote (closeQuote quote s).1 (closeQuote quote s).2 := by
  fun_induction closeQuote quote s with
  | case1 => exact .unclosed
  | case2 c hc =>
    obtain rfl : c = '\\' := by simpa using hc
    exact .cut
  | case3 c hc d rest text r hr ih =>
    obtain rfl : c = '\\' := by simpa using hc
    rw [hr] at ih
    exact .escaped d ih
  | case4 c rest _ hc =>
    obtain rfl : c = quote := by simpa using hc
    exact .close rest
  | case5 c rest hc hq text r hr ih =>
    rw [hr] at ih
    exact .plain (by simpa using hc) (by simpa using hq) ih

/-- The end of a quoted text is the end that is found. -/
theorem QuotedText.closeQuote_eq {quote : Char} (hq : quote ≠ '\\') {text rest : List Char}
    (h : QuotedText quote text rest) : closeQuote quote (text ++ rest) = (text, rest) := by
  induction h with
  | close rest =>
    unfold closeQuote
    simp [hq]
  | unclosed => rfl
  | cut => simp [closeQuote]
  | escaped c h ih => simp [closeQuote, ih]
  | plain hc hq h ih =>
    unfold closeQuote
    simp [hc, hq, ih]

theorem QuotedText.text_ne_nil {quote : Char} {text rest : List Char}
    (h : QuotedText quote text rest) (hrest : rest ≠ []) : text ≠ [] := by
  rintro rfl
  cases h
  exact hrest rfl

theorem QuotedText.getLast?_eq {quote : Char} {text rest : List Char}
    (h : QuotedText quote text rest) (hrest : rest ≠ []) : text.getLast? = some quote := by
  induction h with
  | close rest => rfl
  | unclosed => exact absurd rfl hrest
  | cut => exact absurd rfl hrest
  | escaped c h ih =>
    rw [List.getLast?_cons_cons, List.getLast?_cons_of_ne_nil (h.text_ne_nil hrest), ih hrest]
  | plain _ _ h ih => rw [List.getLast?_cons_of_ne_nil (h.text_ne_nil hrest), ih hrest]

private theorem templateStretch_templateText (s : List Char) : TemplateStretch (templateText s).text
    (templateText s).rest (templateText s).opensHole := by
  fun_induction templateText s with
  | case1 => exact .unclosed
  | case2 c hc =>
    obtain rfl : c = '\\' := by simpa using hc
    exact .cut
  | case3 c hc d rest t ih =>
    obtain rfl : c = '\\' := by simpa using hc
    exact .escaped d ih
  | case4 c rest _ hc =>
    obtain rfl : c = '\x60' := by simpa using hc
    exact .close rest
  | case5 c rest => exact .hole rest.tail
  | case6 c rest hc hq hd t ih =>
    refine .plain (by simpa using hc) (by simpa using hq) ?_ ih
    rintro rfl hhead
    obtain ⟨u, hu⟩ := List.head?_eq_some_iff.mp hhead
    have hrest : rest.head? = some '\x7b' := by
      rw [← templateText_append rest, hu, List.cons_append, List.head?_cons]
    rw [hrest] at hd
    exact hd rfl

private theorem TemplateStretch.rest_eq_nil {rest : List Char} {isHole : Bool}
    (h : TemplateStretch [] rest isHole) : rest = [] := by
  cases h
  rfl

private theorem TemplateStretch.templateText_eq {text rest : List Char} {isHole : Bool}
    (h : TemplateStretch text rest isHole) :
    templateText (text ++ rest) = ⟨text, rest, isHole⟩ := by
  induction h with
  | close rest =>
    unfold templateText
    simp
  | hole rest => simp [templateText]
  | unclosed => rfl
  | cut => simp [templateText]
  | escaped c h ih => simp [templateText, ih]
  | @plain c text rest isHole hc hq hd h ih =>
    have hhead : (c == '$' && (text ++ rest).head? == some '\x7b') = false := by
      rw [Bool.and_eq_false_iff]
      by_cases hdollar : c = '$'
      · right
        cases text with
        | nil => simp [h.rest_eq_nil]
        | cons d text => simpa using hd hdollar
      · left
        simpa using hdollar
    unfold templateText
    simp only [List.cons_append, beq_iff_eq, hc, hq, hhead, ih, if_false, Bool.false_eq_true]

theorem TemplateStretch.text_ne_nil {text rest : List Char} {isHole : Bool}
    (h : TemplateStretch text rest isHole) (hrest : rest ≠ []) : text ≠ [] := by
  rintro rfl
  exact hrest h.rest_eq_nil

/-- Where something follows a stretch, its last character tells whether it opens a hole. -/
theorem TemplateStretch.getLast?_eq {text rest : List Char} {isHole : Bool}
    (h : TemplateStretch text rest isHole) (hrest : rest ≠ []) :
    text.getLast? = some (if isHole then '\x7b' else '\x60') := by
  induction h with
  | close rest => rfl
  | hole rest => rfl
  | unclosed => exact absurd rfl hrest
  | cut => exact absurd rfl hrest
  | escaped c h ih =>
    rw [List.getLast?_cons_cons, List.getLast?_cons_of_ne_nil (h.text_ne_nil hrest), ih hrest]
  | plain _ _ _ h ih => rw [List.getLast?_cons_of_ne_nil (h.text_ne_nil hrest), ih hrest]

/-- A token fits between what stands before it (nearest character first), with these braces open,
and what follows it. -/
inductive Token.Fits (before : List Char) (braces : List Brace) (rest : List Char) : Token → Prop
  | quoted {quote : Char} {text : List Char} (hq : isQuote quote = true)
      (h : QuotedText quote text rest) : Fits before braces rest (.quoted (quote :: text))
  | template {text : List Char} {isHole : Bool} (h : TemplateStretch text rest isHole) :
      Fits before braces rest (.templateText ('\x60' :: text))
  | resumed {text : List Char} {isHole : Bool} (hb : braces.head? = some .hole)
      (h : TemplateStretch text rest isHole) :
      Fits before braces rest (.templateText ('\x7d' :: text))
  | number {c : Char} {text : List Char} (hc : startsNumber before c (text ++ rest) = true)
      (ht : ∀ d ∈ text, isNumberPart d = true) (hr : ∀ d ∈ rest.head?, isNumberPart d = false) :
      Fits before braces rest (.number (c :: text))
  | name {c : Char} {text : List Char} (hc : isIdentifierStart c = true)
      (ht : ∀ d ∈ text, isIdentifierPart d = true)
      (hr : ∀ d ∈ rest.head?, isIdentifierPart d = false) :
      Fits before braces rest (.name ⟨c :: text, before, rest, braces.head?⟩)
  | symbol {c : Char} (hq : isQuote c = false) (ht : c ≠ '\x60')
      (hb : c = '\x7d' → braces.head? ≠ some .hole) (hn : startsNumber before c rest = false)
      (hi : isIdentifierStart c = false) : Fits before braces rest (.symbol c)

/-- The braces open behind a token. -/
def Token.bracesAfter (before : List Char) (braces : List Brace) : Token → List Brace
  | .templateText text =>
    let outer := if text.head? = some '\x7d' then braces.tail else braces
    if text.getLast? = some '\x7b' then .hole :: outer else outer
  | .symbol c =>
    if c = '\x7b' then openedBrace before :: braces
    else if c = '\x7d' then braces.tail
    else braces
  | _ => braces

theorem openedBrace_eq_if (before : List Char) : openedBrace before =
    if ['>', '='].isPrefixOf (significantBefore before) then .block else .object := by
  unfold openedBrace
  split
  · rename_i hbefore
    rw [hbefore]
    rfl
  · rename_i hbefore
    rw [if_neg]
    intro harrow
    obtain ⟨r, hr⟩ := List.isPrefixOf_iff_prefix.mp harrow
    exact hbefore r hr.symm

def bracesOver (before : List Char) (braces : List Brace) : List Token → List Brace
  | [] => braces
  | t :: ts => bracesOver (t.text.reverse ++ before) (t.bracesAfter before braces) ts

/-- Every token of the list fits where it stands. -/
def Spelled (before : List Char) (braces : List Brace) : List Token → Prop
  | [] => True
  | t :: ts =>
    t.Fits before braces (ts.flatMap Token.text) ∧
      Spelled (t.text.reverse ++ before) (t.bracesAfter before braces) ts

private theorem bracesAfter_template {before : List Char} {braces : List Brace} {c : Char}
    {text rest : List Char} {isHole : Bool} (h : TemplateStretch text rest isHole) :
    tokensFrom (text.reverse ++ c :: before) (Token.bracesAfter before braces
      (.templateText (c :: text))) rest =
      tokensFrom (text.reverse ++ c :: before)
        (if isHole then .hole :: (if c = '\x7d' then braces.tail else braces)
          else if c = '\x7d' then braces.tail else braces) rest := by
  by_cases hrest : rest = []
  · -- the last character may be misleading here, but no token is left to see the braces
    rw [hrest, tokensFrom, tokensFrom]
  · have hlast : (c :: text).getLast? = some (if isHole then '\x7b' else '\x60') := by
      rw [List.getLast?_cons, h.getLast?_eq hrest, Option.getD_some]
    rw [Token.bracesAfter, hlast]
    cases isHole <;> simp

/-- A token that fits is the one that the scanner reads. -/
theorem Token.Fits.tokensFrom_eq {before : List Char} {braces : List Brace} {rest : List Char}
    {t : Token} (h : t.Fits before braces rest) :
    tokensFrom before braces (t.text ++ rest) =
      t :: tokensFrom (t.text.reverse ++ before) (t.bracesAfter before braces) rest := by
  cases h with
  | @quoted quote text hq h =>
    have hne : quote ≠ '\\' := by
      rintro rfl
      cases hq
    simp only [Token.text, List.cons_append, List.reverse_cons, List.append_assoc, List.nil_append]
    rw [tokensFrom.eq_def]
    dsimp only
    rw [if_pos hq, h.closeQuote_eq hne]
    rfl
  | @template text isHole h =>
    simp only [Token.text, List.cons_append, List.reverse_cons, List.append_assoc, List.nil_append]
    rw [bracesAfter_template h, tokensFrom.eq_def]
    dsimp only
    rw [if_neg (by decide), if_pos (by decide), h.templateText_eq]
    rfl
  | @resumed text isHole hb h =>
    obtain ⟨outer, rfl⟩ := List.head?_eq_some_iff.mp hb
    simp only [Token.text, List.cons_append, List.reverse_cons, List.append_assoc, List.nil_append]
    rw [bracesAfter_template h, tokensFrom.eq_def]
    dsimp only
    rw [if_neg (by decide), if_neg (by decide), if_neg (by decide), if_pos (by decide),
      h.templateText_eq]
    rfl
  | @number c text hc ht hr =>
    have hne {d : Char} (hd : startsNumber before d (text ++ rest) = false) : ¬(c == d) = true := by
      rw [beq_iff_eq]
      rintro rfl
      rw [hc] at hd
      cases hd
    have hquote : ¬isQuote c = true := by
      rw [isQuote, Bool.or_eq_true, not_or]
      exact ⟨hne rfl, hne rfl⟩
    obtain ⟨htake, hdrop⟩ := takeWhile_append_stop ht hr
    simp only [Token.text, List.cons_append, List.reverse_cons, List.append_assoc, List.nil_append]
    rw [tokensFrom.eq_def]
    dsimp only
    rw [if_neg hquote, if_neg (hne rfl), if_neg (hne rfl), if_neg (hne rfl), if_pos hc, htake,
      hdrop]
    rfl
  | @name c text hc ht hr =>
    obtain ⟨htake, hdrop⟩ := takeWhile_append_stop ht hr
    simp only [Token.text, List.cons_append, List.reverse_cons, List.append_assoc, List.nil_append]
    rw [tokensFrom_name hc, htake, hdrop]
    rfl
  | @symbol c hq ht hb hn hi =>
    rw [tokensFrom.eq_def]
    simp only [Token.text, List.cons_append, List.nil_append, hq, hn, hi, beq_iff_eq, ht, if_false,
      Bool.false_eq_true, Token.bracesAfter, List.reverse_cons, List.reverse_nil]
    split
    · rfl
    · split
      · split
        · exact absurd rfl (hb ‹_›)
        · rfl
      · rfl

/-- Wherever the text goes on, a token fits. -/
theorem exists_fits (before : List Char) (braces : List Brace) {s : List Char} (hs : s ≠ []) :
    ∃ (t : Token) (rest : List Char), s = t.text ++ rest ∧ t.Fits before braces rest := by
  obtain ⟨c, s, rfl⟩ := List.exists_cons_of_ne_nil hs
  -- the first character, with what stands before it, decides on the class
  by_cases hq : isQuote c = true
  · exact ⟨_, _, by rw [Token.text, List.cons_append, closeQuote_append],
      .quoted hq (quotedText_closeQuote c s)⟩
  by_cases ht : c = '\x60'
  · subst ht
    exact ⟨_, _, by rw [Token.text, List.cons_append, templateText_append],
      .template (templateStretch_templateText s)⟩
  by_cases hb : c = '\x7d' ∧ braces.head? = some .hole
  · obtain ⟨rfl, hb⟩ := hb
    exact ⟨_, _, by rw [Token.text, List.cons_append, templateText_append],
      .resumed hb (templateStretch_templateText s)⟩
  by_cases hn : startsNumber before c s = true
  · refine ⟨.number (c :: s.takeWhile isNumberPart), s.dropWhile isNumberPart, ?_, .number ?_ ?_ ?_⟩
    · rw [Token.text, List.cons_append, List.takeWhile_append_dropWhile]
    · rwa [List.takeWhile_append_dropWhile]
    · exact fun d => List.mem_takeWhile_imp
    · exact head?_dropWhile_not isNumberPart s
  by_cases hi : isIdentifierStart c = true
  · refine ⟨.name ⟨c :: s.takeWhile isIdentifierPart, before, s.dropWhile isIdentifierPart,
      braces.head?⟩, s.dropWhile isIdentifierPart, ?_, .name hi ?_ ?_⟩
    · rw [Token.text, List.cons_append, List.takeWhile_append_dropWhile]
    · exact fun d => List.mem_takeWhile_imp
    · exact head?_dropWhile_not isIdentifierPart s
  · exact ⟨.symbol c, s, rfl, .symbol (by simpa using hq) ht (fun hc hole => hb ⟨hc, hole⟩)
      (by simpa using hn) (by simpa using hi)⟩

theorem Token.Fits.text_ne_nil {before : List Char} {braces : List Brace} {rest : List Char}
    {t : Token} (h : t.Fits before braces rest) : t.text ≠ [] := by
  cases h <;> exact List.cons_ne_nil _ _

/-- The scanner's tokens fit where they stand. -/
theorem spelled_tokensFrom (before : List Char) (braces : List Brace) (s : List Char) :
    Spelled before braces (tokensFrom before braces s) := by
  by_cases hs : s = []
  · rw [hs, tokensFrom]
    trivial
  · obtain ⟨t, rest, rfl, h⟩ := exists_fits before braces hs
    have hlength : rest.length < (t.text ++ rest).length := by
      rw [List.length_append]
      have := List.length_pos_iff.mpr h.text_ne_nil
      omega
    rw [h.tokensFrom_eq]
    refine ⟨?_, spelled_tokensFrom _ _ rest⟩
    rwa [flatMap_text_tokensFrom]
termination_by s.length

private theorem Spelled.eq_tokensFrom {before : List Char} {braces : List Brace} {ts : List Token}
    (h : Spelled before braces ts) : ts = tokensFrom before braces (ts.flatMap Token.text) := by
  induction ts generalizing before braces with
  | nil => rw [List.flatMap_nil, tokensFrom]
  | cons t ts ih =>
    obtain ⟨ht, hts⟩ := h
    rw [List.flatMap_cons, ht.tokensFrom_eq, ← ih hts]

/-- Each token fits between the text before it and the text behind it. -/
theorem Spelled.fits {before : List Char} {braces : List Brace} {pre post : List Token} {t : Token}
    (h : Spelled before braces (pre ++ t :: post)) :
    t.Fits ((pre.flatMap Token.text).reverse ++ before) (bracesOver before braces pre)
      (post.flatMap Token.text) := by
  induction pre generalizing before braces with
  | nil => exact h.1
  | cons u pre ih =>
    have := ih h.2
    rwa [← List.append_assoc, ← List.reverse_append, ← List.flatMap_cons] at this

/-- The scanner finds the one split of the text into tokens that fit. -/
theorem tokensFrom_eq_iff {before : List Char} {braces : List Brace} {s : List Char}
    {ts : List Token} :
    tokensFrom before braces s = ts ↔
      ts.flatMap Token.text = s ∧ Spelled before braces ts := by
  constructor
  · rintro rfl
    exact ⟨flatMap_text_tokensFrom before braces s, spelled_tokensFrom before braces s⟩
  · rintro ⟨rfl, h⟩
    exact h.eq_tokensFrom.symm

/-- What a name knows of its surroundings is what the tokens around it say. -/
theorem name_of_tokens {s : List Char} {pre post : List Token} {n : NameToken}
    (h : tokens s = pre ++ .name n :: post) :
    n.before = (pre.flatMap Token.text).reverse ∧ n.after = post.flatMap Token.text ∧
      n.brace = (bracesOver [] [] pre).head? := by
  have hspelled : Spelled [] [] (pre ++ .name n :: post) := h ▸ spelled_tokensFrom [] [] s
  have hfits := hspelled.fits
  rw [List.append_nil] at hfits
  cases hfits with
  | name => exact ⟨rfl, rfl, rfl⟩

end TemplateCompiler.Expression
