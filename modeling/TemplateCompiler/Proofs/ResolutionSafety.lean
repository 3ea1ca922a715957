import TemplateCompiler.Proofs.ByteResolution

/-! Safety of resolution by byte offset. Each turn of the loop stands at the start of a token and
moves on to the end of it, so that all its slices lie on boundaries but one: the slice over a point
and the two bytes before it. -/
namespace TemplateCompiler.Expression

open Text

section
variable (options : LoweringOptions) (scope : Scope)

private theorem image?_eq_map (arrows : List ArrowScope) (n : NameToken) :
    n.image? options scope arrows = (isMember? n.before).map fun isMember =>
      if isMember || ReservedNames.isKeyword n.text || n.isKey then ⟨n.name, false, false, false⟩
      else n.referenceImage options scope arrows := by
  rw [NameToken.image?]
  cases isMember? n.before with
  | none => rfl
  | some isMember => exact (apply_ite some _ _ _).symm

/-- What the bytes around a name have to say for its image to be that of the token. -/
structure BytesTell (text : List Char) (n : NameToken) (i : Nat) (prev next : Option Char) :
    Prop where
  prev_any : ∀ p, AsciiOnly p → prev.any p = (significantBefore n.before).head?.any p
  next_any : ∀ p, AsciiOnly p → next.any p = n.next?.any p
  covers : ((arrowScopesAt text 0 text).any fun a => a.covers n.text i) =
    (arrowScopes text).any fun a => a.covers n.text n.before.length

private theorem nameImage_eq {text : List Char} {n : NameToken} {i : Nat} {prev next : Option Char}
    (h : BytesTell text n i prev next) (isMember : Bool) :
    nameImage options scope (arrowScopesAt text 0 text) n.name i n.brace isMember prev next =
      if isMember || ReservedNames.isKeyword n.text || n.isKey then ⟨n.name, false, false, false⟩
      else n.referenceImage options scope (arrowScopes text) := by
  have hkey : (n.brace == some .object && prev.any fun c => c == '\x7b' || c == ',') = n.atKey := by
    rw [h.prev_any _ ((asciiOnly_beq rfl).or (asciiOnly_beq rfl))]
    rfl
  have hcolon : (next == some ':') = (n.next? == some ':') := by
    rw [beq_some_eq_any, beq_some_eq_any, h.next_any _ (asciiOnly_beq rfl)]
  have hshort : (n.atKey && next.any fun c => c == ',' || c == '\x7d') = n.isShorthand := by
    rw [h.next_any _ ((asciiOnly_beq rfl).or (asciiOnly_beq rfl))]
    rfl
  have hcovers := h.covers
  rw [NameToken.text] at hcovers
  simp only [nameImage, hkey, hcolon, hshort, hcovers]
  rfl

end

/-- A turn that leaves an image and goes on at an offset, with braces open there. -/
def Leads {i : Nat} (next : Nat) (braces : List Brace) (a : Advance i) (image : Image) : Prop :=
  a.image = image ∧ a.next = next ∧ a.braces = braces

section
variable {text before piece rest : List Char} {i j : Nat} {b c : Char} {braces : List Brace}

private theorem copyTo_agrees (h : StandsAt text i (piece ++ rest)) (hj : StandsAt text j rest)
    (hlt : i < j) :
    Agrees text (Leads j braces) (copyTo text i j braces hlt) (some { text := piece }) := by
  rw [copyTo, h.slice_between hj]
  exact .answer ⟨rfl, rfl, rfl⟩

private theorem copyTemplate_agrees (h : StandsAt text i (c :: rest)) (hc : c.utf8Size = 1)
    (hb : byteAt text i = some b) :
    Agrees text
      (Leads (templateEnd text (i + 1)).1
        (if (templateText rest).opensHole then .hole :: braces else braces))
      (copyTemplate text braces i hb) (some { text := c :: (templateText rest).text }) := by
  obtain ⟨hend, hhole⟩ := standsAt_templateEnd (h.tail_ascii hc)
  rw [copyTemplate, ← hhole]
  refine copyTo_agrees ?_ hend _
  rwa [List.cons_append, templateText_append]

private theorem copyNumber_agrees (h : StandsAt text i (c :: rest)) (hc : isNumberPart c = true)
    (hb : byteAt text i = some b) (hpart : isNumberPart b = true) :
    Agrees text (Leads (i + byteLength (c :: rest.takeWhile isNumberPart)) braces)
      (copyNumber text braces i hb hpart) (some { text := c :: rest.takeWhile isNumberPart }) := by
  have hsplit : StandsAt text i
      ((c :: rest).takeWhile isNumberPart ++ (c :: rest).dropWhile isNumberPart) := by
    rwa [List.takeWhile_append_dropWhile]
  rw [← List.takeWhile_cons_of_pos hc]
  unfold copyNumber
  split
  · rename_i hslice
    rw [h.slice_to_end] at hslice
    cases hslice
  · rename_i hslice
    rw [h.slice_to_end] at hslice
    cases hslice
    exact copyTo_agrees hsplit hsplit.append _

end

section
variable {text before rest : List Char} {i : Nat} {b c : Char} {braces : List Brace}
variable (options : LoweringOptions) (scope : Scope)

private theorem bytesTell {name after : List Char}
    (htext : text = before.reverse ++ (name ++ after))
    (hname : name ≠ []) (brace : Option Brace) :
    BytesTell text ⟨name, before, after, brace⟩ (byteLength before.reverse)
      ((prevSignificant text (byteLength before.reverse)).bind (byteAt text))
      ((nextSignificant text (byteLength before.reverse + byteLength name)).bind
        (byteAt text)) := by
  subst htext
  have hstands := StandsAt.behind before.reverse (name ++ after)
  refine ⟨fun p hp => any_prevByte hp before _, fun p hp => any_nextByte hp hstands.append, ?_⟩
  rw [any_covers_arrowScopesAt hstands (by simp [hname]), List.length_append, Nat.add_sub_cancel,
    List.length_reverse]

/-- A name is taken to its image. -/
theorem resolveCharacter_name (htext : text = before.reverse ++ c :: rest)
    (hi : byteLength before.reverse = i) (hc : isIdentifierStart c = true) :
    Agrees text (Leads (i + byteLength (c :: rest.takeWhile isIdentifierPart)) braces)
      (resolveCharacter options scope (arrowScopesAt text 0 text) text braces i)
      (NameToken.image? options scope (arrowScopes text)
        ⟨c :: rest.takeWhile isIdentifierPart, before, rest.dropWhile isIdentifierPart,
          braces.head?⟩) := by
  have hsplit : c :: rest =
      c :: rest.takeWhile isIdentifierPart ++ rest.dropWhile isIdentifierPart := by
    rw [List.cons_append, List.takeWhile_append_dropWhile]
  have hstands : StandsAt text i (c :: rest) := ⟨before.reverse, htext, hi⟩
  have hname := hstands
  rw [hsplit] at hname
  have htell := bytesTell (htext.trans (congrArg _ hsplit)) (List.cons_ne_nil _ _) braces.head?
  have hmember := isMemberAt_agrees before (c :: rest)
  rw [← htext, hi] at hmember
  rw [hi, byteLength_cons] at htell
  rw [resolveCharacter, hstands.slice_to_end, byteLength_cons]
  dsimp only
  rw [if_pos hc, hname.slice_eq (by rw [byteLength_cons]), image?_eq_map]
  refine hmember.map fun _ isMember heq => ?_
  subst heq
  exact ⟨nameImage_eq options scope htell _, rfl, rfl⟩

/-- Any other character is copied. -/
theorem resolveCharacter_symbol (arrows : List ArrowScope) (h : StandsAt text i (c :: rest))
    (hc : isIdentifierStart c = false) :
    Agrees text (Leads (i + c.utf8Size) braces)
      (resolveCharacter options scope arrows text braces i) (some { text := [c] }) := by
  rw [resolveCharacter, h.slice_to_end]
  dsimp only
  rw [if_neg (by rw [hc]; exact Bool.false_ne_true)]
  exact .answer ⟨rfl, rfl, rfl⟩

variable (arrows : List ArrowScope)

theorem resolveStep_quote (h : StandsAt text i (c :: rest)) (hc : isQuote c = true)
    (hb : byteAt text i = some b) :
    Agrees text (Leads (stringEnd text c (i + 1)) braces)
      (resolveStep options scope arrows text braces i hb)
      (some { text := c :: (closeQuote c rest).1 }) := by
  have hascii := asciiOnly_isQuote c hc
  obtain rfl := h.eq_of_byteAt hascii hb
  unfold resolveStep
  rw [if_pos hc]
  refine copyTo_agrees ?_ (standsAt_stringEnd hascii (h.tail_ascii hascii)) _
  rwa [List.cons_append, closeQuote_append]

theorem resolveStep_backtick (h : StandsAt text i ('\x60' :: rest)) (hb : byteAt text i = some b) :
    Agrees text
      (Leads (templateEnd text (i + 1)).1
        (if (templateText rest).opensHole then .hole :: braces else braces))
      (resolveStep options scope arrows text braces i hb)
      (some { text := '\x60' :: (templateText rest).text }) := by
  obtain rfl := h.eq_of_byteAt rfl hb
  exact copyTemplate_agrees h rfl hb

theorem resolveStep_open (htext : text = before.reverse ++ '\x7b' :: rest)
    (hi : byteLength before.reverse = i) (hb : byteAt text i = some b) :
    Agrees text (Leads (i + 1) (openedBrace before :: braces))
      (resolveStep options scope arrows text braces i hb) (some { text := ['\x7b'] }) := by
  have h : StandsAt text i ('\x7b' :: rest) := ⟨before.reverse, htext, hi⟩
  obtain rfl := h.eq_of_byteAt rfl hb
  have hupTo := significantUpTo_eq before ('\x7b' :: rest)
  rw [← htext, hi] at hupTo
  have hsuffix : ['=', '>'].isSuffixOf (significantBefore before).reverse =
      ['>', '='].isPrefixOf (significantBefore before) := by
    rw [List.isSuffixOf, List.reverse_reverse]
    rfl
  rw [openedBrace_eq_if, ← hsuffix]
  unfold resolveStep
  rw [hupTo]
  exact .answer ⟨rfl, rfl, rfl⟩

theorem resolveStep_hole (h : StandsAt text i ('\x7d' :: rest)) (hb : byteAt text i = some b) :
    Agrees text
      (Leads (templateEnd text (i + 1)).1
        (if (templateText rest).opensHole then .hole :: braces else braces))
      (resolveStep options scope arrows text (.hole :: braces) i hb)
      (some { text := '\x7d' :: (templateText rest).text }) := by
  obtain rfl := h.eq_of_byteAt rfl hb
  exact copyTemplate_agrees h rfl hb

theorem resolveStep_close (h : StandsAt text i ('\x7d' :: rest)) (hb : byteAt text i = some b)
    (hbraces : ∀ outer, braces ≠ .hole :: outer) :
    Agrees text (Leads (i + 1) braces.tail)
      (resolveStep options scope arrows text braces i hb) (some { text := ['\x7d'] }) := by
  obtain rfl := h.eq_of_byteAt rfl hb
  rcases braces with _ | ⟨_ | _ | _, outer⟩
  · exact .answer ⟨rfl, rfl, rfl⟩
  · exact .answer ⟨rfl, rfl, rfl⟩
  · exact .answer ⟨rfl, rfl, rfl⟩
  · exact absurd rfl (hbraces outer)

theorem resolveStep_word (h : StandsAt text i (c :: rest)) (hb : byteAt text i = some b)
    (hquote : ¬isQuote c = true) (hbacktick : ¬(c == '\x60') = true)
    (hopen : ¬(c == '\x7b') = true) (hclose : ¬(c == '\x7d') = true) :
    resolveStep options scope arrows text braces i hb =
      resolveWord options scope arrows text braces i hb := by
  rw [← h.test_byteAt hb asciiOnly_isQuote] at hquote
  rw [← h.test_byteAt hb (asciiOnly_beq rfl)] at hbacktick hopen hclose
  unfold resolveStep
  rw [if_neg hquote, if_neg hbacktick, if_neg hopen, if_neg hclose]

private theorem asciiOnly_isDigit : AsciiOnly Char.isDigit := fun c hc =>
  asciiOnly_isNumberPart c (isNumberPart_of_isDigit hc)

/-- A number that starts with a point: a digit follows, and no name stands before it. -/
private theorem resolveWord_point (htext : text = before.reverse ++ '.' :: rest)
    (hi : byteLength before.reverse = i) (hb : byteAt text i = some '.') :
    resolveWord options scope arrows text braces i hb =
      if startsNumber before '.' rest then copyNumber text braces i hb (by decide)
      else resolveCharacter options scope arrows text braces i := by
  have h : StandsAt text i ('.' :: rest) := ⟨before.reverse, htext, hi⟩
  have hupTo := significantUpTo_eq before ('.' :: rest)
  rw [← htext, hi] at hupTo
  have hdigit := (h.tail_ascii rfl).any_byteAt asciiOnly_isDigit
  have hstarts : startsNumber before '.' rest =
      (rest.head?.any Char.isDigit && !(significantBefore before).head?.any isIdentifierPart) := rfl
  rw [resolveWord, dif_neg (by decide), dif_pos (by decide), hdigit, hupTo, hstarts]
  cases rest.head?.any Char.isDigit with
  | false => rfl
  | true =>
    rw [if_pos rfl, Except.bind, List.getLast?_reverse, Bool.true_and]
    cases (significantBefore before).head?.any isIdentifierPart <;> rfl

/-- A number is copied. -/
theorem resolveWord_number (htext : text = before.reverse ++ c :: rest)
    (hi : byteLength before.reverse = i) (hb : byteAt text i = some b)
    (hc : startsNumber before c rest = true) :
    Agrees text (Leads (i + byteLength (c :: rest.takeWhile isNumberPart)) braces)
      (resolveWord options scope arrows text braces i hb)
      (some { text := c :: rest.takeWhile isNumberPart }) := by
  have h : StandsAt text i (c :: rest) := ⟨before.reverse, htext, hi⟩
  by_cases hpoint : c = '.'
  · subst hpoint
    obtain rfl := h.eq_of_byteAt rfl hb
    rw [resolveWord_point options scope arrows htext hi hb, if_pos hc]
    exact copyNumber_agrees h (by decide) hb _
  · have hdigit : c.isDigit = true := by
      obtain hdigit | ⟨rfl, -⟩ := startsNumber_cases hc
      · exact hdigit
      · exact absurd rfl hpoint
    rw [resolveWord, dif_pos (by rw [h.test_byteAt hb asciiOnly_isDigit, hdigit])]
    exact copyNumber_agrees h (isNumberPart_of_isDigit hdigit) hb _

/-- What starts no number is a name or a single character. -/
theorem resolveWord_character (htext : text = before.reverse ++ c :: rest)
    (hi : byteLength before.reverse = i) (hb : byteAt text i = some b)
    (hc : ¬startsNumber before c rest = true) :
    resolveWord options scope arrows text braces i hb =
      resolveCharacter options scope arrows text braces i := by
  have h : StandsAt text i (c :: rest) := ⟨before.reverse, htext, hi⟩
  by_cases hpoint : c = '.'
  · subst hpoint
    obtain rfl := h.eq_of_byteAt rfl hb
    rw [resolveWord_point options scope arrows htext hi hb, if_neg hc]
  · have hdigit : ¬c.isDigit = true := fun hdigit => hc (by rw [startsNumber, hdigit]; rfl)
    rw [resolveWord, dif_neg (by rwa [h.test_byteAt hb asciiOnly_isDigit]), dif_neg]
    rwa [h.test_byteAt hb (p := (· == '.')) (asciiOnly_beq rfl), beq_iff_eq]

end

section
variable (options : LoweringOptions) (scope : Scope)
variable {text before rest : List Char} {i next : Nat} {b c : Char} {braces open' : List Brace}

theorem imagesFrom_none (arrows : List ArrowScope) (h : byteAt text i = none) :
    imagesFrom options scope arrows text braces i = .ok [] := by
  rw [imagesFrom]
  exact byByte_none h _ _

theorem imagesFrom_some (arrows : List ArrowScope) (h : byteAt text i = some b) :
    imagesFrom options scope arrows text braces i =
      (resolveStep options scope arrows text braces i h).bind fun a =>
        (imagesFrom options scope arrows text a.braces a.next).map (a.image :: ·) := by
  rw [imagesFrom]
  exact byByte_some h _ _

/-- A turn that agrees with the image of a token, and a run behind it that agrees with those of the
others. -/
private theorem imagesFrom_cons {arrows arrows' : List ArrowScope} {t : Token} {ts : List Token}
    (hb : byteAt text i = some b)
    (hstep : Agrees text (Leads next open') (resolveStep options scope arrows text braces i hb)
      (t.image? options scope arrows'))
    (hrun : Agrees text Eq (imagesFrom options scope arrows text open' next)
      (ts.mapM (Token.image? options scope arrows'))) :
    Agrees text Eq (imagesFrom options scope arrows text braces i)
      ((t :: ts).mapM (Token.image? options scope arrows')) := by
  rw [imagesFrom_some options scope arrows hb, List.mapM_cons]
  refine hstep.bind ?_
  rintro a image ⟨rfl, rfl, rfl⟩
  rw [bind_pure_comp]
  refine hrun.map ?_
  rintro images _ rfl
  rfl

private theorem append_behind {piece after : List Char} (htext : text = before.reverse ++ c :: rest)
    (hrest : piece ++ after = rest) :
    text = (piece.reverse ++ c :: before).reverse ++ after := by
  rw [htext, ← hrest]
  simp

private theorem imagesFrom_agrees {s : List Char} (htext : text = before.reverse ++ s)
    (h : StandsAt text i s) :
    Agrees text Eq (imagesFrom options scope (arrowScopesAt text 0 text) text braces i)
      ((tokensFrom before braces s).mapM (Token.image? options scope (arrowScopes text))) := by
  fun_induction tokensFrom before braces s generalizing i with
  | case1 before braces =>
    rw [imagesFrom_none options scope _ h.byteAt_end]
    exact .answer rfl
  | case2 before braces c rest hc =>
    rename_i ih
    obtain ⟨b, hb⟩ := h.exists_byteAt
    have hascii := asciiOnly_isQuote c hc
    exact imagesFrom_cons options scope hb (resolveStep_quote options scope _ h hc hb)
      (ih (append_behind htext (closeQuote_append c rest))
        (standsAt_stringEnd hascii (h.tail_ascii hascii)))
  | case3 before braces c rest _ hc =>
    rename_i ih
    obtain ⟨b, hb⟩ := h.exists_byteAt
    obtain rfl := beq_iff_eq.mp hc
    rw [dite_eq_ite] at ih
    exact imagesFrom_cons options scope hb (resolveStep_backtick options scope _ h hb)
      (ih (append_behind htext (templateText_append rest))
        (standsAt_templateEnd (h.tail_ascii rfl)).1)
  | case4 before braces c rest _ _ hc ih =>
    obtain ⟨b, hb⟩ := h.exists_byteAt
    obtain rfl := beq_iff_eq.mp hc
    exact imagesFrom_cons options scope hb
      (resolveStep_open options scope _ htext (h.byteLength_eq htext) hb)
      (ih (append_behind htext (List.nil_append rest)) (h.tail_ascii rfl))
  | case5 before c rest _ _ _ hc outer =>
    rename_i ih
    obtain ⟨b, hb⟩ := h.exists_byteAt
    obtain rfl := beq_iff_eq.mp hc
    rw [dite_eq_ite] at ih
    exact imagesFrom_cons options scope hb (resolveStep_hole options scope _ h hb)
      (ih (append_behind htext (templateText_append rest))
        (standsAt_templateEnd (h.tail_ascii rfl)).1)
  | case6 before braces c rest _ _ _ hc hbraces ih =>
    obtain ⟨b, hb⟩ := h.exists_byteAt
    obtain rfl := beq_iff_eq.mp hc
    exact imagesFrom_cons options scope hb (resolveStep_close options scope _ h hb hbraces)
      (ih (append_behind htext (List.nil_append rest)) (h.tail_ascii rfl))
  | case7 before braces c rest hquote hbacktick hopen hclose hc =>
    rename_i ih
    obtain ⟨b, hb⟩ := h.exists_byteAt
    have hi := h.byteLength_eq htext
    have hsplit := List.takeWhile_append_dropWhile (p := isNumberPart) (l := rest)
    have hnext : StandsAt text i
        (c :: rest.takeWhile isNumberPart ++ rest.dropWhile isNumberPart) := by
      rwa [List.cons_append, hsplit]
    refine imagesFrom_cons options scope hb ?_ (ih (append_behind htext hsplit) hnext.append)
    rw [resolveStep_word options scope _ h hb hquote hbacktick hopen hclose]
    exact resolveWord_number options scope _ htext hi hb hc
  | case8 before braces c rest hquote hbacktick hopen hclose hnumber hc =>
    rename_i ih
    obtain ⟨b, hb⟩ := h.exists_byteAt
    have hi := h.byteLength_eq htext
    have hsplit := List.takeWhile_append_dropWhile (p := isIdentifierPart) (l := rest)
    have hnext : StandsAt text i
        (c :: rest.takeWhile isIdentifierPart ++ rest.dropWhile isIdentifierPart) := by
      rwa [List.cons_append, hsplit]
    refine imagesFrom_cons options scope hb ?_ (ih (append_behind htext hsplit) hnext.append)
    rw [resolveStep_word options scope _ h hb hquote hbacktick hopen hclose,
      resolveWord_character options scope _ htext hi hb hnumber]
    exact resolveCharacter_name options scope htext hi hc
  | case9 before braces c rest hquote hbacktick hopen hclose hnumber hc ih =>
    obtain ⟨b, hb⟩ := h.exists_byteAt
    have hi := h.byteLength_eq htext
    refine imagesFrom_cons options scope hb ?_
      (ih (append_behind htext (List.nil_append rest)) h.tail)
    rw [resolveStep_word options scope _ h hb hquote hbacktick hopen hclose,
      resolveWord_character options scope _ htext hi hb hnumber]
    exact resolveCharacter_symbol options scope _ h (Bool.eq_false_iff.mpr hc)

end

private theorem resolveBytes_agrees (options : LoweringOptions) (scope : Scope) (source : String) :
    Agrees source.toList Eq (resolveBytes options scope source)
      (resolve? options scope source) := by
  have htext : source.toList = [].reverse ++ source.toList := rfl
  refine (imagesFrom_agrees options scope htext (.whole source.toList)).map ?_
  rintro images _ rfl
  rfl

/-- A scan from an offset ends at another one, not before it and not behind the text, and on a
boundary: what the scan leaves stands there. -/
structure SafeEnd (text : List Char) (start stop : Nat) (rest : List Char) : Prop where
  le : start ≤ stop
  le_length : stop ≤ byteLength text
  standsAt : StandsAt text stop rest

section
variable {text s rest : List Char} {start stop : Nat}

private theorem safeEnd_of_suffix (hs : StandsAt text start s) (hrest : StandsAt text stop rest)
    (h : rest <:+ s) : SafeEnd text start stop rest :=
  ⟨hs.offset_le hrest h, hrest.le_byteLength, hrest⟩

private theorem safeEnd_stringEnd {quote : Char} (h : StandsAt text start (quote :: rest))
    (hquote : quote.utf8Size = 1) :
    SafeEnd text start (stringEnd text quote (start + 1)) (closeQuote quote rest).2 :=
  safeEnd_of_suffix h (standsAt_stringEnd hquote (h.tail_ascii hquote))
    ((closeQuote_suffix quote rest).trans (List.suffix_cons quote rest))

private theorem safeEnd_templateEnd (h : StandsAt text start s) :
    SafeEnd text start (templateEnd text start).1 (templateText s).rest :=
  safeEnd_of_suffix h (standsAt_templateEnd h).1 ⟨_, templateText_append s⟩

private theorem safeEnd_literalEnd (h : StandsAt text start s) :
    SafeEnd text start (literalEnd text 0 (start + 1)).1 (afterTemplate [0] s.tail) := by
  -- The first character may have several bytes: to start behind one of them is to start behind all.
  obtain ⟨j, heq, hj⟩ := (passes_literalEnd text 0).succ h
  rw [heq]
  exact safeEnd_of_suffix h (standsAt_literalEnd hj)
    ((afterTemplate_suffix [0] s.tail).trans (List.tail_suffix s))

private theorem safeEnd_arrowBodyEnd (h : StandsAt text start s) :
    SafeEnd text start (arrowBodyEnd text start) (afterBody s) :=
  safeEnd_of_suffix h (standsAt_arrowBodyEnd h) (afterBody_suffix s)

end

/-- The two bytes before each point of the text start on a boundary. -/
def PointsClear (text : List Char) : Prop :=
  ∀ point, 2 ≤ point → byteAt text point = some '.' → IsBoundary text (point - 2)

private theorem pointsClear_of_ascii {text : List Char} (h : ∀ c ∈ text, c.utf8Size = 1) :
    PointsClear text := by
  intro point _ hpoint
  have := lt_of_byteAt hpoint
  exact isBoundary_of_ascii h (by omega)

section
variable {α : Type} {text : List Char} {x : Except BadSlice α} {y : Option α}

private theorem Agrees.exists_point (h : Agrees text Eq x y) {e : BadSlice} (hx : x = .error e) :
    ∃ point, 2 ≤ point ∧ byteAt text point = some '.' ∧ ¬IsBoundary text (point - 2) ∧
      e = ⟨point - 2, point + 1⟩ := by
  cases h with
  | answer => cases hx
  | stopped htwo hpoint hsplit =>
    cases hx
    exact ⟨_, htwo, hpoint, hsplit, rfl⟩

private theorem Agrees.toOption_eq (h : Agrees text Eq x y) : x.toOption = y := by
  cases h with
  | answer heq => exact congrArg some heq
  | stopped => rfl

private theorem Agrees.exists_answer (h : Agrees text Eq x y) (hclear : PointsClear text) :
    ∃ r, x = .ok r ∧ y = some r := by
  cases h with
  | answer heq => exact ⟨_, rfl, congrArg some heq.symm⟩
  | stopped htwo hpoint hsplit => exact absurd (hclear _ htwo hpoint) hsplit

end

/-- The only slice that stops resolution is the one over a point and the two bytes before it. Scans
of strings behind a quote of one byte, of template literals and of arrow bodies end on a boundary if
they start on one, whatever stands there, and leave what the scans over characters leave. A run that
stops does so at a point before which two bytes start inside a character, and exactly then there is
no answer over characters. Where there is no such point, as in a text of ASCII characters, the run
ends with the expression resolved. -/
theorem resolveBytes_stops_at_points_only (options : LoweringOptions) (scope : Scope)
    (source : String) :
    (∀ start s, StandsAt source.toList start s →
      (∀ quote rest, s = quote :: rest → quote.utf8Size = 1 →
        SafeEnd source.toList start (stringEnd source.toList quote (start + 1))
          (closeQuote quote rest).2) ∧
      SafeEnd source.toList start (templateEnd source.toList start).1 (templateText s).rest ∧
      SafeEnd source.toList start (literalEnd source.toList 0 (start + 1)).1
        (afterTemplate [0] s.tail) ∧
      SafeEnd source.toList start (arrowBodyEnd source.toList start) (afterBody s)) ∧
    (∀ e, resolveBytes options scope source = .error e →
      ∃ point, 2 ≤ point ∧ byteAt source.toList point = some '.' ∧
        ¬IsBoundary source.toList (point - 2) ∧ e = ⟨point - 2, point + 1⟩) ∧
    (resolveBytes options scope source).toOption = resolve? options scope source ∧
    (PointsClear source.toList → ∃ r, resolveBytes options scope source = .ok r ∧
      resolve? options scope source = some r) ∧
    ((∀ c ∈ source.toList, c.utf8Size = 1) → PointsClear source.toList) := by
  have hagrees := resolveBytes_agrees options scope source
  refine ⟨fun start s h => ⟨?_, safeEnd_templateEnd h, safeEnd_literalEnd h,
    safeEnd_arrowBodyEnd h⟩, fun e => hagrees.exists_point, hagrees.toOption_eq,
    hagrees.exists_answer, pointsClear_of_ascii⟩
  rintro quote rest rfl hquote
  exact safeEnd_stringEnd h hquote

theorem resolveBytes_clear_point :
    PointsClear "é.a + '\\é".toList ∧
      ∃ r, resolveBytes {} {} "é.a + '\\é" = .ok r ∧ resolve? {} {} "é.a + '\\é" = some r := by
  have htext : "é.a + '\\é".toList = ['é', '.', 'a', ' ', '+', ' ', '\x27', '\\', 'é'] := by decide
  have honly : ∀ point < 11,
      byteAt ['é', '.', 'a', ' ', '+', ' ', '\x27', '\\', 'é'] point = some '.' → point = 2 := by
    decide
  have hclear : PointsClear "é.a + '\\é".toList := by
    intro point _ hpoint
    have hlt := lt_of_byteAt hpoint
    rw [htext] at hpoint hlt
    obtain rfl := honly point hlt hpoint
    exact ⟨_, .whole _⟩
  exact ⟨hclear, (resolveBytes_stops_at_points_only {} {} _).2.2.2.1 hclear⟩

end TemplateCompiler.Expression
