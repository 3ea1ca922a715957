import Mathlib
import TemplateCompiler.Proofs.ArrowHeads
import TemplateCompiler.Proofs.Constancy

/-! Literals told by their text alone, beside the resolution of names. A literal that is one token,
or a number with its signs, refers to no variable. The two ways to tell a constant part where the
text only starts and ends with a string, and at words that count as numerals. -/
namespace TemplateCompiler.Expression

open Text

/-- Blanks and signs, which may stand around the tokens of a literal. -/
def isPadding (c : Char) : Bool := Text.isBlank c || c == '+' || c == '-'

private theorem of_padding {p : Char → Prop} (hblank : ∀ c, Text.isBlank c = true → p c)
    (hplus : p '+')
    (hminus : p '-') {c : Char} (h : isPadding c = true) : p c := by
  simp only [isPadding, Bool.or_eq_true, beq_iff_eq] at h
  rcases h with (h | rfl) | rfl
  · exact hblank c h
  · exact hplus
  · exact hminus

private theorem isPadding_of_blank {c : Char} (h : Text.isBlank c = true) : isPadding c = true := by
  rw [isPadding, h]
  rfl

private theorem not_identifierPart_of_padding {c : Char} (h : isPadding c = true) :
    isIdentifierPart c = false :=
  of_padding (p := fun c => isIdentifierPart c = false) (fun _ => not_identifierPart_of_blank)
    (by decide +kernel) (by decide +kernel) h

private theorem ne_of_padding {c d : Char} (h : isPadding c = true) (hd : isPadding d = false) :
    c ≠ d := by
  rintro rfl
  rw [h] at hd
  cases hd

private theorem fits_padding {before rest : List Char} {c : Char} (h : isPadding c = true) :
    (Token.symbol c).Fits before [] rest := by
  have hpart := not_identifierPart_of_padding h
  rw [isIdentifierPart, Bool.or_eq_false_iff] at hpart
  have hne {d : Char} (hd : isPadding d = false) : (c == d) = false :=
    beq_eq_false_iff_ne.mpr (ne_of_padding h hd)
  refine .symbol ?_ (ne_of_padding h (by decide)) (fun _ => by simp) ?_ hpart.1
  · rw [isQuote, hne (by decide), hne (by decide)]
    rfl
  · rw [startsNumber, hpart.2, hne (by decide)]
    rfl

private theorem bracesAfter_padding {before : List Char} {c : Char} (h : isPadding c = true) :
    (Token.symbol c).bracesAfter before [] = [] := by
  have hopen : c ≠ '\x7b' := ne_of_padding h (by decide)
  rw [Token.bracesAfter, if_neg hopen]
  split <;> rfl

/-- Blanks and signs hold no name, and names behind them are found as they are without. -/
theorem name_mem_padding {pre before rest : List Char} (hpre : ∀ c ∈ pre, isPadding c = true)
    (n : NameToken) : .name n ∈ tokensFrom before [] (pre ++ rest) ↔
      .name n ∈ tokensFrom (pre.reverse ++ before) [] rest := by
  induction pre generalizing before with
  | nil => rfl
  | cons c pre ih =>
    obtain ⟨hc, hpre⟩ := List.forall_mem_cons.mp hpre
    have hfits : (Token.symbol c).Fits before [] (pre ++ rest) := fits_padding hc
    have htokens := hfits.tokensFrom_eq
    rw [bracesAfter_padding hc] at htokens
    simp only [Token.text, List.singleton_append, List.reverse_singleton] at htokens
    rw [List.cons_append, htokens, List.mem_cons, or_iff_right Token.noConfusion, ih hpre,
      List.reverse_cons, List.append_assoc, List.singleton_append]

/-- No name stands in the text, given what stands before it. -/
def Nameless (before s : List Char) : Prop := ∀ n, .name n ∉ tokensFrom before [] s

private theorem nameless_nil (before : List Char) : Nameless before [] := by
  intro n h
  rw [tokensFrom] at h
  cases h

private theorem nameless_padding {pre before rest : List Char}
    (hpre : ∀ c ∈ pre, isPadding c = true) :
    Nameless before (pre ++ rest) ↔ Nameless (pre.reverse ++ before) rest :=
  forall_congr' fun n => not_congr (name_mem_padding hpre n)

private theorem nameless_blank {s : List Char} (hs : ∀ c ∈ s, Text.isBlank c = true)
    (before : List Char) :
    Nameless before s := by
  have hpadding : ∀ c ∈ s, isPadding c = true := fun c hc => isPadding_of_blank (hs c hc)
  rw [← List.append_nil s, nameless_padding hpadding]
  exact nameless_nil _

private theorem Token.Fits.nameless {before rest : List Char} {t : Token}
    (h : t.Fits before [] rest)
    (ht : ∀ n, t ≠ .name n) (hbraces : t.bracesAfter before [] = [])
    (hrest : Nameless (t.text.reverse ++ before) rest) : Nameless before (t.text ++ rest) := by
  intro n hn
  rw [h.tokensFrom_eq, hbraces] at hn
  rcases List.mem_cons.mp hn with hn | hn
  · exact ht n hn.symm
  · exact hrest n hn

private theorem Nameless.number {before m rest : List Char} {c : Char}
    (hc : startsNumber before c (m ++ rest) = true) (hm : ∀ d ∈ m, isNumberPart d = true)
    (hr : ∀ d ∈ rest.head?, isNumberPart d = false)
    (h : Nameless ((c :: m).reverse ++ before) rest) : Nameless before (c :: m ++ rest) := by
  have hfits : (Token.number (c :: m)).Fits before [] rest := .number hc hm hr
  exact hfits.nameless (by simp) rfl h

private theorem Nameless.quoted {before text rest : List Char} {q : Char} (hq : isQuote q = true)
    (ht : QuotedText q text rest) (h : Nameless ((q :: text).reverse ++ before) rest) :
    Nameless before (q :: text ++ rest) := by
  have hfits : (Token.quoted (q :: text)).Fits before [] rest := .quoted hq ht
  exact hfits.nameless (by simp) rfl h

/-- Whether the text starts with a string that ends before the text does. -/
def closesEarly : List Char → Bool
  | [] => false
  | c :: rest => isQuote c && !(closeQuote c rest).2.isEmpty

theorem QuotedText.after_plain {q : Char} {s text rest : List Char}
    (hs : ∀ c ∈ s, c ≠ '\\' ∧ c ≠ q) (h : QuotedText q text rest) :
    QuotedText q (s ++ text) rest := by
  induction s with
  | nil => exact h
  | cons c s ih =>
    obtain ⟨hc, hs⟩ := List.forall_mem_cons.mp hs
    exact .plain hc.1 hc.2 (ih hs)

private theorem QuotedText.of_plain {q : Char} {s : List Char} (hs : ∀ c ∈ s, c ≠ '\\' ∧ c ≠ q) :
    QuotedText q s [] := by
  have h := QuotedText.after_plain hs .unclosed
  rwa [List.append_nil] at h

private theorem QuotedText.extend {q : Char} {text rest s : List Char} (h : QuotedText q text rest)
    (hrest : rest = []) (hs : ∀ c ∈ s, c ≠ '\\' ∧ c ≠ q) :
    QuotedText q text s ∨ QuotedText q (text ++ s) [] := by
  induction h with
  | close => exact .inl (.close s)
  | unclosed => exact .inr (.of_plain hs)
  | cut =>
    -- a backslash at the end takes the first blank along
    cases s with
    | nil => exact .inr .cut
    | cons c s => exact .inr (.escaped c (.of_plain fun d hd => hs d (List.mem_cons_of_mem _ hd)))
  | escaped c _ ih => exact (ih hrest).imp (.escaped c) (.escaped c)
  | plain hc hq _ ih => exact (ih hrest).imp (.plain hc hq) (.plain hc hq)

private theorem nameless_string {q : Char} {body trail : List Char} (hq : isQuote q = true)
    (h : closesEarly (q :: body) = false) (htrail : ∀ c ∈ trail, Text.isBlank c = true)
    (before : List Char) : Nameless before (q :: body ++ trail) := by
  rw [closesEarly, hq, Bool.true_and, Bool.not_eq_false', List.isEmpty_iff] at h
  have hbody : (closeQuote q body).1 = body := by
    have happend := closeQuote_append q body
    rwa [h, List.append_nil] at happend
  have htext := quotedText_closeQuote q body
  rw [hbody] at htext
  have hplain : ∀ c ∈ trail, c ≠ '\\' ∧ c ≠ q := by
    intro c hc
    refine ⟨ne_of_blank (htrail c hc) (by decide), ?_⟩
    simp only [isQuote, Bool.or_eq_true, beq_iff_eq] at hq
    rcases hq with rfl | rfl <;> exact ne_of_blank (htrail c hc) (by decide)
  rcases htext.extend h hplain with hclosed | hunclosed
  · exact .quoted hq hclosed (nameless_blank htrail _)
  · have hall : Nameless before (q :: (body ++ trail) ++ []) :=
      .quoted hq hunclosed (nameless_nil _)
    rwa [List.append_nil] at hall

/-- A sign and at least one digit. -/
def IsSignedDigits (t : List Char) : Prop :=
  ∃ g c ds, t = g :: c :: ds ∧ isPadding g = true ∧ c.isDigit = true ∧ ∀ d ∈ ds, d.isDigit = true

private theorem isNumberPart_of_digit {c : Char} (h : c.isDigit = true) :
    isNumberPart c = true := by
  rw [isNumberPart, Char.isAlphanum, h, Bool.or_true]
  rfl

private theorem isDigits_split {s : List Char} (h : isDigits s = true) :
    ∃ c ds, s = c :: ds ∧ c.isDigit = true ∧ ∀ d ∈ ds, d.isDigit = true := by
  rw [isDigits, Bool.and_eq_true] at h
  cases s with
  | nil => cases h.1
  | cons c ds =>
    obtain ⟨hc, hds⟩ := List.forall_mem_cons.mp (List.all_eq_true.mp h.2)
    exact ⟨c, ds, rfl, hc, hds⟩

private theorem dropSign_cases (s : List Char) :
    s = dropSign s ∨ ∃ g, isPadding g = true ∧ s = g :: dropSign s := by
  unfold dropSign
  split
  · exact .inr ⟨'+', by decide, rfl⟩
  · exact .inr ⟨'-', by decide, rfl⟩
  · exact .inl rfl

private theorem dropSign_split (s : List Char) :
    ∃ sign, s = sign ++ dropSign s ∧ ∀ c ∈ sign, isPadding c = true := by
  rcases dropSign_cases s with hs | ⟨g, hg, hs⟩
  · exact ⟨[], hs, by simp⟩
  · exact ⟨[g], hs, by simpa using hg⟩

private theorem isExponent_split {s : List Char} (h : isExponent s = true) :
    ∃ m t, s = m ++ t ∧ (∀ d ∈ m, isNumberPart d = true) ∧ (t = [] ∨ IsSignedDigits t) := by
  cases s with
  | nil => exact ⟨[], [], rfl, by simp, .inl rfl⟩
  | cons e rest =>
    rw [isExponent, Bool.and_eq_true] at h
    have he : isNumberPart e = true := by
      simp only [Bool.or_eq_true, beq_iff_eq] at h
      rcases h.1 with rfl | rfl <;> decide
    obtain ⟨c, ds, hdigits, hc, hds⟩ := isDigits_split h.2
    rcases dropSign_cases rest with hrest | ⟨g, hg, hrest⟩
    · rw [hdigits] at hrest
      refine ⟨e :: c :: ds, [], by rw [hrest, List.append_nil], ?_, .inl rfl⟩
      exact List.forall_mem_cons.mpr ⟨he, List.forall_mem_cons.mpr
        ⟨isNumberPart_of_digit hc, fun d hd => isNumberPart_of_digit (hds d hd)⟩⟩
    · rw [hdigits] at hrest
      exact ⟨[e], rest, rfl, by simpa using he, .inr ⟨g, c, ds, hrest, hg, hc, hds⟩⟩

private theorem isUnsignedDecimal_split {s : List Char} (h : isUnsignedDecimal s = true) :
    ∃ c m t, s = c :: m ++ t ∧
      (c.isDigit = true ∨ c = '.' ∧ m.head?.any Char.isDigit = true) ∧
      (∀ d ∈ m, isNumberPart d = true) ∧ (t = [] ∨ IsSignedDigits t) := by
  have hs : s.takeWhile Char.isDigit ++ s.dropWhile Char.isDigit = s :=
    List.takeWhile_append_dropWhile
  have hwhole : ∀ d ∈ s.takeWhile Char.isDigit, d.isDigit = true := fun _ => List.mem_takeWhile_imp
  unfold isUnsignedDecimal at h
  dsimp only at h
  generalize s.takeWhile Char.isDigit = whole at h hs hwhole
  split at h
  · rename_i rest hpoint
    rw [Bool.and_eq_true] at h
    obtain ⟨m, t, hexponent, hm, ht⟩ := isExponent_split h.2
    have hrest : rest.takeWhile Char.isDigit ++ (m ++ t) = rest := by
      rw [← hexponent, List.takeWhile_append_dropWhile]
    have hfraction : ∀ d ∈ rest.takeWhile Char.isDigit, d.isDigit = true :=
      fun _ => List.mem_takeWhile_imp
    generalize rest.takeWhile Char.isDigit = fraction at h hrest hfraction
    have hlater : ∀ d ∈ fraction ++ m, isNumberPart d = true :=
      List.forall_mem_append.mpr ⟨fun d hd => isNumberPart_of_digit (hfraction d hd), hm⟩
    rw [hpoint, ← hrest] at hs
    cases whole with
    | nil =>
      -- nothing stands before the point, so a digit follows it
      refine ⟨'.', fraction ++ m, t, by simpa using hs.symm, .inr ⟨rfl, ?_⟩, hlater, ht⟩
      cases fraction with
      | nil => cases h.1
      | cons d fraction => exact hfraction d List.mem_cons_self
    | cons c whole =>
      obtain ⟨hc, hwhole⟩ := List.forall_mem_cons.mp hwhole
      refine ⟨c, whole ++ '.' :: (fraction ++ m), t, by simpa using hs.symm, .inl hc, ?_, ht⟩
      refine List.forall_mem_append.mpr ⟨fun d hd => isNumberPart_of_digit (hwhole d hd), ?_⟩
      exact List.forall_mem_cons.mpr ⟨by decide, hlater⟩
  · rw [Bool.and_eq_true] at h
    obtain ⟨m, t, hexponent, hm, ht⟩ := isExponent_split h.2
    cases whole with
    | nil => cases h.1
    | cons c whole =>
      obtain ⟨hc, hwhole⟩ := List.forall_mem_cons.mp hwhole
      rw [hexponent] at hs
      refine ⟨c, whole ++ m, t, by simpa using hs.symm, .inl hc, ?_, ht⟩
      exact List.forall_mem_append.mpr ⟨fun d hd => isNumberPart_of_digit (hwhole d hd), hm⟩

private theorem not_numberPart_of_padding {c : Char} (h : isPadding c = true) :
    isNumberPart c = false :=
  of_padding (p := fun c => isNumberPart c = false)
    (fun _ => of_blank (p := fun c => isNumberPart c = false) (by decide +kernel))
    (by decide) (by decide) h

private theorem startsNumber_padding {before rest : List Char} {c : Char}
    (hbefore : ∀ d ∈ before, isPadding d = true)
    (hc : c.isDigit = true ∨ c = '.' ∧ rest.head?.any Char.isDigit = true) :
    startsNumber before c rest = true := by
  rcases hc with hc | ⟨rfl, hrest⟩
  · rw [startsNumber, hc]
    rfl
  · have hsignificant : (significantBefore before).head?.any isIdentifierPart = false := by
      rw [Option.any_eq_false]
      intro d hd
      have hmem := List.dropWhile_subset isAsciiBlank (List.mem_of_head? hd)
      rw [not_identifierPart_of_padding (hbefore d hmem)]
    rw [startsNumber, hrest, hsignificant]
    rfl

private theorem nameless_decimal {before s trail : List Char}
    (hbefore : ∀ c ∈ before, isPadding c = true) (h : isUnsignedDecimal s = true)
    (htrail : ∀ c ∈ trail, Text.isBlank c = true) : Nameless before (s ++ trail) := by
  obtain ⟨c, m, t, rfl, hc, hm, ht⟩ := isUnsignedDecimal_split h
  have hend : ∀ d ∈ trail.head?, isNumberPart d = false := fun d hd =>
    not_numberPart_of_padding (isPadding_of_blank (htrail d (List.mem_of_head? hd)))
  have hstart : startsNumber before c (m ++ (t ++ trail)) = true := by
    refine startsNumber_padding hbefore (hc.imp_right fun ⟨hpoint, hm⟩ => ⟨hpoint, ?_⟩)
    cases m with
    | nil => cases hm
    | cons d m => exact hm
  rw [List.append_assoc]
  rcases ht with rfl | ⟨g, c', ds, rfl, hg, hc', hds⟩
  · exact .number hstart hm hend (nameless_blank htrail _)
  · refine .number hstart hm ?_ ?_
    · intro d hd
      cases hd
      exact not_numberPart_of_padding hg
    · have hsign : ∀ d ∈ [g], isPadding d = true := by simpa using hg
      refine (nameless_padding hsign).mpr (.number ?_ ?_ hend (nameless_blank htrail _))
      · rw [startsNumber, hc']
        rfl
      · exact fun d hd => isNumberPart_of_digit (hds d hd)

private theorem name_mem_word {lead word trail : List Char} (hlead : ∀ c ∈ lead, isPadding c = true)
    (hword : isIdentifierText word = true) (htrail : ∀ c ∈ trail, Text.isBlank c = true)
    (n : NameToken) : .name n ∈ tokens (lead ++ (word ++ trail)) ↔
      n = ⟨word, lead.reverse, trail, none⟩ := by
  cases word with
  | nil => cases hword
  | cons c word =>
    rw [isIdentifierText, Bool.and_eq_true, List.all_eq_true] at hword
    have hend : ∀ d ∈ trail.head?, isIdentifierPart d = false := fun d hd =>
      not_identifierPart_of_blank (htrail d (List.mem_of_head? hd))
    have hfits : (Token.name ⟨c :: word, lead.reverse, trail, none⟩).Fits lead.reverse [] trail :=
      .name hword.1 hword.2 hend
    have htokens : tokensFrom lead.reverse [] (c :: word ++ trail) =
        .name ⟨c :: word, lead.reverse, trail, none⟩ ::
          tokensFrom ((c :: word).reverse ++ lead.reverse) [] trail := hfits.tokensFrom_eq
    rw [tokens, name_mem_padding hlead, List.append_nil, htokens, List.mem_cons,
      or_iff_left (nameless_blank htrail _ n), Token.name.injEq]

/-- Where nothing is declared, a word that stands alone may change unless the language or the
render function provides it. -/
private theorem mayChange_word {n : NameToken} (hmember : isMember? n.before = some false)
    (hbrace : n.brace = none) : n.mayChange {} {} [] =
      !(ReservedNames.isKeyword n.text || (ReservedNames.isGlobal n.text ||
        ReservedNames.isRenderLocal n.text)) := by
  have hkey : n.isKey = false := by
    rw [NameToken.isKey, NameToken.atKey, hbrace]
    rfl
  have hscope : ({} : Scope).contains n.text = false := rfl
  have hfixed : isFixedBinding {} n.text = false := rfl
  rw [NameToken.mayChange, NameToken.isReference, hmember, hkey, hscope, hfixed]
  simp

private theorem HasArrow.equals_mem {s : List Char} (h : HasArrow s) : '=' ∈ s :=
  List.IsInfix.subset h List.mem_cons_self

private theorem resolved_word {source : String} {lead word trail : List Char}
    (hsource : source.toList = lead ++ (word ++ trail)) (hlead : ∀ c ∈ lead, isPadding c = true)
    (hword : isIdentifierText word = true) (htrail : ∀ c ∈ trail, Text.isBlank c = true) :
    ∃ r, resolve? {} {} source = some r ∧ (r.constancy = .notConstant ↔
      (ReservedNames.isKeyword (String.ofList word) ||
        (ReservedNames.isGlobal (String.ofList word) ||
          ReservedNames.isRenderLocal (String.ofList word))) = false) := by
  have hnames := name_mem_word hlead hword htrail
  rw [← hsource] at hnames
  have hmember : isMember? lead.reverse = some false := by
    refine isMember?_pointless fun hmem => ?_
    exact ne_of_padding (hlead '.' (List.mem_reverse.mp hmem)) (by decide) rfl
  have harrows : arrowScopes source.toList = [] := by
    refine arrowScopesFrom_nil (fun harrow => ?_) 0
    have hmem := harrow.equals_mem
    rw [hsource, List.mem_append, List.mem_append] at hmem
    rcases hmem with hmem | hmem | hmem
    · exact ne_of_padding (hlead _ hmem) (by decide) rfl
    · exact ne_of_identifierPart (isIdentifierPart_of_text hword hmem) (by decide) rfl
    · exact ne_of_blank (htrail _ hmem) (by decide) rfl
  have hsome : (resolve? {} {} source).isSome = true := by
    rw [resolve?_isSome_iff]
    intro n hn
    rw [(hnames n).mp hn, hmember]
    rfl
  obtain ⟨r, hr⟩ := Option.isSome_iff_exists.mp hsome
  refine ⟨r, hr, ?_⟩
  have hchange := mayChange_word (n := ⟨word, lead.reverse, trail, none⟩) hmember rfl
  rw [NameToken.text] at hchange
  rw [constancy_eq_notConstant_iff hr, harrows]
  simp only [hnames, exists_eq_left, hchange, Bool.not_eq_true']

private theorem resolved_nameless {o : LoweringOptions} {scope : Scope} {source : String}
    (h : Nameless [] source.toList) :
    ∃ r, resolve? o scope source = some r ∧ r.constancy ≠ .notConstant := by
  have hsome : (resolve? o scope source).isSome = true :=
    resolve?_isSome_iff.mpr fun n hn => absurd hn (h n)
  obtain ⟨r, hr⟩ := Option.isSome_iff_exists.mp hsome
  refine ⟨r, hr, fun hconstancy => ?_⟩
  obtain ⟨n, hn, -⟩ := (constancy_eq_notConstant_iff hr).mp hconstancy
  exact h n hn

/-- Whether the text is a word that counts as a numeral, other than the two of the language. -/
def isVariableNumeral (s : List Char) : Bool :=
  numeralWords.contains (String.ofList ((dropSign s).map Char.toLower)) &&
    !(["Infinity", "NaN"].contains (String.ofList (dropSign s)))

private theorem isIdentifierText_of_alpha {s : List Char} (hs : s ≠ [])
    (h : ∀ c ∈ s, c.isAlpha = true) : isIdentifierText s = true := by
  have hstart {c : Char} (hc : c.isAlpha = true) : isIdentifierStart c = true := by
    rw [isIdentifierStart, hc]
    rfl
  cases s with
  | nil => exact absurd rfl hs
  | cons c s =>
    obtain ⟨hc, hs⟩ := List.forall_mem_cons.mp h
    rw [isIdentifierText, hstart hc, Bool.true_and, List.all_eq_true]
    exact fun d hd => isIdentifierPart_of_start (hstart (hs d hd))

private theorem isIdentifierText_numeralWord {s : List Char}
    (h : numeralWords.contains (String.ofList (s.map Char.toLower)) = true) :
    isIdentifierText s = true := by
  have hwords : ∀ w ∈ numeralWords, w.toList ≠ [] ∧ ∀ c ∈ w.toList, c.isAlpha = true := by
    simp [numeralWords]
  obtain ⟨hne, halpha⟩ := hwords _ (List.contains_iff_mem.mp h)
  rw [String.toList_ofList] at hne halpha
  refine isIdentifierText_of_alpha (fun hs => hne (by rw [hs]; rfl)) fun c hc => ?_
  rw [← Char.isAlpha_toLower_eq_isAlpha]
  exact halpha _ (List.mem_map_of_mem hc)

private theorem numeralWord_provided {w : String}
    (h : numeralWords.contains (String.ofList (w.toList.map Char.toLower)) = true) :
    (ReservedNames.isKeyword w || (ReservedNames.isGlobal w || ReservedNames.isRenderLocal w)) =
      ["Infinity", "NaN"].contains w := by
  -- the provided names are few: the words among them are looked up one by one
  have hprovided : ∀ v ∈ ReservedNames.keywords ++ (ReservedNames.globals ++
      ReservedNames.renderLocals),
      numeralWords.contains (String.ofList (v.toList.map Char.toLower)) = true →
        v ∈ ["Infinity", "NaN"] := by decide +kernel
  rw [Bool.eq_iff_iff]
  simp only [Bool.or_eq_true, ReservedNames.isKeyword, ReservedNames.isGlobal,
    ReservedNames.isRenderLocal, List.contains_iff_mem]
  constructor
  · intro hmem
    rw [← List.mem_append, ← List.mem_append] at hmem
    exact hprovided w hmem h
  · intro hmem
    have hglobal : ∀ v ∈ ["Infinity", "NaN"], v ∈ ReservedNames.globals := by decide
    exact .inr (.inl (hglobal w hmem))

private theorem isQuotedWith_split {q : Char} {s : List Char} (h : isQuotedWith q s = true) :
    ∃ body, s = q :: body := by
  rw [isQuotedWith, Bool.and_eq_true, Bool.and_eq_true, beq_iff_eq] at h
  exact List.head?_eq_some_iff.mp h.1.2

private theorem sign_split {source : String} {lead text trail : List Char}
    (hsource : source.toList = lead ++ (text ++ trail))
    (hlead : ∀ c ∈ lead, Text.isBlank c = true) :
    ∃ signed, source.toList = signed ++ (dropSign text ++ trail) ∧
      ∀ c ∈ signed, isPadding c = true := by
  obtain ⟨sign, hsplit, hsign⟩ := dropSign_split text
  refine ⟨lead ++ sign, ?_, List.forall_mem_append.mpr ⟨?_, hsign⟩⟩
  · rw [hsource, List.append_assoc, ← List.append_assoc sign, ← hsplit]
  · exact fun c hc => isPadding_of_blank (hlead c hc)

/-- A word that counts as a numeral is a variable for the resolution, unless it is one of the two
of the language. -/
private theorem resolved_numeralWord {source : String}
    (h : numeralWords.contains
      (String.ofList ((dropSign (trim source.toList)).map Char.toLower)) = true) :
    ∃ r, resolve? {} {} source = some r ∧
      (r.constancy = .notConstant ↔ isVariableNumeral (trim source.toList) = true) := by
  obtain ⟨lead, trail, hsource, hlead, htrail⟩ := trim_split source.toList
  obtain ⟨signed, hsource, hsigned⟩ := sign_split hsource hlead
  obtain ⟨r, hr, hconstancy⟩ :=
    resolved_word hsource hsigned (isIdentifierText_numeralWord h) htrail
  refine ⟨r, hr, hconstancy.trans ?_⟩
  have hprovided := numeralWord_provided
    (w := String.ofList (dropSign (trim source.toList))) (by rw [String.toList_ofList]; exact h)
  rw [hprovided, isVariableNumeral, h, Bool.true_and, Bool.not_eq_true']

private theorem nameless_numeral {source : String}
    (h : isUnsignedDecimal (dropSign (trim source.toList)) = true) : Nameless [] source.toList := by
  obtain ⟨lead, trail, hsource, hlead, htrail⟩ := trim_split source.toList
  obtain ⟨signed, hsource, hsigned⟩ := sign_split hsource hlead
  rw [hsource, nameless_padding hsigned]
  refine nameless_decimal (fun c hc => ?_) h htrail
  rw [List.append_nil] at hc
  exact hsigned c (List.mem_reverse.mp hc)

private theorem nameless_quoted {source : String} {q : Char} (hq : isQuote q = true)
    (h : isQuotedWith q (trim source.toList) = true)
    (hearly : closesEarly (trim source.toList) = false) : Nameless [] source.toList := by
  obtain ⟨lead, trail, hsource, hlead, htrail⟩ := trim_split source.toList
  obtain ⟨body, hbody⟩ := isQuotedWith_split h
  rw [hbody] at hsource hearly
  rw [hsource, nameless_padding fun c hc => isPadding_of_blank (hlead c hc)]
  exact nameless_string hq hearly htrail _

private theorem constantWord_provided {w : String}
    (h : ["true", "false", "null", "undefined"].contains w = true) :
    isIdentifierText w.toList = true ∧ (ReservedNames.isKeyword w || (ReservedNames.isGlobal w ||
      ReservedNames.isRenderLocal w)) = true := by
  have hall : ∀ v ∈ ["true", "false", "null", "undefined"], isIdentifierText v.toList = true ∧
      (ReservedNames.isKeyword v || (ReservedNames.isGlobal v ||
        ReservedNames.isRenderLocal v)) = true := by decide +kernel
  exact hall w (List.contains_iff_mem.mp h)

private theorem resolved_constantWord {source : String}
    (h : ["true", "false", "null", "undefined"].contains
      (String.ofList (trim source.toList)) = true) :
    ∃ r, resolve? {} {} source = some r ∧ r.constancy ≠ .notConstant := by
  obtain ⟨lead, trail, hsource, hlead, htrail⟩ := trim_split source.toList
  obtain ⟨htext, hprovided⟩ := constantWord_provided h
  rw [String.toList_ofList] at htext
  obtain ⟨r, hr, hconstancy⟩ :=
    resolved_word hsource (fun c hc => isPadding_of_blank (hlead c hc)) htext htrail
  rw [hprovided] at hconstancy
  exact ⟨r, hr, fun h => absurd (hconstancy.mp h) (by decide)⟩

private theorem resolved_literal {source : String} (h : isLiteral (trim source.toList) = true)
    (hearly : closesEarly (trim source.toList) = false) :
    ∃ r, resolve? {} {} source = some r ∧
      (r.constancy = .notConstant → isVariableNumeral (trim source.toList) = true) := by
  have hconstant (h : ∃ r, resolve? {} {} source = some r ∧ r.constancy ≠ .notConstant) :
      ∃ r, resolve? {} {} source = some r ∧
        (r.constancy = .notConstant → isVariableNumeral (trim source.toList) = true) := by
    obtain ⟨r, hr, hr'⟩ := h
    exact ⟨r, hr, fun h => absurd h hr'⟩
  simp only [isLiteral, isNumeral, Bool.or_eq_true] at h
  rcases h with ((hword | hdecimal | hword) | hquoted) | hquoted
  · exact hconstant (resolved_constantWord hword)
  · exact hconstant (resolved_nameless (nameless_numeral hdecimal))
  · obtain ⟨r, hr, hconstancy⟩ := resolved_numeralWord hword
    exact ⟨r, hr, hconstancy.mp⟩
  · exact hconstant (resolved_nameless (nameless_quoted (by decide) hquoted hearly))
  · exact hconstant (resolved_nameless (nameless_quoted (by decide) hquoted hearly))

private theorem isLiteral_of_processed? {o : LoweringOptions} {scope : Scope} {s s' : Simple}
    {b : Bool}
    (ho : o.prefixIdentifiers = false) (hs : s.constancy = .notConstant)
    (h : s.processed? o scope = some (s', b)) (hs' : s'.constancy = .canStringify) :
    isLiteral (trim s.content.toList) = true := by
  have hsame (hsame : some (s, false) = some (s', b)) :
      isLiteral (trim s.content.toList) = true := by
    cases hsame
    rw [hs] at hs'
    cases hs'
  unfold Simple.processed? at h
  split at h
  · exact hsame h
  · rw [ho, if_neg Bool.false_ne_true] at h
    split at h
    · rename_i hliteral
      exact hliteral
    · exact hsame h

/-- An expression that is made a constant where names are not resolved is one for the resolution
too, without options and where nothing is declared, but for two kinds: words that count as numerals,
other than `Infinity` and `NaN`, are variables; and of a text that only starts and ends with a
string, the part between may refer to variables. All others have an answer. -/
theorem literal_marks_agree {o : LoweringOptions} {scope : Scope} {s s' : Simple} {b : Bool}
    (ho : o.prefixIdentifiers = false) (hs : s.constancy = .notConstant)
    (h : s.processed? o scope = some (s', b)) (hs' : s'.constancy = .canStringify) :
    (closesEarly (trim s.content.toList) = false → ∃ r, resolve? {} {} s.content = some r) ∧
      ∀ r, resolve? {} {} s.content = some r → (r.constancy = .notConstant ↔
        isVariableNumeral (trim s.content.toList) = true ∨
          closesEarly (trim s.content.toList) = true ∧ ∃ n, .name n ∈ tokens s.content.toList ∧
            n.mayChange {} {} (arrowScopes s.content.toList) = true) := by
  have hliteral := isLiteral_of_processed? ho hs h hs'
  refine ⟨fun hearly => ?_, fun r hr => ⟨fun hconstancy => ?_, ?_⟩⟩
  · obtain ⟨r, hr, -⟩ := resolved_literal hliteral hearly
    exact ⟨r, hr⟩
  · cases hearly : closesEarly (trim s.content.toList) with
    | true => exact .inr ⟨rfl, (constancy_eq_notConstant_iff hr).mp hconstancy⟩
    | false =>
      obtain ⟨r', hr', hvariable⟩ := resolved_literal hliteral hearly
      obtain rfl := Option.some.inj (hr.symm.trans hr')
      exact .inl (hvariable hconstancy)
  · rintro (hvariable | ⟨-, hchange⟩)
    · have hword := (Bool.and_eq_true_iff.mp hvariable).1
      obtain ⟨r', hr', hconstancy⟩ := resolved_numeralWord hword
      obtain rfl := Option.some.inj (hr.symm.trans hr')
      exact hconstancy.mpr hvariable
    · exact (constancy_eq_notConstant_iff hr).mpr hchange

theorem signedDecimal_marks_agree :
    (Simple.code " -1.5e-3 " .stub).processed? { prefixIdentifiers := false } {} =
        some ({ Simple.code " -1.5e-3 " .stub with constancy := .canStringify }, false) ∧
      ∃ r, resolve? {} {} " -1.5e-3 " = some r ∧ r.constancy ≠ .notConstant := by
  have h : (Simple.code " -1.5e-3 " .stub).processed? { prefixIdentifiers := false } {} =
      some ({ Simple.code " -1.5e-3 " .stub with constancy := .canStringify }, false) := by
    decide +kernel
  obtain ⟨hsome, hagree⟩ := literal_marks_agree rfl rfl h rfl
  obtain ⟨r, hr⟩ := hsome (by decide +kernel)
  refine ⟨h, r, hr, fun hconstancy => ?_⟩
  rcases (hagree r hr).mp hconstancy with hvariable | ⟨hearly, -⟩
  · revert hvariable
    decide +kernel
  · revert hearly
    decide +kernel

/-- Two strings with a variable between them are made a constant, but read the component's state,
as does a variable whose name counts as a numeral. -/
theorem joinedStrings_marked_constant :
    ((Simple.code "'a' + b + 'c'" .stub).processed? { prefixIdentifiers := false } {} =
        some ({ Simple.code "'a' + b + 'c'" .stub with constancy := .canStringify }, false) ∧
      resolve? {} {} "'a' + b + 'c'" = some ⟨"'a' + _ctx.b + 'c'", .notConstant, false⟩) ∧
    ((Simple.code "inf" .stub).processed? { prefixIdentifiers := false } {} =
        some ({ Simple.code "inf" .stub with constancy := .canStringify }, false) ∧
      resolve? {} {} "inf" = some ⟨"_ctx.inf", .notConstant, false⟩) := by decide +kernel

end TemplateCompiler.Expression
