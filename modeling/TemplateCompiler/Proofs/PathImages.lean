import TemplateCompiler.Proofs.MemberPaths
import TemplateCompiler.Proofs.Unref

/-! Images of the tokens in a member path. Behind the variable that the path starts from, the reader
of member paths goes over the images as over the tokens: members stay as they are, and between
brackets it looks at brackets alone. -/
namespace TemplateCompiler

namespace Text.PathState

/-- What stands before a place where the reader is in this state, nearest first. -/
def Follows (before : List Char) : PathState → Prop
  | name => ∃ c b, before = c :: b ∧ c ≠ '.'
  | ready => ∃ c b, before = c :: b ∧ c ≠ '.'
  | point => ∃ c b, before = '.' :: c :: b ∧ c ≠ '.'
  | _ => True

private theorem Follows.step {before : List Char} {c : Char} {q q' : PathState}
    (hb : Follows before q)
    (h : q.step c = some q') : Follows (c :: before) q' := by
  have hpart (hc : isIdentifierPart c = true) : c ≠ '.' := ne_of_identifierPart hc (by decide)
  have hbehind (hq : q = name ∨ q = ready) : ∃ d b, before = d :: b ∧ d ≠ '.' := by
    rcases hq with rfl | rfl <;> exact hb
  cases moves_of_step h with
  | skip hc => trivial
  | first hc => exact ⟨c, before, rfl, hpart (isIdentifierPart_of_start hc)⟩
  | letter hc => exact ⟨c, before, rfl, hpart hc⟩
  | member hc => exact ⟨c, before, rfl, hpart (isIdentifierPart_of_start hc)⟩
  | access hq =>
    obtain ⟨d, b, rfl, hd⟩ := hbehind hq
    exact ⟨d, b, rfl, hd⟩
  | enter hq => trivial
  | gap hq hc => exact ⟨c, before, rfl, ne_of_blank hc (by decide)⟩
  | finish hq hc => trivial
  | inside => trivial
  | leave => exact ⟨']', before, rfl, by decide⟩
  | rest hc => trivial

/-- What the automaton has read tells what stands before the next token. -/
theorem Follows.run {before t : List Char} {q q' : PathState} (hb : Follows before q)
    (h : q.run t = some q') : Follows (t.reverse ++ before) q' := by
  induction t generalizing q before with
  | nil =>
    cases h
    exact hb
  | cons c t ih =>
    rw [PathState.run] at h
    obtain ⟨q₁, hq₁, h⟩ := Option.bind_eq_some_iff.mp h
    rw [List.reverse_cons, List.append_assoc]
    exact ih (hb.step hq₁) h

private theorem isIdentifierPart_of_step {q : PathState} {c : Char} (h : q.step c = some name) :
    isIdentifierPart c = true := by
  cases moves_of_step h with
  | first hc => exact isIdentifierPart_of_start hc
  | letter hc => exact hc
  | member hc => exact isIdentifierPart_of_start hc

private theorem isIdentifierStart_of_step {q : PathState} {c : Char} (h : point.step c = some q) :
    isIdentifierStart c = true := by
  rw [step] at h
  split at h
  · assumption
  · cases h

private theorem step_identifier {q : PathState} (hq : q = ready ∨ q = tail) {c : Char}
    (hc : isIdentifierStart c = true) : q.step c = none := by
  have hblank := not_blank_of_identifierPart (isIdentifierPart_of_start hc)
  cases h : q.step c with
  | none => rfl
  | some q' =>
    cases moves_of_step h with
    | skip | first | letter | member | inside | leave => rcases hq with hq | hq <;> cases hq
    | access | enter => exact absurd hc (by decide)
    | gap _ hb | finish _ hb | rest hb =>
      rw [hblank] at hb
      cases hb

private theorem step_ne_start {q : PathState} {c : Char} (hq : q ≠ start) :
    q.step c ≠ some start := by
  intro h
  cases moves_of_step h with
  | skip => exact hq rfl

private theorem run_ne_start {q : PathState} {t : List Char} (hq : q ≠ start) :
    q.run t ≠ some start := by
  induction t generalizing q with
  | nil =>
    intro h
    cases h
    exact hq rfl
  | cons c t ih =>
    intro h
    rw [run] at h
    obtain ⟨q₁, hq₁, h⟩ := Option.bind_eq_some_iff.mp h
    refine ih ?_ h
    rintro rfl
    exact step_ne_start hq hq₁

private theorem run_group_unbracketed {t : List Char} (h : ∀ c ∈ t, c ≠ '[' ∧ c ≠ ']') (d : Nat) :
    (group d).run t = some (group d) := by
  induction t with
  | nil => rfl
  | cons c t ih =>
    obtain ⟨⟨hopen, hclose⟩, ht⟩ := List.forall_mem_cons.mp h
    rw [run, step, if_neg (by simpa using hopen), if_neg (by simpa using hclose), Option.bind_some]
    exact ih ht

/-- An identifier behind a point. -/
theorem run_point_identifier {c : Char} {t : List Char} (hc : isIdentifierStart c = true)
    (ht : ∀ d ∈ t, isIdentifierPart d = true) : point.run (c :: t) = some name := by
  rw [run, step, if_pos hc, Option.bind_some, run_name_parts ht]

theorem run_start_identifier {c : Char} {t : List Char} (hc : isIdentifierStart c = true)
    (ht : ∀ d ∈ t, isIdentifierPart d = true) : start.run (c :: t) = some name := by
  have hblank : Text.isBlank c = false := by
    refine Bool.eq_false_iff.mpr fun hb => ?_
    have := not_identifierPart_of_blank hb
    rw [isIdentifierPart_of_start hc] at this
    cases this
  rw [run, step, hblank, if_neg Bool.false_ne_true, if_pos hc, Option.bind_some, run_name_parts ht]

end Text.PathState

namespace Expression

open Text Text.PathState

variable {o : LoweringOptions} {scope : Scope} {arrows : List ArrowScope}

/-- Whether a variable of this name is read through the runtime's `unref`. -/
def readsUnref (o : LoweringOptions) (scope : Scope) (name : String) : Bool :=
  !ReservedNames.isKeyword name && access o scope name == .replaced (unrefCall name) true

/-- A name is read in one of five ways. -/
theorem access_cases (o : LoweringOptions) (scope : Scope) (name : String) :
    (∃ isDynamic, access o scope name = .kept isDynamic) ∨
      access o scope name = .replaced (name ++ ".value") false ∨
      access o scope name = .replaced (unrefCall name) true ∨
      access o scope name = .replaced ("__props." ++ name) false ∨
      access o scope name = .replaced ("_ctx." ++ name) false := by
  unfold access
  split
  · exact .inl ⟨true, rfl⟩
  · split
    · exact .inl ⟨false, rfl⟩
    · split
      · rename_i kind _
        cases kind <;> simp [bindingAccess, unrefCall]
      · simp

/-- The code that replaces a name is the name with a fixed text before or behind it. -/
theorem replaced_toList {n : NameToken} {code : String} {b : Bool}
    (h : access o scope n.text = .replaced code b) :
    b = false ∧ code.toList = n.name ++ ['.', 'v', 'a', 'l', 'u', 'e'] ∨
      b = true ∧ code.toList = ['_', 'u', 'n', 'r', 'e', 'f', '('] ++ n.name ++ [')'] ∨
      b = false ∧ code.toList = ['_', '_', 'p', 'r', 'o', 'p', 's', '.'] ++ n.name ∨
      b = false ∧ code.toList = ['_', 'c', 't', 'x', '.'] ++ n.name := by
  have hname : n.text.toList = n.name := String.toList_ofList
  rcases access_cases o scope n.text with ⟨d, h'⟩ | h' | h' | h' | h' <;> rw [h] at h' <;> cases h'
  · exact .inl ⟨rfl, by simp [hname]⟩
  · exact .inr (.inl ⟨rfl, toList_unrefCall n⟩)
  · exact .inr (.inr (.inl ⟨rfl, by simp [hname]⟩))
  · exact .inr (.inr (.inr ⟨rfl, by simp [hname]⟩))

private theorem unbracketed_of_identifierPart {c : Char} (h : isIdentifierPart c = true) :
    c ≠ '[' ∧ c ≠ ']' :=
  ⟨ne_of_identifierPart h (by decide), ne_of_identifierPart h (by decide)⟩

/-- The image of a name is the name, or the code that replaces it, with the name as a label before
it in shorthand. -/
theorem image_text {n : NameToken} {image : Image} (h : n.image? o scope arrows = some image) :
    image.text = n.name ∨ ∃ code b, access o scope n.text = .replaced code b ∧
      image.text = (if n.isShorthand then n.name ++ [':', ' '] else []) ++ code.toList := by
  unfold NameToken.image? at h
  split at h
  · cases h
  · split at h
    · cases h
      exact .inl rfl
    · cases h
      unfold NameToken.referenceImage
      split
      · exact .inl rfl
      · cases haccess : access o scope n.text with
        | kept isDynamic => exact .inl rfl
        | replaced code usesUnref => exact .inr ⟨code, usesUnref, rfl, rfl⟩

private theorem image_unbracketed {n : NameToken} {image : Image}
    (h : n.image? o scope arrows = some image)
    (hn : ∀ c ∈ n.name, isIdentifierPart c = true) : ∀ c ∈ image.text, c ≠ '[' ∧ c ≠ ']' := by
  have hname : ∀ c ∈ n.name, c ≠ '[' ∧ c ≠ ']' := fun c hc =>
    unbracketed_of_identifierPart (hn c hc)
  rcases image_text h with htext | ⟨code, b, haccess, htext⟩
  · rw [htext]
    exact hname
  · have hcode : ∀ c ∈ code.toList, c ≠ '[' ∧ c ≠ ']' := by
      rcases replaced_toList haccess with ⟨-, h⟩ | ⟨-, h⟩ | ⟨-, h⟩ | ⟨-, h⟩ <;>
        simp only [h, List.forall_mem_append]
      · exact ⟨hname, by simp⟩
      · exact ⟨⟨by simp, hname⟩, by simp⟩
      · exact ⟨by simp, hname⟩
      · exact ⟨by simp, hname⟩
    have hlabel : ∀ c ∈ (if n.isShorthand then n.name ++ [':', ' '] else []),
        c ≠ '[' ∧ c ≠ ']' := by
      split
      · exact List.forall_mem_append.mpr ⟨hname, by simp⟩
      · simp
    rw [htext]
    exact List.forall_mem_append.mpr ⟨hlabel, hcode⟩

/-- The image of a name starts as a name does. -/
theorem image_identifier {n : NameToken} {image : Image} (h : n.image? o scope arrows = some image)
    (hn : ∃ c t, n.name = c :: t ∧ isIdentifierStart c = true) :
    ∃ c t, image.text = c :: t ∧ isIdentifierStart c = true := by
  obtain ⟨c, t, hname, hc⟩ := hn
  rcases image_text h with htext | ⟨code, b, haccess, htext⟩
  · exact ⟨c, t, htext.trans hname, hc⟩
  · rw [htext]
    cases n.isShorthand with
    | true => exact ⟨c, _, by simp [hname]; rfl, hc⟩
    | false =>
      rcases replaced_toList haccess with ⟨-, h⟩ | ⟨-, h⟩ | ⟨-, h⟩ | ⟨-, h⟩
      · exact ⟨c, _, by simp [h, hname]; rfl, hc⟩
      · exact ⟨'_', _, by simp [h]; rfl, by decide⟩
      · exact ⟨'_', _, by simp [h]; rfl, by decide⟩
      · exact ⟨'_', _, by simp [h]; rfl, by decide⟩

private theorem image_member {n : NameToken} {image : Image}
    (h : n.image? o scope arrows = some image)
    (hb : Follows n.before .point) : image.text = n.name := by
  obtain ⟨c, b, hbefore, hc⟩ := hb
  have hmember : isMember? n.before = if splitsCharacter (c :: b) then none else some true := by
    have hspread : ['.', '.'].isPrefixOf (c :: b) = false := by simp [List.isPrefixOf, hc.symm]
    rw [isMember?, hbefore]
    simp only [significantBefore, List.dropWhile, isAsciiBlank]
    simp [hspread]
  cases hsplit : splitsCharacter (c :: b) with
  | true =>
    rw [NameToken.image?, hmember, hsplit] at h
    cases h
  | false =>
    rw [NameToken.image?, hmember, hsplit] at h
    cases h
    rfl

/-- The text reaches to the end, or its last character belongs to no identifier. -/
def Ends (text rest : List Char) : Prop :=
  rest = [] ∨ ∃ t c, text = t ++ [c] ∧ isIdentifierPart c = false

private theorem Ends.cons {text rest : List Char} (h : Ends text rest) (c : Char) :
    Ends (c :: text) rest := by
  rcases h with h | ⟨t, d, rfl, hd⟩
  · exact .inl h
  · exact .inr ⟨c :: t, d, rfl, hd⟩

private theorem ends_singleton {c : Char} (hc : isIdentifierPart c = false) (rest : List Char) :
    Ends [c] rest :=
  .inr ⟨[], c, rfl, hc⟩

private theorem ends_closeQuote {quote : Char} (hq : isIdentifierPart quote = false)
    (s : List Char) :
    Ends (closeQuote quote s).1 (closeQuote quote s).2 := by
  fun_induction closeQuote quote s with
  | case1 => exact .inl rfl
  | case2 => exact .inl rfl
  | case3 c hc d rest text r hr ih =>
    rw [hr] at ih
    exact (ih.cons d).cons c
  | case4 c rest _ hc =>
    obtain rfl : c = quote := by simpa using hc
    exact ends_singleton hq rest
  | case5 c rest _ _ text r hr ih =>
    rw [hr] at ih
    exact ih.cons c

private theorem ends_templateText (s : List Char) : Ends (templateText s).text
    (templateText s).rest := by
  fun_induction templateText s with
  | case1 => exact .inl rfl
  | case2 => exact .inl rfl
  | case3 c _ d rest t ih => exact (ih.cons d).cons c
  | case4 c rest _ hc =>
    obtain rfl : c = '\x60' := by simpa using hc
    exact ends_singleton (by decide) rest
  | case5 c rest => exact (ends_singleton (by decide) rest.tail).cons '$'
  | case6 c rest _ _ _ t ih => exact ih.cons c

private theorem Ends.munch {text rest : List Char} (h : Ends text rest) {q : PathState}
    (hrun : q.run text = some .name) : ∀ c ∈ rest.head?, isIdentifierPart c = false := by
  rcases h with rfl | ⟨t, d, rfl, hd⟩
  · simp
  · rw [run_concat] at hrun
    obtain ⟨q', -, hstep⟩ := Option.bind_eq_some_iff.mp hrun
    rw [isIdentifierPart_of_step hstep] at hd
    cases hd

/-- The reader is beyond the start of a path, where the given text stands before it and the other
behind. If it stands in an identifier, that has been read to its end. -/
structure Within (before rest : List Char) (q : PathState) : Prop where
  started : q ≠ .start
  follows : Follows before q
  munch : q = .name → ∀ c ∈ rest.head?, isIdentifierPart c = false

private theorem Within.advance {before text rest : List Char} {q q' : PathState}
    (h : Within before (text ++ rest) q) (hrun : q.run text = some q')
    (hm : q' = .name → ∀ c ∈ rest.head?, isIdentifierPart c = false) :
    Within (text.reverse ++ before) rest q' where
  started hq := run_ne_start h.started (hq ▸ hrun)
  follows := h.follows.run hrun
  munch := hm

theorem not_identifierStart_of_digit {c : Char} (h : c.isDigit = true) :
    isIdentifierStart c = false := by
  have hcodes : ∀ n ∈ List.range' 48 10, isIdentifierStart (Char.ofNat n) = false := by
    decide +kernel
  rw [← Char.ofNat_toNat c]
  apply hcodes
  simp only [Char.isDigit, Bool.and_eq_true, decide_eq_true_eq, UInt32.le_iff_toNat_le] at h
  rw [List.mem_range'_1]
  exact ⟨h.1, Nat.lt_succ_of_le h.2⟩

theorem not_digit_of_start {c : Char} (hc : isIdentifierStart c = true) : c.isDigit = false := by
  refine Bool.eq_false_iff.mpr fun hdigit => ?_
  rw [not_identifierStart_of_digit hdigit] at hc
  cases hc

/-- A number starts with a digit or with a point before one. -/
theorem startsNumber_cases {before rest : List Char} {c : Char}
    (h : startsNumber before c rest = true) :
    c.isDigit = true ∨ c = '.' ∧ ∃ d r, rest = d :: r ∧ d.isDigit = true := by
  simp only [startsNumber, Bool.or_eq_true, Bool.and_eq_true, beq_iff_eq] at h
  rcases h with h | ⟨⟨rfl, h⟩, -⟩
  · exact .inl h
  · obtain ⟨d, hd, hdigit⟩ := (Option.any_eq_true ..).mp h
    obtain ⟨r, rfl⟩ := List.head?_eq_some_iff.mp hd
    exact .inr ⟨rfl, d, r, rfl, hdigit⟩

private theorem unbracketed_of_numberPart {c : Char} (h : isNumberPart c = true) :
    c ≠ '[' ∧ c ≠ ']' := by
  constructor <;> rintro rfl <;> exact absurd h (by decide)

/-- Within a path the reader goes over a character that is neither a blank nor an opening bracket
in one of three ways: it is a point, it starts the identifier behind one, or it stands between
brackets. -/
private theorem Within.step {before rest : List Char} {c : Char} {q q' : PathState}
    (hq : Within before (c :: rest) q) (h : q.step c = some q') (hblank : Text.isBlank c = false)
    (hopen : c ≠ '[') :
    c = '.' ∧ q' = .point ∨ q = .point ∧ isIdentifierStart c = true ∨ ∃ d, q = .group d := by
  cases moves_of_step h with
  | skip => exact absurd rfl hq.started
  | first => exact absurd rfl hq.started
  | letter hc =>
    rw [hq.munch rfl c rfl] at hc
    cases hc
  | member hc => exact .inr (.inl ⟨rfl, hc⟩)
  | access => exact .inl ⟨rfl, rfl⟩
  | enter => exact absurd rfl hopen
  | gap _ hc =>
    rw [hblank] at hc
    cases hc
  | finish _ hc =>
    rw [hblank] at hc
    cases hc
  | inside => exact .inr (.inr ⟨_, rfl⟩)
  | leave => exact .inr (.inr ⟨_, rfl⟩)
  | rest hc =>
    rw [hblank] at hc
    cases hc

private theorem group_of_number {before rest : List Char} {c : Char} {q q' : PathState}
    (hq : Within before (c :: rest) q) (hn : startsNumber before c rest = true)
    (h : q.run (c :: rest.takeWhile isNumberPart) = some q') : ∃ d, q = .group d := by
  rw [run] at h
  obtain ⟨q₁, hstep, h⟩ := Option.bind_eq_some_iff.mp h
  rcases startsNumber_cases hn with hdigit | ⟨rfl, d, r, rfl, hdigit⟩
  · have hpart : isIdentifierPart c = true := by rw [isIdentifierPart, hdigit, Bool.or_true]
    rcases hq.step hstep (not_blank_of_identifierPart hpart)
      (unbracketed_of_identifierPart hpart).1 with ⟨rfl, -⟩ | ⟨-, hc⟩ | hgroup
    · cases hdigit
    · rw [not_identifierStart_of_digit hdigit] at hc
      cases hc
    · exact hgroup
  · rcases hq.step hstep (by decide) (by decide) with ⟨-, rfl⟩ | ⟨-, hc⟩ | hgroup
    · -- no identifier starts with the digit behind the point
      rw [List.takeWhile_cons_of_pos (by simp [isNumberPart, Char.isAlphanum, hdigit]), run] at h
      obtain ⟨_, hstep, -⟩ := Option.bind_eq_some_iff.mp h
      have hd := isIdentifierStart_of_step hstep
      rw [not_identifierStart_of_digit hdigit] at hd
      cases hd
    · exact absurd hc (by decide)
    · exact hgroup

/-- Where an identifier follows, the reader stands behind a point or between brackets, or goes over
no identifier at all. -/
private theorem Within.identifier {before rest : List Char} {c : Char} {q : PathState}
    (hq : Within before (c :: rest) q) (hc : isIdentifierStart c = true) :
    q = .point ∨ (∃ d, q = .group d) ∨
      ∀ x t, isIdentifierStart x = true → q.run (x :: t) = none := by
  cases q with
  | start => exact absurd rfl hq.started
  | name =>
    have hpart := hq.munch rfl c rfl
    rw [isIdentifierPart_of_start hc] at hpart
    cases hpart
  | point => exact .inl rfl
  | group d => exact .inr (.inl ⟨d, rfl⟩)
  | ready => exact .inr (.inr fun x t hx => by rw [run, step_identifier (.inl rfl) hx]; rfl)
  | tail => exact .inr (.inr fun x t hx => by rw [run, step_identifier (.inr rfl) hx]; rfl)

/-- The reader goes over a text as over the images of its tokens, if it does so over the first
token and, from where it then stands, over the others. -/
private theorem run_images_cons {t : Token} {ts : List Token} {before before' s rest : List Char}
    {q : PathState} (hq : Within before s q) (hs : t.text ++ rest = s)
    (hb : t.text.reverse ++ before = before')
    (himage : ∀ image, t.image? o scope arrows = some image → q.run image.text = q.run t.text)
    (hm : q.run t.text = some .name → ∀ c ∈ rest.head?, isIdentifierPart c = false)
    (ih : ∀ {q' : PathState}, Within before' rest q' → ∀ {images : List Image},
      ts.mapM (Token.image? o scope arrows) = some images →
        q'.run (images.flatMap Image.text) = q'.run rest)
    {images : List Image} (h : (t :: ts).mapM (Token.image? o scope arrows) = some images) :
    q.run (images.flatMap Image.text) = q.run s := by
  subst hs hb
  rw [List.mapM_cons] at h
  obtain ⟨image, hi, h⟩ := Option.bind_eq_some_iff.mp h
  obtain ⟨images', hr, h⟩ := Option.bind_eq_some_iff.mp h
  cases h
  rw [List.flatMap_cons, run_append, run_append, himage image hi]
  cases hrun : q.run t.text with
  | none => rfl
  | some q' => exact ih (hq.advance hrun fun hq' => hm (hq' ▸ hrun)) hr

private theorem image_verbatim {t : Token} {q : PathState}
    (ht : t.image? o scope arrows = some { text := t.text }) (image : Image)
    (h : t.image? o scope arrows = some image) : q.run image.text = q.run t.text := by
  rw [ht] at h
  cases h
  rfl

/-- Behind the start of a path the reader goes over a text as over the one in which the names have
been resolved. -/
theorem run_images {before : List Char} {braces : List Brace} {s : List Char} {q : PathState}
    (hq : Within before s q) {images : List Image}
    (h : (tokensFrom before braces s).mapM (Token.image? o scope arrows) = some images) :
    q.run (images.flatMap Image.text) = q.run s := by
  -- The induction is on the scanner, and each token hands `Within` on to the next. Only a name can
  -- have an image that differs from it: as a member it has not, and between brackets the image has
  -- no bracket of its own.
  fun_induction tokensFrom before braces s generalizing q images with
  | case1 =>
    cases h
    rfl
  | case2 before braces c rest hc p =>
    rename_i ih
    have hquote : isIdentifierPart c = false := by
      simp only [isQuote, Bool.or_eq_true, beq_iff_eq] at hc
      rcases hc with rfl | rfl <;> decide
    refine run_images_cons hq ?_ ?_ (image_verbatim rfl)
      ((ends_closeQuote hquote rest).cons c).munch ih h
    · rw [Token.text, List.cons_append, closeQuote_append]
    · simp [Token.text]
  | case3 before braces c rest _ _ t =>
    rename_i ih
    refine run_images_cons hq ?_ ?_ (image_verbatim rfl)
      ((ends_templateText rest).cons c).munch ih h
    · rw [Token.text, List.cons_append, templateText_append]
    · simp [Token.text]
  | case4 before braces c rest _ _ hc ih =>
    obtain rfl : c = '\x7b' := by simpa using hc
    exact run_images_cons (t := .symbol '\x7b') hq rfl rfl (image_verbatim rfl)
      (ends_singleton (by decide) rest).munch ih h
  | case5 before c rest _ _ _ _ outer t =>
    rename_i ih
    refine run_images_cons hq ?_ ?_ (image_verbatim rfl)
      ((ends_templateText rest).cons c).munch ih h
    · rw [Token.text, List.cons_append, templateText_append]
    · simp [Token.text]
  | case6 before braces c rest _ _ _ hc _ ih =>
    obtain rfl : c = '\x7d' := by simpa using hc
    exact run_images_cons (t := .symbol '\x7d') hq rfl rfl (image_verbatim rfl)
      (ends_singleton (by decide) rest).munch ih h
  | case7 before braces c rest _ _ _ _ hn text =>
    rename_i ih
    have hrun (d : Nat) : (PathState.group d).run (c :: text) = some (.group d) := by
      refine run_group_unbracketed (List.forall_mem_cons.mpr ⟨?_, fun x hx => ?_⟩) d
      · rcases startsNumber_cases hn with hdigit | ⟨rfl, -⟩
        · exact unbracketed_of_numberPart (by simp [isNumberPart, Char.isAlphanum, hdigit])
        · decide
      · exact unbracketed_of_numberPart (List.mem_takeWhile_imp hx)
    refine run_images_cons hq ?_ ?_ (image_verbatim rfl) ?_ ih h
    · rw [Token.text, List.cons_append, List.takeWhile_append_dropWhile]
    · simp [Token.text]
    · intro hname
      obtain ⟨d, rfl⟩ := group_of_number hq hn hname
      rw [Token.text, hrun] at hname
      cases hname
  | case8 before braces c rest _ _ _ _ _ hc text after =>
    rename_i ih
    have hparts : ∀ x ∈ c :: text, isIdentifierPart x = true :=
      List.forall_mem_cons.mpr ⟨isIdentifierPart_of_start hc, fun _ => List.mem_takeWhile_imp⟩
    refine run_images_cons hq ?_ ?_ (fun image hi => ?_)
      (fun _ => head?_dropWhile_not isIdentifierPart rest) ih h
    · rw [Token.text, List.cons_append, List.takeWhile_append_dropWhile]
    · simp [Token.text]
    · obtain ⟨d, u, himage, hd⟩ := image_identifier hi ⟨c, text, rfl, hc⟩
      rcases hq.identifier hc with rfl | ⟨depth, rfl⟩ | hnone
      · rw [image_member hi hq.follows, Token.text]
      · rw [run_group_unbracketed (image_unbracketed hi hparts) depth, Token.text,
          run_group_unbracketed (fun x hx => unbracketed_of_identifierPart (hparts x hx)) depth]
      · rw [himage, hnone d u hd, Token.text, hnone c text hc]
  | case9 before braces c rest _ _ _ _ hn hc ih =>
    have hpart : isIdentifierPart c = false := by
      rw [startsNumber, Bool.or_eq_true, not_or] at hn
      rw [isIdentifierPart, Bool.or_eq_false_iff]
      exact ⟨Bool.eq_false_iff.mpr hc, Bool.eq_false_iff.mpr hn.1⟩
    exact run_images_cons (t := .symbol c) hq rfl rfl (image_verbatim rfl)
      (ends_singleton hpart rest).munch ih h

end Expression

end TemplateCompiler
