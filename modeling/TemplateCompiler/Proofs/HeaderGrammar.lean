import TemplateCompiler.Lowering.LoopHeader
import TemplateCompiler.Proofs.MemberPaths

/-! The grammar of loop headers. A header is divided at its first separator; before it stand one or
two names, which may be in round brackets, and behind it the source. Reading accepts exactly the
texts of this grammar. -/
namespace TemplateCompiler.Lowering

open Text

def AllBlank (s : List Char) : Prop := ∀ c ∈ s, isBlank c = true

/-- The text neither starts nor ends with a blank. -/
def Unpadded (s : List Char) : Prop :=
  (∀ c ∈ s.head?, isBlank c = false) ∧ ∀ c ∈ s.getLast?, isBlank c = false

private theorem allBlank_nil : AllBlank [] := List.forall_mem_nil _

private theorem AllBlank.append {s t : List Char} (hs : AllBlank s) (ht : AllBlank t) : AllBlank
    (s ++ t) :=
  List.forall_mem_append.mpr ⟨hs, ht⟩

private theorem Unpadded.head?_append {s : List Char} (h : Unpadded s) (hs : s ≠ [])
    (rest : List Char) :
    ∀ c ∈ (s ++ rest).head?, isBlank c = false := by
  obtain ⟨a, t, rfl⟩ := List.exists_cons_of_ne_nil hs
  exact h.1

private theorem Unpadded.trimRight_append {s trail : List Char} (h : Unpadded s)
    (htrail : AllBlank trail) :
    trimRight (s ++ trail) = s := by
  have hblank : ∀ c ∈ trail.reverse, isBlank c = true :=
    fun c hc => htrail c (List.mem_reverse.mp hc)
  have hstop : ∀ c ∈ s.reverse.head?, isBlank c = false := by
    rw [List.head?_reverse]
    exact h.2
  rw [trimRight, List.reverse_append, (takeWhile_append_stop hblank hstop).2, List.reverse_reverse]

private theorem Unpadded.trim_piece {lead s trail : List Char} (h : Unpadded s) (hs : s ≠ [])
    (hlead : AllBlank lead) (htrail : AllBlank trail) (before : List Char) :
    (Piece.mk before (lead ++ (s ++ trail))).trim = ⟨before ++ lead, s⟩ := by
  obtain ⟨htake, hdrop⟩ := takeWhile_append_stop hlead (h.head?_append hs trail)
  rw [Piece.trim, Text.trim, trimLeft, htake, hdrop, h.trimRight_append htrail]

/-- A text cut at a separator: a left side, blanks, `in` or `of`, blanks, a source, and blanks at
the end. -/
structure Division where
  left : List Char
  gap : List Char
  word : List Char
  space : List Char
  source : List Char
  trailing : List Char
  gap_ne : gap ≠ []
  gap_blank : AllBlank gap
  word_eq : word = ['i', 'n'] ∨ word = ['o', 'f']
  space_ne : space ≠ []
  space_blank : AllBlank space
  source_ne : source ≠ []
  source_unpadded : Unpadded source
  trailing_blank : AllBlank trailing

namespace Division

/-- The text from the separator on. -/
def rest (d : Division) : List Char := d.gap ++ (d.word ++ (d.space ++ (d.source ++ d.trailing)))

/-- The text that is divided. -/
def text (d : Division) : List Char := d.left ++ d.rest

/-- No division of the same text has a shorter left side. -/
def IsFirst (d : Division) : Prop :=
  ∀ d' : Division, d'.text = d.text → d.left.length ≤ d'.left.length

/-- What stands before the source. -/
def beforeSource (d : Division) : List Char := d.left ++ (d.gap ++ d.word ++ d.space)

theorem text_eq (d : Division) : d.text = d.beforeSource ++ (d.source ++ d.trailing) := by
  simp [text, rest, beforeSource]

private theorem head?_word_append (d : Division) (rest : List Char) :
    ∀ c ∈ (d.word ++ rest).head?, isBlank c = false := by
  rcases d.word_eq with h | h
  · rw [h]
    rintro c ⟨⟩
    decide
  · rw [h]
    rintro c ⟨⟩
    decide

private theorem takeSeparator?_rest (d : Division) :
    takeSeparator? d.rest = some (d.gap ++ d.word ++ d.space, d.source ++ d.trailing) := by
  obtain ⟨hgap, hword⟩ := takeWhile_append_stop d.gap_blank
    (d.head?_word_append (d.space ++ (d.source ++ d.trailing)))
  obtain ⟨hspace, hrest⟩ := takeWhile_append_stop d.space_blank
    (d.source_unpadded.head?_append d.source_ne d.trailing)
  have hlength : d.word.length = 2 := by
    rcases d.word_eq with h | h <;> rw [h] <;> rfl
  have hmem : d.word ∈ separatorWords := by simpa [separatorWords] using d.word_eq
  rw [rest, takeSeparator?]
  simp only [hgap, hword, List.take_left' hlength, List.drop_left' hlength, hspace, hrest]
  rw [if_pos]
  simp [hmem, d.gap_ne, d.space_ne, d.source_ne]

end Division

private theorem head?_trimRight {s : List Char} (hs : s ≠ [])
    (hhead : ∀ c ∈ s.head?, isBlank c = false) :
    trimRight s ≠ [] ∧ (trimRight s).head? = s.head? := by
  obtain ⟨c, rest, rfl⟩ := List.exists_cons_of_ne_nil hs
  have hsplit := trimRight_append (c :: rest)
  cases htrim : trimRight (c :: rest) with
  | nil =>
    rw [htrim, List.nil_append] at hsplit
    have hmem : c ∈ ((c :: rest).reverse.takeWhile isBlank).reverse := by
      rw [hsplit]
      exact List.mem_cons_self
    have hblank := List.mem_takeWhile_imp (List.mem_reverse.mp hmem)
    rw [hhead c rfl] at hblank
    cases hblank
  | cons a s =>
    rw [htrim] at hsplit
    exact ⟨List.cons_ne_nil _ _, congrArg some (List.cons.inj hsplit).1⟩

private theorem exists_division {s separator rest : List Char}
    (h : takeSeparator? s = some (separator, rest)) :
    ∃ d : Division, d.left = [] ∧ d.text = s := by
  rw [takeSeparator?] at h
  split at h
  · rename_i hparts
    simp only [Bool.and_eq_true, Bool.not_eq_true', List.isEmpty_eq_false_iff] at hparts
    obtain ⟨⟨⟨hgap, hword⟩, hspace⟩, hrest⟩ := hparts
    have hhead := head?_dropWhile_not isBlank ((s.dropWhile isBlank).drop 2)
    obtain ⟨hsource, hsame⟩ := head?_trimRight hrest hhead
    let behind := ((s.dropWhile isBlank).drop 2).dropWhile isBlank
    let d : Division :=
      { left := []
        gap := s.takeWhile isBlank
        word := (s.dropWhile isBlank).take 2
        space := ((s.dropWhile isBlank).drop 2).takeWhile isBlank
        source := trimRight behind
        trailing := (behind.reverse.takeWhile isBlank).reverse
        gap_ne := hgap
        gap_blank := fun _ => List.mem_takeWhile_imp
        word_eq := by simpa [separatorWords] using hword
        space_ne := hspace
        space_blank := fun _ => List.mem_takeWhile_imp
        source_ne := hsource
        source_unpadded := ⟨hsame ▸ hhead, getLast?_trimRight _⟩
        trailing_blank := fun c hc => List.mem_takeWhile_imp (List.mem_reverse.mp hc) }
    refine ⟨d, rfl, ?_⟩
    simp only [d, behind, Division.text, Division.rest, List.nil_append, trimRight_append,
      List.takeWhile_append_dropWhile, List.take_append_drop]
  · cases h

private theorem Division.left_ne_nil (d : Division) (h : takeSeparator? d.text = none) : d.left ≠
    [] := by
  intro hleft
  rw [text, hleft, List.nil_append, d.takeSeparator?_rest] at h
  cases h

/-- The division with one more character in front of the text. -/
def Division.cons (c : Char) (d : Division) : Division := { d with left := c :: d.left }

private theorem Division.exists_cons {d : Division} {c : Char} {s : List Char} (h : d.text = c :: s)
    (hleft : d.left ≠ []) : ∃ d' : Division, d = d'.cons c ∧ d'.text = s := by
  obtain ⟨a, left, hcons⟩ := List.exists_cons_of_ne_nil hleft
  rw [text, hcons, List.cons_append] at h
  obtain ⟨rfl, htext⟩ := List.cons.inj h
  refine ⟨{ d with left }, ?_, htext⟩
  rw [cons, ← hcons]

private theorem exists_first {passed s : List Char} {left source : Piece}
    (h : divideFrom passed s = some (left, source)) :
    ∃ d : Division, d.text = s ∧ d.IsFirst ∧ left = ⟨[], passed.reverse ++ d.left⟩ ∧
      source = ⟨passed.reverse ++ d.beforeSource, d.source⟩ := by
  fun_induction divideFrom passed s with
  | case1 passed s separator rest hseparator =>
    cases h
    obtain ⟨d, hleft, rfl⟩ := exists_division hseparator
    have htaken := d.takeSeparator?_rest
    rw [Division.text, hleft, List.nil_append, htaken] at hseparator
    cases hseparator
    refine ⟨d, rfl, ?_, ?_, ?_⟩
    · intro d' _
      rw [hleft]
      exact Nat.zero_le _
    · rw [hleft, List.append_nil]
    · rw [Division.beforeSource, hleft, List.nil_append,
        d.source_unpadded.trimRight_append d.trailing_blank]
  | case2 => cases h
  | case3 passed c rest hnone ih =>
    obtain ⟨d, rfl, hfirst, hleft, hsource⟩ := ih h
    refine ⟨d.cons c, rfl, ?_, ?_, ?_⟩
    · intro d' htext
      obtain ⟨d'', rfl, htext'⟩ := Division.exists_cons htext (d'.left_ne_nil (htext ▸ hnone))
      exact Nat.succ_le_succ (hfirst d'' htext')
    · rw [hleft, List.reverse_cons, List.append_assoc]
      rfl
    · rw [hsource, List.reverse_cons, List.append_assoc]
      rfl

private theorem Division.IsFirst.divideFrom_eq {d : Division} (h : d.IsFirst) (passed : List Char) :
    divideFrom passed d.text = some (⟨[], passed.reverse ++ d.left⟩,
      ⟨passed.reverse ++ d.beforeSource, d.source⟩) := by
  generalize hs : d.text = s
  fun_induction divideFrom passed s generalizing d with
  | case1 passed s separator rest hseparator =>
    obtain ⟨d', hleft', rfl⟩ := exists_division hseparator
    have hleft : d.left = [] := by
      have hle := h d' hs.symm
      rw [hleft', List.length_nil] at hle
      exact List.eq_nil_of_length_eq_zero (Nat.le_zero.mp hle)
    rw [← hs, Division.text, hleft, List.nil_append, d.takeSeparator?_rest] at hseparator
    cases hseparator
    rw [d.source_unpadded.trimRight_append d.trailing_blank, Division.beforeSource, hleft,
      List.append_nil, List.nil_append]
  | case2 passed _ =>
    have hnil := (List.append_eq_nil_iff.mp (List.append_eq_nil_iff.mp hs).2).1
    exact absurd hnil d.gap_ne
  | case3 passed c rest hnone ih =>
    obtain ⟨d, rfl, rfl⟩ := Division.exists_cons hs (d.left_ne_nil (hs ▸ hnone))
    have hfirst : d.IsFirst := fun d' htext =>
      Nat.le_of_succ_le_succ (h (d'.cons c) (congrArg (c :: ·) htext))
    rw [ih hfirst rfl, List.reverse_cons, List.append_assoc, List.append_assoc]
    rfl

/-- A name with blanks around it. -/
structure PaddedName where
  lead : List Char
  name : List Char
  trail : List Char
  lead_blank : AllBlank lead
  isName : isIdentifierText name = true
  trail_blank : AllBlank trail

namespace PaddedName

def text (n : PaddedName) : List Char := n.lead ++ (n.name ++ n.trail)

def dropLead (n : PaddedName) : PaddedName :=
  { n with lead := [], lead_blank := allBlank_nil }

def dropTrail (n : PaddedName) : PaddedName :=
  { n with trail := [], trail_blank := allBlank_nil }

/-- The text of a second name, with the comma before it. -/
def textBehindComma : Option PaddedName → List Char
  | none => []
  | some n => ',' :: n.text

theorem name_ne (n : PaddedName) : n.name ≠ [] := by
  intro h
  have hname := n.isName
  rw [h] at hname
  cases hname

private theorem isPart (n : PaddedName) {c : Char} (hc : c ∈ n.name) : isIdentifierPart c = true :=
  isIdentifierPart_of_text n.isName hc

private theorem unpadded (n : PaddedName) : Unpadded n.name :=
  ⟨fun _ hc => not_blank_of_identifierPart (n.isPart (List.mem_of_head? hc)),
    fun _ hc => not_blank_of_identifierPart (n.isPart (List.mem_of_getLast? hc))⟩

private theorem trim_piece (n : PaddedName) (before : List Char) :
    (Piece.mk before n.text).trim = ⟨before ++ n.lead, n.name⟩ :=
  n.unpadded.trim_piece n.name_ne n.lead_blank n.trail_blank before

private theorem head?_dropLead (n : PaddedName) (rest : List Char) :
    (n.dropLead.text ++ rest).head? = n.name.head? := by
  obtain ⟨c, name, hname⟩ := List.exists_cons_of_ne_nil n.name_ne
  simp [dropLead, text, hname]

private theorem getLast?_dropTrail (n : PaddedName) (before : List Char) :
    (before ++ n.dropTrail.text).getLast? = n.name.getLast? := by
  simp [dropTrail, text, List.getLast?_append, List.getLast?_eq_some_getLast n.name_ne]

private theorem comma_notMem_text (n : PaddedName) : ',' ∉ n.text := by
  intro h
  rcases List.mem_append.mp h with h | h
  · exact ne_of_blank (n.lead_blank _ h) (by decide) rfl
  · rcases List.mem_append.mp h with h | h
    · exact ne_of_identifierPart (isIdentifierPart_of_text n.isName h) (by decide) rfl
    · exact ne_of_blank (n.trail_blank _ h) (by decide) rfl

private theorem splitAtCommas_names (before : List Char) (value : PaddedName)
    (key : Option PaddedName) :
    (Piece.mk before (value.text ++ textBehindComma key)).splitAtCommas.map Piece.trim =
      ⟨before ++ value.lead, value.name⟩ ::
        (key.map fun k => ⟨before ++ (value.text ++ ',' :: k.lead), k.name⟩).toList := by
  cases key with
  | none =>
    have hsplit : (value.text ++ []).splitOn ',' = [value.text] := by
      rw [List.append_nil]
      exact List.splitOn_eq_singleton value.comma_notMem_text
    rw [Piece.splitAtCommas, textBehindComma, hsplit]
    simp only [Piece.placed, List.map_cons, List.map_nil, value.trim_piece]
    rfl
  | some key =>
    have hsplit : (value.text ++ ',' :: key.text).splitOn ',' = [value.text, key.text] := by
      rw [List.splitOn_append_cons_self_of_not_mem value.comma_notMem_text,
        List.splitOn_eq_singleton key.comma_notMem_text]
    rw [Piece.splitAtCommas, textBehindComma, hsplit]
    simp only [Piece.placed, List.map_cons, List.map_nil, value.trim_piece, key.trim_piece,
      List.append_assoc]
    rfl

end PaddedName

private theorem exists_paddedName {text : List Char} (h : isIdentifierText (trim text) = true) :
    ∃ n : PaddedName, n.text = text := by
  obtain ⟨lead, trail, htext, hlead, htrail⟩ := trim_split text
  exact ⟨⟨lead, _, trail, hlead, h, htrail⟩, htext.symm⟩

/-- What stands around the names: blanks, and inside of them round brackets or nothing. -/
inductive Brackets : List Char → List Char → Prop
  | none {lead trail : List Char} (hlead : AllBlank lead) (htrail : AllBlank trail) :
      Brackets lead trail
  | round {lead trail : List Char} (hlead : AllBlank lead) (htrail : AllBlank trail) :
      Brackets (lead ++ ['(']) (')' :: trail)

private theorem unbracket?_some {p inner : Piece} (h : p.unbracket? = some inner) :
    inner = p ∨ p.text = '(' :: (inner.text ++ [')']) ∧ inner.before = p.before ++ ['('] := by
  rw [Piece.unbracket?] at h
  split at h
  · rename_i hopen hclose
    cases h
    refine .inr ⟨?_, rfl⟩
    obtain ⟨t, ht⟩ := List.head?_eq_some_iff.mp (beq_iff_eq.mp hopen)
    rw [ht] at hclose ⊢
    obtain ⟨t', ht'⟩ := List.getLast?_eq_some_iff.mp (beq_iff_eq.mp hclose)
    cases t' with
    | nil => cases ht'
    | cons c t' =>
      rw [List.cons_append] at ht'
      obtain ⟨-, rfl⟩ := List.cons.inj ht'
      rw [List.tail_cons, List.dropLast_concat]
  · cases h
    exact .inl rfl
  · cases h

private theorem exists_brackets {before left : List Char} {inner : Piece}
    (h : (Piece.mk before left).trim.unbracket? = some inner) :
    ∃ opening closing, Brackets opening closing ∧ left = opening ++ (inner.text ++ closing) ∧
      inner.before = before ++ opening := by
  obtain ⟨trail, htext, htrail⟩ := takeWhile_trim_append left
  have hlead : AllBlank (left.takeWhile isBlank) := fun _ => List.mem_takeWhile_imp
  rcases unbracket?_some h with rfl | ⟨hinner, hbefore⟩
  · exact ⟨_, trail, .none hlead htrail, htext, rfl⟩
  · refine ⟨left.takeWhile isBlank ++ ['('], ')' :: trail, .round hlead htrail, ?_, ?_⟩
    · change trim left = _ at hinner
      rw [hinner] at htext
      simpa using htext
    · rw [hbefore, ← List.append_assoc]
      rfl

private theorem unbracket?_round (before inner : List Char) :
    (Piece.mk before ('(' :: (inner ++ [')']))).unbracket? = some ⟨before ++ ['('], inner⟩ := by
  have hlast : ('(' :: (inner ++ [')'])).getLast? = some ')' := by
    rw [← List.cons_append, List.getLast?_concat]
  rw [Piece.unbracket?, hlast]
  simp only [List.head?_cons, beq_self_eq_true, List.tail_cons, List.dropLast_concat]

private theorem trim_unbracket? {lead core trail : List Char} (hcore : core ≠ [])
    (hhead : ∀ c ∈ core.head?, isIdentifierPart c = true)
    (hlast : ∀ c ∈ core.getLast?, isIdentifierPart c = true) (hlead : AllBlank lead)
    (htrail : AllBlank trail) (before : List Char) :
    (Piece.mk before (lead ++ (core ++ trail))).trim.unbracket? = some ⟨before ++ lead, core⟩ := by
  have hunpadded : Unpadded core := ⟨fun c hc => not_blank_of_identifierPart (hhead c hc),
    fun c hc => not_blank_of_identifierPart (hlast c hc)⟩
  have hopen : (core.head? == some '(') = false := by
    rw [beq_eq_false_iff_ne]
    intro h
    exact ne_of_identifierPart (hhead _ h) (by decide) rfl
  have hclose : (core.getLast? == some ')') = false := by
    rw [beq_eq_false_iff_ne]
    intro h
    exact ne_of_identifierPart (hlast _ h) (by decide) rfl
  rw [hunpadded.trim_piece hcore hlead htrail, Piece.unbracket?]
  simp only [hopen, hclose]

/-- A header: its left side is one name, or two with a comma between them, and may be in round
brackets. -/
structure Header extends Division where
  opening : List Char
  value : PaddedName
  key : Option PaddedName
  closing : List Char
  brackets : Brackets opening closing
  left_eq : left = opening ++ (value.text ++ PaddedName.textBehindComma key ++ closing)

namespace Header

/-- The parts of the header, each behind all that stands before it. -/
def pieces (h : Header) : HeaderPieces :=
  { value := ⟨h.opening ++ h.value.lead, h.value.name⟩
    key := h.key.map fun k => ⟨h.opening ++ (h.value.text ++ ',' :: k.lead), k.name⟩
    source := ⟨h.beforeSource, h.source⟩ }

private theorem names_eq (h : Header) : ∃ inner, (Piece.mk [] h.left).trim.unbracket? = some inner ∧
    inner.splitAtCommas.map Piece.trim = h.pieces.value :: h.pieces.key.toList := by
  obtain ⟨d, opening, value, key, closing, brackets, left_eq⟩ := h
  cases brackets with
  | @round lead trail hlead htrail =>
    have hleft : d.left = lead ++
        ('(' :: (value.text ++ PaddedName.textBehindComma key ++ [')']) ++ trail) := by
      rw [left_eq]
      simp
    have hunpadded : Unpadded ('(' :: (value.text ++ PaddedName.textBehindComma key ++ [')'])) := by
      refine ⟨?_, ?_⟩
      · rintro c ⟨⟩
        decide
      · rw [← List.cons_append, List.getLast?_concat]
        rintro c ⟨⟩
        decide
    refine ⟨⟨[] ++ lead ++ ['('], value.text ++ PaddedName.textBehindComma key⟩, ?_, ?_⟩
    · rw [hleft, hunpadded.trim_piece (List.cons_ne_nil _ _) hlead htrail, unbracket?_round]
    · rw [PaddedName.splitAtCommas_names]
      rfl
  | none hlead htrail =>
    -- The blanks before the first and behind the last name go with those around the left side.
    cases key with
    | none =>
      have hleft : d.left =
          (opening ++ value.lead) ++ (value.name ++ (value.trail ++ closing)) := by
        rw [left_eq]
        simp [PaddedName.text, PaddedName.textBehindComma]
      have hnames :=
        PaddedName.splitAtCommas_names (opening ++ value.lead) value.dropLead.dropTrail none
      refine ⟨⟨[] ++ (opening ++ value.lead), value.name⟩, ?_, ?_⟩
      · rw [hleft]
        exact trim_unbracket? value.name_ne (fun c hc => value.isPart (List.mem_of_head? hc))
          (fun c hc => value.isPart (List.mem_of_getLast? hc)) (hlead.append value.lead_blank)
          (value.trail_blank.append htrail) []
      · simpa [PaddedName.dropLead, PaddedName.dropTrail, PaddedName.text,
          PaddedName.textBehindComma, pieces] using hnames
    | some key =>
      have hleft : d.left = (opening ++ value.lead) ++
          ((value.dropLead.text ++ ',' :: key.dropTrail.text) ++ (key.trail ++ closing)) := by
        rw [left_eq]
        simp [PaddedName.dropLead, PaddedName.dropTrail, PaddedName.text,
          PaddedName.textBehindComma]
      have hnames :=
        PaddedName.splitAtCommas_names (opening ++ value.lead) value.dropLead (some key.dropTrail)
      refine ⟨⟨[] ++ (opening ++ value.lead), value.dropLead.text ++ ',' :: key.dropTrail.text⟩,
        ?_, ?_⟩
      · rw [hleft]
        refine trim_unbracket? (by simp) (fun c hc => ?_) (fun c hc => ?_)
          (hlead.append value.lead_blank) (key.trail_blank.append htrail) []
        · rw [value.head?_dropLead] at hc
          exact value.isPart (List.mem_of_head? hc)
        · rw [List.append_cons, key.getLast?_dropTrail] at hc
          exact key.isPart (List.mem_of_getLast? hc)
      · simpa [PaddedName.dropLead, PaddedName.dropTrail, PaddedName.text,
          PaddedName.textBehindComma, pieces] using hnames

end Header

private theorem headerPieces?_text {h : Header} (hfirst : h.IsFirst) :
    headerPieces? h.text = some h.pieces := by
  obtain ⟨inner, hinner, hnames⟩ := h.names_eq
  have hdivide := hfirst.divideFrom_eq []
  simp only [List.reverse_nil, List.nil_append] at hdivide
  rw [headerPieces?, hdivide]
  simp only [Option.bind_eq_bind, Option.bind_some, hinner, hnames]
  obtain ⟨d, opening, value, key, closing, -, -⟩ := h
  cases key with
  | none => exact if_pos value.isName
  | some key => exact if_pos (Bool.and_eq_true_iff.mpr ⟨value.isName, key.isName⟩)

private theorem exists_header {content : List Char} {p : HeaderPieces}
    (h : headerPieces? content = some p) :
    ∃ header : Header, header.text = content ∧ header.IsFirst ∧ header.pieces = p := by
  obtain ⟨⟨left, source⟩, hdivide, hread⟩ := Option.bind_eq_some_iff.mp h
  obtain ⟨inner, hinner, hparts⟩ := Option.bind_eq_some_iff.mp hread
  obtain ⟨d, rfl, hfirst, rfl, rfl⟩ := exists_first hdivide
  simp only [List.reverse_nil, List.nil_append] at hinner hparts
  obtain ⟨opening, closing, hbrackets, hleft, hbefore⟩ := exists_brackets hinner
  have hjoin : [','].intercalate (inner.text.splitOn ',') = inner.text :=
    List.intercalate_splitOn ','
  rw [Piece.splitAtCommas] at hparts
  rcases hsplit : inner.text.splitOn ',' with _ | ⟨t, _ | ⟨u, _ | ⟨w, ts⟩⟩⟩
  · rw [hsplit] at hparts
    cases hparts
  · rw [hsplit] at hparts hjoin
    simp only [Piece.placed, List.map_cons, List.map_nil] at hparts
    split at hparts
    · rename_i hname
      cases hparts
      obtain ⟨value, rfl⟩ := exists_paddedName hname
      refine ⟨{ d with opening, value, key := none, closing, brackets := hbrackets, left_eq := ?_ },
        rfl, hfirst, ?_⟩
      · rw [hleft, ← hjoin]
        simp [PaddedName.textBehindComma]
      · rw [Header.pieces, value.trim_piece, hbefore]
        rfl
    · cases hparts
  · rw [hsplit] at hparts hjoin
    simp only [Piece.placed, List.map_cons, List.map_nil] at hparts
    split at hparts
    · rename_i hnames
      cases hparts
      obtain ⟨hvalue, hkey⟩ := Bool.and_eq_true_iff.mp hnames
      obtain ⟨value, rfl⟩ := exists_paddedName hvalue
      obtain ⟨key, rfl⟩ := exists_paddedName hkey
      refine ⟨{ d with
        opening, value, key := some key, closing, brackets := hbrackets, left_eq := ?_ },
        rfl, hfirst, ?_⟩
      · rw [hleft, ← hjoin]
        simp [PaddedName.textBehindComma]
      · rw [Header.pieces, value.trim_piece, key.trim_piece, hbefore]
        simp
    · cases hparts
  · rw [hsplit] at hparts
    cases hparts

/-- A header in its plainest form. -/
def headerText (value : String) (key : Option String) (source : String) : String :=
  match key with
  | none => value ++ " in " ++ source
  | some key => "(" ++ value ++ ", " ++ key ++ ") in " ++ source

private theorem takeSeparator?_of_not_blank {c : Char} (hc : isBlank c = false) (rest : List Char) :
    takeSeparator? (c :: rest) = none := by
  simp [takeSeparator?, hc]

private theorem takeSeparator?_name {name : List Char} (hname : isIdentifierText name = true)
    (rest : List Char) : takeSeparator? (' ' :: (name ++ ')' :: rest)) = none := by
  have hblank (c : Char) (hc : c ∈ name) : isBlank c = false :=
    not_blank_of_identifierPart (isIdentifierPart_of_text hname hc)
  have hspace : isBlank ' ' = true := by decide
  have hclose : isBlank ')' = false := by decide
  rcases name with _ | ⟨x, _ | ⟨y, _ | ⟨z, name⟩⟩⟩
  · cases hname
  · simp [takeSeparator?, hspace, hblank x, separatorWords]
  · simp [takeSeparator?, hspace, hblank x, hclose]
  · simp [takeSeparator?, hspace, hblank x, hblank z]

private theorem Division.left_append {d : Division} {t s : List Char} (h : d.text = t ++ s)
    (ht : ∀ c ∈ t, isBlank c = false) : ∃ d' : Division, d'.text = s ∧ d.left = t ++ d'.left := by
  induction t generalizing d with
  | nil => exact ⟨d, h, rfl⟩
  | cons c t ih =>
    have hnone : takeSeparator? d.text = none := by
      rw [h]
      exact takeSeparator?_of_not_blank (ht c List.mem_cons_self) _
    obtain ⟨d, rfl, htext⟩ := Division.exists_cons h (d.left_ne_nil hnone)
    obtain ⟨d', rfl, hleft⟩ := ih htext fun c hc => ht c (List.mem_cons_of_mem _ hc)
    exact ⟨d', rfl, congrArg (c :: ·) hleft⟩

/-- The division at an ` in ` with one blank on each side. -/
def Division.atIn (left : List Char) {source : List Char} (hne : source ≠ [])
    (hunpadded : Unpadded source) : Division :=
  have hblank : AllBlank [' '] := List.forall_mem_singleton.mpr (by decide)
  { left
    gap := [' ']
    word := ['i', 'n']
    space := [' ']
    source
    trailing := []
    gap_ne := List.cons_ne_nil _ _
    gap_blank := hblank
    word_eq := .inl rfl
    space_ne := List.cons_ne_nil _ _
    space_blank := hblank
    source_ne := hne
    source_unpadded := hunpadded
    trailing_blank := allBlank_nil }

section
variable {value key source : List Char}

private theorem isFirst_atIn_name (hvalue : isIdentifierText value = true) (hne : source ≠ [])
    (hunpadded : Unpadded source) : (Division.atIn value hne hunpadded).IsFirst := by
  intro d htext
  obtain ⟨d', -, hleft⟩ := Division.left_append htext fun c hc =>
    not_blank_of_identifierPart (isIdentifierPart_of_text hvalue hc)
  rw [hleft, List.length_append]
  exact Nat.le_add_right _ _

private theorem isFirst_atIn_names (hvalue : isIdentifierText value = true)
    (hkey : isIdentifierText key = true) (hne : source ≠ []) (hunpadded : Unpadded source) :
    (Division.atIn ('(' :: (value ++ ',' :: ' ' :: (key ++ [')']))) hne hunpadded).IsFirst := by
  have hblank {name : List Char} (h : isIdentifierText name = true) {c : Char} (hc : c ∈ name) :
      isBlank c = false := not_blank_of_identifierPart (isIdentifierPart_of_text h hc)
  have hopen : ∀ c ∈ '(' :: (value ++ [',']), isBlank c = false :=
    List.forall_mem_cons.mpr ⟨by decide, List.forall_mem_append.mpr
      ⟨fun _ => hblank hvalue, List.forall_mem_singleton.mpr (by decide)⟩⟩
  have hclose : ∀ c ∈ key ++ [')'], isBlank c = false :=
    List.forall_mem_append.mpr ⟨fun _ => hblank hkey, List.forall_mem_singleton.mpr (by decide)⟩
  have hsplit :
      (Division.atIn ('(' :: (value ++ ',' :: ' ' :: (key ++ [')']))) hne hunpadded).text =
        '(' :: (value ++ [',']) ++ ' ' :: (key ++ ')' :: ' ' :: 'i' :: 'n' :: ' ' :: source) := by
    simp [Division.text, Division.rest, Division.atIn]
  intro d htext
  -- The one blank of the left side stands before a name and a bracket.
  obtain ⟨d₁, htext₁, hleft₁⟩ := Division.left_append (htext.trans hsplit) hopen
  have hnone : takeSeparator? d₁.text = none := by
    rw [htext₁]
    exact takeSeparator?_name hkey _
  obtain ⟨d₂, rfl, htext₂⟩ := Division.exists_cons htext₁ (d₁.left_ne_nil hnone)
  obtain ⟨d₃, -, hleft₃⟩ := Division.left_append (htext₂.trans (List.append_cons _ _ _)) hclose
  rw [hleft₁]
  simp only [Division.atIn, Division.cons, hleft₃, List.length_append, List.length_cons,
    List.length_nil]
  omega

private theorem exists_plain_header {value source : String} {key : Option String}
    (hvalue : isIdentifier value = true) (hkey : ∀ k ∈ key, isIdentifier k = true)
    (hne : source ≠ "") (hunpadded : Unpadded source.toList) :
    ∃ h : Header, h.text = (headerText value key source).toList ∧ h.IsFirst ∧
      h.value.name = value.toList ∧ h.key.map PaddedName.name = key.map String.toList ∧
      h.source = source.toList := by
  have hne' : source.toList ≠ [] := by simpa using hne
  cases key with
  | none =>
    refine ⟨{ Division.atIn value.toList hne' hunpadded with
      opening := []
      value := ⟨[], value.toList, [], allBlank_nil, hvalue, allBlank_nil⟩
      key := none
      closing := []
      brackets := .none allBlank_nil allBlank_nil
      left_eq := ?_ }, ?_, isFirst_atIn_name hvalue hne' hunpadded, rfl, rfl, rfl⟩
    · simp [Division.atIn, PaddedName.text, PaddedName.textBehindComma]
    · simp [Division.text, Division.rest, Division.atIn, headerText]
  | some key =>
    have hkey := hkey key rfl
    refine ⟨{ Division.atIn ('(' :: (value.toList ++ ',' :: ' ' :: (key.toList ++ [')']))) hne'
        hunpadded with
      opening := ['(']
      value := ⟨[], value.toList, [], allBlank_nil, hvalue, allBlank_nil⟩
      key := some ⟨[' '], key.toList, [], List.forall_mem_singleton.mpr (by decide), hkey,
        allBlank_nil⟩
      closing := [')']
      brackets := .round allBlank_nil allBlank_nil
      left_eq := ?_ }, ?_, isFirst_atIn_names hvalue hkey hne' hunpadded, rfl, rfl, rfl⟩
    · simp [Division.atIn, PaddedName.text, PaddedName.textBehindComma]
    · simp [Division.text, Division.rest, Division.atIn, headerText]

end

/-- The parts that the pieces of a header stand for. -/
def HeaderPieces.toParts (exp : Simple) (p : HeaderPieces) : HeaderParts :=
  ⟨p.source.toSimple exp, p.value.toSimple exp, p.key.map (Piece.toSimple exp)⟩

theorem Header.content_key (h : Header) (exp : Simple) :
    (h.pieces.toParts exp).key.map Simple.content = h.key.map fun k => String.ofList k.name := by
  simp only [HeaderPieces.toParts, Header.pieces, Option.map_map]
  rfl

/-- A header is read exactly if it divides into aliases, keyword and source, and the parts that are
read are those of the first such division. -/
theorem parseHeader_ok_iff {exp : Simple} {parts : HeaderParts} :
    parseHeader exp = .ok parts ↔ ∃ h : Header, h.text = exp.content.toList ∧ h.IsFirst ∧
      parts = h.pieces.toParts exp := by
  constructor
  · intro hparse
    rw [parseHeader] at hparse
    split at hparse
    · cases hparse
    · rename_i p hp
      cases hparse
      obtain ⟨h, htext, hfirst, rfl⟩ := exists_header hp
      exact ⟨h, htext, hfirst, rfl⟩
  · rintro ⟨h, htext, hfirst, rfl⟩
    rw [parseHeader, ← htext, headerPieces?_text hfirst]
    rfl

private theorem parseHeader_error {exp : Simple} {r : Diagnostic} (h : parseHeader exp = .error r) :
    r = .of .forMalformed exp.span := by
  rw [parseHeader] at h
  split at h
  · cases h
    rfl
  · cases h

/-- The header is read as these names and this source. -/
def ReadsAs (exp : Simple) (value : String) (key : Option String) (source : String) : Prop :=
  ∃ parts, parseHeader exp = .ok parts ∧ parts.value.content = value ∧
    parts.key.map Simple.content = key ∧ parts.source.content = source

/-- The text is a header with these names and this source, divided at its first separator. -/
def IsHeader (content value : String) (key : Option String) (source : String) : Prop :=
  ∃ h : Header, h.text = content.toList ∧ h.IsFirst ∧ String.ofList h.value.name = value ∧
    (h.key.map fun k => String.ofList k.name) = key ∧ String.ofList h.source = source

private theorem readsAs_iff {exp : Simple} {value source : String} {key : Option String} :
    ReadsAs exp value key source ↔ IsHeader exp.content value key source := by
  constructor
  · rintro ⟨parts, hparse, rfl, rfl, rfl⟩
    obtain ⟨h, htext, hfirst, rfl⟩ := parseHeader_ok_iff.mp hparse
    exact ⟨h, htext, hfirst, rfl, (h.content_key exp).symm, rfl⟩
  · rintro ⟨h, htext, hfirst, rfl, rfl, rfl⟩
    exact ⟨_, parseHeader_ok_iff.mpr ⟨h, htext, hfirst, rfl⟩, rfl, h.content_key exp, rfl⟩

/-- Reading accepts exactly the headers, refuses every other text as malformed, and reads a plain
header as what it was written from. -/
theorem parseHeader_reads_headers (exp : Simple) :
    (∀ value key source, ReadsAs exp value key source ↔ IsHeader exp.content value key source) ∧
    (parseHeader exp = .error (.of .forMalformed exp.span) ↔
      ¬ ∃ value key source, IsHeader exp.content value key source) ∧
    ∀ value key source, isIdentifier value = true → (∀ k ∈ key, isIdentifier k = true) →
      source ≠ "" → Unpadded source.toList →
        ReadsAs { exp with content := headerText value key source } value key source := by
  refine ⟨fun _ _ _ => readsAs_iff, ⟨?_, ?_⟩, ?_⟩
  · rintro herror ⟨value, key, source, h⟩
    obtain ⟨parts, hok, -⟩ := readsAs_iff.mpr h
    rw [herror] at hok
    cases hok
  · intro hnone
    cases hparse : parseHeader exp with
    | error r => rw [parseHeader_error hparse]
    | ok parts => exact absurd ⟨_, _, _, readsAs_iff.mp ⟨parts, hparse, rfl, rfl, rfl⟩⟩ hnone
  · intro value key source hvalue hkey hne hunpadded
    obtain ⟨h, htext, hfirst, hvalue, hkey, hsource⟩ :=
      exists_plain_header hvalue hkey hne hunpadded
    refine readsAs_iff.mpr ⟨h, htext, hfirst, ?_, ?_, ?_⟩
    · rw [hvalue, String.ofList_toList]
    · have hmap := congrArg (Option.map String.ofList) hkey
      simpa [Function.comp_def] using hmap
    · rw [hsource, String.ofList_toList]

theorem spacedNames_read :
    IsHeader "( item , index ) of list.items " "item" (some "index") "list.items" ∧
    (¬ ∃ value key source, IsHeader "in list" value key source) ∧
    ReadsAs { content := "(of, in) in [ in ]" } "of" (some "in") "[ in ]" := by
  refine ⟨?_, ?_, ?_⟩
  · exact ((parseHeader_reads_headers { content := "( item , index ) of list.items " }).1 _ _ _).mp
      ⟨_, rfl, by decide, by decide, by decide⟩
  · exact (parseHeader_reads_headers { content := "in list" }).2.1.mp rfl
  · exact (parseHeader_reads_headers { content := "" }).2.2 "of" (some "in") "[ in ]" (by decide)
      (by rintro k ⟨⟩; decide) (by decide) ⟨by rintro c ⟨⟩; decide, by rintro c ⟨⟩; decide⟩

end TemplateCompiler.Lowering
