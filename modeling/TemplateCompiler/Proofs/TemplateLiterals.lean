import TemplateCompiler.Proofs.ResolutionSafety
import TemplateCompiler.Proofs.Stateful

/-! Template literals by two scanners. The loop that resolves names keeps the open braces on a
stack, each with what it belongs to, and reads numbers and names between them; the scan over
template literals only counts braces, literal by literal. Both find the same end of a literal. -/
namespace TemplateCompiler.Expression

open Text

/-- The characters that change nothing inside of a hole. -/
def isOrdinary (c : Char) : Bool := !(isQuote c || c == '\x60' || c == '\x7b' || c == '\x7d')

/-- The braces open behind a stretch of template-literal text. -/
def TemplateText.bracesBehind (t : TemplateText) (outer : List Brace) : List Brace :=
  if t.opensHole then .hole :: outer else outer

/-- Reading one token: the braces open before it and the text there, and the same behind it. -/
inductive Reads : List Brace → List Char → List Brace → List Char → Prop
  | string {braces : List Brace} {quote : Char} {rest : List Char} (h : isQuote quote = true) :
      Reads braces (quote :: rest) braces (closeQuote quote rest).2
  | backtick {braces : List Brace} {rest : List Char} :
      Reads braces ('\x60' :: rest) ((templateText rest).bracesBehind braces)
        (templateText rest).rest
  | opening {braces : List Brace} {b : Brace} {rest : List Char} (hb : b ≠ .hole) :
      Reads braces ('\x7b' :: rest) (b :: braces) rest
  | resumed {outer : List Brace} {rest : List Char} :
      Reads (.hole :: outer) ('\x7d' :: rest) ((templateText rest).bracesBehind outer)
        (templateText rest).rest
  | closing {braces : List Brace} {rest : List Char} (h : ∀ outer, braces ≠ .hole :: outer) :
      Reads braces ('\x7d' :: rest) braces.tail rest
  | ordinary {braces : List Brace} {c : Char} {piece rest : List Char} (hc : isOrdinary c = true)
      (h : ∀ d ∈ piece, isOrdinary d = true) : Reads braces (c :: (piece ++ rest)) braces rest

private theorem Reads.length_lt {braces braces' : List Brace} {s s' : List Char}
    (h : Reads braces s braces' s') : s'.length < s.length := by
  cases h with
  | string => exact Nat.lt_succ_of_le (length_closeQuote_le _ _)
  | backtick | resumed => exact Nat.lt_succ_of_le (length_templateText_le _)
  | opening | closing => exact Nat.lt_succ_self _
  | ordinary =>
    rw [List.length_cons, List.length_append]
    omega

private theorem openedBrace_ne_hole (before : List Char) : openedBrace before ≠ .hole := by
  rw [openedBrace_eq_if]
  split <;> decide

private theorem isOrdinary_of {p : Char → Bool}
    (hp : ['\x27', '\x22', '\x60', '\x7b', '\x7d'].any p = false) {c : Char} (hc : p c = true) :
    isOrdinary c = true := by
  have hne (d : Char) (hd : p d = false) : c ≠ d := by
    rintro rfl
    rw [hc] at hd
    cases hd
  simp only [List.any_cons, List.any_nil, Bool.or_false, Bool.or_eq_false_iff] at hp
  simp [isOrdinary, isQuote, hne _ hp.1, hne _ hp.2.1, hne _ hp.2.2.1, hne _ hp.2.2.2.1,
    hne _ hp.2.2.2.2]

private theorem isOrdinary_of_identifierPart {c : Char} (h : isIdentifierPart c = true) :
    isOrdinary c = true :=
  isOrdinary_of (by decide +kernel) h

private theorem isOrdinary_of_numberPart {c : Char} (h : isNumberPart c = true) :
    isOrdinary c = true :=
  isOrdinary_of (by decide) h

private theorem isOrdinary_of_not {c : Char} (hquote : ¬isQuote c = true)
    (hbacktick : ¬(c == '\x60') = true) (hopen : ¬(c == '\x7b') = true)
    (hclose : ¬(c == '\x7d') = true) : isOrdinary c = true := by
  simp [isOrdinary, hquote, hbacktick, hopen, hclose]

private theorem Reads.word {p : Char → Bool} (hp : ∀ d, p d = true → isOrdinary d = true) {c : Char}
    (hc : isOrdinary c = true) (braces : List Brace) (rest : List Char) :
    Reads braces (c :: rest) braces (rest.dropWhile p) := by
  have hread : Reads braces (c :: (rest.takeWhile p ++ rest.dropWhile p)) braces
      (rest.dropWhile p) := .ordinary hc fun d hd => hp d (List.mem_takeWhile_imp hd)
  rwa [List.takeWhile_append_dropWhile] at hread

private theorem Reads.symbol {c : Char} (hc : isOrdinary c = true) (braces : List Brace)
    (rest : List Char) : Reads braces (c :: rest) braces rest := by
  have hread : Reads braces (c :: ([] ++ rest)) braces rest := .ordinary hc (by simp)
  exact hread

private theorem tokensFrom_cons (before : List Char) (braces : List Brace) (c : Char)
    (rest : List Char) :
    ∃ t braces' s', tokensFrom before braces (c :: rest) =
        t :: tokensFrom (t.text.reverse ++ before) braces' s' ∧
      Reads braces (c :: rest) braces' s' := by
  rw [tokensFrom.eq_def]
  dsimp only
  split
  · rename_i hc
    exact ⟨.quoted (c :: (closeQuote c rest).1), _, _, by simp [Token.text], .string hc⟩
  split
  · rename_i hc
    obtain rfl := beq_iff_eq.mp hc
    exact ⟨.templateText ('\x60' :: (templateText rest).text), _, _,
      by simp [Token.text, TemplateText.bracesBehind], .backtick⟩
  split
  · rename_i hc
    obtain rfl := beq_iff_eq.mp hc
    exact ⟨.symbol _, _, _, rfl, .opening (openedBrace_ne_hole before)⟩
  split
  · rename_i hc
    obtain rfl := beq_iff_eq.mp hc
    split
    · exact ⟨.templateText ('\x7d' :: (templateText rest).text), _, _,
        by simp [Token.text, TemplateText.bracesBehind], .resumed⟩
    · rename_i hbraces
      exact ⟨.symbol _, _, _, rfl, .closing hbraces⟩
  rename_i hquote hbacktick hopen hclose
  have hordinary := isOrdinary_of_not hquote hbacktick hopen hclose
  split
  · exact ⟨.number (c :: rest.takeWhile isNumberPart), _, _, by simp [Token.text],
      .word (fun _ => isOrdinary_of_numberPart) hordinary _ _⟩
  split
  · exact ⟨.name ⟨c :: rest.takeWhile isIdentifierPart, before, rest.dropWhile isIdentifierPart,
        braces.head?⟩, _, _, by simp [Token.text],
      .word (fun _ => isOrdinary_of_identifierPart) hordinary _ _⟩
  · exact ⟨.symbol _, _, _, rfl, .symbol hordinary _ _⟩

/-- How many braces are open in the current hole of each literal that is open, innermost first. -/
def holeDepths : List Brace → List Nat
  | [] => []
  | .hole :: outer => 1 :: holeDepths outer
  | _ :: outer => (holeDepths outer).modifyHead (· + 1)

/-- If braces are open, the outermost one opens a hole. -/
def Holed (braces : List Brace) : Prop := ∀ b ∈ braces.getLast?, b = .hole

variable {braces braces' outer : List Brace} {s s' rest : List Char} {b : Brace}

private theorem holeDepths_cons (hb : b ≠ .hole) :
    holeDepths (b :: outer) = (holeDepths outer).modifyHead (· + 1) := by
  cases b with
  | hole => exact absurd rfl hb
  | object | block => rfl

private theorem Holed.tail (h : Holed (b :: outer)) : Holed outer := by
  intro d hd
  cases outer with
  | nil => cases hd
  | cons c outer => exact h d (by rwa [List.getLast?_cons_cons])

private theorem Holed.cons (h : Holed outer) (hne : outer ≠ []) : Holed (b :: outer) := by
  intro d hd
  rw [List.getLast?_cons_of_ne_nil hne] at hd
  exact h d hd

private theorem exists_holeDepths (h : Holed braces) (hne : braces ≠ []) :
    ∃ depth depths, holeDepths braces = (depth + 1) :: depths := by
  induction braces with
  | nil => exact absurd rfl hne
  | cons b outer ih =>
    by_cases hb : b = .hole
    · subst hb
      exact ⟨0, _, rfl⟩
    · have houter : outer ≠ [] := by
        rintro rfl
        exact hb (h b rfl)
      obtain ⟨depth, depths, hdepths⟩ := ih h.tail houter
      exact ⟨depth + 1, depths, by rw [holeDepths_cons hb, hdepths]; rfl⟩

private theorem afterTemplate_nil (literals : List Nat) : afterTemplate literals [] = [] := by
  rw [afterTemplate.eq_def]
  cases literals <;> rfl

private theorem afterTemplate_text (literals : List Nat) (s : List Char) :
    afterTemplate (0 :: literals) s =
      afterTemplate (if (templateText s).opensHole then 1 :: literals else literals)
        (templateText s).rest := by
  fun_induction templateText s with
  | case1 => rw [afterTemplate_nil, afterTemplate_nil]
  | case2 c hc =>
    rw [afterTemplate_nil, afterTemplate, if_pos hc, List.tail_nil, afterTemplate_nil]
  | case3 c hc d rest =>
    rename_i ih
    rw [afterTemplate, if_pos hc, List.tail_cons, ih]
  | case4 c rest hc hq => rw [afterTemplate, if_neg hc, if_pos hq]; rfl
  | case5 c rest hc hq hd => rw [afterTemplate, if_neg hc, if_neg hq, if_pos hd]; rfl
  | case6 c rest hc hq hd =>
    rename_i ih
    rw [afterTemplate, if_neg hc, if_neg hq, if_neg hd, ih]

private theorem afterTemplate_ordinary {c : Char} (hc : isOrdinary c = true) (depth : Nat)
    (literals : List Nat) (s : List Char) :
    afterTemplate ((depth + 1) :: literals) (c :: s) =
      afterTemplate ((depth + 1) :: literals) s := by
  simp only [isOrdinary, Bool.not_eq_true', Bool.or_eq_false_iff] at hc
  obtain ⟨⟨⟨hquote, hbacktick⟩, hopen⟩, hclose⟩ := hc
  rw [afterTemplate, hquote, hbacktick, hopen, hclose]
  rfl

private theorem afterTemplate_piece {piece : List Char} (h : ∀ d ∈ piece, isOrdinary d = true)
    (depth : Nat) (literals : List Nat) (s : List Char) :
    afterTemplate ((depth + 1) :: literals) (piece ++ s) =
      afterTemplate ((depth + 1) :: literals) s := by
  induction piece with
  | nil => rfl
  | cons d piece ih =>
    rw [List.forall_mem_cons] at h
    rw [List.cons_append, afterTemplate_ordinary h.1, ih h.2]

private theorem holeDepths_bracesBehind (t : TemplateText) (outer : List Brace) :
    holeDepths (t.bracesBehind outer) =
      if t.opensHole then 1 :: holeDepths outer else holeDepths outer := by
  rw [TemplateText.bracesBehind]
  split <;> rfl

private theorem Holed.bracesBehind (h : Holed outer) (t : TemplateText) : Holed
    (t.bracesBehind outer) := by
  rw [TemplateText.bracesBehind]
  split
  · cases outer with
    | nil =>
      intro d hd
      cases hd
      rfl
    | cons b outer => exact h.cons (List.cons_ne_nil b outer)
  · exact h

private theorem Reads.afterTemplate_eq (h : Reads braces s braces' s') (hb : Holed braces)
    (hne : braces ≠ []) :
    afterTemplate (holeDepths braces') s' = afterTemplate (holeDepths braces) s ∧
      Holed braces' := by
  -- In a hole both scanners take strings and further literals as they are, and tell braces apart.
  obtain ⟨depth, depths, hdepths⟩ := exists_holeDepths hb hne
  cases h with
  | string hquote =>
    rw [hdepths, afterTemplate, if_pos hquote]
    exact ⟨rfl, hb⟩
  | backtick =>
    rw [holeDepths_bracesBehind, hdepths, ← afterTemplate_text]
    refine ⟨?_, hb.bracesBehind _⟩
    rw [afterTemplate, if_neg (by decide), if_pos (by decide)]
  | opening hbrace =>
    refine ⟨?_, hb.cons hne⟩
    rw [holeDepths_cons hbrace, hdepths, afterTemplate, if_neg (by decide), if_neg (by decide),
      if_pos (by decide)]
    rfl
  | @resumed outer rest =>
    refine ⟨?_, hb.tail.bracesBehind _⟩
    rw [holeDepths_bracesBehind, ← afterTemplate_text, holeDepths, afterTemplate]
    rfl
  | @closing braces rest hhole =>
    obtain ⟨b, outer, rfl⟩ := List.exists_cons_of_ne_nil hne
    have hbrace : b ≠ .hole := fun h => hhole outer (by rw [h])
    -- The brace that closes is no hole's, so the one of the hole is still open.
    have houter : outer ≠ [] := by
      rintro rfl
      exact hbrace (hb b rfl)
    obtain ⟨depth, depths, hdepths⟩ := exists_holeDepths hb.tail houter
    refine ⟨?_, hb.tail⟩
    rw [List.tail_cons, holeDepths_cons hbrace, hdepths, List.modifyHead_cons, afterTemplate,
      if_neg (by decide), if_neg (by decide), if_neg (by decide), if_pos (by decide)]
  | ordinary hc hpiece =>
    rw [hdepths, afterTemplate_ordinary hc, afterTemplate_piece hpiece]
    exact ⟨rfl, hb⟩

/-- A literal that starts where no brace is open: what is left to read is where the scan over
literals ends. -/
private theorem Reads.of_backtick (h : Reads [] ('\x60' :: rest) braces' s') :
    afterTemplate (holeDepths braces') s' = afterTemplate [0] rest ∧ Holed braces' := by
  cases h with
  | string h => cases h
  | ordinary h => cases h
  | backtick =>
    rw [holeDepths_bracesBehind, afterTemplate_text]
    exact ⟨rfl, Holed.bracesBehind (fun _ hd => by cases hd) _⟩

/-- After some of the tokens, which stand behind `before`, the scanner goes on with the rest of the
text and no brace open. -/
def GoesOnAt (before : List Char) (ts : List Token) (rest : List Char) : Prop :=
  ∃ passed, ts = passed ++ tokensFrom ((passed.flatMap Token.text).reverse ++ before) [] rest

private theorem GoesOnAt.cons {before : List Char} {t : Token} {ts : List Token}
    (h : GoesOnAt (t.text.reverse ++ before) ts rest) : GoesOnAt before (t :: ts) rest := by
  obtain ⟨passed, rfl⟩ := h
  refine ⟨t :: passed, ?_⟩
  rw [List.flatMap_cons, List.reverse_append, List.append_assoc]
  rfl

private theorem tokensFrom_literals (before : List Char) (hb : Holed braces) (s : List Char) :
    GoesOnAt before (tokensFrom before braces s) (afterTemplate (holeDepths braces) s) := by
  induction hlength : s.length using Nat.strongRecOn generalizing before braces s with
  | ind n ih =>
    by_cases hne : braces = []
    · rw [hne, holeDepths, afterTemplate]
      exact ⟨[], rfl⟩
    cases s with
    | nil =>
      rw [afterTemplate_nil, tokensFrom]
      exact ⟨[], by rw [tokensFrom]; rfl⟩
    | cons c rest =>
      obtain ⟨t, braces', s', htokens, hread⟩ := tokensFrom_cons before braces c rest
      have hlt := hread.length_lt
      rw [hlength] at hlt
      obtain ⟨hafter, hb'⟩ := hread.afterTemplate_eq hb hne
      rw [htokens, ← hafter]
      exact (ih _ hlt _ hb' s' rfl).cons

private theorem tokensFrom_literal (before rest : List Char) :
    GoesOnAt before (tokensFrom before [] ('\x60' :: rest)) (afterTemplate [0] rest) := by
  obtain ⟨t, braces', s', htokens, hread⟩ := tokensFrom_cons before [] '\x60' rest
  obtain ⟨hafter, hb⟩ := hread.of_backtick
  rw [htokens, ← hafter]
  exact (tokensFrom_literals _ hb s').cons

/-- A turn of the loop: what it yields, the offset where it goes on, and the braces open there. -/
structure Turn where
  image : Image
  next : Nat
  braces : List Brace

/-- The turns of the loop from an offset on. -/
def turnsFrom (options : LoweringOptions) (scope : Scope) (arrows : List ArrowScope)
    (text : List Char) (braces : List Brace) (i : Nat) : Except BadSlice (List Turn) :=
  match h : byteAt text i with
  | none => .ok []
  | some _ =>
    (resolveStep options scope arrows text braces i h).bind fun a =>
      (turnsFrom options scope arrows text a.braces a.next).map (⟨a.image, a.next, a.braces⟩ :: ·)
termination_by byteLength text - i
decreasing_by
  have := lt_of_byteAt h
  have := a.progress
  omega

section
variable {options : LoweringOptions} {scope : Scope} {arrows : List ArrowScope}
variable {text : List Char} {i : Nat}

private theorem turnsFrom_none (h : byteAt text i = none) :
    turnsFrom options scope arrows text braces i = .ok [] := by
  rw [turnsFrom]
  exact byByte_none h _ _

private theorem turnsFrom_some {b : Char} (h : byteAt text i = some b) :
    turnsFrom options scope arrows text braces i =
      (resolveStep options scope arrows text braces i h).bind fun a =>
        (turnsFrom options scope arrows text a.braces a.next).map
          (⟨a.image, a.next, a.braces⟩ :: ·) := by
  rw [turnsFrom]
  exact byByte_some h _ _

private theorem imagesFrom_eq_map (braces : List Brace) (i : Nat) :
    imagesFrom options scope arrows text braces i =
      (turnsFrom options scope arrows text braces i).map (List.map Turn.image) := by
  cases hb : byteAt text i with
  | none =>
    rw [imagesFrom_none _ _ _ hb, turnsFrom_none hb]
    rfl
  | some b =>
    rw [imagesFrom_some _ _ _ hb, turnsFrom_some hb]
    cases resolveStep options scope arrows text braces i hb with
    | error e => rfl
    | ok a =>
      have := lt_of_byteAt hb
      have := a.progress
      change (imagesFrom options scope arrows text a.braces a.next).map _ =
        ((turnsFrom options scope arrows text a.braces a.next).map _).map _
      rw [imagesFrom_eq_map a.braces a.next]
      cases turnsFrom options scope arrows text a.braces a.next <;> rfl
termination_by byteLength text - i

private theorem exists_turns {images : List Image}
    (h : imagesFrom options scope arrows text braces i = .ok images) :
    ∃ turns, turnsFrom options scope arrows text braces i = .ok turns ∧
      turns.map Turn.image = images := by
  rw [imagesFrom_eq_map] at h
  obtain ⟨turns, hturns, himages⟩ := except_map_ok.mp h
  exact ⟨turns, hturns, himages.symm⟩

private theorem turnsFrom_ok {b : Char} (h : byteAt text i = some b) {turns : List Turn}
    (hrun : turnsFrom options scope arrows text braces i = .ok turns) :
    ∃ a turns', resolveStep options scope arrows text braces i h = .ok a ∧
      turnsFrom options scope arrows text a.braces a.next = .ok turns' ∧
      turns = ⟨a.image, a.next, a.braces⟩ :: turns' := by
  rw [turnsFrom_some h] at hrun
  obtain ⟨a, hstep, hrest⟩ := except_bind_ok.mp hrun
  obtain ⟨turns', hrun', hturns⟩ := except_map_ok.mp hrest
  exact ⟨a, turns', hstep, hrun', hturns⟩

end

section
variable {options : LoweringOptions} {scope : Scope} {text : List Char} {i next stop : Nat}

private theorem exists_reads {x : Except BadSlice (Advance i)} {y : Option Image} {a : Advance i}
    (hagrees : Agrees text (Leads next braces') x y) (hx : x = .ok a)
    (hnext : StandsAt text next s') (hread : Reads braces s braces' s') :
    ∃ s', StandsAt text a.next s' ∧ Reads braces s a.braces s' := by
  subst hx
  cases hagrees with
  | answer h =>
    obtain ⟨-, rfl, rfl⟩ := h
    exact ⟨s', hnext, hread⟩

private theorem resolveStep_reads {c b : Char} (h : StandsAt text i (c :: rest))
    (hb : byteAt text i = some b) {a : Advance i}
    (hstep : resolveStep options scope (arrowScopesAt text 0 text) text braces i hb = .ok a) :
    ∃ s', StandsAt text a.next s' ∧ Reads braces (c :: rest) a.braces s' := by
  obtain ⟨before, htext, hi⟩ := h.exists_before
  by_cases hquote : isQuote c = true
  · have hascii := asciiOnly_isQuote c hquote
    exact exists_reads (resolveStep_quote options scope _ h hquote hb) hstep
      (standsAt_stringEnd hascii (h.tail_ascii hascii)) (.string hquote)
  by_cases hbacktick : (c == '\x60') = true
  · obtain rfl := beq_iff_eq.mp hbacktick
    exact exists_reads (resolveStep_backtick options scope _ h hb) hstep
      (standsAt_templateEnd (h.tail_ascii rfl)).1 .backtick
  by_cases hopen : (c == '\x7b') = true
  · obtain rfl := beq_iff_eq.mp hopen
    exact exists_reads (resolveStep_open options scope _ htext hi hb) hstep (h.tail_ascii rfl)
      (.opening (openedBrace_ne_hole before))
  by_cases hclose : (c == '\x7d') = true
  · obtain rfl := beq_iff_eq.mp hclose
    by_cases hhole : ∃ outer, braces = .hole :: outer
    · obtain ⟨outer, rfl⟩ := hhole
      exact exists_reads (resolveStep_hole options scope _ h hb) hstep
        (standsAt_templateEnd (h.tail_ascii rfl)).1 .resumed
    · rw [not_exists] at hhole
      exact exists_reads (resolveStep_close options scope _ h hb hhole) hstep (h.tail_ascii rfl)
        (.closing hhole)
  have hordinary := isOrdinary_of_not hquote hbacktick hopen hclose
  have hword (p : Char → Bool) : StandsAt text (i + byteLength (c :: rest.takeWhile p))
      (rest.dropWhile p) := by
    rw [← List.takeWhile_append_dropWhile (p := p) (l := rest), ← List.cons_append] at h
    exact h.append
  rw [resolveStep_word options scope _ h hb hquote hbacktick hopen hclose] at hstep
  by_cases hnumber : startsNumber before c rest = true
  · exact exists_reads (resolveWord_number options scope _ htext hi hb hnumber) hstep
      (hword isNumberPart) (.word (fun _ => isOrdinary_of_numberPart) hordinary _ _)
  rw [resolveWord_character options scope _ htext hi hb hnumber] at hstep
  by_cases hstart : isIdentifierStart c = true
  · exact exists_reads (resolveCharacter_name options scope htext hi hstart) hstep
      (hword isIdentifierPart) (.word (fun _ => isOrdinary_of_identifierPart) hordinary _ _)
  · exact exists_reads (resolveCharacter_symbol options scope _ h (Bool.eq_false_iff.mpr hstart))
      hstep h.tail (.symbol hordinary _ _)

/-- The turns first come back to no open brace at the offset, or they never do, and both the loop
and the offset have come to the end of the text. -/
def ReturnsAt (text : List Char) (turns : List Turn) (stop : Nat) : Prop :=
  (∃ turn, turns.find? (·.braces.isEmpty) = some turn ∧ turn.next = stop) ∨
  (∀ turn ∈ turns, turn.braces ≠ []) ∧
    (∃ last, turns.getLast? = some last ∧ last.next = byteLength text) ∧ stop = byteLength text

private theorem ReturnsAt.cons {turn : Turn} {turns : List Turn} (h : ReturnsAt text turns stop)
    (hne : turn.braces ≠ []) : ReturnsAt text (turn :: turns) stop := by
  rcases h with ⟨t, ht, hstop⟩ | ⟨hopen, ⟨last, hlast, hend⟩, hstop⟩
  · exact .inl ⟨t, by rwa [List.find?_cons_of_neg (by simpa using hne)], hstop⟩
  · have hturns : turns ≠ [] := by
      rintro rfl
      cases hlast
    exact .inr ⟨List.forall_mem_cons.mpr ⟨hne, hopen⟩,
      ⟨last, by rwa [List.getLast?_cons_of_ne_nil hturns], hend⟩, hstop⟩

/-- From a turn on that leads into a literal, or behind it, the loop comes back where the scan over
literals ends. -/
private theorem returnsAt_turn (image : Image) {turns : List Turn} (h : StandsAt text i s)
    (hb : Holed braces)
    (hrun : turnsFrom options scope (arrowScopesAt text 0 text) text braces i = .ok turns)
    (hstop : StandsAt text stop (afterTemplate (holeDepths braces) s)) :
    ReturnsAt text (⟨image, i, braces⟩ :: turns) stop := by
  induction hlength : s.length using Nat.strongRecOn generalizing image braces s i turns with
  | ind n ih =>
    by_cases hne : braces = []
    · subst hne
      rw [holeDepths, afterTemplate] at hstop
      exact .inl ⟨_, List.find?_cons_of_pos rfl, h.offset_eq hstop⟩
    cases s with
    | nil =>
      rw [turnsFrom_none h.byteAt_end] at hrun
      cases hrun
      rw [afterTemplate_nil] at hstop
      exact .inr ⟨List.forall_mem_singleton.mpr hne,
        ⟨_, rfl, h.offset_eq (standsAt_end text)⟩, hstop.offset_eq (standsAt_end text)⟩
    | cons c rest =>
      -- The turn does not move the place where the scan over the open literals ends.
      obtain ⟨b, hbyte⟩ := h.exists_byteAt
      obtain ⟨a, turns', hstep, hrun', rfl⟩ := turnsFrom_ok hbyte hrun
      obtain ⟨s', hs', hread⟩ := resolveStep_reads h hbyte hstep
      have hlt := hread.length_lt
      rw [hlength] at hlt
      obtain ⟨hafter, hb'⟩ := hread.afterTemplate_eq hb hne
      rw [← hafter] at hstop
      exact (ih _ hlt a.image hs' hb' hrun' hstop rfl).cons hne

private theorem returnsAt_literal {turns : List Turn} (h : StandsAt text i ('\x60' :: rest))
    (hrun : turnsFrom options scope (arrowScopesAt text 0 text) text [] i = .ok turns) :
    ReturnsAt text turns (literalEnd text 0 (i + 1)).1 := by
  have hstop := standsAt_literalEnd (h.tail_ascii rfl)
  obtain ⟨a, turns', hstep, hrun', rfl⟩ := turnsFrom_ok (h.byteAt_ascii rfl) hrun
  obtain ⟨s', hs', hread⟩ := resolveStep_reads h (h.byteAt_ascii rfl) hstep
  obtain ⟨hafter, hb⟩ := hread.of_backtick
  rw [← hafter] at hstop
  exact returnsAt_turn a.image hs' hb hrun' hstop

end

/-- The two scanners of template literals agree. From a backtick on and with no brace open, the loop
either first comes back to no open brace exactly where the scan over the literal ends, or it comes
to the end of the text with braces open, and the scan ends there too. The same holds of the scanners
over characters: behind what the one passes over, the other goes on with no brace open. -/
theorem literal_scans_agree (options : LoweringOptions) (scope : Scope) {text : List Char} {i : Nat}
    {images : List Image} (hi : byteAt text i = some '\x60')
    (hrun : imagesFrom options scope (arrowScopesAt text 0 text) text [] i = .ok images) :
    (∃ turns, turnsFrom options scope (arrowScopesAt text 0 text) text [] i = .ok turns ∧
      turns.map Turn.image = images ∧ ReturnsAt text turns (literalEnd text 0 (i + 1)).1) ∧
    ∃ before rest, text = before.reverse ++ '\x60' :: rest ∧ byteLength before.reverse = i ∧
      StandsAt text (literalEnd text 0 (i + 1)).1 (afterTemplate [0] rest) ∧
      GoesOnAt before (tokensFrom before [] ('\x60' :: rest)) (afterTemplate [0] rest) := by
  obtain ⟨rest, h⟩ := standsAt_of_byteAt hi rfl
  obtain ⟨turns, hturns, himages⟩ := exists_turns hrun
  obtain ⟨before, htext, hbefore⟩ := h.exists_before
  exact ⟨⟨turns, hturns, himages, returnsAt_literal h hturns⟩, before, rest, htext, hbefore,
    standsAt_literalEnd (h.tail_ascii rfl), tokensFrom_literal before rest⟩

/-- A literal in whose hole stands an object, with a brace in a string and with a further literal,
and more behind it. -/
def nestedLiteral : List Char :=
  "\x60a$\x7b \x7bb: '\x7d', c: \x60x$\x7b1\x7d\x60\x7d \x7d\x60 + e".toList

theorem nestedLiteral_scans_agree :
    byteAt nestedLiteral 0 = some '\x60' ∧ ∃ images turns turn,
      imagesFrom {} {} (arrowScopesAt nestedLiteral 0 nestedLiteral) nestedLiteral [] 0 =
        .ok images ∧
      turnsFrom {} {} (arrowScopesAt nestedLiteral 0 nestedLiteral) nestedLiteral [] 0 =
        .ok turns ∧
      turns.map Turn.image = images ∧ turns.find? (·.braces.isEmpty) = some turn ∧
      turn.next = 28 := by
  have hi : byteAt nestedLiteral 0 = some '\x60' := by decide +kernel
  have hend : (literalEnd nestedLiteral 0 1).1 = 28 := by decide +kernel
  have hlength : byteLength nestedLiteral = 32 := by decide +kernel
  have hok : (imagesFrom {} {} (arrowScopesAt nestedLiteral 0 nestedLiteral) nestedLiteral []
      0).isOk = true := by decide +kernel
  cases hrun : imagesFrom {} {} (arrowScopesAt nestedLiteral 0 nestedLiteral) nestedLiteral []
    0 with
  | error e =>
    rw [hrun] at hok
    cases hok
  | ok images =>
    obtain ⟨turns, hturns, himages, hreturns⟩ := (literal_scans_agree {} {} hi hrun).1
    rw [hend] at hreturns
    rcases hreturns with ⟨turn, hturn, hnext⟩ | ⟨-, -, hstop⟩
    · exact ⟨hi, images, turns, turn, rfl, hturns, himages, hturn, hnext⟩
    · rw [hlength] at hstop
      cases hstop

end TemplateCompiler.Expression
