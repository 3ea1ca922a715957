import TemplateCompiler.Proofs.ByteArrows
import TemplateCompiler.Proofs.TokenClasses

/-! Resolution by byte offset: a loop over the bytes of an expression that copies tokens by cutting
slices out of the text. A slice that does not lie on boundaries stops it. The loop finds what
`resolve?` finds, and the only slice that can stop it is the one over a point and the two bytes
before it. -/
namespace TemplateCompiler.Expression

open Text

/-- The last byte before the offset that is no blank. -/
def prevSignificant (text : List Char) : Nat → Option Nat
  | 0 => none
  | i + 1 => if (byteAt text i).any isAsciiBlank then prevSignificant text i else some i

/-- The text up to the last byte before the offset that is no blank. -/
def significantUpTo (text : List Char) (i : Nat) : Except BadSlice (List Char) :=
  match prevSignificant text i with
  | none => .ok []
  | some p => slice text 0 (p + 1)

/-- Whether a name at the offset is a member: a point stands before it that is not the last one of a
spread mark. -/
def isMemberAt (text : List Char) (i : Nat) : Except BadSlice Bool :=
  match prevSignificant text i with
  | none => .ok false
  | some p =>
    if byteAt text p != some '.' then .ok false
    else if p < 2 then .ok true
    else (slice text (p - 2) (p + 1)).map fun piece => piece != ['.', '.', '.']

/-- The image of a name at an offset, by the significant bytes before and after it. -/
def nameImage (options : LoweringOptions) (scope : Scope) (arrows : List ArrowScope)
    (name : List Char) (i : Nat) (brace : Option Brace) (isMember : Bool)
    (prev next : Option Char) : Image :=
  let text := String.ofList name
  let atKey := brace == some .object && prev.any fun c => c == '\x7b' || c == ','
  if isMember || ReservedNames.isKeyword text || (atKey && next == some ':') then
    ⟨name, false, false, false⟩
  else if arrows.any fun a => a.covers text i then ⟨name, true, true, false⟩
  else
    match access options scope text with
    | .kept isDynamic => ⟨name, true, isDynamic, false⟩
    | .replaced code usesUnref =>
      let isShorthand := atKey && next.any fun c => c == ',' || c == '\x7d'
      ⟨(if isShorthand then name ++ [':', ' '] else []) ++ code.toList, true, true, usesUnref⟩

/-- What one turn of the loop yields: an image, and an offset further on with the braces that are
open there. -/
structure Advance (i : Nat) where
  image : Image
  next : Nat
  braces : List Brace
  progress : i < next

def copyTo (text : List Char) (i stop : Nat) (braces : List Brace) (h : i < stop) :
    Except BadSlice (Advance i) :=
  (slice text i stop).map fun piece => ⟨{ text := piece }, stop, braces, h⟩

variable {text : List Char} {i : Nat} {b : Char}

theorem lt_stringEnd (h : byteAt text i = some b) (quote : Char) :
    i < stringEnd text quote (i + 1) := by
  have := lt_of_byteAt h
  have := stringEnd_bounds text quote (i + 1)
  omega

theorem lt_templateEnd (h : byteAt text i = some b) : i < (templateEnd text (i + 1)).1 := by
  have := lt_of_byteAt h
  have := templateEnd_bounds text (i + 1)
  omega

private theorem asciiOnly_isAlphanum : AsciiOnly Char.isAlphanum := by
  intro c hc
  change ((decide (c.val ≥ 'A'.val ∧ c.val ≤ 'Z'.val) ||
    (decide (c.val ≥ 'a'.val) && decide (c.val ≤ 'z'.val))) ||
    (decide (c.val ≥ '0'.val) && decide (c.val ≤ '9'.val))) = true at hc
  simp only [Bool.or_eq_true, Bool.and_eq_true, decide_eq_true_eq, UInt32.le_iff_toNat_le] at hc
  have hupper : 'Z'.val.toNat = 90 := rfl
  have hlower : 'z'.val.toNat = 122 := rfl
  have hdigit : '9'.val.toNat = 57 := rfl
  have h127 : (127 : UInt32).toNat = 127 := rfl
  rw [Char.utf8Size_eq_one_iff, UInt32.le_iff_toNat_le]
  omega

theorem asciiOnly_isNumberPart : AsciiOnly isNumberPart :=
  (asciiOnly_isAlphanum.or (asciiOnly_beq rfl)).or (asciiOnly_beq rfl)

theorem lt_numberEnd (h : byteAt text i = some b) (hb : isNumberPart b = true) {rest : List Char}
    (hrest : slice text i (byteLength text) = .ok rest) :
    i < i + byteLength (rest.takeWhile isNumberPart) := by
  have hhead := (standsAt_of_slice_end hrest).head?_of_byteAt h (asciiOnly_isNumberPart b hb)
  obtain ⟨r, rfl⟩ := List.head?_eq_some_iff.mp hhead
  have := b.utf8Size_pos
  rw [List.takeWhile_cons_of_pos hb, byteLength_cons]
  omega

/-- Copies a stretch of template-literal text behind a backtick or the brace that closes a hole. -/
def copyTemplate (text : List Char) (outer : List Brace) (i : Nat) (h : byteAt text i = some b) :
    Except BadSlice (Advance i) :=
  copyTo text i (templateEnd text (i + 1)).1
    (if (templateEnd text (i + 1)).2 then .hole :: outer else outer) (lt_templateEnd h)

def copyNumber (text : List Char) (braces : List Brace) (i : Nat) (h : byteAt text i = some b)
    (hb : isNumberPart b = true) : Except BadSlice (Advance i) :=
  match hrest : slice text i (byteLength text) with
  | .error e => .error e
  | .ok rest =>
    copyTo text i (i + byteLength (rest.takeWhile isNumberPart)) braces (lt_numberEnd h hb hrest)

/-- Takes a name to its image, or copies a single character. -/
def resolveCharacter (options : LoweringOptions) (scope : Scope) (arrows : List ArrowScope)
    (text : List Char) (braces : List Brace) (i : Nat) : Except BadSlice (Advance i) :=
  match slice text i (byteLength text) with
  | .error e => .error e
  | .ok [] => .ok ⟨{ text := [' '] }, i + 1, braces, Nat.lt_succ_self i⟩
  | .ok (c :: rest) =>
    have hpos := c.utf8Size_pos
    if isIdentifierStart c then
      let stop := i + (c.utf8Size + byteLength (rest.takeWhile isIdentifierPart))
      (slice text i stop).bind fun name =>
        (isMemberAt text i).map fun isMember =>
          ⟨nameImage options scope arrows name i braces.head? isMember
            ((prevSignificant text i).bind (byteAt text))
            ((nextSignificant text stop).bind (byteAt text)), stop, braces, by omega⟩
    else .ok ⟨{ text := [c] }, i + c.utf8Size, braces, by omega⟩

theorem isNumberPart_of_isDigit (h : b.isDigit = true) : isNumberPart b = true := by
  simp [isNumberPart, Char.isAlphanum, h]

/-- Copies a number, or a single character, or takes a name to its image. A point starts a number if
a digit follows and no name or number stands before it. -/
def resolveWord (options : LoweringOptions) (scope : Scope) (arrows : List ArrowScope)
    (text : List Char) (braces : List Brace) (i : Nat) (h : byteAt text i = some b) :
    Except BadSlice (Advance i) :=
  if hb : b.isDigit then copyNumber text braces i h (isNumberPart_of_isDigit hb)
  else if hb : b == '.' then
    if (byteAt text (i + 1)).any Char.isDigit then
      (significantUpTo text i).bind fun upTo =>
        if upTo.getLast?.any isIdentifierPart then
          resolveCharacter options scope arrows text braces i
        else copyNumber text braces i h (by rw [beq_iff_eq.mp hb]; decide)
    else resolveCharacter options scope arrows text braces i
  else resolveCharacter options scope arrows text braces i

/-- One turn of the loop, by the byte at the offset. -/
def resolveStep (options : LoweringOptions) (scope : Scope) (arrows : List ArrowScope)
    (text : List Char) (braces : List Brace) (i : Nat) (h : byteAt text i = some b) :
    Except BadSlice (Advance i) :=
  if isQuote b then copyTo text i (stringEnd text b (i + 1)) braces (lt_stringEnd h b)
  else if b == '\x60' then copyTemplate text braces i h
  else if b == '\x7b' then
    (significantUpTo text i).map fun upTo =>
      ⟨{ text := [b] }, i + 1,
        (if ['=', '>'].isSuffixOf upTo then .block else .object) :: braces, Nat.lt_succ_self i⟩
  else if b == '\x7d' then
    match braces with
    | .hole :: outer => copyTemplate text outer i h
    | _ => .ok ⟨{ text := [b] }, i + 1, braces.tail, Nat.lt_succ_self i⟩
  else resolveWord options scope arrows text braces i h

def imagesFrom (options : LoweringOptions) (scope : Scope) (arrows : List ArrowScope)
    (text : List Char) (braces : List Brace) (i : Nat) : Except BadSlice (List Image) :=
  match h : byteAt text i with
  | none => .ok []
  | some _ =>
    (resolveStep options scope arrows text braces i h).bind fun a =>
      (imagesFrom options scope arrows text a.braces a.next).map (a.image :: ·)
termination_by byteLength text - i
decreasing_by
  have := lt_of_byteAt h
  have := a.progress
  omega

/-- Resolves the names of an expression by byte offsets. -/
def resolveBytes (options : LoweringOptions) (scope : Scope) (source : String) :
    Except BadSlice Resolved :=
  let text := source.toList
  (imagesFrom options scope (arrowScopesAt text 0 text) text [] 0).map Resolved.ofImages

section
variable {before s earlier : List Char} {d : Char}

private theorem append_significantBefore (before s : List Char) :
    before.reverse ++ s =
      (significantBefore before).reverse ++ ((before.takeWhile isAsciiBlank).reverse ++ s) := by
  rw [← List.append_assoc, ← List.reverse_append, significantBefore,
    List.takeWhile_append_dropWhile]

private theorem byteLength_reverse_cons (c : Char) (before : List Char) :
    byteLength (c :: before).reverse = byteLength before.reverse + c.utf8Size := by
  rw [List.reverse_cons, byteLength_append, byteLength_cons, byteLength_nil, Nat.add_zero]

private theorem prevSignificant_eq (before s : List Char) :
    prevSignificant (before.reverse ++ s) (byteLength before.reverse) =
      if significantBefore before = [] then none
      else some (byteLength (significantBefore before).reverse - 1) := by
  induction before generalizing s with
  | nil => rfl
  | cons c before ih =>
    have hpos := c.utf8Size_pos
    have hlast := (StandsAt.behind before.reverse (c :: s)).any_lastByte asciiOnly_isAsciiBlank
    have hlength : byteLength (c :: before).reverse =
        byteLength before.reverse + (c.utf8Size - 1) + 1 := by
      rw [byteLength_reverse_cons]
      omega
    rw [hlength, prevSignificant, List.reverse_cons, List.append_assoc, List.singleton_append,
      hlast, significantBefore, List.dropWhile_cons]
    split
    · rename_i hblank
      rw [asciiOnly_isAsciiBlank c hblank]
      exact ih _
    · rw [if_neg (List.cons_ne_nil c before), hlength, Nat.add_sub_cancel]

/-- Cutting a text at a character and dropping the blanks never fails. -/
theorem significantUpTo_eq (before s : List Char) :
    significantUpTo (before.reverse ++ s) (byteLength before.reverse) =
      .ok (significantBefore before).reverse := by
  have hstands : StandsAt (before.reverse ++ s) 0
      ((significantBefore before).reverse ++ ((before.takeWhile isAsciiBlank).reverse ++ s)) := by
    rw [← append_significantBefore]
    exact .whole _
  have hslice := hstands.slice_eq (Nat.zero_add _)
  rw [significantUpTo, prevSignificant_eq]
  cases h : significantBefore before with
  | nil => rfl
  | cons d earlier =>
    have hpos := d.utf8Size_pos
    have hlength : byteLength (d :: earlier).reverse - 1 + 1 =
        byteLength (d :: earlier).reverse := by
      rw [byteLength_reverse_cons]
      omega
    rw [h] at hslice
    rw [if_neg (List.cons_ne_nil d earlier)]
    dsimp only
    rw [hlength, hslice]

private theorem exists_append_significant (h : significantBefore before = d :: earlier)
    (s : List Char) :
    ∃ rest, before.reverse ++ s = earlier.reverse ++ d :: rest := by
  refine ⟨(before.takeWhile isAsciiBlank).reverse ++ s, ?_⟩
  rw [append_significantBefore, h, List.reverse_cons, List.append_assoc, List.singleton_append]

/-- What a test says of the significant byte before a place, it says of the significant
character. -/
theorem any_prevByte {p : Char → Bool} (hp : AsciiOnly p) (before s : List Char) :
    ((prevSignificant (before.reverse ++ s) (byteLength before.reverse)).bind
      (byteAt (before.reverse ++ s))).any p = (significantBefore before).head?.any p := by
  rw [prevSignificant_eq]
  cases h : significantBefore before with
  | nil => rfl
  | cons d earlier =>
    obtain ⟨rest, htext⟩ := exists_append_significant h s
    rw [if_neg (List.cons_ne_nil d earlier), Option.bind_some, byteLength_reverse_cons,
      Nat.add_sub_assoc d.utf8Size_pos, htext, (StandsAt.behind _ _).any_lastByte hp,
      List.head?_cons, Option.any_some]

/-- The significant byte behind a place is the first one of the significant text behind it. -/
theorem any_nextByte {p : Char → Bool} (hp : AsciiOnly p) (h : StandsAt text i s) :
    ((nextSignificant text i).bind (byteAt text)).any p =
      (s.dropWhile isAsciiBlank).head?.any p := by
  rw [← (standsAt_nextSignificant h).any_byteAt hp]
  cases nextSignificant text i with
  | none => rw [Option.bind_none, Option.getD_none, (standsAt_end text).byteAt_end]
  | some j => rw [Option.bind_some, Option.getD_some]

end

/-- A run by byte offsets and one over characters agree: both yield results so related, or the one
stops at the slice over a point and the two bytes before it, which start inside a character, and the
other has no answer. -/
inductive Agrees (text : List Char) {α β : Type} (R : α → β → Prop) :
    Except BadSlice α → Option β → Prop
  | answer {a : α} {b : β} (h : R a b) : Agrees text R (.ok a) (some b)
  | stopped {point : Nat} (htwo : 2 ≤ point) (hpoint : byteAt text point = some '.')
      (hsplit : ¬IsBoundary text (point - 2)) :
      Agrees text R (.error ⟨point - 2, point + 1⟩) none

/-- Steps that agree may be run one after the other. -/
theorem Agrees.bind {α β γ δ : Type} {R : α → β → Prop} {S : γ → δ → Prop}
    {x : Except BadSlice α} {y : Option β} {f : α → Except BadSlice γ} {g : β → Option δ}
    (h : Agrees text R x y) (hfg : ∀ a b, R a b → Agrees text S (f a) (g b)) :
    Agrees text S (x.bind f) (y.bind g) := by
  cases h with
  | answer hr => exact hfg _ _ hr
  | stopped htwo hpoint hsplit => exact .stopped htwo hpoint hsplit

theorem Agrees.map {α β γ δ : Type} {R : α → β → Prop} {S : γ → δ → Prop}
    {x : Except BadSlice α} {y : Option β} {f : α → γ} {g : β → δ}
    (h : Agrees text R x y) (hfg : ∀ a b, R a b → S (f a) (g b)) :
    Agrees text S (x.map f) (y.map g) := by
  cases h with
  | answer hr => exact .answer (hfg _ _ hr)
  | stopped htwo hpoint hsplit => exact .stopped htwo hpoint hsplit

section
variable {before s earlier rest : List Char} {c : Char}

private theorem splitsCharacter_one (hc : c.utf8Size = 1) (earlier : List Char) :
    splitsCharacter (c :: earlier) = earlier.head?.any fun d => d.utf8Size != 1 := by
  rw [splitsCharacter, hc]
  rfl

private theorem splitsCharacter_wide (hc : c.utf8Size ≠ 1) (earlier : List Char) :
    splitsCharacter (c :: earlier) = (c.utf8Size != 2) := by
  rw [splitsCharacter, if_neg (by simpa using hc)]

private theorem splitsCharacter_short (h : byteLength earlier.reverse < 2) :
    splitsCharacter earlier = false ∧ ['.', '.'].isPrefixOf earlier = false := by
  rcases earlier with _ | ⟨c, _ | ⟨d, earlier⟩⟩
  · exact ⟨rfl, rfl⟩
  · have hpos := c.utf8Size_pos
    rw [byteLength_reverse_cons] at h
    exact ⟨splitsCharacter_one (by omega) [], by simp [List.isPrefixOf]⟩
  · have hpos := c.utf8Size_pos
    have hpos' := d.utf8Size_pos
    rw [byteLength_reverse_cons, byteLength_reverse_cons] at h
    omega

private theorem not_isBoundary_of_splits (h : splitsCharacter earlier = true) (rest : List Char) :
    2 ≤ byteLength earlier.reverse ∧
      ¬IsBoundary (earlier.reverse ++ rest) (byteLength earlier.reverse - 2) := by
  rcases earlier with _ | ⟨c, earlier⟩
  · cases h
  have hpos := c.utf8Size_pos
  rw [byteLength_reverse_cons, List.reverse_cons, List.append_assoc]
  by_cases hc : c.utf8Size = 1
  · rw [splitsCharacter_one hc] at h
    rcases earlier with _ | ⟨d, earlier⟩
    · cases h
    have hd : d.utf8Size ≠ 1 := by simpa using h
    have hpos' := d.utf8Size_pos
    have hstands := StandsAt.behind earlier.reverse (d :: ([c] ++ rest))
    rw [byteLength_reverse_cons, List.reverse_cons, List.append_assoc]
    exact ⟨by omega, hstands.not_isBoundary (by omega) (by omega)⟩
  · rw [splitsCharacter_wide hc] at h
    have htwo : c.utf8Size ≠ 2 := by simpa using h
    have hstands := StandsAt.behind earlier.reverse (c :: rest)
    exact ⟨by omega, hstands.not_isBoundary (by omega) (by omega)⟩

/-- Where they do not, they are a text, and that text with the point is three points exactly behind
two points. -/
private theorem exists_two_bytes (h : splitsCharacter earlier = false)
    (htwo : 2 ≤ byteLength earlier.reverse) : ∃ piece u, earlier = piece.reverse ++ u ∧
      byteLength piece = 2 ∧
      (piece ++ ['.'] = ['.', '.', '.'] ↔ ['.', '.'].isPrefixOf earlier = true) := by
  rcases earlier with _ | ⟨c, earlier⟩
  · simp at htwo
  by_cases hc : c.utf8Size = 1
  · rw [splitsCharacter_one hc] at h
    rcases earlier with _ | ⟨d, earlier⟩
    · rw [byteLength_reverse_cons, hc] at htwo
      simp at htwo
    have hd : d.utf8Size = 1 := by simpa using h
    refine ⟨[d, c], earlier, rfl, by simp [hc, hd], ?_⟩
    simp only [List.cons_append, List.nil_append, List.isPrefixOf, List.cons.injEq,
      Bool.and_eq_true, beq_iff_eq, and_true]
    constructor
    · rintro ⟨rfl, rfl⟩
      exact ⟨rfl, rfl⟩
    · rintro ⟨rfl, rfl⟩
      exact ⟨rfl, rfl⟩
  · rw [splitsCharacter_wide hc] at h
    have hsize : c.utf8Size = 2 := by simpa using h
    refine ⟨[c], earlier, rfl, by simp [hsize], ?_⟩
    have hne : '.' ≠ c := by
      rintro rfl
      exact hc rfl
    simp [List.isPrefixOf, hne]

private theorem pointSlice_agrees (earlier rest : List Char) :
    Agrees (earlier.reverse ++ '.' :: rest) Eq
      (if byteLength earlier.reverse < 2 then .ok true
        else (slice (earlier.reverse ++ '.' :: rest) (byteLength earlier.reverse - 2)
          (byteLength earlier.reverse + 1)).map fun piece => piece != ['.', '.', '.'])
      (if splitsCharacter earlier then none else some (!(['.', '.'].isPrefixOf earlier))) := by
  by_cases hshort : byteLength earlier.reverse < 2
  · obtain ⟨hsplit, hspread⟩ := splitsCharacter_short hshort
    rw [if_pos hshort, hsplit, hspread]
    exact .answer rfl
  · rw [if_neg hshort]
    cases hsplit : splitsCharacter earlier with
    | true =>
      obtain ⟨htwo, hboundary⟩ := not_isBoundary_of_splits hsplit ('.' :: rest)
      rw [slice_eq_error hboundary]
      exact .stopped htwo ((StandsAt.behind _ _).byteAt_ascii rfl) hboundary
    | false =>
      obtain ⟨piece, u, rfl, hlength, hspread⟩ := exists_two_bytes hsplit (by omega)
      rw [List.reverse_append, List.reverse_reverse, byteLength_append, hlength,
        Nat.add_sub_cancel]
      have hstands : StandsAt (u.reverse ++ piece ++ '.' :: rest) (byteLength u.reverse)
          (piece ++ ['.'] ++ rest) := ⟨u.reverse, by simp, rfl⟩
      rw [hstands.slice_eq (by rw [byteLength_append, hlength]; rfl)]
      exact .answer (congrArg not (Bool.eq_iff_iff.mpr (beq_iff_eq.trans hspread)))

/-- Both find out alike whether a name is a member. -/
theorem isMemberAt_agrees (before s : List Char) : Agrees (before.reverse ++ s) Eq
    (isMemberAt (before.reverse ++ s) (byteLength before.reverse)) (isMember? before) := by
  rw [isMemberAt, prevSignificant_eq]
  cases h : significantBefore before with
  | nil =>
    rw [isMember?_unpointed (by rw [h]; rintro ⟨⟩)]
    exact .answer rfl
  | cons d earlier =>
    obtain ⟨rest, htext⟩ := exists_append_significant h s
    have hstands := StandsAt.behind earlier.reverse (d :: rest)
    rw [if_neg (List.cons_ne_nil d earlier), byteLength_reverse_cons,
      Nat.add_sub_assoc d.utf8Size_pos, htext]
    dsimp only
    by_cases hd : d = '.'
    · subst hd
      have hsize : '.'.utf8Size - 1 = 0 := rfl
      rw [isMember?_pointed h, hsize, Nat.add_zero, hstands.byteAt_ascii rfl, if_neg (by simp)]
      exact pointSlice_agrees earlier rest
    · have hbyte := hstands.any_lastByte (asciiOnly_beq (d := '.') rfl)
      rw [isMember?_unpointed (by rw [h]; simpa using hd), if_pos ?_]
      · exact .answer rfl
      · rw [bne_iff_ne]
        intro hpoint
        rw [hpoint] at hbyte
        exact hd (beq_iff_eq.mp hbyte.symm)

end

end TemplateCompiler.Expression
