import Mathlib.Tactic.SplitIfs
import TemplateCompiler.Expression.Arrow
import TemplateCompiler.Proofs.ByteOffsets

/-! Scanners by byte offset: the ends of strings, of template literals and of arrow bodies, found by
stepping from byte to byte. Behind a backslash they step over two bytes, which may lead into a
character or beyond the text. Each of them still comes to the boundary where the scanner over
characters goes on. -/
namespace TemplateCompiler.Expression

open Text

/-- The end of a string, from an offset behind its opening quote. -/
def stringEnd (text : List Char) (quote : Char) (i : Nat) : Nat :=
  match h : byteAt text i with
  | none => byteLength text
  | some b =>
    if b == '\\' then stringEnd text quote (i + 2)
    else if b == quote then i + 1
    else stringEnd text quote (i + 1)
termination_by byteLength text - i
decreasing_by
  all_goals
    have := lt_of_byteAt h
    omega

section
variable {text s : List Char} {quote b : Char} {i : Nat}

private theorem stringEnd_none (h : byteAt text i = none) :
    stringEnd text quote i = byteLength text := by
  rw [stringEnd]
  exact byByte_none h _ _

private theorem stringEnd_some (h : byteAt text i = some b) : stringEnd text quote i =
    if b == '\\' then stringEnd text quote (i + 2)
    else if b == quote then i + 1
    else stringEnd text quote (i + 1) := by
  rw [stringEnd]
  exact byByte_some h _ _

/-- A string ends behind its start and inside the text. -/
theorem stringEnd_bounds (text : List Char) (quote : Char) (i : Nat) :
    min i (byteLength text) ≤ stringEnd text quote i ∧
      stringEnd text quote i ≤ byteLength text := by
  fun_induction stringEnd text quote i with
  | case1 => omega
  | case2 i b h _ ih => omega
  | case3 i b h _ _ =>
    have := lt_of_byteAt h
    omega
  | case4 i b h _ _ ih => omega

private theorem passes_stringEnd (text : List Char) (hq : quote.utf8Size = 1) :
    Passes text (stringEnd text quote) where
  step i b hb hwide := by
    rw [stringEnd_some hb, (asciiOnly_beq rfl).eq_false hwide, (asciiOnly_beq hq).eq_false hwide]
    rfl
  stop i j hi hj := by rw [stringEnd_none hi, stringEnd_none hj]

/-- The string ends where the rest of the text stands. -/
theorem standsAt_stringEnd (hq : quote.utf8Size = 1) (h : StandsAt text i s) :
    StandsAt text (stringEnd text quote i) (closeQuote quote s).2 := by
  have hpasses := passes_stringEnd text hq
  fun_induction closeQuote quote s generalizing i with
  | case1 =>
    rw [stringEnd_none h.byteAt_end]
    exact standsAt_end text
  | case2 c hc =>
    obtain rfl : c = '\\' := by simpa using hc
    obtain ⟨j, hj, hstands⟩ := hpasses.succ (h.tail_ascii rfl)
    rw [stringEnd_some (h.byteAt_ascii rfl), if_pos hc, hj, stringEnd_none hstands.byteAt_end]
    exact standsAt_end text
  | case3 c hc d rest text' r hr ih =>
    obtain rfl : c = '\\' := by simpa using hc
    obtain ⟨j, hj, hstands⟩ := hpasses.succ (h.tail_ascii rfl)
    rw [hr] at ih
    rw [stringEnd_some (h.byteAt_ascii rfl), if_pos hc, hj]
    exact ih hstands
  | case4 c rest hc hcq =>
    obtain rfl : c = quote := by simpa using hcq
    rw [stringEnd_some (h.byteAt_ascii hq), if_neg hc, if_pos hcq]
    exact h.tail_ascii hq
  | case5 c rest hc hcq text' r hr ih =>
    rw [hr] at ih
    by_cases hascii : c.utf8Size = 1
    · rw [stringEnd_some (h.byteAt_ascii hascii), if_neg hc, if_neg hcq]
      exact ih (h.tail_ascii hascii)
    · rw [hpasses.wide h hascii]
      exact ih h.tail

end

/-- The end of a stretch of template-literal text, and whether a hole opens there. -/
def templateEnd (text : List Char) (i : Nat) : Nat × Bool :=
  match h : byteAt text i with
  | none => (byteLength text, false)
  | some b =>
    if b == '\\' then templateEnd text (i + 2)
    else if b == '\x60' then (i + 1, false)
    else if b == '$' && byteAt text (i + 1) == some '\x7b' then (i + 2, true)
    else templateEnd text (i + 1)
termination_by byteLength text - i
decreasing_by
  all_goals
    have := lt_of_byteAt h
    omega

/-- The offsets from the given one on, or the end of the text if that is nearer. -/
abbrev Onward (text : List Char) (i : Nat) : Type :=
  { j : Nat // min i (byteLength text) ≤ j ∧ j ≤ byteLength text }

/-- The offset, seen from an earlier one. -/
def Onward.widen {text : List Char} {k : Nat} (j : Onward text k) {i : Nat} (hik : i ≤ k) :
    Onward text i :=
  ⟨j.1, by omega⟩

private theorem onward_end (text : List Char) (i : Nat) :
    min i (byteLength text) ≤ byteLength text ∧ byteLength text ≤ byteLength text := by
  omega

private theorem onward_succ {text : List Char} {i : Nat} (h : i < byteLength text) :
    min i (byteLength text) ≤ i + 1 ∧ i + 1 ≤ byteLength text := by
  omega

private theorem le_stringEnd {text : List Char} {i : Nat} (h : i < byteLength text) (quote : Char) :
    i ≤ stringEnd text quote (i + 1) := by
  have := stringEnd_bounds text quote (i + 1)
  omega

private theorem le_of_onward_succ {text : List Char} {i j : Nat} (h : i < byteLength text)
    (hj : min (i + 1) (byteLength text) ≤ j ∧ j ≤ byteLength text) : i ≤ j := by
  omega

/-- The end of a whole template literal, from an offset inside it, where the given number of braces
is open in its hole; zero stands for literal text. The literals in its holes are passed over by the
scanner itself. -/
def literalEnd (text : List Char) (depth i : Nat) : Onward text i :=
  match h : byteAt text i with
  | none => ⟨byteLength text, onward_end text i⟩
  | some b =>
    have hi := lt_of_byteAt h
    match depth with
    | 0 =>
      if b == '\\' then (literalEnd text 0 (i + 2)).widen (Nat.le_add_right i 2)
      else if b == '\x60' then ⟨i + 1, onward_succ hi⟩
      else if b == '$' && byteAt text (i + 1) == some '\x7b' then
        (literalEnd text 1 (i + 2)).widen (Nat.le_add_right i 2)
      else (literalEnd text 0 (i + 1)).widen (Nat.le_succ i)
    | d + 1 =>
      if isQuote b then
        have := stringEnd_bounds text b (i + 1)
        (literalEnd text (d + 1) (stringEnd text b (i + 1))).widen (le_stringEnd hi b)
      else if b == '\x60' then
        match literalEnd text 0 (i + 1) with
        | ⟨inner, hinner⟩ => (literalEnd text (d + 1) inner).widen (le_of_onward_succ hi hinner)
      else if b == '\x7b' then (literalEnd text (d + 2) (i + 1)).widen (Nat.le_succ i)
      else if b == '\x7d' then (literalEnd text d (i + 1)).widen (Nat.le_succ i)
      else (literalEnd text (d + 1) (i + 1)).widen (Nat.le_succ i)
termination_by byteLength text - i

section
variable {text s : List Char} {b : Char} {i : Nat}

private theorem templateEnd_none (h : byteAt text i = none) :
    templateEnd text i = (byteLength text, false) := by
  rw [templateEnd]
  exact byByte_none h _ _

private theorem templateEnd_some (h : byteAt text i = some b) : templateEnd text i =
    if b == '\\' then templateEnd text (i + 2)
    else if b == '\x60' then (i + 1, false)
    else if b == '$' && byteAt text (i + 1) == some '\x7b' then (i + 2, true)
    else templateEnd text (i + 1) := by
  rw [templateEnd]
  exact byByte_some h _ _

/-- The end of a template literal is not before its start, and it is within the text. -/
theorem templateEnd_bounds (text : List Char) (i : Nat) :
    min i (byteLength text) ≤ (templateEnd text i).1 ∧
      (templateEnd text i).1 ≤ byteLength text := by
  fun_induction templateEnd text i with
  | case1 => omega
  | case2 i b h _ ih => omega
  | case3 i b h =>
    have := lt_of_byteAt h
    omega
  | case4 i b h _ _ hhole =>
    have := lt_of_byteAt (beq_iff_eq.mp (Bool.and_eq_true_iff.mp hhole).2)
    omega
  | case5 i b h _ _ _ ih => omega

private theorem literalEnd_none (h : byteAt text i = none) (depth : Nat) :
    (literalEnd text depth i).1 = byteLength text := by
  rw [literalEnd]
  exact congrArg Subtype.val (byByte_none h _ _)

private theorem literalEnd_text (h : byteAt text i = some b) : (literalEnd text 0 i).1 =
    if b == '\\' then (literalEnd text 0 (i + 2)).1
    else if b == '\x60' then i + 1
    else if b == '$' && byteAt text (i + 1) == some '\x7b' then (literalEnd text 1 (i + 2)).1
    else (literalEnd text 0 (i + 1)).1 := by
  rw [literalEnd]
  refine (congrArg Subtype.val (byByte_some h _ _)).trans ?_
  dsimp only
  split_ifs <;> rfl

private theorem literalEnd_hole (h : byteAt text i = some b) (d : Nat) :
    (literalEnd text (d + 1) i).1 =
    if isQuote b then (literalEnd text (d + 1) (stringEnd text b (i + 1))).1
    else if b == '\x60' then (literalEnd text (d + 1) (literalEnd text 0 (i + 1)).1).1
    else if b == '\x7b' then (literalEnd text (d + 2) (i + 1)).1
    else if b == '\x7d' then (literalEnd text d (i + 1)).1
    else (literalEnd text (d + 1) (i + 1)).1 := by
  rw [literalEnd]
  refine (congrArg Subtype.val (byByte_some h _ _)).trans ?_
  dsimp only
  split_ifs <;> rfl

theorem asciiOnly_isQuote : AsciiOnly isQuote := (asciiOnly_beq rfl).or (asciiOnly_beq rfl)

private theorem passes_templateEnd (text : List Char) : Passes text (templateEnd text) where
  step i b hb hwide := by
    rw [templateEnd_some hb, (asciiOnly_beq rfl).eq_false hwide,
      (asciiOnly_beq rfl).eq_false hwide, (asciiOnly_beq rfl).eq_false hwide]
    rfl
  stop i j hi hj := by rw [templateEnd_none hi, templateEnd_none hj]

theorem passes_literalEnd (text : List Char) (depth : Nat) :
    Passes text fun i => (literalEnd text depth i).1 where
  step i b hb hwide := by
    cases depth with
    | zero =>
      rw [literalEnd_text hb, (asciiOnly_beq rfl).eq_false hwide,
        (asciiOnly_beq rfl).eq_false hwide, (asciiOnly_beq rfl).eq_false hwide]
      rfl
    | succ d =>
      rw [literalEnd_hole hb, asciiOnly_isQuote.eq_false hwide, (asciiOnly_beq rfl).eq_false hwide,
        (asciiOnly_beq rfl).eq_false hwide, (asciiOnly_beq rfl).eq_false hwide]
      rfl
  stop i j hi hj := by rw [literalEnd_none hi, literalEnd_none hj]

/-- A stretch of literal text ends where the rest of the text stands, and opens a hole where the
scanner over characters finds one. -/
theorem standsAt_templateEnd (h : StandsAt text i s) :
    StandsAt text (templateEnd text i).1 (templateText s).rest ∧
      (templateEnd text i).2 = (templateText s).opensHole := by
  have hpasses := passes_templateEnd text
  fun_induction templateText s generalizing i with
  | case1 =>
    rw [templateEnd_none h.byteAt_end]
    exact ⟨standsAt_end text, rfl⟩
  | case2 c hc =>
    obtain rfl : c = '\\' := by simpa using hc
    obtain ⟨j, hj, hstands⟩ := hpasses.succ (h.tail_ascii rfl)
    rw [templateEnd_some (h.byteAt_ascii rfl), if_pos hc, hj, templateEnd_none hstands.byteAt_end]
    exact ⟨standsAt_end text, rfl⟩
  | case3 c hc d rest =>
    rename_i ih
    obtain rfl : c = '\\' := by simpa using hc
    obtain ⟨j, hj, hstands⟩ := hpasses.succ (h.tail_ascii rfl)
    rw [templateEnd_some (h.byteAt_ascii rfl), if_pos hc, hj]
    exact ih hstands
  | case4 c rest hc hq =>
    obtain rfl : c = '\x60' := by simpa using hq
    rw [templateEnd_some (h.byteAt_ascii rfl), if_neg hc, if_pos hq]
    exact ⟨h.tail_ascii rfl, rfl⟩
  | case5 c rest hc hq hd =>
    rw [Bool.and_eq_true, beq_iff_eq] at hd
    obtain ⟨rfl, hbrace⟩ := hd
    have hnext := h.tail_ascii rfl
    rw [templateEnd_some (h.byteAt_ascii rfl), if_neg hc, if_neg hq,
      hnext.beq_byteAt rfl, hbrace, if_pos (by decide)]
    obtain ⟨r, rfl⟩ := List.head?_eq_some_iff.mp (beq_iff_eq.mp hbrace)
    exact ⟨hnext.tail_ascii rfl, rfl⟩
  | case6 c rest hc hq hd =>
    rename_i ih
    by_cases hascii : c.utf8Size = 1
    · have hnext := h.tail_ascii hascii
      rw [templateEnd_some (h.byteAt_ascii hascii), if_neg hc, if_neg hq, hnext.beq_byteAt rfl,
        if_neg hd]
      exact ih hnext
    · rw [hpasses.wide h hascii]
      exact ih h.tail

/-- The end of several literals, each one standing in a hole of the next. -/
def literalsEnd (text : List Char) (literals : List Nat) (i : Nat) : Nat :=
  literals.foldl (fun j depth => (literalEnd text depth j).1) i

private theorem literalsEnd_cons (text : List Char) (depth : Nat) (outer : List Nat) (i : Nat) :
    literalsEnd text (depth :: outer) i = literalsEnd text outer (literalEnd text depth i).1 := rfl

private theorem literalsEnd_end (text : List Char) (literals : List Nat) :
    literalsEnd text literals (byteLength text) = byteLength text := by
  induction literals with
  | nil => rfl
  | cons depth outer ih => rw [literalsEnd_cons, literalEnd_none (standsAt_end text).byteAt_end, ih]

private theorem standsAt_literalsEnd (literals : List Nat) (h : StandsAt text i s) :
    StandsAt text (literalsEnd text literals i) (afterTemplate literals s) := by
  fun_induction afterTemplate literals s generalizing i with
  | case1 s => exact h
  | case2 literals hne =>
    have hi := h.offset_add
    rw [byteLength_nil, Nat.add_zero] at hi
    rw [hi, literalsEnd_end]
    exact standsAt_end text
  | case3 outer c rest hc ih =>
    obtain rfl : c = '\\' := by simpa using hc
    obtain ⟨j, hj, hstands⟩ := (passes_literalEnd text 0).succ (h.tail_ascii rfl)
    rw [literalsEnd_cons, literalEnd_text (h.byteAt_ascii rfl), if_pos hc, hj]
    exact ih hstands
  | case4 outer c rest hc hq ih =>
    obtain rfl : c = '\x60' := by simpa using hq
    rw [literalsEnd_cons, literalEnd_text (h.byteAt_ascii rfl), if_neg hc, if_pos hq]
    exact ih (h.tail_ascii rfl)
  | case5 outer c rest hc hq hd ih =>
    rw [Bool.and_eq_true, beq_iff_eq] at hd
    obtain ⟨rfl, hbrace⟩ := hd
    have hnext := h.tail_ascii rfl
    rw [literalsEnd_cons, literalEnd_text (h.byteAt_ascii rfl), if_neg hc, if_neg hq,
      hnext.beq_byteAt rfl, hbrace, if_pos (by decide)]
    obtain ⟨r, rfl⟩ := List.head?_eq_some_iff.mp (beq_iff_eq.mp hbrace)
    exact ih (hnext.tail_ascii rfl)
  | case6 outer c rest hc hq hd ih =>
    rw [literalsEnd_cons]
    by_cases hascii : c.utf8Size = 1
    · have hnext := h.tail_ascii hascii
      rw [literalEnd_text (h.byteAt_ascii hascii), if_neg hc, if_neg hq, hnext.beq_byteAt rfl,
        if_neg hd]
      exact ih hnext
    · rw [(passes_literalEnd text 0).wide h hascii]
      exact ih h.tail
  | case7 d outer c rest hc _ ih =>
    have hascii := asciiOnly_isQuote c hc
    rw [literalsEnd_cons, literalEnd_hole (h.byteAt_ascii hascii), if_pos hc]
    exact ih (standsAt_stringEnd hascii (h.tail_ascii hascii))
  | case8 d outer c rest hc hq ih =>
    obtain rfl : c = '\x60' := by simpa using hq
    rw [literalsEnd_cons, literalEnd_hole (h.byteAt_ascii rfl), if_neg hc, if_pos hq]
    exact ih (h.tail_ascii rfl)
  | case9 d outer c rest hc hq hb ih =>
    obtain rfl : c = '\x7b' := by simpa using hb
    rw [literalsEnd_cons, literalEnd_hole (h.byteAt_ascii rfl), if_neg hc, if_neg hq, if_pos hb]
    exact ih (h.tail_ascii rfl)
  | case10 d outer c rest hc hq hb hb' ih =>
    obtain rfl : c = '\x7d' := by simpa using hb'
    rw [literalsEnd_cons, literalEnd_hole (h.byteAt_ascii rfl), if_neg hc, if_neg hq, if_neg hb,
      if_pos hb']
    exact ih (h.tail_ascii rfl)
  | case11 d outer c rest hc hq hb hb' ih =>
    rw [literalsEnd_cons]
    by_cases hascii : c.utf8Size = 1
    · rw [literalEnd_hole (h.byteAt_ascii hascii), if_neg hc, if_neg hq, if_neg hb, if_neg hb']
      exact ih (h.tail_ascii hascii)
    · rw [(passes_literalEnd text (d + 1)).wide h hascii]
      exact ih h.tail

/-- A template literal ends where the rest of the text stands. -/
theorem standsAt_literalEnd (h : StandsAt text i s) :
    StandsAt text (literalEnd text 0 i).1 (afterTemplate [0] s) :=
  standsAt_literalsEnd [0] h

end

/-- The first byte from the offset on that is no blank. -/
def nextSignificant (text : List Char) (i : Nat) : Option Nat :=
  match h : byteAt text i with
  | none => none
  | some b => if isAsciiBlank b then nextSignificant text (i + 1) else some i
termination_by byteLength text - i
decreasing_by
  have := lt_of_byteAt h
  omega

/-- The end of an arrow body, from an offset inside it, where the given number of groups is open. -/
def bodyEndFrom (text : List Char) (isBlock : Bool) (depth i : Nat) : Nat :=
  match h : byteAt text i with
  | none => byteLength text
  | some b =>
    have hi := lt_of_byteAt h
    if isQuote b then
      have := stringEnd_bounds text b (i + 1)
      bodyEndFrom text isBlock depth (stringEnd text b (i + 1))
    else if b == '\x60' then
      have := (literalEnd text 0 (i + 1)).2
      bodyEndFrom text isBlock depth (literalEnd text 0 (i + 1)).1
    else if isOpening b then bodyEndFrom text isBlock (depth + 1) (i + 1)
    else if isClosing b then
      if depth == 0 then i
      else if isBlock && depth - 1 == 0 then i + 1
      else bodyEndFrom text isBlock (depth - 1) (i + 1)
    else if depth == 0 && (b == ',' || b == ';') then i
    else bodyEndFrom text isBlock depth (i + 1)
termination_by byteLength text - i

/-- The end of the arrow body that starts at the offset. -/
def arrowBodyEnd (text : List Char) (start : Nat) : Nat :=
  let i := (nextSignificant text start).getD (byteLength text)
  bodyEndFrom text (byteAt text i == some '\x7b') 0 i

section
variable {text s : List Char} {b : Char} {i : Nat}

private theorem nextSignificant_none (h : byteAt text i = none) :
    nextSignificant text i = none := by
  rw [nextSignificant]
  exact byByte_none h _ _

private theorem nextSignificant_some (h : byteAt text i = some b) : nextSignificant text i =
    if isAsciiBlank b then nextSignificant text (i + 1) else some i := by
  rw [nextSignificant]
  exact byByte_some h _ _

private theorem bodyEndFrom_none (h : byteAt text i = none) (isBlock : Bool) (depth : Nat) :
    bodyEndFrom text isBlock depth i = byteLength text := by
  rw [bodyEndFrom]
  exact byByte_none h _ _

private theorem bodyEndFrom_some (h : byteAt text i = some b) (isBlock : Bool) (depth : Nat) :
    bodyEndFrom text isBlock depth i =
      if isQuote b then bodyEndFrom text isBlock depth (stringEnd text b (i + 1))
      else if b == '\x60' then bodyEndFrom text isBlock depth (literalEnd text 0 (i + 1)).1
      else if isOpening b then bodyEndFrom text isBlock (depth + 1) (i + 1)
      else if isClosing b then
        if depth == 0 then i
        else if isBlock && depth - 1 == 0 then i + 1
        else bodyEndFrom text isBlock (depth - 1) (i + 1)
      else if depth == 0 && (b == ',' || b == ';') then i
      else bodyEndFrom text isBlock depth (i + 1) := by
  rw [bodyEndFrom]
  exact byByte_some h _ _

private theorem asciiOnly_isOpening : AsciiOnly isOpening :=
  ((asciiOnly_beq rfl).or (asciiOnly_beq rfl)).or (asciiOnly_beq rfl)

private theorem asciiOnly_isClosing : AsciiOnly isClosing :=
  ((asciiOnly_beq rfl).or (asciiOnly_beq rfl)).or (asciiOnly_beq rfl)

theorem asciiOnly_isAsciiBlank : AsciiOnly isAsciiBlank :=
  ((((asciiOnly_beq rfl).or (asciiOnly_beq rfl)).or (asciiOnly_beq rfl)).or
    (asciiOnly_beq rfl)).or (asciiOnly_beq rfl)

private theorem passes_bodyEndFrom (text : List Char) (isBlock : Bool) (depth : Nat) :
    Passes text (bodyEndFrom text isBlock depth) where
  step i b hb hwide := by
    rw [bodyEndFrom_some hb, asciiOnly_isQuote.eq_false hwide, (asciiOnly_beq rfl).eq_false hwide,
      asciiOnly_isOpening.eq_false hwide, asciiOnly_isClosing.eq_false hwide,
      (asciiOnly_beq rfl).eq_false hwide, (asciiOnly_beq rfl).eq_false hwide, Bool.or_false,
      Bool.and_false]
    rfl
  stop i j hi hj := by rw [bodyEndFrom_none hi, bodyEndFrom_none hj]

/-- Behind the blanks at an offset stands the text without them. -/
theorem standsAt_nextSignificant (h : StandsAt text i s) :
    StandsAt text ((nextSignificant text i).getD (byteLength text)) (s.dropWhile isAsciiBlank) := by
  induction s generalizing i with
  | nil =>
    rw [nextSignificant_none h.byteAt_end]
    exact standsAt_end text
  | cons c s ih =>
    rw [List.dropWhile_cons]
    split
    · rename_i hc
      have hascii := asciiOnly_isAsciiBlank c hc
      rw [nextSignificant_some (h.byteAt_ascii hascii), if_pos hc]
      exact ih (h.tail_ascii hascii)
    · rename_i hc
      obtain ⟨b, hb⟩ := h.exists_byteAt
      have hblank := h.any_byteAt asciiOnly_isAsciiBlank
      rw [hb, List.head?_cons, Option.any_some, Option.any_some] at hblank
      rw [nextSignificant_some hb, hblank, if_neg hc]
      exact h

private theorem standsAt_bodyEndFrom (isBlock : Bool) (depth : Nat) (h : StandsAt text i s) :
    StandsAt text (bodyEndFrom text isBlock depth i) (afterBodyFrom isBlock depth s) := by
  fun_induction afterBodyFrom isBlock depth s generalizing i with
  | case1 depth =>
    rw [bodyEndFrom_none h.byteAt_end]
    exact standsAt_end text
  | case2 depth c rest hc _ ih =>
    have hascii := asciiOnly_isQuote c hc
    rw [bodyEndFrom_some (h.byteAt_ascii hascii), if_pos hc]
    exact ih (standsAt_stringEnd hascii (h.tail_ascii hascii))
  | case3 depth c rest hc hq _ ih =>
    obtain rfl : c = '\x60' := by simpa using hq
    rw [bodyEndFrom_some (h.byteAt_ascii rfl), if_neg hc, if_pos hq]
    exact ih (standsAt_literalEnd (h.tail_ascii rfl))
  | case4 depth c rest hc hq hopen ih =>
    have hascii := asciiOnly_isOpening c hopen
    rw [bodyEndFrom_some (h.byteAt_ascii hascii), if_neg hc, if_neg hq, if_pos hopen]
    exact ih (h.tail_ascii hascii)
  | case5 c rest hc hq hopen hclose =>
    have hascii := asciiOnly_isClosing c hclose
    rw [bodyEndFrom_some (h.byteAt_ascii hascii), if_neg hc, if_neg hq, if_neg hopen,
      if_pos hclose]
    exact h
  | case6 c rest hc hq hopen hclose d hblock =>
    have hascii := asciiOnly_isClosing c hclose
    rw [bodyEndFrom_some (h.byteAt_ascii hascii), if_neg hc, if_neg hq, if_neg hopen,
      if_pos hclose, if_neg (by simp), Nat.succ_sub_one, if_pos hblock]
    exact h.tail_ascii hascii
  | case7 c rest hc hq hopen hclose d hblock ih =>
    have hascii := asciiOnly_isClosing c hclose
    rw [bodyEndFrom_some (h.byteAt_ascii hascii), if_neg hc, if_neg hq, if_neg hopen,
      if_pos hclose, if_neg (by simp), Nat.succ_sub_one, if_neg hblock]
    exact ih (h.tail_ascii hascii)
  | case8 depth c rest hc hq hopen hclose hsep =>
    have hascii : c.utf8Size = 1 :=
      (asciiOnly_beq (d := ',') rfl).or (asciiOnly_beq (d := ';') rfl) c
        (Bool.and_eq_true_iff.mp hsep).2
    rw [bodyEndFrom_some (h.byteAt_ascii hascii), if_neg hc, if_neg hq, if_neg hopen,
      if_neg hclose, if_pos hsep]
    exact h
  | case9 depth c rest hc hq hopen hclose hsep ih =>
    by_cases hascii : c.utf8Size = 1
    · rw [bodyEndFrom_some (h.byteAt_ascii hascii), if_neg hc, if_neg hq, if_neg hopen,
        if_neg hclose, if_neg hsep]
      exact ih (h.tail_ascii hascii)
    · rw [(passes_bodyEndFrom text isBlock depth).wide h hascii]
      exact ih h.tail

/-- An arrow body ends where the rest of the text stands. -/
theorem standsAt_arrowBodyEnd (h : StandsAt text i s) :
    StandsAt text (arrowBodyEnd text i) (afterBody s) := by
  have hbody := standsAt_nextSignificant h
  rw [arrowBodyEnd, afterBody, hbody.beq_byteAt rfl]
  exact standsAt_bodyEndFrom _ 0 hbody

end

theorem closeQuote_suffix (quote : Char) (s : List Char) : (closeQuote quote s).2 <:+ s :=
  ⟨_, closeQuote_append quote s⟩

theorem afterTemplate_suffix (literals : List Nat) (s : List Char) :
    afterTemplate literals s <:+ s := by
  fun_induction afterTemplate literals s with
  | case1 s => exact List.suffix_rfl
  | case2 => exact List.suffix_rfl
  | case3 outer c rest _ ih =>
    exact ih.trans ((List.tail_suffix rest).trans (List.suffix_cons c rest))
  | case5 outer c rest _ _ _ ih =>
    exact ih.trans ((List.tail_suffix rest).trans (List.suffix_cons c rest))
  | case7 d outer c rest _ _ ih =>
    exact ih.trans ((closeQuote_suffix c rest).trans (List.suffix_cons c rest))
  | case4 outer c rest _ _ ih => exact ih.trans (List.suffix_cons c rest)
  | case6 outer c rest _ _ _ ih => exact ih.trans (List.suffix_cons c rest)
  | case8 d outer c rest _ _ ih => exact ih.trans (List.suffix_cons c rest)
  | case9 d outer c rest _ _ _ ih => exact ih.trans (List.suffix_cons c rest)
  | case10 d outer c rest _ _ _ _ ih => exact ih.trans (List.suffix_cons c rest)
  | case11 d outer c rest _ _ _ _ ih => exact ih.trans (List.suffix_cons c rest)

private theorem afterBodyFrom_suffix (isBlock : Bool) (depth : Nat) (s : List Char) :
    afterBodyFrom isBlock depth s <:+ s := by
  fun_induction afterBodyFrom isBlock depth s with
  | case1 => exact List.suffix_rfl
  | case2 depth c rest _ _ ih =>
    exact ih.trans ((closeQuote_suffix c rest).trans (List.suffix_cons c rest))
  | case3 depth c rest _ _ _ ih =>
    exact ih.trans ((afterTemplate_suffix [0] rest).trans (List.suffix_cons c rest))
  | case4 depth c rest _ _ _ ih => exact ih.trans (List.suffix_cons c rest)
  | case5 => exact List.suffix_rfl
  | case6 c rest => exact List.suffix_cons c rest
  | case7 c rest _ _ _ _ d _ ih => exact ih.trans (List.suffix_cons c rest)
  | case8 => exact List.suffix_rfl
  | case9 depth c rest _ _ _ _ _ ih => exact ih.trans (List.suffix_cons c rest)

theorem afterBody_suffix (s : List Char) : afterBody s <:+ s :=
  (afterBodyFrom_suffix _ 0 _).trans (List.dropWhile_suffix isAsciiBlank)

end TemplateCompiler.Expression
