import TemplateCompiler.Text.Hex

/-! Lexemes of option files: the punctuation, words, numbers and strings of JSON. A string keeps
its escapes, so that only the strings that are used need to make sense as text. -/
namespace TemplateCompiler.Options

inductive Lexeme where
  | openBrace
  | closeBrace
  | openSquare
  | closeSquare
  | colon
  | comma
  | null
  | bool (value : Bool)
  | number
  /-- A string with its escapes as written, without the quotes. -/
  | text (raw : List Char)
  deriving DecidableEq, Repr

/-- The blanks between lexemes. -/
def isSeparator (c : Char) : Bool := c == ' ' || c == '\t' || c == '\n' || c == '\r'

def isHex (c : Char) : Bool := (Text.hexValue? c).isSome

/-- Splits a string, its opening quote already read, at its closing quote. Escapes have to be
well formed, but may stand for half a surrogate pair; control characters are refused. -/
def closeString? : List Char → Option (List Char × List Char)
  | [] => none
  | '\x22' :: rest => some ([], rest)
  | '\\' :: 'u' :: a :: b :: c :: d :: rest =>
    if isHex a && isHex b && isHex c && isHex d then
      (closeString? rest).map fun (raw, r) => ('\\' :: 'u' :: a :: b :: c :: d :: raw, r)
    else none
  | '\\' :: c :: rest =>
    if ['\x22', '\\', '/', 'b', 'f', 'n', 'r', 't'].contains c then
      (closeString? rest).map fun (raw, r) => ('\\' :: c :: raw, r)
    else none
  | c :: rest =>
    if c == '\\' || c.toNat < 0x20 then none
    else (closeString? rest).map fun (raw, r) => (c :: raw, r)

private theorem length_lt_of_closeString? {s raw r : List Char}
    (h : closeString? s = some (raw, r)) :
    r.length < s.length := by
  fun_induction closeString? s generalizing raw r with
  | case1 => cases h
  | case2 =>
    simp only [Option.some.injEq, Prod.mk.injEq] at h
    simp [← h.2]
  | case3 a b c d rest _ ih =>
    obtain ⟨⟨raw', t⟩, ht, he⟩ := Option.map_eq_some_iff.1 h
    have := ih ht
    simp only [Prod.mk.injEq] at he
    simp only [List.length_cons, ← he.2]
    omega
  | case4 => cases h
  | case5 c rest _ _ ih =>
    obtain ⟨⟨raw', t⟩, ht, he⟩ := Option.map_eq_some_iff.1 h
    have := ih ht
    simp only [Prod.mk.injEq] at he
    simp only [List.length_cons, ← he.2]
    omega
  | case6 => cases h
  | case7 => cases h
  | case8 c rest _ _ _ _ ih =>
    obtain ⟨⟨raw', t⟩, ht, he⟩ := Option.map_eq_some_iff.1 h
    have := ih ht
    simp only [Prod.mk.injEq] at he
    simp only [List.length_cons, ← he.2]
    omega

/-- The rest after at least one digit. -/
def afterDigits? (s : List Char) : Option (List Char) :=
  match s with
  | c :: rest => if c.isDigit then some (rest.dropWhile Char.isDigit) else none
  | [] => none

/-- The rest after an exponent, if one starts here; a broken one is refused. -/
def afterExponent? : List Char → Option (List Char)
  | c :: rest =>
    if c == 'e' || c == 'E' then
      match rest with
      | '+' :: r => afterDigits? r
      | '-' :: r => afterDigits? r
      | r => afterDigits? r
    else some (c :: rest)
  | [] => some []

/-- The rest after a fraction and an exponent, each if it starts here. -/
def afterFraction? : List Char → Option (List Char)
  | '.' :: rest => (afterDigits? rest).bind afterExponent?
  | s => afterExponent? s

/-- The rest after a number without its sign. A leading zero stands alone. -/
def afterNumber? : List Char → Option (List Char)
  | '0' :: rest => afterFraction? rest
  | s => (afterDigits? s).bind afterFraction?

private theorem length_lt_of_afterDigits? {s r : List Char} (h : afterDigits? s = some r) :
    r.length < s.length := by
  unfold afterDigits? at h
  split at h
  · rename_i c rest
    have := (List.dropWhile_sublist Char.isDigit (l := rest)).length_le
    grind
  · cases h

private theorem length_le_of_afterExponent? {s r : List Char} (h : afterExponent? s = some r) :
    r.length ≤ s.length := by
  unfold afterExponent? at h
  split at h
  · split at h
    · split at h <;> have := length_lt_of_afterDigits? h <;> grind
    · grind
  · grind

private theorem length_le_of_afterFraction? {s r : List Char} (h : afterFraction? s = some r) :
    r.length ≤ s.length := by
  unfold afterFraction? at h
  split at h
  · obtain ⟨t, ht, h⟩ := Option.bind_eq_some_iff.1 h
    have h1 := length_lt_of_afterDigits? ht
    have h2 := length_le_of_afterExponent? h
    simp only [List.length_cons]
    omega
  · exact length_le_of_afterExponent? h

private theorem length_lt_of_afterNumber? {s r : List Char} (h : afterNumber? s = some r) :
    r.length < s.length := by
  unfold afterNumber? at h
  split at h
  · have := length_le_of_afterFraction? h
    simp only [List.length_cons]
    omega
  · obtain ⟨t, ht, h⟩ := Option.bind_eq_some_iff.1 h
    have h1 := length_lt_of_afterDigits? ht
    have h2 := length_le_of_afterFraction? h
    omega

/-- The first lexeme of a text that starts with one, and what follows it. -/
def Lexeme.first? : List Char → Option (Lexeme × List Char)
  | '\x7b' :: rest => some (.openBrace, rest)
  | '\x7d' :: rest => some (.closeBrace, rest)
  | '[' :: rest => some (.openSquare, rest)
  | ']' :: rest => some (.closeSquare, rest)
  | ':' :: rest => some (.colon, rest)
  | ',' :: rest => some (.comma, rest)
  | 'n' :: 'u' :: 'l' :: 'l' :: rest => some (.null, rest)
  | 't' :: 'r' :: 'u' :: 'e' :: rest => some (.bool true, rest)
  | 'f' :: 'a' :: 'l' :: 's' :: 'e' :: rest => some (.bool false, rest)
  | '\x22' :: rest => (closeString? rest).map fun (raw, r) => (.text raw, r)
  | '-' :: rest => (afterNumber? rest).map fun r => (.number, r)
  | s => (afterNumber? s).map fun r => (.number, r)

private theorem Lexeme.length_lt_of_first? {s r : List Char} {x : Lexeme}
    (h : Lexeme.first? s = some (x, r)) : r.length < s.length := by
  unfold Lexeme.first? at h
  split at h
  case h_10 rest =>
    obtain ⟨⟨raw, t⟩, ht, he⟩ := Option.map_eq_some_iff.1 h
    have := length_lt_of_closeString? ht
    simp only [Prod.mk.injEq] at he
    simp only [List.length_cons, ← he.2]
    omega
  case h_11 rest =>
    obtain ⟨t, ht, he⟩ := Option.map_eq_some_iff.1 h
    have := length_lt_of_afterNumber? ht
    simp only [Prod.mk.injEq] at he
    simp only [List.length_cons, ← he.2]
    omega
  case h_12 =>
    obtain ⟨t, ht, he⟩ := Option.map_eq_some_iff.1 h
    have := length_lt_of_afterNumber? ht
    simp only [Prod.mk.injEq] at he
    simp only [← he.2]
    omega
  all_goals
    simp only [Option.some.injEq, Prod.mk.injEq] at h
    simp only [List.length_cons, ← h.2]
    omega

/-- The lexemes of a text, if it is made of lexemes and separators. -/
def lexemes? (s : List Char) : Option (List Lexeme) :=
  match hs : s.dropWhile isSeparator with
  | [] => some []
  | c :: cs =>
    match h : Lexeme.first? (c :: cs) with
    | none => none
    | some (x, rest) =>
      have : rest.length < s.length := by
        have h1 := Lexeme.length_lt_of_first? h
        have h2 := (List.dropWhile_sublist isSeparator (l := s)).length_le
        rw [hs] at h2
        omega
      (lexemes? rest).map (x :: ·)
termination_by s.length

def hexQuad (a b c d : Char) : Nat := (Text.hexNumber? [a, b, c, d]).getD 0

def shortEscape (c : Char) : Char :=
  match c with
  | 'b' => '\x08'
  | 'f' => '\x0c'
  | 'n' => '\n'
  | 'r' => '\r'
  | 't' => '\t'
  | _ => c

/-- The text that a string spells; none if an escape stands for half a surrogate pair. -/
def unescape? : List Char → Option (List Char)
  | [] => some []
  | '\\' :: 'u' :: a :: b :: c :: d :: rest =>
    let high := hexQuad a b c d
    if 0xD800 ≤ high && high < 0xDC00 then
      match rest with
      | '\\' :: 'u' :: e :: f :: g :: h :: rest' =>
        let low := hexQuad e f g h
        if 0xDC00 ≤ low && low < 0xE000 then
          (unescape? rest').map
            (Char.ofNat (0x10000 + (high - 0xD800) * 0x400 + (low - 0xDC00)) :: ·)
        else none
      | _ => none
    else if 0xDC00 ≤ high && high < 0xE000 then none
    else (unescape? rest).map (Char.ofNat high :: ·)
  | '\\' :: c :: rest => (unescape? rest).map (shortEscape c :: ·)
  | c :: rest => (unescape? rest).map (c :: ·)

end TemplateCompiler.Options
