import TemplateCompiler.Expression.Token
import TemplateCompiler.Text.Word

/-! Arrow functions inside an expression: their parameters and the stretch of text in which
those are visible. -/
namespace TemplateCompiler.Expression

/-- The rest of the text behind a template literal whose opening backtick has been read. The
list holds, for each literal that is open, innermost first, how many braces are open in its
current hole; zero stands for literal text. -/
def afterTemplate (literals : List Nat) (s : List Char) : List Char :=
  match literals, s with
  | [], s => s
  | _, [] => []
  | 0 :: outer, c :: rest =>
    if c == '\\' then afterTemplate (0 :: outer) rest.tail
    else if c == '\x60' then afterTemplate outer rest
    else if c == '$' && rest.head? == some '\x7b' then afterTemplate (1 :: outer) rest.tail
    else afterTemplate (0 :: outer) rest
  | (depth + 1) :: outer, c :: rest =>
    if isQuote c then
      have := length_closeQuote_le c rest
      afterTemplate ((depth + 1) :: outer) (closeQuote c rest).2
    else if c == '\x60' then afterTemplate (0 :: (depth + 1) :: outer) rest
    else if c == '\x7b' then afterTemplate ((depth + 2) :: outer) rest
    else if c == '\x7d' then afterTemplate (depth :: outer) rest
    else afterTemplate ((depth + 1) :: outer) rest
termination_by s.length

def isOpening (c : Char) : Bool := c == '(' || c == '[' || c == '\x7b'

def isClosing (c : Char) : Bool := c == ')' || c == ']' || c == '\x7d'

private theorem length_afterTemplate_le (literals : List Nat) (s : List Char) :
    (afterTemplate literals s).length ≤ s.length := by
  fun_induction afterTemplate literals s <;> simp_all <;> omega

/-- The rest of the text behind an arrow body with `depth` groups open. A block body ends with
its outermost group, any other before a comma or semicolon of its own or a bracket that closes a
group around it. -/
def afterBodyFrom (isBlock : Bool) (depth : Nat) (s : List Char) : List Char :=
  match s with
  | [] => []
  | c :: rest =>
    if isQuote c then
      have := length_closeQuote_le c rest
      afterBodyFrom isBlock depth (closeQuote c rest).2
    else if c == '\x60' then
      have := length_afterTemplate_le [0] rest
      afterBodyFrom isBlock depth (afterTemplate [0] rest)
    else if isOpening c then afterBodyFrom isBlock (depth + 1) rest
    else if isClosing c then
      match depth with
      | 0 => c :: rest
      | d + 1 => if isBlock && d == 0 then rest else afterBodyFrom isBlock d rest
    else if depth == 0 && (c == ',' || c == ';') then c :: rest
    else afterBodyFrom isBlock depth rest
termination_by s.length

/-- The rest of the text behind the arrow body that starts here. -/
def afterBody (s : List Char) : List Char :=
  let body := s.dropWhile Text.isAsciiBlank
  afterBodyFrom (body.head? == some '\x7b') 0 body

/-- Drops every spread mark at the start. -/
def dropSpreads : List Char → List Char
  | '.' :: '.' :: '.' :: rest => dropSpreads rest
  | s => s

/-- The characters dropped around a parameter: blanks and the brackets of a pattern. -/
def isPatternEdge (c : Char) : Bool :=
  Text.isBlank c || c == '\x7b' || c == '\x7d' || c == '[' || c == ']'

/-- The name that one parameter declares: `a`, `a = 1`, `...rest`, or one name of a pattern,
which may be renamed. -/
def paramName? (param : List Char) : Option String :=
  let target := param.takeWhile (· != '=')
  let name := (target.reverse.takeWhile (· != ':')).reverse
  let inner := ((name.dropWhile isPatternEdge).reverse.dropWhile isPatternEdge).reverse
  let bare := dropSpreads inner
  if Text.isIdentifierText bare then some (String.ofList bare) else none

/-- The rest behind an arrow, blanks before it allowed. -/
def afterArrow? (s : List Char) : Option (List Char) :=
  match s.dropWhile Text.isBlank with
  | '=' :: '>' :: rest => some rest
  | _ => none

/-- The parameters of the arrow function whose head starts exactly here, and the text behind its
arrow. A head is a list in round brackets without further round brackets, or one name. -/
def arrowHead? : List Char → Option (List String × List Char)
  | [] => none
  | '(' :: rest =>
    match rest.dropWhile fun c => c != '(' && c != ')' with
    | ')' :: rest' =>
      let params := rest.takeWhile fun c => c != '(' && c != ')'
      (afterArrow? rest').map fun r => ((params.splitOn ',').filterMap paramName?, r)
    | _ => none
  | c :: rest =>
    if c.isAlpha || c == '_' || c == '$' then
      (afterArrow? (rest.dropWhile Text.isNameChar)).map fun r =>
        ([String.ofList (c :: rest.takeWhile Text.isNameChar)], r)
    else none

/-- The parameters of one arrow function and the stretch in which they are visible, from the
head up to the end of the body, counted in characters from the start of the expression. -/
structure ArrowScope where
  params : List String
  start : Nat
  stop : Nat
  deriving DecidableEq, Repr

/-- Whether the name, standing at the place, means a parameter. -/
def ArrowScope.covers (a : ArrowScope) (name : String) (place : Nat) : Bool :=
  a.start ≤ place && place < a.stop && a.params.contains name

private theorem length_lt_of_afterArrow? {s r : List Char} (h : afterArrow? s = some r) :
    r.length < s.length := by
  unfold afterArrow? at h
  split at h
  · rename_i rest hs
    have := (s.dropWhile_sublist Text.isBlank).length_le
    rw [hs] at this
    simp only [Option.some.injEq] at h
    subst h
    simp only [List.length_cons] at this
    omega
  · cases h

theorem length_lt_of_arrowHead? {s r : List Char} {params : List String}
    (h : arrowHead? s = some (params, r)) : r.length < s.length := by
  unfold arrowHead? at h
  split at h
  · cases h
  · rename_i rest
    split at h
    · rename_i rest' hr
      obtain ⟨t, ht, he⟩ := Option.map_eq_some_iff.1 h
      have h1 := length_lt_of_afterArrow? ht
      have h2 := (rest.dropWhile_sublist fun c => c != '(' && c != ')').length_le
      rw [hr] at h2
      simp only [Prod.mk.injEq] at he
      simp only [List.length_cons] at h2 ⊢
      rw [← he.2]
      omega
    · cases h
  · rename_i c rest _
    split at h
    · obtain ⟨t, ht, he⟩ := Option.map_eq_some_iff.1 h
      have h1 := length_lt_of_afterArrow? ht
      have h2 := (rest.dropWhile_sublist Text.isNameChar).length_le
      simp only [Prod.mk.injEq] at he
      rw [← he.2]
      simp only [List.length_cons]
      omega
    · cases h

/-- The arrow functions of an expression, from the given place on. Heads are taken from left to
right, and the next one is looked for behind the arrow of the last; strings are not passed
over. -/
def arrowScopesFrom (place : Nat) (s : List Char) : List ArrowScope :=
  match s with
  | [] => []
  | c :: rest =>
    match h : arrowHead? (c :: rest) with
    | some (params, r) =>
      have : r.length ≤ rest.length := Nat.le_of_lt_succ (length_lt_of_arrowHead? h)
      ⟨params, place, place + ((c :: rest).length - (afterBody r).length)⟩ ::
        arrowScopesFrom (place + ((c :: rest).length - r.length)) r
    | none => arrowScopesFrom (place + 1) rest
termination_by s.length

def arrowScopes (s : List Char) : List ArrowScope := arrowScopesFrom 0 s

end TemplateCompiler.Expression
