import TemplateCompiler.Text.Blank
import TemplateCompiler.Text.Identifier

/-! Member paths: the expressions that may stand on the left of an assignment, such as
`user`, `user.name` and `rows[i].cells[0]`. -/
namespace TemplateCompiler.Text

/-- The rest of the text after the square bracket that closes `depth` open ones. Only square
brackets count: quotes and other brackets are plain characters here. -/
def closeSquare? : Nat → List Char → Option (List Char)
  | _, [] => none
  | depth, c :: rest =>
    if c == '[' then closeSquare? (depth + 1) rest
    else if c == ']' then if depth ≤ 1 then some rest else closeSquare? (depth - 1) rest
    else closeSquare? depth rest

private theorem length_lt_of_closeSquare? {depth : Nat} {s r : List Char}
    (h : closeSquare? depth s = some r) : r.length < s.length := by
  induction s generalizing depth with
  | nil => simp [closeSquare?] at h
  | cons c rest ih =>
    simp only [closeSquare?] at h
    split at h
    · exact Nat.lt_succ_of_lt (ih h)
    · split at h
      · split at h
        · cases h
          simp
        · exact Nat.lt_succ_of_lt (ih h)
      · exact Nat.lt_succ_of_lt (ih h)

/-- Whether the text is a sequence of accesses: `.name`, a bracketed group, or a space, tab
or line feed between them. -/
def isAccessChain : List Char → Bool
  | [] => true
  | c :: rest =>
    if c == '.' then
      match h : afterIdentifier? rest with
      | none => false
      | some r =>
        have : r.length < rest.length := length_lt_of_afterIdentifier? h
        isAccessChain r
    else if c == '[' then
      match h : closeSquare? 1 rest with
      | none => false
      | some r =>
        have : r.length < rest.length := length_lt_of_closeSquare? h
        isAccessChain r
    else if c == ' ' || c == '\t' || c == '\n' then isAccessChain rest
    else false
termination_by s => s.length

/-- Whether the string, trimmed, is an identifier followed by accesses. -/
def isMemberPath (s : String) : Bool :=
  match afterIdentifier? (trim s.toList) with
  | none => false
  | some r => isAccessChain r

end TemplateCompiler.Text
