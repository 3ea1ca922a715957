import TemplateCompiler.Source

/-! Diagnostics: why a template or its options are refused. -/
namespace TemplateCompiler

inductive Cause where
  | forWithoutExpression
  | forMalformed
  | bindWithoutExpression
  | onWithoutExpression
  | modelWithoutExpression
  | modelMalformed
  | modelOnTemplate
  | invalidOptions
  | missingCode
  deriving DecidableEq, Repr, Inhabited

namespace Cause

def number : Cause → Nat
  | forWithoutExpression => 31
  | forMalformed => 32
  | bindWithoutExpression => 34
  | onWithoutExpression => 35
  | modelWithoutExpression => 40
  | modelMalformed => 41
  | modelOnTemplate => 42
  | invalidOptions => 60
  | missingCode => 100

def message : Cause → String
  | forWithoutExpression => "v-for is missing expression."
  | forMalformed => "v-for has invalid expression."
  | bindWithoutExpression => "v-bind is missing expression."
  | onWithoutExpression => "v-on is missing expression."
  | modelWithoutExpression => "v-model is missing expression."
  | modelMalformed => "v-model value must be a valid JavaScript member expression."
  | modelOnTemplate => "v-model cannot be used on a <template> element."
  | invalidOptions => "Invalid compiler options."
  | missingCode =>
    "Node reached code generation without a codegen node. Was the AST transformed?"

/-- Whether the cause lies with the compiler's caller and not with the template. -/
def isInternal : Cause → Bool
  | missingCode => true
  | _ => false

end Cause

/-- A refusal: its cause, the place it concerns if there is one, and further detail. -/
structure Diagnostic where
  cause : Cause
  span : Option Span
  detail : Option String := none
  deriving DecidableEq, Repr, Inhabited

namespace Diagnostic

def of (cause : Cause) (span : Span) : Diagnostic := ⟨cause, some span, none⟩

/-- The place in the form it has at the end of a message; nothing for a stub. -/
def suffix (span : Span) : String :=
  if span.isStub then ""
  else
    " (" ++ toString span.start.line ++ ":" ++ toString span.start.column ++ ") `" ++
      span.text ++ "`"

/-- The message shown to the user: the wording, then the place if it is known. -/
def message (d : Diagnostic) : String :=
  d.cause.message ++ (d.span.map suffix).getD ""

end Diagnostic

end TemplateCompiler
