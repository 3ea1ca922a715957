/-! Names that an expression may use without reading component state. -/
namespace TemplateCompiler.ReservedNames

/-- Global objects and functions of the language that expressions may use. -/
def globals : List String :=
  ["Infinity", "undefined", "NaN", "isFinite", "isNaN", "parseFloat", "parseInt", "decodeURI",
   "decodeURIComponent", "encodeURI", "encodeURIComponent", "Math", "Number", "Date", "Array",
   "Object", "Boolean", "String", "RegExp", "Map", "Set", "JSON", "Intl", "BigInt", "console",
   "Error", "Symbol"]

/-- Words of the language that are never variables. -/
def keywords : List String :=
  ["true", "false", "null", "this", "new", "typeof", "void", "in", "of", "instanceof", "delete",
   "function", "return", "async", "await", "let", "const", "var", "if", "else"]

/-- Variables that the render function itself provides. -/
def renderLocals : List String := ["_ctx", "$event", "arguments", "require"]

def isGlobal (name : String) : Bool := globals.contains name

def isKeyword (name : String) : Bool := keywords.contains name

def isRenderLocal (name : String) : Bool := renderLocals.contains name

end TemplateCompiler.ReservedNames
