/-! Spellings of names: dashed, camel and capitalised forms, handler keys and the variables
that hold resolved assets. Only ASCII letters change case. -/
namespace TemplateCompiler.Text

/-- Joins dashed words: each letter after a run of dashes is capitalised and the dashes go.
A run at the end leaves one dash. `pending` says that a dash has just been read. -/
def camelizeFrom : Bool → List Char → List Char
  | pending, [] => if pending then ['-'] else []
  | pending, c :: rest =>
    if c == '-' then camelizeFrom true rest
    else (if pending then c.toUpper else c) :: camelizeFrom false rest

/-- The camel form of a dashed name: `update-value` becomes `updateValue`. -/
def camelize (s : String) : String := String.ofList (camelizeFrom false s.toList)

def capitalize (s : String) : String :=
  match s.toList with
  | [] => ""
  | c :: rest => String.ofList (c.toUpper :: rest)

/-- The property that holds the handler of an event: `click` becomes `onClick`. The empty
event has the empty key. -/
def handlerKey (event : String) : String :=
  if event.isEmpty then "" else "on" ++ capitalize event

/-- The spelling of one character of an asset name inside a variable name. -/
def assetChar (c : Char) : List Char :=
  if c.isAlphanum || c == '_' then [c]
  else if c == '-' then ['_']
  else Nat.toDigits 10 c.toNat

/-- The variable that holds the resolved asset `name`: `my-button` of kind `component` is held
by `_component_my_button`. Different names may share a variable. -/
def assetId (name kind : String) : String :=
  "_" ++ kind ++ "_" ++ String.ofList (name.toList.flatMap assetChar)

end TemplateCompiler.Text
