import TemplateCompiler.Template.Query

/-! Repeated properties. Of properties with the same static key the first counts, except that the
values of `class`, `style` and handlers are gathered in an array. -/
namespace TemplateCompiler.Lowering

/-- Whether the key belongs to a handler: `on` and a character that is not a lower-case letter. -/
def isHandlerName (name : String) : Bool :=
  match name.toList with
  | 'o' :: 'n' :: c :: _ => !c.isLower
  | _ => false

/-- Whether the values under a repeated key are gathered. -/
def isGathered (name : String) : Bool := name == "class" || name == "style" || isHandlerName name

/-- Adds a value to the one that stands under a key. -/
def gather (first : Code) (value : Code) : Code :=
  match first with
  | .array a => .array { a with elements := a.elements ++ [.code value] }
  | _ => .array { elements := [.code first, .code value] }

/-- Adds a value to the first property with the given static key. -/
def gatherUnder (name : String) (value : Code) : List Property → List Property
  | [] => []
  | p :: rest =>
    if p.staticKey? == some name then { p with value := gather p.value value } :: rest
    else p :: gatherUnder name value rest

/-- Adds a property behind those that have been kept so far. -/
def addProperty (kept : List Property) (p : Property) : List Property :=
  match p.staticKey? with
  | none => kept ++ [p]
  | some name =>
    if kept.any fun q => q.staticKey? == some name then
      if isGathered name then gatherUnder name p.value kept else kept
    else kept ++ [p]

/-- The properties without repetition of a static key. -/
def mergeProperties (properties : List Property) : List Property :=
  properties.foldl addProperty []

end TemplateCompiler.Lowering
