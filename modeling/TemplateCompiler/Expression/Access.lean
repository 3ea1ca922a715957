import TemplateCompiler.Helper
import TemplateCompiler.Options
import TemplateCompiler.ReservedNames
import TemplateCompiler.Scope

/-! How the render function reaches the value of a name. -/
namespace TemplateCompiler.Expression

/-- How a name is reached. -/
inductive Access where
  /-- The name stands as it is; `isDynamic` says that its value may change between renders. -/
  | kept (isDynamic : Bool)
  /-- Code stands in place of the name; `usesUnref` says that it calls the runtime's `unref`. -/
  | replaced (code : String) (usesUnref : Bool)
  deriving DecidableEq, Repr

def bindingAccess (name : String) : BindingKind → Access
  | .setupConst => .kept false
  | .literalConst => .kept false
  | .setupReactiveConst => .kept true
  | .setupRef => .replaced (name ++ ".value") false
  | .setupMaybeRef => .replaced (Helper.unref.localName ++ "(" ++ name ++ ")") true
  | .setupLet => .replaced (Helper.unref.localName ++ "(" ++ name ++ ")") true
  | .props => .replaced ("__props." ++ name) false

/-- How setup code declares the name; nothing unless the render function stands inside it. -/
def visibleBinding? (options : LoweringOptions) (name : String) : Option BindingKind :=
  if options.inline then options.bindings.bind fun b => b.find? name else none

/-- The access to a free name: loop variables come first, then names of the language, then what
setup code declares; all other names are read from the component's state. -/
def access (options : LoweringOptions) (scope : Scope) (name : String) : Access :=
  if scope.contains name then .kept true
  else if ReservedNames.isGlobal name || ReservedNames.isRenderLocal name then .kept false
  else
    match visibleBinding? options name with
    | some kind => bindingAccess name kind
    | none => .replaced ("_ctx." ++ name) false

end TemplateCompiler.Expression
