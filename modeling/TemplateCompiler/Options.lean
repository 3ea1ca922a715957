/-! Options of a compilation. -/
namespace TemplateCompiler

/-- How the component's setup code declares a name. -/
inductive BindingKind where
  | setupLet
  | setupMaybeRef
  | setupRef
  | setupReactiveConst
  | setupConst
  | props
  | literalConst
  deriving DecidableEq, Repr, Inhabited

namespace BindingKind

def all : List BindingKind :=
  [setupLet, setupMaybeRef, setupRef, setupReactiveConst, setupConst, props, literalConst]

/-- The name of the kind in option files. -/
def name : BindingKind → String
  | setupLet => "setup-let"
  | setupMaybeRef => "setup-maybe-ref"
  | setupRef => "setup-ref"
  | setupReactiveConst => "setup-reactive-const"
  | setupConst => "setup-const"
  | props => "props"
  | literalConst => "literal-const"

def ofName? (s : String) : Option BindingKind := all.find? fun k => k.name == s

end BindingKind

/-- The names that setup code declares, each once. -/
structure Bindings where
  entries : List (String × BindingKind) := []
  deriving DecidableEq, Repr, Inhabited

namespace Bindings

def find? (b : Bindings) (name : String) : Option BindingKind := b.entries.lookup name

/-- Declares a name, in place of any earlier declaration of it. -/
def insert (b : Bindings) (name : String) (kind : BindingKind) : Bindings :=
  ⟨(b.entries.filter fun e => e.1 != name) ++ [(name, kind)]⟩

end Bindings

structure LoweringOptions where
  filename : String := "template.vue"
  /-- Whether free names are read from the component's state object. -/
  prefixIdentifiers : Bool := true
  /-- Whether the render function stands inside the setup function and sees its names. -/
  inline : Bool := false
  bindings : Option Bindings := none
  /-- The component's own name, under which its template may use it. -/
  selfName : Option String := none
  deriving DecidableEq, Repr, Inhabited

structure OutputOptions where
  /-- Whether the runtime is a global object and not a module. -/
  browser : Bool := false
  /-- Whether preamble and function are printed as one text. -/
  inline : Bool := false
  runtimeModule : String := "chibivue"
  runtimeGlobal : String := "ChibiVue"
  deriving DecidableEq, Repr, Inhabited

structure Options where
  lowering : LoweringOptions := {}
  output : OutputOptions := {}
  deriving DecidableEq, Repr, Inhabited

def Options.forBrowser : Options := { output := { browser := true } }

end TemplateCompiler
