import TemplateCompiler.Lowering.Passes

/-! Lowering of a whole template: the walk over its children, then the choice of what the render
function returns. -/
namespace TemplateCompiler.Lowering

variable {σ : Type}

def rootFragment (children : List Child) : VNode :=
  { tag := .helper .fragment
    children := some (.many children)
    patchFlag := some .stableFragment
    isBlock := true }

/-- A root whose code is a fragment, with the helpers that needs. -/
def wrapFragment (r : Root) (children : List Child) : LowerM Root := do
  LowerM.helper .fragment
  LowerM.helper .createElementVNode
  return { r with code := some (.vnode (rootFragment children)) }

/-- Chooses what the render function returns. One element or loop returns its virtual node, one
child that shows as text returns itself; several children, or those of a single template
element, are put in a fragment. -/
def chooseCode (r : Root) : LowerM Root :=
  match r.children with
  | [] => return { r with code := none }
  | [.element e] =>
    if e.kind == .template then
      wrapFragment { r with children := [.element { e with children := [] }] } e.children
    else
      match e.code with
      | some (.vnode v) =>
        return { r with children := [.element { e with code := none }], code := some (.vnode v) }
      | some (.simple _) => return { r with children := [], code := some (.child (.element e)) }
      | none => LowerM.refuse (.of .missingCode e.span)
  | [.loop l] =>
    match l.code with
    | some v =>
      return { r with children := [.loop { l with code := none }], code := some (.vnode v) }
    | none => LowerM.refuse (.of .missingCode l.span)
  | [c] => return { r with children := [], code := some (.child c) }
  | cs => wrapFragment { r with children := [] } cs

/-- What the lowering of a template leaves behind. -/
structure Lowered (σ : Type) where
  /-- The template, as far as it has been lowered. -/
  root : Root
  memory : σ
  /-- Why the lowering stopped early, if it did. -/
  fault : Option Fault

def lowerWith (passes : List (Pass σ)) (options : LoweringOptions) (r : Root) (memory : σ) :
    Lowered σ :=
  let w := walkChildren passes .root r.children { options } memory
  match w.fault with
  | some f => ⟨{ r with children := w.children }, w.memory, some f⟩
  | none =>
    let merged := { r with children := mergeText w.children }
    match chooseCode merged w.context with
    | .error f _ => ⟨merged, w.memory, some f⟩
    | .ok r' c =>
      let root :=
        { r' with
          helpers := r'.helpers ++ c.helpers.toList
          components := r'.components ++ c.components
          transformed := true }
      ⟨root, w.memory, none⟩

/-- Lowers a template with the passes of a compilation. -/
def lower (options : LoweringOptions) (r : Root) : Except Fault Root :=
  let l := lowerWith standardPasses options r ()
  match l.fault with
  | some f => .error f
  | none => .ok l.root

end TemplateCompiler.Lowering
