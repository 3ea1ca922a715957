import TemplateCompiler.Print.Program
import TemplateCompiler.Proofs.Stateful

/-! Printing as a list of strokes. Every printer of a node is equal to drawing the strokes of the
node one after the other, so that what a printer does can be read off a list. -/
namespace TemplateCompiler

/-- One thing that a printer does. -/
inductive Stroke where
  /-- Prints fixed code. -/
  | raw (t : String)
  /-- Prints the local name of a helper. -/
  | helper (h : Helper)
  /-- Prints a string literal. -/
  | literal (s : String)
  /-- Prints a simple expression that is not static. -/
  | code (s : Simple)
  /-- Prints text of the template. -/
  | text (t : TextNode)
  /-- Opens the call that shows the value of an interpolation. -/
  | display (i : Interpolation)
  | newline
  | indent
  | deindent
  /-- Refuses to print. -/
  | refuse (d : Diagnostic)

def Stroke.draw : Stroke → Print.PrintM Unit
  | raw t => Print.push t
  | helper h => Print.pushHelper h
  | literal s => Print.pushLiteral s
  | code s => Print.push s.content
  | text t => Print.text t
  | display _ => Print.push "_toDisplayString("
  | newline => Print.newline
  | indent => Print.indent
  | deindent => Print.deindent
  | refuse d => Print.refuse d

def drawAll : List Stroke → Print.PrintM Unit
  | [] => pure ()
  | x :: xs => do
    x.draw
    drawAll xs

/-- The helper whose local name the stroke prints. -/
def Stroke.helper? : Stroke → Option Helper
  | helper h => some h
  | display _ => some .toDisplayString
  | _ => none

/-- The text or interpolation that the stroke shows. -/
def Stroke.shown? : Stroke → Option TextChild
  | text t => some (.text t)
  | display i => some (.interpolation i)
  | _ => none

/-- Strokes are drawn one after the other. -/
theorem drawAll_append (xs ys : List Stroke) :
    drawAll (xs ++ ys) = (do drawAll xs; drawAll ys) := by
  induction xs with
  | nil => simp [drawAll]
  | cons x xs ih => simp [drawAll, ih]

def Simple.strokes (s : Simple) : List Stroke :=
  if s.isStatic then [.literal s.content] else [.code s]

mutual

def Expression.strokes : Expression → List Stroke
  | .simple s => s.strokes
  | .compound c => c.strokes

def Compound.strokes : Compound → List Stroke
  | { parts := ps, .. } => partsStrokes ps

def partsStrokes : List Part → List Stroke
  | [] => []
  | p :: rest => p.strokes ++ partsStrokes rest

def Part.strokes : Part → List Stroke
  | .simple s => s.strokes
  | .compound c => c.strokes
  | .interpolation i => i.strokes
  | .text t => [.text t]
  | .raw code => [.raw code]
  | .helper h => [.helper h]

def Interpolation.strokes : Interpolation → List Stroke
  | { content := e, span := s } =>
    .display { content := e, span := s } :: e.strokes ++ [.raw ")"]

end

def TextChild.strokes : TextChild → List Stroke
  | .text t => [.text t]
  | .interpolation i => i.strokes
  | .compound c => c.strokes

def Expression.keyStrokes : Expression → List Stroke
  | .simple s => if s.isStatic then [.literal s.content] else [.raw "[", .code s, .raw "]"]
  | .compound c => .raw "[" :: c.strokes ++ [.raw "]"]

/-- The comma before a member of a list, unless it is the first. -/
def separator (isFirst : Bool) : List Stroke := if isFirst then [] else [.raw ", "]

def Param.strokes : Param → List Stroke
  | .expression e => e.strokes
  | .raw code => [.raw code]

def paramListStrokes (isFirst : Bool) : List Param → List Stroke
  | [] => []
  | p :: rest => separator isFirst ++ p.strokes ++ paramListStrokes false rest

def paramsStrokes : Option Params → List Stroke
  | none => []
  | some (.single e) => e.strokes
  | some (.raw code) => [.raw code]
  | some (.many ps) => paramListStrokes true ps

def Callee.strokes : Callee → List Stroke
  | .name code => [.raw code]
  | .helper h => [.helper h]

def VNodeTag.strokes : VNodeTag → List Stroke
  | .name n => [.literal n]
  | .asset id => [.raw id]
  | .helper h => [.helper h]

mutual

/-- Whether the child prints nothing in a list. -/
def Child.isVoid : Child → Bool
  | .element e => e.isVoid
  | _ => false

/-- Whether the element is a template element without code and without anything to print. -/
def Element.isVoid : Element → Bool
  | { kind := k, children := cs, code := c, .. } => c.isNone && k == .template && areVoid cs

/-- Whether no child prints anything in a list. -/
def areVoid : List Child → Bool
  | [] => true
  | c :: rest => c.isVoid && areVoid rest

end

mutual

def Child.strokes : Child → List Stroke
  | .element e => e.strokes
  | .text t => [.text t]
  | .interpolation i => i.strokes
  | .loop l => l.strokes
  | .compound c => c.strokes

def Element.strokes : Element → List Stroke
  | { tag := t, span := s, code := c, .. } =>
    match c with
    | some ec => ec.strokes
    | none => [.refuse (Print.elementRefusal s t)]

def ElementCode.strokes : ElementCode → List Stroke
  | .vnode v => v.strokes
  | .simple s => s.strokes

def Loop.strokes : Loop → List Stroke
  | { span := s, code := c, .. } =>
    match c with
    | some v => v.strokes
    | none => [.refuse (.of .missingCode s)]

/-- The strokes of a list of children; `isFirst` says that nothing stands before them. -/
def childListStrokes (isFirst : Bool) : List Child → List Stroke
  | [] => []
  | c :: rest => c.listedStrokes isFirst ++ childListStrokes (isFirst && c.isVoid) rest

def Child.listedStrokes (isFirst : Bool) : Child → List Stroke
  | .element e => e.listedStrokes isFirst
  | .text t => separator isFirst ++ [.text t]
  | .interpolation i => separator isFirst ++ i.strokes
  | .loop l => separator isFirst ++ l.strokes
  | .compound c => separator isFirst ++ c.strokes

def Element.listedStrokes (isFirst : Bool) : Element → List Stroke
  | { tag := t, kind := k, children := cs, span := s, code := c, .. } =>
    match c with
    | some ec => separator isFirst ++ ec.strokes
    | none =>
      if k == .template then childListStrokes isFirst cs
      else separator isFirst ++ [.refuse (Print.elementRefusal s t)]

def VNode.strokes : VNode → List Stroke
  | { tag := t, props := p, children := c, directives := d, .. } =>
    (if d.isSome then [.helper .withDirectives, .raw "("] else []) ++
    (.helper .createElementVNode :: .raw "(" :: t.strokes) ++
    (match p with
      | some p => .raw ", " :: p.strokes
      | none => if c.isSome then [.raw ", null"] else []) ++
    (match c with
      | some c => .raw ", " :: c.strokes
      | none => []) ++
    [.raw ")"] ++
    (match d with
      | some d => .raw ", " :: d.strokes ++ [.raw ")"]
      | none => [])

def PropsCode.strokes : PropsCode → List Stroke
  | .object o => o.strokes
  | .call c => c.strokes
  | .simple s => s.strokes

def VNodeChildren.strokes : VNodeChildren → List Stroke
  | .many cs => .raw "[" :: childListStrokes true cs ++ [.raw "]"]
  | .single t => t.strokes
  | .renderList c => c.strokes

def Code.strokes : Code → List Stroke
  | .vnode v => v.strokes
  | .call c => c.strokes
  | .object o => o.strokes
  | .array a => a.strokes
  | .function f => f.strokes
  | .expression e => e.strokes

def Call.strokes : Call → List Stroke
  | { callee := f, arguments := as, .. } =>
    f.strokes ++ .raw "(" :: argumentListStrokes true as ++ [.raw ")"]

def argumentListStrokes (isFirst : Bool) : List Argument → List Stroke
  | [] => []
  | a :: rest => separator isFirst ++ a.strokes ++ argumentListStrokes false rest

def Argument.strokes : Argument → List Stroke
  | .raw s => [.raw s]
  | .helper h => [.helper h]
  | .code c => c.strokes
  | .child c => c.strokes
  | .children cs => .raw "[" :: childListStrokes true cs ++ [.raw "]"]

def ObjectCode.strokes : ObjectCode → List Stroke
  | { properties := ps, .. } =>
    if ps.isEmpty then [.raw "\x7b\x7d"]
    else .raw "\x7b " :: propertyListStrokes true ps ++ [.raw " \x7d"]

def propertyListStrokes (isFirst : Bool) : List Property → List Stroke
  | [] => []
  | p :: rest => separator isFirst ++ p.strokes ++ propertyListStrokes false rest

def Property.strokes : Property → List Stroke
  | { key := k, value := v, .. } => k.keyStrokes ++ .raw ": " :: v.strokes

def ArrayCode.strokes : ArrayCode → List Stroke
  | { elements := xs, .. } => .raw "[" :: itemListStrokes true xs ++ [.raw "]"]

def itemListStrokes (isFirst : Bool) : List ArrayItem → List Stroke
  | [] => []
  | x :: rest => separator isFirst ++ x.strokes ++ itemListStrokes false rest

def ArrayItem.strokes : ArrayItem → List Stroke
  | .raw s => [.raw s]
  | .helper h => [.helper h]
  | .code c => c.strokes

def FunctionCode.strokes : FunctionCode → List Stroke
  | { params := ps, returns := r, newline := isBlock, .. } =>
    .raw "(" :: paramsStrokes ps ++ [.raw ") => "] ++
    (if isBlock then [.raw "\x7b", .indent, .raw "return "] else []) ++
    (match r with
      | some r => r.strokes
      | none => []) ++
    (if isBlock then [.deindent, .raw "\x7d"] else [])

def Returns.strokes : Returns → List Stroke
  | .child c => c.strokes
  | .children cs => .raw "[" :: childListStrokes true cs ++ [.raw "]"]
  | .code c => c.strokes

end

def assetStrokes (component : String) : List Stroke :=
  let (name, isSelf) := Component.split component
  [.raw ("const " ++ Component.holder name ++ " = "), .helper .resolveComponent,
    .raw ("(" ++ Text.Quoted.literal name ++ (if isSelf then ", true" else "") ++ ")")]

def assetListStrokes : List String → List Stroke
  | [] => []
  | [component] => assetStrokes component
  | component :: rest => assetStrokes component ++ .newline :: assetListStrokes rest

def Root.codeStrokes (r : Root) : List Stroke :=
  match r.code with
  | some (.vnode v) => v.strokes
  | some (.child c) => c.strokes
  | none => if r.children.isEmpty then [] else [.refuse (.of .missingCode r.span)]

def Root.strokes (r : Root) : List Stroke :=
  [.raw "function render(_ctx) \x7b ", .indent] ++
  (if r.components.isEmpty then [] else assetListStrokes r.components ++ [.newline]) ++
  [.raw "return "] ++ r.codeStrokes ++ [.deindent, .raw " \x7d"]

namespace Print

theorem simple_draws (s : Simple) : simple s = drawAll s.strokes := by
  simp only [simple, Simple.strokes]
  split <;> simp [drawAll, Stroke.draw]

mutual

theorem expression_draws : ∀ e : Expression, expression e = drawAll e.strokes
  | .simple s => by rw [expression, Expression.strokes, simple_draws]
  | .compound c => by rw [expression, Expression.strokes, compound_draws c]

theorem compound_draws : ∀ c : Compound, compound c = drawAll c.strokes
  | { parts := ps, .. } => by rw [compound, Compound.strokes, parts_draw ps]

theorem parts_draw : ∀ ps : List Part, parts ps = drawAll (partsStrokes ps)
  | [] => by rw [parts, partsStrokes, drawAll]
  | p :: rest => by rw [parts, partsStrokes, drawAll_append, part_draws p, parts_draw rest]

theorem part_draws : ∀ p : Part, part p = drawAll p.strokes
  | .simple s => by rw [part, Part.strokes, simple_draws]
  | .compound c => by rw [part, Part.strokes, compound_draws c]
  | .interpolation i => by rw [part, Part.strokes, interpolation_draws i]
  | .text t => by simp [part, Part.strokes, drawAll, Stroke.draw]
  | .raw code => by simp [part, Part.strokes, drawAll, Stroke.draw]
  | .helper h => by simp [part, Part.strokes, drawAll, Stroke.draw]

theorem interpolation_draws : ∀ i : Interpolation, interpolation i = drawAll i.strokes
  | { content := e, span := s } => by
    rw [interpolation, Interpolation.strokes]
    simp [drawAll, drawAll_append, Stroke.draw, expression_draws e]

end

theorem textChild_draws (t : TextChild) : textChild t = drawAll t.strokes := by
  cases t with
  | text t => simp [textChild, TextChild.strokes, drawAll, Stroke.draw]
  | interpolation i => exact interpolation_draws i
  | compound c => exact compound_draws c

theorem propertyKey_draws (e : Expression) : propertyKey e = drawAll e.keyStrokes := by
  cases e with
  | simple s =>
    simp only [propertyKey, Expression.keyStrokes]
    split <;> simp [drawAll, Stroke.draw]
  | compound c =>
    simp [propertyKey, Expression.keyStrokes, compound_draws, drawAll, drawAll_append, Stroke.draw]

private theorem param_draws (p : Param) : param p = drawAll p.strokes := by
  cases p with
  | expression e => exact expression_draws e
  | raw code => simp [param, Param.strokes, drawAll, Stroke.draw]

private theorem paramList_draws (isFirst : Bool) (ps : List Param) :
    paramList isFirst ps = drawAll (paramListStrokes isFirst ps) := by
  induction ps generalizing isFirst with
  | nil => rfl
  | cons p rest ih =>
    cases isFirst <;>
      simp [paramList, paramListStrokes, separator, drawAll_append, drawAll, Stroke.draw,
        param_draws, ih]

theorem params_draw (ps : Option Params) : params ps = drawAll (paramsStrokes ps) := by
  rcases ps with _ | (e | code | ps)
  · rfl
  · exact expression_draws e
  · simp [params, paramsStrokes, drawAll, Stroke.draw]
  · exact paramList_draws true ps

private theorem callee_draws (c : Callee) : callee c = drawAll c.strokes := by
  cases c <;> simp [callee, Callee.strokes, drawAll, Stroke.draw]

theorem tag_draws (t : VNodeTag) : tag t = drawAll t.strokes := by
  cases t <;> simp [tag, VNodeTag.strokes, drawAll, Stroke.draw]

private theorem refuse_map {α β : Type} (d : Diagnostic) (f : α → β) :
    (f <$> (refuse d : PrintM α)) = refuse d := rfl

mutual

theorem child_draws : ∀ c : Child, child c = drawAll c.strokes
  | .element e => by rw [child, Child.strokes, element_draws e]
  | .text t => by simp [child, Child.strokes, drawAll, Stroke.draw]
  | .interpolation i => by rw [child, Child.strokes, interpolation_draws]
  | .loop l => by rw [child, Child.strokes, loop_draws l]
  | .compound c => by rw [child, Child.strokes, compound_draws]

theorem element_draws : ∀ e : Element, element e = drawAll e.strokes
  | { code := some ec, .. } => by rw [element, Element.strokes, elementCode_draws ec]
  | { code := none, .. } => by simp [element, Element.strokes, drawAll, Stroke.draw]

theorem elementCode_draws : ∀ c : ElementCode, elementCode c = drawAll c.strokes
  | .vnode v => by rw [elementCode, ElementCode.strokes, vnode_draws v]
  | .simple s => by rw [elementCode, ElementCode.strokes, simple_draws]

theorem loop_draws : ∀ l : Loop, loop l = drawAll l.strokes
  | { code := some v, .. } => by rw [loop, Loop.strokes, vnode_draws v]
  | { code := none, .. } => by simp [loop, Loop.strokes, drawAll, Stroke.draw]

theorem childList_draws (isFirst : Bool) : ∀ cs : List Child, childList isFirst cs =
    (do drawAll (childListStrokes isFirst cs); pure (isFirst && areVoid cs))
  | [] => by simp [childList, childListStrokes, areVoid, drawAll]
  | c :: rest => by
    rw [childList, childListStrokes, listed_draws isFirst c]
    simp [childList_draws (isFirst && c.isVoid) rest, drawAll_append, areVoid, Bool.and_assoc]

theorem listed_draws (isFirst : Bool) : ∀ c : Child, listed isFirst c =
    (do drawAll (c.listedStrokes isFirst); pure (isFirst && c.isVoid))
  | .element e => by rw [listed, Child.listedStrokes, listedElement_draws isFirst e, Child.isVoid]
  | .text t => by
    cases isFirst <;>
      simp [listed, Child.listedStrokes, Child.isVoid, separator, drawAll, Stroke.draw]
  | .interpolation i => by
    cases isFirst <;>
      simp [listed, Child.listedStrokes, Child.isVoid, separator, drawAll, Stroke.draw,
        interpolation_draws]
  | .loop l => by
    cases isFirst <;>
      simp [listed, Child.listedStrokes, Child.isVoid, separator, drawAll, Stroke.draw,
        loop_draws l]
  | .compound c => by
    cases isFirst <;>
      simp [listed, Child.listedStrokes, Child.isVoid, separator, drawAll, Stroke.draw,
        compound_draws]

theorem listedElement_draws (isFirst : Bool) : ∀ e : Element, listedElement isFirst e =
    (do drawAll (e.listedStrokes isFirst); pure (isFirst && e.isVoid))
  | { code := some ec, .. } => by
    cases isFirst <;>
      simp [listedElement, Element.listedStrokes, Element.isVoid, separator, drawAll, Stroke.draw,
        elementCode_draws ec]
  | { kind := k, children := cs, code := none, .. } => by
    simp only [listedElement, Element.listedStrokes, Element.isVoid]
    split
    · rename_i h
      simp [childList_draws isFirst cs, h]
    · cases isFirst <;> simp [separator, drawAll, Stroke.draw, refuse_map]

theorem vnode_draws : ∀ v : VNode, vnode v = drawAll v.strokes
  | { props := p, children := c, directives := d, .. } => by
    have hp : ∀ p' ∈ p, props p' = drawAll p'.strokes := by
      cases p with
      | none => simp
      | some p => simpa using props_draw p
    have hc : ∀ c' ∈ c, vnodeChildren c' = drawAll c'.strokes := by
      cases c with
      | none => simp
      | some c => simpa using vnodeChildren_draw c
    have hd : ∀ d' ∈ d, array d' = drawAll d'.strokes := by
      cases d with
      | none => simp
      | some d => simpa using array_draws d
    rw [vnode.eq_def, VNode.strokes.eq_def]
    cases p <;> cases c <;> cases d <;>
      simp [drawAll, drawAll_append, Stroke.draw, tag_draws, hp, hc, hd]

theorem props_draw : ∀ p : PropsCode, props p = drawAll p.strokes
  | .object o => by rw [props, PropsCode.strokes, object_draws o]
  | .call c => by rw [props, PropsCode.strokes, call_draws c]
  | .simple s => by rw [props, PropsCode.strokes, simple_draws]

theorem vnodeChildren_draw : ∀ c : VNodeChildren, vnodeChildren c = drawAll c.strokes
  | .many cs => by
    simp [vnodeChildren, VNodeChildren.strokes, childList_draws true cs, drawAll, drawAll_append,
      Stroke.draw]
  | .single t => by rw [vnodeChildren, VNodeChildren.strokes, textChild_draws]
  | .renderList c => by rw [vnodeChildren, VNodeChildren.strokes, call_draws c]

theorem code_draws : ∀ c : Code, code c = drawAll c.strokes
  | .vnode v => by rw [code, Code.strokes, vnode_draws v]
  | .call c => by rw [code, Code.strokes, call_draws c]
  | .object o => by rw [code, Code.strokes, object_draws o]
  | .array a => by rw [code, Code.strokes, array_draws a]
  | .function f => by rw [code, Code.strokes, function_draws f]
  | .expression e => by rw [code, Code.strokes, expression_draws]

theorem call_draws : ∀ c : Call, call c = drawAll c.strokes
  | { callee := f, arguments := as, .. } => by
    simp [call, Call.strokes, callee_draws, argumentList_draws true as, drawAll, drawAll_append,
      Stroke.draw]

theorem argumentList_draws (isFirst : Bool) : ∀ as : List Argument,
    argumentList isFirst as = drawAll (argumentListStrokes isFirst as)
  | [] => by rw [argumentList, argumentListStrokes, drawAll]
  | a :: rest => by
    cases isFirst <;>
      simp [argumentList, argumentListStrokes, separator, drawAll_append, drawAll, Stroke.draw,
        argument_draws a, argumentList_draws false rest]

theorem argument_draws : ∀ a : Argument, argument a = drawAll a.strokes
  | .raw s => by simp [argument, Argument.strokes, drawAll, Stroke.draw]
  | .helper h => by simp [argument, Argument.strokes, drawAll, Stroke.draw]
  | .code c => by rw [argument, Argument.strokes, code_draws c]
  | .child c => by rw [argument, Argument.strokes, child_draws c]
  | .children cs => by
    simp [argument, Argument.strokes, childList_draws true cs, drawAll, drawAll_append,
      Stroke.draw]

theorem object_draws : ∀ o : ObjectCode, object o = drawAll o.strokes
  | { properties := ps, .. } => by
    rw [object, ObjectCode.strokes]
    split
    · simp [drawAll, Stroke.draw]
    · simp [propertyList_draws true ps, drawAll, drawAll_append, Stroke.draw]

theorem propertyList_draws (isFirst : Bool) : ∀ ps : List Property,
    propertyList isFirst ps = drawAll (propertyListStrokes isFirst ps)
  | [] => by rw [propertyList, propertyListStrokes, drawAll]
  | p :: rest => by
    cases isFirst <;>
      simp [propertyList, propertyListStrokes, separator, drawAll_append, drawAll, Stroke.draw,
        property_draws p, propertyList_draws false rest]

theorem property_draws : ∀ p : Property, property p = drawAll p.strokes
  | { key := k, value := v, .. } => by
    simp [property, Property.strokes, propertyKey_draws, code_draws v, drawAll, drawAll_append,
      Stroke.draw]

theorem array_draws : ∀ a : ArrayCode, array a = drawAll a.strokes
  | { elements := xs, .. } => by
    simp [array, ArrayCode.strokes, itemList_draws true xs, drawAll, drawAll_append, Stroke.draw]

theorem itemList_draws (isFirst : Bool) : ∀ xs : List ArrayItem,
    itemList isFirst xs = drawAll (itemListStrokes isFirst xs)
  | [] => by rw [itemList, itemListStrokes, drawAll]
  | x :: rest => by
    cases isFirst <;>
      simp [itemList, itemListStrokes, separator, drawAll_append, drawAll, Stroke.draw,
        item_draws x, itemList_draws false rest]

theorem item_draws : ∀ x : ArrayItem, item x = drawAll x.strokes
  | .raw s => by simp [item, ArrayItem.strokes, drawAll, Stroke.draw]
  | .helper h => by simp [item, ArrayItem.strokes, drawAll, Stroke.draw]
  | .code c => by rw [item, ArrayItem.strokes, code_draws c]

theorem function_draws : ∀ f : FunctionCode, function f = drawAll f.strokes
  | { returns := none, newline := isBlock, .. } => by
    cases isBlock <;>
      simp [function, FunctionCode.strokes, drawAll, drawAll_append, Stroke.draw, params_draw]
  | { returns := some r, newline := isBlock, .. } => by
    cases isBlock <;>
      simp [function, FunctionCode.strokes, drawAll, drawAll_append, Stroke.draw, params_draw,
        returns_draw r]

theorem returns_draw : ∀ r : Returns, returns r = drawAll r.strokes
  | .child c => by rw [returns, Returns.strokes, child_draws c]
  | .children cs => by
    simp [returns, Returns.strokes, childList_draws true cs, drawAll, drawAll_append, Stroke.draw]
  | .code c => by rw [returns, Returns.strokes, code_draws c]

end

private theorem push_append (a b : String) : push (a ++ b) = (do push a; push b) := by
  funext w
  rw [step_bind]
  change EStateM.Result.ok () { w with code := w.code ++ (a ++ b) } =
    .ok () { w with code := w.code ++ a ++ b }
  rw [String.append_assoc]

private theorem asset_draws (component : String) :
    push (assetStatement component) = drawAll (assetStrokes component) := by
  simp [assetStatement, assetStrokes, drawAll, Stroke.draw, pushHelper, push_append]

private theorem assets_draw (components : List String) :
    assets components = drawAll (assetListStrokes components) := by
  induction components with
  | nil => rfl
  | cons component rest ih =>
    cases rest with
    | nil => exact asset_draws component
    | cons next rest =>
      simp only [assets, assetListStrokes, asset_draws, drawAll_append, drawAll, Stroke.draw]
      rw [ih]

/-- Printing the code of a root is drawing its strokes. -/
theorem rootCode_draws (r : Root) : rootCode r = drawAll r.codeStrokes := by
  unfold rootCode Root.codeStrokes
  rcases r.code with _ | (v | c)
  · simp only
    split
    · rfl
    · simp [drawAll, Stroke.draw]
  · exact vnode_draws v
  · exact child_draws c

/-- The render function is printed by drawing its strokes. -/
theorem renderFunction_draws (r : Root) : renderFunction r = drawAll r.strokes := by
  cases h : r.components.isEmpty <;>
    simp [renderFunction, Root.strokes, drawAll, drawAll_append, Stroke.draw, rootCode_draws,
      assets_draw, h]

private theorem drawAll_ok {xs : List Stroke} (h : ∀ d, Stroke.refuse d ∉ xs) (w : Writer) :
    ∃ w', drawAll xs w = .ok () w' := by
  induction xs generalizing w with
  | nil => exact ⟨w, rfl⟩
  | cons x xs ih =>
    have hx : ∃ w', x.draw w = .ok () w' := by
      cases x with
      | refuse d => exact absurd List.mem_cons_self (h d)
      | _ => exact ⟨_, rfl⟩
    obtain ⟨w', hw⟩ := hx
    obtain ⟨w'', hw'⟩ := ih (fun d hd => h d (List.mem_cons_of_mem _ hd)) w'
    refine ⟨w'', ?_⟩
    rw [drawAll, step_bind, hw]
    exact hw'

/-- A lowered template is printed, with any options, unless one of its strokes refuses. -/
theorem program_ok {r : Root} (ht : r.transformed = true) (h : ∀ d, Stroke.refuse d ∉ r.strokes)
    (o : OutputOptions) : ∃ p, program o r = .ok p := by
  have hpreamble (w : Writer) : ∃ w', preamble o w = .ok () w' := by
    unfold preamble
    cases o.browser <;> exact ⟨_, rfl⟩
  have hrender (w : Writer) : ∃ w', renderFunction r w = .ok () w' := by
    rw [renderFunction_draws]
    exact drawAll_ok h w
  obtain ⟨w, hw⟩ := hpreamble {}
  obtain ⟨w', hw'⟩ := hrender w
  obtain ⟨w'', hw''⟩ := hrender {}
  have hboth : run (do preamble o; renderFunction r) = .ok w'.code := by
    simp only [run, step_bind, hw, hw']
  have hfirst : run (preamble o) = .ok w.code := by
    simp only [run, hw]
  have hsecond : run (renderFunction r) = .ok w''.code := by
    simp only [run, hw'']
  have htr : ¬(!r.transformed && !r.children.isEmpty) = true := by simp [ht]
  simp only [program, if_neg htr, hboth, hfirst, hsecond]
  split <;> exact ⟨_, rfl⟩

end Print

end TemplateCompiler
