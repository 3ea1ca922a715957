import TemplateCompiler.Proofs.Registration

/-! What each step of a lowering answers, as a function. Where a step processes expressions, the
options and the scope are arguments; where it does not, they are absent. -/
namespace TemplateCompiler.Lowering

open LowerM

namespace Answer

section
variable (o : LoweringOptions) (s : Scope)

def simple (e : Simple) : Except Fault Simple :=
  match e.processed? o s with
  | none => .error .splitCharacter
  | some (e', _) => .ok e'

def part : Part → Except Fault Part
  | .simple e => .simple <$> simple o s e
  | p => .ok p

def expression : Expression → Except Fault Expression
  | .simple e => .simple <$> simple o s e
  | .compound c => do
    let parts ← c.parts.mapM (part o s)
    return .compound { c with parts }

def argument (a : Expression) : Except Fault Expression :=
  if a.isStatic then .ok a else expression o s a

/-- A directive with its expression and its argument processed. The expression of a listener
waits until the element is left. -/
def directive (d : Directive) : Except Fault Directive := do
  let exp ← if d.name == "on" then .ok d.exp else d.exp.mapM (expression o s)
  let arg ← d.arg.mapM (argument o s)
  return { d with exp, arg }

def prop : ElementProp → Except Fault ElementProp
  | .directive d => if d.name == "for" then .ok (.directive d) else .directive <$> directive o s d
  | p => .ok p

/-- The handler for the expression of a listener. -/
def handler : Option Expression → Except Fault Code
  | some (.simple exp) =>
    if Text.isAllBlank exp.content then .ok (.expression (.simple (.code "() => \x7b\x7d" .stub)))
    else do
      let exp' ← simple o s exp
      return .expression (.simple (if isStatement exp.content
        then { exp' with content := inlineHandler exp'.content } else exp'))
  | some (.compound exp) => .ok (.expression (.compound exp))
  | none => .ok (.expression (.simple (.code "() => \x7b\x7d" .stub)))

end

def handlerKey (e : Element) : Expression → Expression
  | .simple arg =>
    if arg.isStatic then
      .simple { Simple.fixed (eventKey arg.content e.isComponent) .stub with isHandlerKey := true }
    else .compound (computedKey (.simple arg))
  | .compound arg => .compound (computedKey (.compound arg))

def bound (d : Directive) : Except Fault Contribution :=
  match d.exp with
  | none => .error (.refused (.of .bindWithoutExpression d.span))
  | some exp =>
    if exp.isBlank then .error (.refused (.of .bindWithoutExpression d.span))
    else
      match d.arg with
      | none => .ok {}
      | some arg => .ok { properties := [{ key := boundKey d arg, value := .expression exp }] }

/-- What a two-way binding contributes. -/
def modelled (e : Element) (d : Directive) : Except Fault Contribution :=
  match modelRefusal? e d, d.exp with
  | some r, _ => .error (.refused r)
  | none, some exp => .ok (modelContribution e d exp)
  | none, none => .ok {}

/-- A property with its value normalised, if it has to be. -/
def normalized (p : Property) : Property :=
  match normalizer? p with
  | none => p
  | some h =>
    if isFixedValue p.value then p
    else { p with value := .call { callee := .helper h, arguments := [.code p.value] } }

/-- A call of a helper on the parts of the props. -/
def callOf (h : Helper) (arguments : List Argument) : PropsCode :=
  .call { callee := .helper h, arguments }

/-- The props argument. -/
def props (b : PropsBuilder) : Option PropsCode :=
  if !b.merged.isEmpty then
    let arguments := b.close.merged
    some (callOf (if arguments.length > 1 then .mergeProps else .normalizeProps) arguments)
  else if b.properties.isEmpty then none
  else if b.properties.any fun p => p.staticKey?.isNone then
    some (callOf .normalizeProps [PropsBuilder.segment b.properties])
  else some (.object { properties := (mergeProperties b.properties).map normalized })

def build (b : PropsBuilder) : BuiltProps :=
  ⟨props b, if b.runtime.isEmpty then none else some { elements := b.runtime }⟩

section
variable (o : LoweringOptions) (s : Scope)

def listened (e : Element) (d : Directive) : Except Fault Contribution :=
  match d.arg with
  | none => .ok {}
  | some arg => do
    let value ← handler o s d.exp
    return { properties := [{ key := handlerKey e arg, value }] }

def contribution (e : Element) (d : Directive) : Except Fault Contribution :=
  match d.name with
  | "bind" => bound d
  | "on" => listened o s e d
  | "model" => modelled e d
  | _ => .ok {}

def addProp (e : Element) (b : PropsBuilder) : ElementProp → Except Fault PropsBuilder
  | .plain a => .ok { b with properties := b.properties ++ [attributeProperty a] }
  | .directive d =>
    if d.arg.isNone && d.name == "on" then .ok b
    else if d.arg.isNone && d.name == "bind" then
      match d.exp with
      | none => .error (.refused (.of .bindWithoutExpression d.span))
      | some exp => .ok (b.addObject exp)
    else b.addContribution d <$> contribution o s e d

def tag (e : Element) : VNodeTag :=
  if !e.isComponent then .name e.tag
  else
    match setupReference? o e.tag with
    | some (code, _) => .asset code
    | none => .asset (Component.holder e.tag)

/-- The virtual node for an element whose props have been built. -/
def vnode (e : Element) (built : BuiltProps) : VNode :=
  { tag := tag o e
    props := built.props
    children := childrenCode e.children
    directives := built.directives
    isComponent := e.isComponent
    span := e.span }

def finished (e : Element) : Except Fault Element :=
  if e.kind == .template then .ok e
  else do
    let b ← e.props.foldlM (addProp o s e) {}
    return { e with children := [], code := some (.vnode (vnode o e (build b))) }

end

/-- The virtual node of one item, out of the body of a loop. -/
def body (e : Element) : Option (VNode × Element) :=
  if e.kind != .template then takeVNode? e
  else
    match e.children with
    | [.element child] =>
      match takeVNode? child with
      | some (v, child') => some (v, { e with children := [.element child'] })
      | none =>
        let bare := { e with children := [.element { child with code := none }] }
        some (bodyFragment bare, { e with children := [] })
    | _ => some (bodyFragment e, { e with children := [] })

def finishedLoop (l : Loop) : Except Fault Loop :=
  match l.children with
  | .element e :: rest =>
    match body e with
    | none => .error (.refused (.of .missingCode l.span))
    | some (v, e') => .ok { l with children := .element e' :: rest, code := some (loopCode l v) }
  | _ => .error (.refused (.of .missingCode l.span))

def fragment (r : Root) (cs : List Child) : Root :=
  { r with code := some (.vnode (rootFragment cs)) }

def root (r : Root) : Except Fault Root :=
  match r.children with
  | [] => .ok { r with code := none }
  | [.element e] =>
    if e.kind == .template then
      .ok (fragment { r with children := [.element { e with children := [] }] } e.children)
    else
      match e.code with
      | some (.vnode v) =>
        .ok { r with children := [.element { e with code := none }], code := some (.vnode v) }
      | some (.simple _) => .ok { r with children := [], code := some (.child (.element e)) }
      | none => .error (.refused (.of .missingCode e.span))
  | [.loop l] =>
    match l.code with
    | some v => .ok { r with children := [.loop { l with code := none }], code := some (.vnode v) }
    | none => .error (.refused (.of .missingCode l.span))
  | [c] => .ok { r with children := [], code := some (.child c) }
  | cs => .ok (fragment { r with children := [] } cs)

end Answer

/-- The processing of a simple expression, once options and scope are known. -/
def processIn (o : LoweringOptions) (s : Scope) (e : Simple) : LowerM Simple :=
  match e.processed? o s with
  | none => throw .splitCharacter
  | some (e', usesUnref) => do
    if usesUnref then LowerM.helper .unref
    return e'

/-- The tag of a component, once the options are known. -/
def componentTagIn (o : LoweringOptions) (e : Element) : LowerM VNodeTag :=
  match setupReference? o e.tag with
  | some (code, usesUnref) => do
    if usesUnref then LowerM.helper .unref
    return .asset code
  | none => do
    LowerM.helper .resolveComponent
    LowerM.component (Component.registered e.tag (isSelf o e.tag))
    return .asset (Component.holder e.tag)

/-- The name under which the element registers a component, if it does: it is a component that
setup code does not declare. -/
def lookup? (o : LoweringOptions) (e : Element) : Option String :=
  if e.isComponent && (setupReference? o e.tag).isNone then
    some (Component.registered e.tag (isSelf o e.tag))
  else none

variable {o : LoweringOptions} {s : Scope}

theorem gives_simple (e : Simple) : Gives o s e.process (Answer.simple o s e) [] := by
  refine gives_get (m := processIn o s e) ?_ ?_
  · rintro c rfl rfl
    rfl
  · unfold processIn Answer.simple
    split
    · exact gives_throw _
    · rename_i e' usesUnref _
      cases usesUnref
      · exact gives_pure _
      · exact (gives_pure _).after_helper _

private theorem gives_part (p : Part) : Gives o s p.process (Answer.part o s p) [] := by
  cases p with
  | simple e => exact (gives_simple e).map _
  | _ => exact gives_pure _

/-- Processing an expression reads no more of the state than options and scope. -/
theorem gives_expression (e : Expression) : Gives o s e.process (Answer.expression o s e) [] := by
  cases e with
  | simple e => exact (gives_simple e).map _
  | compound c => exact (gives_mapM gives_part _).bind fun _ => gives_pure _

private theorem gives_argument (a : Expression) :
    Gives o s (if a.isStatic then pure a else a.process) (Answer.argument o s a) [] := by
  unfold Answer.argument
  split
  · exact gives_pure _
  · exact gives_expression a

private theorem gives_directive (d : Directive) : Gives o s d.process (Answer.directive o s d)
    [] := by
  unfold Directive.process Answer.directive
  split
  · exact (gives_pure _).bind fun _ =>
      (gives_optionMapM gives_argument _).bind fun _ => gives_pure _
  · exact (gives_optionMapM gives_expression _).bind fun _ =>
      (gives_optionMapM gives_argument _).bind fun _ => gives_pure _

theorem gives_prop (p : ElementProp) : Gives o s (processProp p) (Answer.prop o s p) [] := by
  cases p with
  | plain a => exact gives_pure _
  | directive d =>
    simp only [processProp, Answer.prop]
    split
    · exact gives_pure _
    · exact (gives_directive d).map _

theorem gives_handlerKey (e : Element) (arg : Expression) :
    Gives o s (handlerKeyOf e arg) (.ok (Answer.handlerKey e arg)) [] := by
  cases arg with
  | simple a =>
    simp only [handlerKeyOf, Answer.handlerKey]
    split
    · exact gives_pure _
    · exact (gives_pure _).after_helper _
  | compound c => exact (gives_pure _).after_helper _

theorem gives_handler (exp : Option Expression) :
    Gives o s (handlerOf exp) (Answer.handler o s exp) [] := by
  rcases exp with _ | (e | c)
  · exact gives_pure _
  · simp only [handlerOf, Answer.handler]
    split
    · exact gives_pure _
    · refine (gives_simple e).bind fun e' => ?_
      split <;> exact gives_pure _
  · exact gives_pure _

theorem gives_bound (e : Element) (d : Directive) :
    Gives o s (bindProp e d) (Answer.bound d) [] := by
  cases hexp : d.exp with
  | none =>
    simp only [bindProp, Answer.bound, hexp]
    exact gives_refuse _
  | some exp =>
    simp only [bindProp, Answer.bound, hexp]
    split
    · exact gives_refuse _
    · cases d.arg <;> exact gives_pure _

private theorem gives_listened (e : Element) (d : Directive) :
    Gives o s (listen e d) (Answer.listened o s e d) [] := by
  cases harg : d.arg with
  | none =>
    simp only [listen, Answer.listened, harg]
    exact gives_pure _
  | some arg =>
    simp only [listen, Answer.listened, harg]
    exact (gives_handlerKey e arg).bind fun _ => (gives_handler _).bind fun _ => gives_pure _

private theorem gives_modelled (e : Element) (d : Directive) :
    Gives o s (model e d) (Answer.modelled e d) [] := by
  unfold model Answer.modelled
  cases modelRefusal? e d with
  | some r => exact gives_refuse r
  | none => cases d.exp <;> exact gives_pure _

/-- What a standard directive adds to the props is told by options and scope. -/
theorem gives_contribution {f : DirectiveLowering} {d : Directive}
    (h : standardDirectives d.name = some f) (e : Element) :
    Gives o s (f e d) (Answer.contribution o s e d) [] := by
  unfold Answer.contribution
  split
  · rename_i hn
    rw [hn] at h
    cases h
    exact gives_bound e d
  · rename_i hn
    rw [hn] at h
    cases h
    exact gives_listened e d
  · rename_i hn
    rw [hn] at h
    cases h
    exact gives_modelled e d
  · simp only [standardDirectives] at h
    cases h

theorem contribution_of_unknown {d : Directive} (h : standardDirectives d.name = none)
    (e : Element) : Answer.contribution o s e d = .ok {} := by
  unfold Answer.contribution
  split
  · rename_i hn
    rw [hn] at h
    cases h
  · rename_i hn
    rw [hn] at h
    cases h
  · rename_i hn
    rw [hn] at h
    cases h
  · rfl

private theorem handler_value {exp : Option Expression} {value : Code}
    (h : Answer.handler o s exp = .ok value) : ∃ x, value = .expression x := by
  unfold Answer.handler at h
  split at h
  · split at h
    · cases h
      exact ⟨_, rfl⟩
    · obtain ⟨exp', -, h⟩ := except_bind_ok.mp h
      cases h
      exact ⟨_, rfl⟩
  · cases h
    exact ⟨_, rfl⟩
  · cases h
    exact ⟨_, rfl⟩

/-- A directive contributes expressions only. -/
theorem contribution_value {e : Element} {d : Directive} {r : Contribution}
    (h : Answer.contribution o s e d = .ok r) :
    ∀ p ∈ r.properties, ∃ x, p.value = .expression x := by
  unfold Answer.contribution at h
  split at h
  · unfold Answer.bound at h
    split at h
    · cases h
    · split at h
      · cases h
      · split at h
        · cases h
          exact List.forall_mem_nil _
        · cases h
          exact List.forall_mem_singleton.mpr ⟨_, rfl⟩
  · unfold Answer.listened at h
    split at h
    · cases h
      exact List.forall_mem_nil _
    · obtain ⟨value, hvalue, h⟩ := except_bind_ok.mp h
      cases h
      exact List.forall_mem_singleton.mpr (handler_value hvalue)
  · unfold Answer.modelled at h
    split at h
    · cases h
    · cases h
      unfold modelContribution
      dsimp only
      split
      · exact List.forall_mem_singleton.mpr ⟨_, rfl⟩
      · exact List.forall_mem_cons.mpr ⟨⟨_, rfl⟩, List.forall_mem_singleton.mpr ⟨_, rfl⟩⟩
    · cases h
      exact List.forall_mem_nil _
  · cases h
    exact List.forall_mem_nil _

private theorem addContribution_empty (b : PropsBuilder) (d : Directive) : b.addContribution d
    {} = b := by
  simp [PropsBuilder.addContribution]

/-- What one prop does to the builder: it adds its property, it ends the segment with a bound
object, or it adds what its directive contributes. -/
inductive Adds (o : LoweringOptions) (s : Scope) (e : Element) (b : PropsBuilder) :
    ElementProp → PropsBuilder → Prop
  | plain (a : Attribute) :
      Adds o s e b (.plain a) { b with properties := b.properties ++ [attributeProperty a] }
  | object {d : Directive} {exp : Expression} (hn : d.name = "bind") (harg : d.arg = none)
      (hexp : d.exp = some exp) : Adds o s e b (.directive d) (b.addObject exp)
  | contribution {d : Directive} {r : Contribution} (harg : d.name = "bind" → d.arg ≠ none)
      (hr : Answer.contribution o s e d = .ok r) :
      Adds o s e b (.directive d) (b.addContribution d r)

/-- A prop that is taken into the builder is taken in one of the ways of `Adds`. -/
theorem adds_of_ok {e : Element} {b b' : PropsBuilder} {p : ElementProp}
    (h : Answer.addProp o s e b p = .ok b') : Adds o s e b p b' := by
  cases p with
  | plain a =>
    cases h
    exact .plain a
  | directive d =>
    rw [Answer.addProp] at h
    split at h
    · -- A listener without an argument contributes nothing.
      rename_i hon
      simp only [Bool.and_eq_true, beq_iff_eq, Option.isNone_iff_eq_none] at hon
      have hr : Answer.contribution o s e d = .ok {} := by
        simp only [Answer.contribution, hon, Answer.listened]
      have hn : d.name ≠ "bind" := by
        rw [hon.2]
        decide
      have hadd := Adds.contribution (b := b) (fun h => absurd h hn) hr
      cases h
      rwa [addContribution_empty] at hadd
    · split at h
      · rename_i hbind
        simp only [Bool.and_eq_true, beq_iff_eq, Option.isNone_iff_eq_none] at hbind
        split at h
        · cases h
        · rename_i exp hexp
          cases h
          exact .object hbind.2 hbind.1 hexp
      · rename_i hbind
        obtain ⟨r, hr, rfl⟩ := except_map_ok.mp h
        refine .contribution (fun hn harg => hbind ?_) hr
        simp [hn, harg]

theorem gives_addProp (e : Element) (b : PropsBuilder) (p : ElementProp) :
    Gives o s (b.addProp standardDirectives e p) (Answer.addProp o s e b p) [] := by
  cases p with
  | plain a => exact gives_pure _
  | directive d =>
    simp only [PropsBuilder.addProp, Answer.addProp]
    split
    · exact gives_pure _
    · split
      · cases d.exp with
        | none => exact gives_refuse _
        | some exp => exact gives_pure _
      · cases hf : standardDirectives d.name with
        | none =>
          have h : b.addContribution d <$> Answer.contribution o s e d = .ok b := by
            rw [contribution_of_unknown hf]
            exact congrArg Except.ok (addContribution_empty b d)
          rw [h]
          exact gives_pure _
        | some f =>
          rw [← bind_pure_comp]
          refine (gives_contribution hf e).bind fun c => ?_
          cases c.runtime with
          | none => exact gives_pure _
          | some h => exact (gives_pure _).after_helper _

theorem gives_addProps (e : Element) (b : PropsBuilder) (ps : List ElementProp) :
    Gives o s (b.addProps standardDirectives e ps) (ps.foldlM (Answer.addProp o s e) b) [] := by
  induction ps generalizing b with
  | nil => exact gives_pure _
  | cons p ps ih =>
    rw [List.foldlM_cons]
    exact (gives_addProp e b p).bind fun b' => ih b'

private theorem gives_normalized (p : Property) :
    Gives o s (normalizeProperty p) (.ok (Answer.normalized p)) [] := by
  unfold normalizeProperty Answer.normalized
  cases normalizer? p with
  | none => exact gives_pure _
  | some h =>
    simp only
    split
    · exact gives_pure _
    · exact (gives_pure _).after_helper _

private theorem gives_normalizedList (ps : List Property) :
    Gives o s (ps.mapM normalizeProperty) (.ok (ps.map Answer.normalized)) [] := by
  induction ps with
  | nil => exact gives_pure _
  | cons p ps ih =>
    rw [List.mapM_cons]
    exact (gives_normalized p).bind fun _ => ih.bind fun _ => gives_pure _

theorem gives_props (b : PropsBuilder) : Gives o s b.finish (.ok (Answer.props b)) [] := by
  unfold PropsBuilder.finish Answer.props
  split
  · exact ((gives_pure _).after_helper _).map some
  · split
    · exact gives_pure _
    · split
      · exact ((gives_pure _).after_helper _).map some
      · exact (gives_normalizedList _).bind fun _ => gives_pure _

private theorem gives_componentTag {e : Element} (hc : e.isComponent = true) :
    Gives o s (componentTagIn o e) (.ok (Answer.tag o e)) (lookup? o e).toList := by
  unfold componentTagIn Answer.tag lookup?
  rw [hc]
  cases setupReference? o e.tag with
  | none => exact (gives_pure _).after_component _
  | some ref =>
    obtain ⟨code, usesUnref⟩ := ref
    cases usesUnref
    · exact gives_pure _
    · exact (gives_pure _).after_helper _

theorem gives_tag (e : Element) :
    Gives o s (tagOf e) (.ok (Answer.tag o e)) (lookup? o e).toList := by
  unfold tagOf
  cases hc : e.isComponent with
  | false =>
    rw [Answer.tag, lookup?, hc]
    exact gives_pure _
  | true =>
    refine gives_get (m := componentTagIn o e) ?_ (gives_componentTag hc)
    rintro c rfl rfl
    rfl

theorem gives_built (e : Element) : Gives o s (buildProps standardDirectives e)
    (Answer.build <$> e.props.foldlM (Answer.addProp o s e) {}) [] := by
  rw [← bind_pure_comp]
  exact (gives_addProps e {} e.props).bind fun b => (gives_props b).bind fun _ => gives_pure _

/-- Finishing an element registers no component but the one that its tag looks up. -/
theorem gives_finished (e : Element) :
    Gives o s (finishElement standardDirectives e) (Answer.finished o s e)
      (lookup? o e).toList := by
  unfold finishElement Answer.finished
  split
  · rename_i hk
    have hlookup : lookup? o e = none := by
      have hk : e.kind = .template := by simpa using hk
      simp [lookup?, Element.isComponent, hk]
    rw [hlookup]
    exact (gives_pure _).after_helper _
  · let finish (tag : VNodeTag) (built : BuiltProps) : Element :=
      { e with
        children := []
        code := some (.vnode { Answer.vnode o e built with tag }) }
    have h (tag : VNodeTag) (built : BuiltProps) : Gives o s (do
        LowerM.helper .createElementVNode
        if built.directives.isSome then LowerM.helper .withDirectives
        return finish tag built) (.ok (finish tag built)) [] := by
      refine Gives.after_helper ?_ _
      dsimp only
      split
      · exact (gives_pure _).after_helper _
      · exact gives_pure _
    have hr : (do
        let b ← e.props.foldlM (Answer.addProp o s e) {}
        return finish (Answer.tag o e) (Answer.build b) : Except Fault Element) =
        (do
          let tag ← .ok (Answer.tag o e)
          let built ← Answer.build <$> e.props.foldlM (Answer.addProp o s e) {}
          .ok (finish tag built)) := by
      cases e.props.foldlM (Answer.addProp o s e) {} <;> rfl
    exact hr ▸ (gives_tag e).andThen fun tag => (gives_built e).bind fun built => h tag built

private theorem gives_body (e : Element) : Gives o s (takeBody e) (.ok (Answer.body e)) [] := by
  have hfragment : Gives o s (do
      LowerM.helper .fragment
      return some (bodyFragment e, { e with children := [] }))
      (.ok (some (bodyFragment e, { e with children := [] }))) [] := (gives_pure _).after_helper _
  unfold takeBody Answer.body
  split
  · exact gives_pure _
  · rcases hcs : e.children with _ | ⟨c, _ | ⟨c', rest⟩⟩
    · exact hfragment
    · cases c with
      | element child =>
        simp only
        cases takeVNode? child with
        | some v => exact gives_pure _
        | none => exact (gives_pure _).after_helper _
      | _ => exact hfragment
    · cases c <;> exact hfragment

theorem gives_finishedLoop (l : Loop) : Gives o s (finishLoop l) (Answer.finishedLoop l) [] := by
  unfold finishLoop Answer.finishedLoop
  rcases hcs : l.children with _ | ⟨c, rest⟩
  · exact gives_refuse _
  · cases c with
    | element e =>
      have h (b : Option (VNode × Element)) : Gives o s (match b with
          | none => LowerM.refuse (.of .missingCode l.span)
          | some (v, e') => do
            LowerM.helper .renderList
            LowerM.helper .fragment
            LowerM.helper .createElementVNode
            return { l with children := .element e' :: rest, code := some (loopCode l v) })
          (match b with
          | none => .error (.refused (.of .missingCode l.span))
          | some (v, e') =>
            .ok { l with children := .element e' :: rest, code := some (loopCode l v) }) [] := by
        rcases b with _ | ⟨v, e'⟩
        · exact gives_refuse _
        · exact (((gives_pure _).after_helper _).after_helper _).after_helper _
      exact (gives_body e).bind h
    | _ => exact gives_refuse _

private theorem gives_fragment (r : Root) (cs : List Child) :
    Gives o s (wrapFragment r cs) (.ok (Answer.fragment r cs)) [] :=
  ((gives_pure _).after_helper _).after_helper _

/-- The choice of the code of a root registers no component. -/
theorem gives_root (r : Root) : Gives o s (chooseCode r) (Answer.root r) [] := by
  unfold chooseCode Answer.root
  rcases hcs : r.children with _ | ⟨c, _ | ⟨c', rest⟩⟩
  · exact gives_pure _
  · cases c with
    | element e =>
      simp only
      split
      · exact gives_fragment _ _
      · rcases e.code with _ | (v | x)
        · exact gives_refuse _
        · exact gives_pure _
        · exact gives_pure _
    | loop l =>
      simp only
      cases l.code with
      | none => exact gives_refuse _
      | some v => exact gives_pure _
    | _ => exact gives_pure _
  · cases c <;> exact gives_fragment _ _

theorem registers_simple (e : Simple) : Registers e.process := fun _ _ => ⟨_, _, gives_simple e⟩

theorem registers_expression (e : Expression) : Registers e.process :=
  fun _ _ => ⟨_, _, gives_expression e⟩

theorem registers_processProps (ps : List ElementProp) : Registers (ps.mapM processProp) :=
  fun _ _ => ⟨_, _, gives_mapM gives_prop ps⟩

theorem registers_finishElement (e : Element) : Registers (finishElement standardDirectives e) :=
  fun _ _ => ⟨_, _, gives_finished e⟩

theorem registers_finishLoop (l : Loop) : Registers (finishLoop l) :=
  fun _ _ => ⟨_, _, gives_finishedLoop l⟩

theorem registers_chooseCode (r : Root) : Registers (chooseCode r) :=
  fun _ _ => ⟨_, _, gives_root r⟩

end TemplateCompiler.Lowering
