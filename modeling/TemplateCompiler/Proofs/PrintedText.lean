import TemplateCompiler.Proofs.Strokes

/-! What strokes add to the text: the code that they print from a level of indentation on, the level
that they lead to, and the first refusal among them. The strokes of a node lead back to the level
that they start from. -/
namespace TemplateCompiler

namespace Stroke

def refusal? : Stroke → Option Diagnostic
  | refuse d => some d
  | _ => none

/-- The level behind the stroke. -/
def levelAfter (level : Nat) : Stroke → Nat
  | indent => level + 1
  | deindent => level - 1
  | _ => level

/-- The code that the stroke adds at a level. -/
def printedAt (level : Nat) : Stroke → String
  | raw t => t
  | helper h => h.localName
  | literal s => Text.Quoted.literal s
  | code s => s.content
  | text t => Text.Quoted.literal t.content
  | display _ => "_toDisplayString("
  | newline => Print.lineBreak level
  | indent => Print.lineBreak (level + 1)
  | deindent => Print.lineBreak (level - 1)
  | refuse _ => ""

/-- Whether the stroke adds the same code at every level, and is not a refusal. -/
def isInline : Stroke → Bool
  | newline => false
  | indent => false
  | deindent => false
  | refuse _ => false
  | _ => true

end Stroke

def firstRefusal? (xs : List Stroke) : Option Diagnostic := xs.findSome? Stroke.refusal?

def levelAfter (level : Nat) (xs : List Stroke) : Nat := xs.foldl Stroke.levelAfter level

/-- The code that strokes add from a level on. -/
def printedAt (level : Nat) : List Stroke → String
  | [] => ""
  | x :: xs => x.printedAt level ++ printedAt (x.levelAfter level) xs

variable {level : Nat} {xs ys : List Stroke} {x : Stroke}

@[simp] theorem firstRefusal?_nil : firstRefusal? [] = none := rfl

@[simp] theorem firstRefusal?_cons :
    firstRefusal? (x :: xs) = x.refusal?.or (firstRefusal? xs) := by
  rw [firstRefusal?, List.findSome?_cons]
  cases x.refusal? <;> rfl

@[simp] theorem firstRefusal?_append :
    firstRefusal? (xs ++ ys) = (firstRefusal? xs).or (firstRefusal? ys) :=
  List.findSome?_append

@[simp] theorem levelAfter_nil : levelAfter level [] = level := rfl

@[simp] theorem levelAfter_cons :
    levelAfter level (x :: xs) = levelAfter (x.levelAfter level) xs := rfl

@[simp] theorem levelAfter_append :
    levelAfter level (xs ++ ys) = levelAfter (levelAfter level xs) ys := List.foldl_append

@[simp] theorem printedAt_append :
    printedAt level (xs ++ ys) = printedAt level xs ++ printedAt (levelAfter level xs) ys := by
  induction xs generalizing level with
  | nil => simp [printedAt]
  | cons x xs ih => simp [printedAt, ih, String.append_assoc]

theorem firstRefusal?_of_inline (h : xs.all Stroke.isInline = true) : firstRefusal? xs = none := by
  refine List.findSome?_eq_none_iff.mpr fun x hx => ?_
  have hx := List.all_eq_true.mp h x hx
  cases x with
  | refuse d => cases hx
  | _ => rfl

theorem levelAfter_of_inline (h : xs.all Stroke.isInline = true) : levelAfter level xs = level := by
  induction xs with
  | nil => rfl
  | cons x xs ih =>
    rw [List.all_cons, Bool.and_eq_true] at h
    cases x with
    | newline | indent | deindent | refuse => cases h.1
    | _ => exact ih h.2

theorem printedAt_of_inline (h : xs.all Stroke.isInline = true) (level other : Nat) :
    printedAt level xs = printedAt other xs := by
  induction xs with
  | nil => rfl
  | cons x xs ih =>
    rw [List.all_cons, Bool.and_eq_true] at h
    cases x with
    | newline | indent | deindent | refuse => cases h.1
    | _ => exact congrArg (_ ++ ·) (ih h.2)

theorem Simple.inline (s : Simple) : s.strokes.all Stroke.isInline = true := by
  rw [Simple.strokes]
  split <;> rfl

mutual

theorem Expression.inline : ∀ e : Expression, e.strokes.all Stroke.isInline = true
  | .simple s => by rw [Expression.strokes, Simple.inline]
  | .compound c => by rw [Expression.strokes, Compound.inline c]

theorem Compound.inline : ∀ c : Compound, c.strokes.all Stroke.isInline = true
  | { parts := ps, .. } => by rw [Compound.strokes, inline_parts ps]

theorem inline_parts : ∀ ps : List Part, (partsStrokes ps).all Stroke.isInline = true
  | [] => by rw [partsStrokes, List.all_nil]
  | p :: rest => by
    rw [partsStrokes, List.all_append, Part.inline p, inline_parts rest, Bool.and_self]

theorem Part.inline : ∀ p : Part, p.strokes.all Stroke.isInline = true
  | .simple s => by rw [Part.strokes, Simple.inline]
  | .compound c => by rw [Part.strokes, Compound.inline c]
  | .interpolation i => by rw [Part.strokes, Interpolation.inline i]
  | .text t => by simp [Part.strokes, Stroke.isInline]
  | .raw code => by simp [Part.strokes, Stroke.isInline]
  | .helper h => by simp [Part.strokes, Stroke.isInline]

theorem Interpolation.inline : ∀ i : Interpolation, i.strokes.all Stroke.isInline = true
  | { content := e, .. } => by
    simp only [Interpolation.strokes, List.cons_append, List.all_cons, List.all_append,
      Expression.inline e, Stroke.isInline, List.all_nil, Bool.and_self]

end

theorem TextChild.inline (t : TextChild) : t.strokes.all Stroke.isInline = true := by
  cases t with
  | text t => rfl
  | interpolation i => exact i.inline
  | compound c => exact c.inline

private theorem Expression.inline_key (e : Expression) :
    e.keyStrokes.all Stroke.isInline = true := by
  cases e with
  | simple s =>
    rw [keyStrokes]
    split <;> rfl
  | compound c => simp [keyStrokes, Stroke.isInline, c.inline]

private theorem Param.inline (p : Param) : p.strokes.all Stroke.isInline = true := by
  cases p with
  | expression e => exact e.inline
  | raw code => rfl

theorem inline_separator (isFirst : Bool) : (separator isFirst).all Stroke.isInline = true := by
  cases isFirst <;> rfl

private theorem inline_paramList (isFirst : Bool) (ps : List Param) :
    (paramListStrokes isFirst ps).all Stroke.isInline = true := by
  induction ps generalizing isFirst with
  | nil => rfl
  | cons p ps ih =>
    rw [paramListStrokes, List.all_append, List.all_append, inline_separator, p.inline, ih]
    rfl

private theorem inline_params (ps : Option Params) :
    (paramsStrokes ps).all Stroke.isInline = true := by
  rcases ps with _ | (e | code | ps)
  · rfl
  · exact e.inline
  · rfl
  · exact inline_paramList true ps

@[simp] theorem levelAfter_separator (isFirst : Bool) :
    levelAfter level (separator isFirst) = level :=
  levelAfter_of_inline (inline_separator isFirst)

@[simp] theorem levelAfter_callee (c : Callee) : levelAfter level c.strokes = level := by
  cases c <;> rfl

@[simp] theorem levelAfter_tag (t : VNodeTag) : levelAfter level t.strokes = level := by
  cases t <;> rfl

@[simp] theorem levelAfter_key (e : Expression) : levelAfter level e.keyStrokes = level :=
  levelAfter_of_inline e.inline_key

@[simp] theorem levelAfter_params (ps : Option Params) :
    levelAfter level (paramsStrokes ps) = level :=
  levelAfter_of_inline (inline_params ps)

mutual

theorem levelAfter_child (level : Nat) : ∀ c : Child, levelAfter level c.strokes = level
  | .element e => by rw [Child.strokes, levelAfter_element level e]
  | .text t => by simp [Child.strokes, Stroke.levelAfter]
  | .interpolation i => by rw [Child.strokes, levelAfter_of_inline i.inline]
  | .loop l => by rw [Child.strokes, levelAfter_loop level l]
  | .compound c => by rw [Child.strokes, levelAfter_of_inline c.inline]

theorem levelAfter_element (level : Nat) : ∀ e : Element, levelAfter level e.strokes = level
  | { code := some c, .. } => by rw [Element.strokes, levelAfter_elementCode level c]
  | { code := none, .. } => by simp [Element.strokes, Stroke.levelAfter]

theorem levelAfter_elementCode (level : Nat) : ∀ c : ElementCode,
    levelAfter level c.strokes = level
  | .vnode v => by rw [ElementCode.strokes, levelAfter_vnode level v]
  | .simple s => by rw [ElementCode.strokes, levelAfter_of_inline s.inline]

theorem levelAfter_loop (level : Nat) : ∀ l : Loop, levelAfter level l.strokes = level
  | { code := some v, .. } => by rw [Loop.strokes, levelAfter_vnode level v]
  | { code := none, .. } => by simp [Loop.strokes, Stroke.levelAfter]

theorem levelAfter_childList (level : Nat) (isFirst : Bool) : ∀ cs : List Child,
    levelAfter level (childListStrokes isFirst cs) = level
  | [] => by rw [childListStrokes, levelAfter_nil]
  | c :: rest => by
    rw [childListStrokes, levelAfter_append, levelAfter_listed level isFirst c,
      levelAfter_childList level _ rest]

theorem levelAfter_listed (level : Nat) (isFirst : Bool) : ∀ c : Child,
    levelAfter level (c.listedStrokes isFirst) = level
  | .element e => by rw [Child.listedStrokes, levelAfter_listedElement level isFirst e]
  | .text t => by simp [Child.listedStrokes, Stroke.levelAfter]
  | .interpolation i => by simp [Child.listedStrokes, levelAfter_of_inline i.inline]
  | .loop l => by simp [Child.listedStrokes, levelAfter_loop level l]
  | .compound c => by simp [Child.listedStrokes, levelAfter_of_inline c.inline]

theorem levelAfter_listedElement (level : Nat) (isFirst : Bool) : ∀ e : Element,
    levelAfter level (e.listedStrokes isFirst) = level
  | { code := some c, .. } => by simp [Element.listedStrokes, levelAfter_elementCode level c]
  | { children := cs, code := none, .. } => by
    simp only [Element.listedStrokes]
    split
    · rw [levelAfter_childList level isFirst cs]
    · simp [Stroke.levelAfter]

theorem levelAfter_vnode (level : Nat) : ∀ v : VNode, levelAfter level v.strokes = level
  | { props := p, children := c, directives := d, .. } => by
    have hp : ∀ p' ∈ p, levelAfter level p'.strokes = level := by
      cases p with
      | none => simp
      | some p => simpa using levelAfter_props level p
    have hc : ∀ c' ∈ c, levelAfter level c'.strokes = level := by
      cases c with
      | none => simp
      | some c => simpa using levelAfter_vnodeChildren level c
    have hd : ∀ d' ∈ d, levelAfter level d'.strokes = level := by
      cases d with
      | none => simp
      | some d => simpa using levelAfter_array level d
    rw [VNode.strokes.eq_def]
    cases p <;> cases c <;> cases d <;> simp [Stroke.levelAfter, hp, hc, hd]

theorem levelAfter_props (level : Nat) : ∀ p : PropsCode, levelAfter level p.strokes = level
  | .object o => by rw [PropsCode.strokes, levelAfter_object level o]
  | .call c => by rw [PropsCode.strokes, levelAfter_call level c]
  | .simple s => by rw [PropsCode.strokes, levelAfter_of_inline s.inline]

theorem levelAfter_vnodeChildren (level : Nat) : ∀ c : VNodeChildren,
    levelAfter level c.strokes = level
  | .many cs => by
    simp [VNodeChildren.strokes, Stroke.levelAfter, levelAfter_childList level true cs]
  | .single t => by rw [VNodeChildren.strokes, levelAfter_of_inline t.inline]
  | .renderList c => by rw [VNodeChildren.strokes, levelAfter_call level c]

theorem levelAfter_code (level : Nat) : ∀ c : Code, levelAfter level c.strokes = level
  | .vnode v => by rw [Code.strokes, levelAfter_vnode level v]
  | .call c => by rw [Code.strokes, levelAfter_call level c]
  | .object o => by rw [Code.strokes, levelAfter_object level o]
  | .array a => by rw [Code.strokes, levelAfter_array level a]
  | .function f => by rw [Code.strokes, levelAfter_function level f]
  | .expression e => by rw [Code.strokes, levelAfter_of_inline e.inline]

theorem levelAfter_call (level : Nat) : ∀ c : Call, levelAfter level c.strokes = level
  | { arguments := as, .. } => by
    simp [Call.strokes, Stroke.levelAfter, levelAfter_argumentList level true as]

theorem levelAfter_argumentList (level : Nat) (isFirst : Bool) : ∀ as : List Argument,
    levelAfter level (argumentListStrokes isFirst as) = level
  | [] => by rw [argumentListStrokes, levelAfter_nil]
  | a :: rest => by
    simp [argumentListStrokes, levelAfter_argument level a,
      levelAfter_argumentList level false rest]

theorem levelAfter_argument (level : Nat) : ∀ a : Argument, levelAfter level a.strokes = level
  | .raw s => by simp [Argument.strokes, Stroke.levelAfter]
  | .helper h => by simp [Argument.strokes, Stroke.levelAfter]
  | .code c => by rw [Argument.strokes, levelAfter_code level c]
  | .child c => by rw [Argument.strokes, levelAfter_child level c]
  | .children cs => by
    simp [Argument.strokes, Stroke.levelAfter, levelAfter_childList level true cs]

theorem levelAfter_object (level : Nat) : ∀ o : ObjectCode, levelAfter level o.strokes = level
  | { properties := ps, .. } => by
    rw [ObjectCode.strokes]
    split
    · simp [Stroke.levelAfter]
    · simp [Stroke.levelAfter, levelAfter_propertyList level true ps]

theorem levelAfter_propertyList (level : Nat) (isFirst : Bool) : ∀ ps : List Property,
    levelAfter level (propertyListStrokes isFirst ps) = level
  | [] => by rw [propertyListStrokes, levelAfter_nil]
  | p :: rest => by
    simp [propertyListStrokes, levelAfter_property level p,
      levelAfter_propertyList level false rest]

theorem levelAfter_property (level : Nat) : ∀ p : Property, levelAfter level p.strokes = level
  | { value := v, .. } => by simp [Property.strokes, Stroke.levelAfter, levelAfter_code level v]

theorem levelAfter_array (level : Nat) : ∀ a : ArrayCode, levelAfter level a.strokes = level
  | { elements := xs, .. } => by
    simp [ArrayCode.strokes, Stroke.levelAfter, levelAfter_itemList level true xs]

theorem levelAfter_itemList (level : Nat) (isFirst : Bool) : ∀ xs : List ArrayItem,
    levelAfter level (itemListStrokes isFirst xs) = level
  | [] => by rw [itemListStrokes, levelAfter_nil]
  | x :: rest => by
    simp [itemListStrokes, levelAfter_item level x, levelAfter_itemList level false rest]

theorem levelAfter_item (level : Nat) : ∀ x : ArrayItem, levelAfter level x.strokes = level
  | .raw s => by simp [ArrayItem.strokes, Stroke.levelAfter]
  | .helper h => by simp [ArrayItem.strokes, Stroke.levelAfter]
  | .code c => by rw [ArrayItem.strokes, levelAfter_code level c]

theorem levelAfter_function (level : Nat) : ∀ f : FunctionCode, levelAfter level f.strokes = level
  | { returns := none, newline := isBlock, .. } => by
    cases isBlock <;> simp [FunctionCode.strokes, Stroke.levelAfter]
  | { returns := some r, newline := true, .. } => by
    simp [FunctionCode.strokes, Stroke.levelAfter, levelAfter_returns (level + 1) r]
  | { returns := some r, newline := false, .. } => by
    simp [FunctionCode.strokes, Stroke.levelAfter, levelAfter_returns level r]

theorem levelAfter_returns (level : Nat) : ∀ r : Returns, levelAfter level r.strokes = level
  | .child c => by rw [Returns.strokes, levelAfter_child level c]
  | .children cs => by simp [Returns.strokes, Stroke.levelAfter, levelAfter_childList level true cs]
  | .code c => by rw [Returns.strokes, levelAfter_code level c]

end

namespace Print

/-- From this state on, the printer adds the code to the text and leaves the rest as it is. -/
def Emits (w : Writer) (m : PrintM Unit) (code : String) : Prop :=
  m w = .ok () { w with code := w.code ++ code }

/-- From this state on, the printer refuses to print. -/
def Refuses (w : Writer) (m : PrintM Unit) (d : Diagnostic) : Prop := ∃ w', m w = .error d w'

private theorem draw_of_none (h : x.refusal? = none) (w : Writer) :
    x.draw w = .ok () ⟨w.code ++ x.printedAt w.level, x.levelAfter w.level⟩ := by
  cases x with
  | refuse d => cases h
  | _ => rfl

theorem drawAll_of_none (h : firstRefusal? xs = none) (w : Writer) :
    drawAll xs w = .ok () ⟨w.code ++ printedAt w.level xs, levelAfter w.level xs⟩ := by
  induction xs generalizing w with
  | nil => simp [drawAll, printedAt, pure, EStateM.pure]
  | cons x xs ih =>
    rw [firstRefusal?_cons, Option.or_eq_none_iff] at h
    rw [drawAll, step_bind, draw_of_none h.1]
    simp only [ih h.2, printedAt, levelAfter_cons, String.append_assoc]

/-- Strokes among which one is refused print those before it, whatever has been printed. -/
theorem exists_drawn {d : Diagnostic} (h : firstRefusal? xs = some d) :
    ∃ drawn, ∀ w, drawAll xs w =
      .error d ⟨w.code ++ printedAt w.level drawn, levelAfter w.level drawn⟩ := by
  induction xs with
  | nil => cases h
  | cons x xs ih =>
    rw [firstRefusal?_cons] at h
    cases hx : x.refusal? with
    | none =>
      rw [hx, Option.none_or] at h
      obtain ⟨drawn, hdrawn⟩ := ih h
      refine ⟨x :: drawn, fun w => ?_⟩
      rw [drawAll, step_bind, draw_of_none hx]
      simp only [hdrawn, printedAt, levelAfter_cons, String.append_assoc]
    | some d' =>
      cases x with
      | refuse d'' =>
        cases hx
        cases h
        refine ⟨[], fun w => ?_⟩
        change EStateM.Result.error d w = .error d ⟨w.code ++ "", w.level⟩
        rw [String.append_empty]
      | _ => cases hx

private theorem drawAll_of_some {d : Diagnostic} (h : firstRefusal? xs = some d) (w : Writer) :
    Refuses w (drawAll xs) d := by
  obtain ⟨drawn, hdrawn⟩ := exists_drawn h
  exact ⟨_, hdrawn w⟩

/-- Strokes are drawn exactly if none of them is refused, and what they add is known. -/
theorem drawAll_ok_iff {w w' : Writer} : drawAll xs w = .ok () w' ↔
    firstRefusal? xs = none ∧ w' = ⟨w.code ++ printedAt w.level xs, levelAfter w.level xs⟩ := by
  cases h : firstRefusal? xs with
  | none =>
    rw [drawAll_of_none h]
    simp [eq_comm]
  | some d =>
    obtain ⟨w'', hw⟩ := drawAll_of_some h w
    simp [hw]

/-- Drawing is refused for the first refusal among the strokes. -/
theorem drawAll_refuses_iff {w : Writer} {d : Diagnostic} :
    Refuses w (drawAll xs) d ↔ firstRefusal? xs = some d := by
  refine ⟨?_, fun h => drawAll_of_some h w⟩
  rintro ⟨w', hw⟩
  cases h : firstRefusal? xs with
  | none =>
    rw [drawAll_of_none h] at hw
    cases hw
  | some d' =>
    obtain ⟨w'', hw'⟩ := drawAll_of_some h w
    rw [hw] at hw'
    cases hw'
    rfl

theorem drawAll_emits_iff {w : Writer} {code : String} (hl : levelAfter w.level xs = w.level) :
    Emits w (drawAll xs) code ↔ firstRefusal? xs = none ∧ printedAt w.level xs = code := by
  rw [Emits, drawAll_ok_iff, hl, Writer.mk.injEq, and_iff_left rfl, String.append_right_inj,
    @eq_comm _ code]

end Print

end TemplateCompiler
