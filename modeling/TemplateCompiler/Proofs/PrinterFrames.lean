import TemplateCompiler.Proofs.PrintedText

/-! What printers leave alone. A printer of a node adds to the text and touches nothing of it; what
it adds is told by the node and the level, whether it is refused by the node alone, and the level is
the same behind the node as before it. -/
namespace TemplateCompiler

/-- A node with a printer of its own. -/
inductive CodeNode where
  | simple (s : Simple)
  | text (t : TextNode)
  | expression (e : Expression)
  | interpolation (i : Interpolation)
  | compound (c : Compound)
  | textChild (t : TextChild)
  | propertyKey (e : Expression)
  | code (c : Code)
  | call (c : Call)
  | object (o : ObjectCode)
  | array (a : ArrayCode)
  | function (f : FunctionCode)
  | vnode (v : VNode)
  | tag (t : VNodeTag)
  | props (p : PropsCode)
  | vnodeChildren (c : VNodeChildren)
  | child (c : Child)
  | children (cs : List Child)
  | root (r : Root)

namespace CodeNode

def print : CodeNode → Print.PrintM Unit
  | simple s => Print.simple s
  | text t => Print.text t
  | expression e => Print.expression e
  | interpolation i => Print.interpolation i
  | compound c => Print.compound c
  | textChild t => Print.textChild t
  | propertyKey e => Print.propertyKey e
  | code c => Print.code c
  | call c => Print.call c
  | object o => Print.object o
  | array a => Print.array a
  | function f => Print.function f
  | vnode v => Print.vnode v
  | tag t => Print.tag t
  | props p => Print.props p
  | vnodeChildren c => Print.vnodeChildren c
  | child c => Print.child c
  | children cs => Print.children cs
  | root r => Print.rootCode r

end CodeNode

private theorem levelAfter_rootCode (level : Nat) (r : Root) :
    levelAfter level r.codeStrokes = level := by
  unfold Root.codeStrokes
  rcases r.code with _ | (v | c)
  · dsimp only
    split <;> rfl
  · exact levelAfter_vnode level v
  · exact levelAfter_child level c

namespace Print

variable {α β : Type}

/-- Whatever has been printed before, the printer adds a text that the level alone decides on.
Either it always succeeds, with one answer, and leaves the level as it was, or it is always refused,
for one reason; a refusal may leave another level. -/
def Framed (m : PrintM α) : Prop :=
  ∃ added : Nat → String,
    (∃ a, ∀ w, m w = .ok a ⟨w.code ++ added w.level, w.level⟩) ∨
    ∃ (d : Diagnostic) (left : Nat → Nat),
      ∀ w, m w = .error d ⟨w.code ++ added w.level, left w.level⟩

private theorem Framed.map {m : PrintM α} (h : Framed m) (f : α → β) : Framed (f <$> m) := by
  obtain ⟨added, ⟨a, hm⟩ | ⟨d, left, hm⟩⟩ := h
  · refine ⟨added, .inl ⟨f a, fun w => ?_⟩⟩
    rw [← bind_pure_comp, step_bind, hm]
    rfl
  · refine ⟨added, .inr ⟨d, left, fun w => ?_⟩⟩
    rw [← bind_pure_comp, step_bind, hm]

private theorem framed_of_draws {m : PrintM Unit} {xs : List Stroke} (hm : m = drawAll xs)
    (hl : ∀ level, levelAfter level xs = level) : Framed m := by
  subst hm
  cases h : firstRefusal? xs with
  | none =>
    refine ⟨fun level => printedAt level xs, .inl ⟨(), fun w => ?_⟩⟩
    rw [drawAll_of_none h, hl]
  | some d =>
    -- Only the strokes before the refusal are drawn, and these may end inside of a block.
    obtain ⟨drawn, hdrawn⟩ := exists_drawn h
    exact ⟨fun level => printedAt level drawn, .inr ⟨d, fun level => levelAfter level drawn,
      hdrawn⟩⟩

private theorem children_eq (cs : List Child) : children cs = vnodeChildren (.many cs) := by
  rw [vnodeChildren]
  rfl

private theorem framed_print (n : CodeNode) : Framed n.print := by
  cases n with
  | simple s => exact framed_of_draws (simple_draws s) fun _ => levelAfter_of_inline s.inline
  | text t => exact framed_of_draws (textChild_draws (.text t)) fun _ => rfl
  | expression e =>
    exact framed_of_draws (expression_draws e) fun _ => levelAfter_of_inline e.inline
  | interpolation i =>
    exact framed_of_draws (interpolation_draws i) fun _ => levelAfter_of_inline i.inline
  | compound c => exact framed_of_draws (compound_draws c) fun _ => levelAfter_of_inline c.inline
  | textChild t => exact framed_of_draws (textChild_draws t) fun _ => levelAfter_of_inline t.inline
  | propertyKey e => exact framed_of_draws (propertyKey_draws e) fun _ => levelAfter_key e
  | code c => exact framed_of_draws (code_draws c) fun level => levelAfter_code level c
  | call c => exact framed_of_draws (call_draws c) fun level => levelAfter_call level c
  | object o => exact framed_of_draws (object_draws o) fun level => levelAfter_object level o
  | array a => exact framed_of_draws (array_draws a) fun level => levelAfter_array level a
  | function f => exact framed_of_draws (function_draws f) fun level => levelAfter_function level f
  | vnode v => exact framed_of_draws (vnode_draws v) fun level => levelAfter_vnode level v
  | tag t => exact framed_of_draws (tag_draws t) fun _ => levelAfter_tag t
  | props p => exact framed_of_draws (props_draw p) fun level => levelAfter_props level p
  | vnodeChildren c =>
    exact framed_of_draws (vnodeChildren_draw c) fun level => levelAfter_vnodeChildren level c
  | child c => exact framed_of_draws (child_draws c) fun level => levelAfter_child level c
  | children cs =>
    exact framed_of_draws ((children_eq cs).trans (vnodeChildren_draw (.many cs))) fun level =>
      levelAfter_vnodeChildren level (.many cs)
  | root r => exact framed_of_draws (rootCode_draws r) fun level => levelAfter_rootCode level r

private theorem framed_childList (isFirst : Bool) (cs : List Child) : Framed
    (childList isFirst cs) := by
  rw [childList_draws, bind_pure_comp]
  exact (framed_of_draws rfl fun level => levelAfter_childList level isFirst cs).map _

/-- A function whose body is a block prints the body one level further in, and its closing brace on
the level where it started. -/
private theorem function_block {f : FunctionCode} {r : Returns} {w : Writer} {head body : String}
    (hblock : f.newline = true) (hr : f.returns = some r) (hhead : Emits w (params f.params) head)
    (hbody : Emits ⟨"", w.level + 1⟩ (returns r) body) :
    Emits w (function f) ("(" ++ head ++ ") => \x7b" ++ lineBreak (w.level + 1) ++ "return " ++
      body ++ lineBreak w.level ++ "\x7d") := by
  rw [params_draw, drawAll_emits_iff (levelAfter_params f.params)] at hhead
  rw [returns_draw, drawAll_emits_iff (levelAfter_returns _ r)] at hbody
  rw [function_draws, drawAll_emits_iff (levelAfter_function _ f)]
  obtain ⟨ps, _, _, _⟩ := f
  dsimp only at hblock hr hhead
  subst hblock hr
  have hopen : ") => \x7b" = ") => " ++ "\x7b" := rfl
  simp [FunctionCode.strokes, Stroke.refusal?, printedAt, Stroke.printedAt, Stroke.levelAfter,
    levelAfter_returns, String.append_assoc, hhead, hbody, hopen, -String.reduceAppend]

/-- Every printer of a node only adds to the text. What it adds, and whether it is refused and why,
does not depend on the text; a refusal is told by the node alone, what is added by node and level.
The level behind a node that is printed is the one before it. Lists of children also answer whether
anything has been printed, by the list alone. Blocks print their bodies one level further in, and so
do the blocks inside of these, and they close on the level where they started. -/
theorem printers_framed :
    (∀ n : CodeNode, Framed n.print) ∧
    (∀ isFirst cs, Framed (childList isFirst cs)) ∧
    ∀ (f : FunctionCode) (r : Returns) (w : Writer) (head body : String),
      f.newline = true → f.returns = some r → Emits w (params f.params) head →
      Emits ⟨"", w.level + 1⟩ (returns r) body →
      Emits w (function f) ("(" ++ head ++ ") => \x7b" ++ lineBreak (w.level + 1) ++ "return " ++
        body ++ lineBreak w.level ++ "\x7d") :=
  ⟨framed_print, framed_childList, fun _ _ _ _ _ => function_block⟩

/-- A block that returns its parameter. -/
def innerBlock : FunctionCode where
  params := some (.raw "m")
  returns := some (.code (.expression (.simple { content := "m" })))
  newline := true

/-- A block that returns another. -/
def outerBlock : FunctionCode where
  params := some (.raw "n")
  returns := some (.code (.function innerBlock))
  newline := true

theorem outerBlock_framed :
    Emits ⟨"", 2⟩ (returns (.code (.function innerBlock)))
      "(m) => \x7b\n      return m\n    \x7d" ∧
    Emits ⟨"[", 1⟩ (function outerBlock)
      "(n) => \x7b\n    return (m) => \x7b\n      return m\n    \x7d\n  \x7d" := by
  have hinner := printers_framed.2.2 innerBlock (.code (.expression (.simple { content := "m" })))
    ⟨"", 2⟩ "m" "m" rfl rfl rfl (by rw [returns, code, expression]; rfl)
  have hreturns : Emits ⟨"", 2⟩ (returns (.code (.function innerBlock)))
      "(m) => \x7b\n      return m\n    \x7d" := by
    rw [returns, code]
    exact hinner
  exact ⟨hreturns, printers_framed.2.2 outerBlock (.code (.function innerBlock)) ⟨"[", 1⟩ "n" _ rfl
    rfl rfl hreturns⟩

end Print

end TemplateCompiler
