import TemplateCompiler.Lowering.Context

/-! The walk over a tree. Each node goes through the passes in order, then its children are
walked, then what the passes left to do on the way out is done in reverse order. A walk that
stops keeps the tree as far as it has been changed. -/
namespace TemplateCompiler

/-- The state of a visit: the state of the lowering, the node in its slot, and whatever the
passes keep for themselves. -/
structure Visit (σ : Type) where
  context : Context
  node : Child
  memory : σ

/-- Steps of a visit. A step that stops keeps the state it has reached. -/
abbrev VisitM (σ : Type) := EStateM Fault (Visit σ)

/-- What a pass does with a node once its children have been walked. -/
abbrev Exit (σ : Type) := VisitM σ Unit

/-- What a pass does when a node is entered; it may leave something to do on the way out. -/
abbrev Pass (σ : Type) := VisitM σ (Option (Exit σ))

variable {σ : Type}

namespace VisitM

/-- Runs a step that needs no place in the tree. -/
def lower {α : Type} (step : LowerM α) : VisitM σ α := fun v =>
  match step v.context with
  | .ok a c => .ok a { v with context := c }
  | .error f c => .error f { v with context := c }

/-- Puts a node into the slot. The kind of the node being visited is not touched. -/
def setNode (node : Child) : VisitM σ Unit := modify fun v => { v with node }

/-- Puts another node into the slot, to be visited in place of the present one. -/
def replaceNode (node : Child) : VisitM σ Unit :=
  modify fun v => { v with node, context := v.context.setCurrent node.kind }

def modifyContext (f : Context → Context) : VisitM σ Unit :=
  modify fun v => { v with context := f v.context }

/-- Runs a step and afterwards, also if it stops, forgets the names it has declared. -/
def keepingScope {α : Type} (step : VisitM σ α) : VisitM σ α := fun v =>
  let leave (w : Visit σ) : Visit σ :=
    { w with context := { w.context with scope := w.context.scope.restore v.context.scope.mark } }
  match step v with
  | .ok a w => .ok a (leave w)
  | .error f w => .error f (leave w)

end VisitM

/-- Enters a node: runs the passes in order and collects what they leave to do, the latest
first. There is nothing to collect once a pass has asked for removal. -/
def enterNode : List (Pass σ) → List (Exit σ) → VisitM σ (Option (List (Exit σ)))
  | [], exits => pure (some exits)
  | pass :: passes, exits => do
    let exit ← pass
    if (← get).context.cursor.removed then return none
    enterNode passes (exit.toList ++ exits)

def leaveNode : List (Exit σ) → VisitM σ Unit
  | [] => pure ()
  | exit :: exits => do
    exit
    leaveNode exits

structure Walked (σ : Type) where
  context : Context
  memory : σ
  children : List Child
  /-- Why the walk stopped early, if it did. -/
  fault : Option Fault

/-- Walks a list of children from left to right, given how to visit one, and takes out those that
asked for removal. The place of a child counts the siblings kept before it. -/
def walkList (visit : VisitM σ Unit) (parent : NodeKind) (index : Nat) :
    List Child → Context → σ → Walked σ
  | [], context, memory => ⟨context, memory, [], none⟩
  | child :: rest, context, memory =>
    let cursor := { context.cursor with parent := some parent, index, removed := false }
    match visit ⟨{ context with cursor }, child, memory⟩ with
    | .error f v => ⟨v.context, v.memory, v.node :: rest, some f⟩
    | .ok _ v =>
      if v.context.cursor.removed then
        walkList visit parent index rest
          { v.context with cursor := { v.context.cursor with removed := false } } v.memory
      else
        let w := walkList visit parent (index + 1) rest v.context v.memory
        { w with children := v.node :: w.children }

/-- Walks the children of the node in the slot, and puts them back by `rebuild`. -/
def walkWithin (visit : VisitM σ Unit) (kind : NodeKind) (children : List Child)
    (rebuild : List Child → Child) : VisitM σ Unit := fun v =>
  let w := walkList visit kind 0 children v.context v.memory
  let v' : Visit σ := ⟨w.context, rebuild w.children, w.memory⟩
  match w.fault with
  | none => .ok () v'
  | some f => .error f v'

/-- What the walk does between entering and leaving a node. -/
def descend (visit : VisitM σ Unit) : VisitM σ Unit := do
  match (← get).node with
  | .interpolation _ => VisitM.lower (LowerM.helper .toDisplayString)
  | .element e => walkWithin visit .element e.children fun cs => .element { e with children := cs }
  | .loop l => walkWithin visit .loop l.children fun cs => .loop { l with children := cs }
  | _ => pure ()

def restoreCursor (parent : Option NodeKind) (index : Nat) : VisitM σ Unit := modify fun v =>
  let cursor := { v.context.cursor with current := some v.node.kind, parent, index }
  { v with context := { v.context with cursor } }

/-- Visits the node in the slot and all below it, down to `limit` levels. Names that are declared
on the way are forgotten when the node is left. -/
def visitNode (passes : List (Pass σ)) : Nat → VisitM σ Unit
  | 0 => throw .tooDeep
  | limit + 1 => VisitM.keepingScope do
    modify fun v => { v with context := v.context.setCurrent v.node.kind }
    match ← enterNode passes [] with
    | none => pure ()
    | some exits =>
      let cursor := (← get).context.cursor
      descend (visitNode passes limit)
      restoreCursor cursor.parent cursor.index
      leaveNode exits

mutual

/-- A limit for the walk over a node: its height, with room on each level for every prop to add
one level and for one level more. -/
def Child.depthLimit : Child → Nat
  | .element e => e.depthLimit
  | .loop l => l.depthLimit
  | _ => 1

def Element.depthLimit : Element → Nat
  | { props, children, .. } => 2 + props.length + depthLimitOf children

def Loop.depthLimit : Loop → Nat
  | { children, .. } => 2 + depthLimitOf children

def depthLimitOf : List Child → Nat
  | [] => 0
  | c :: cs => max c.depthLimit (depthLimitOf cs)

end

def walkChildren (passes : List (Pass σ)) (parent : NodeKind) (children : List Child)
    (context : Context) (memory : σ) : Walked σ :=
  walkList (visitNode passes (depthLimitOf children)) parent 0 children context memory

def walkNode (passes : List (Pass σ)) (node : Child) : VisitM σ Unit :=
  visitNode passes node.depthLimit

end TemplateCompiler
