import TemplateCompiler.Print.Expression

/-! Printing of virtual nodes, children and the code around them. -/
namespace TemplateCompiler.Print

/-- The refusal to print an element without code. -/
def elementRefusal (span : Span) (tag : String) : Diagnostic :=
  ⟨.missingCode, some span, some ("<" ++ tag ++ ">")⟩

mutual

/-- Prints a child through its code; elements and loops without code are refused. -/
def child : Child → PrintM Unit
  | .element e => element e
  | .text t => text t
  | .interpolation i => interpolation i
  | .loop l => loop l
  | .compound c => compound c

def element : Element → PrintM Unit
  | { tag := t, span := s, code := c, .. } =>
    match c with
    | some ec => elementCode ec
    | none => refuse (elementRefusal s t)

def elementCode : ElementCode → PrintM Unit
  | .vnode v => vnode v
  | .simple s => simple s

def loop : Loop → PrintM Unit
  | { span := s, code := c, .. } =>
    match c with
    | some v => vnode v
    | none => refuse (.of .missingCode s)

/-- Prints children with commas between them; `isFirst` says that none stands before them, and the
answer says the same of what follows. A template element without code is replaced by its
children. -/
def childList (isFirst : Bool) : List Child → PrintM Bool
  | [] => pure isFirst
  | c :: rest => do
    let isFirst' ← listed isFirst c
    childList isFirst' rest

def listed (isFirst : Bool) : Child → PrintM Bool
  | .element e => listedElement isFirst e
  | .text t => do
    if !isFirst then push ", "
    text t
    return false
  | .interpolation i => do
    if !isFirst then push ", "
    interpolation i
    return false
  | .loop l => do
    if !isFirst then push ", "
    loop l
    return false
  | .compound c => do
    if !isFirst then push ", "
    compound c
    return false

def listedElement (isFirst : Bool) : Element → PrintM Bool
  | { tag := t, kind := k, children := cs, span := s, code := c, .. } =>
    match c with
    | some ec => do
      if !isFirst then push ", "
      elementCode ec
      return false
    | none =>
      if k == .template then childList isFirst cs
      else do
        if !isFirst then push ", "
        refuse (elementRefusal s t)

/-- Prints a call that creates a virtual node. Trailing arguments that are absent are left out;
absent props before children are `null`. Runtime directives wrap the call in another. -/
def vnode : VNode → PrintM Unit
  | { tag := t, props := p, children := c, directives := d, .. } => do
    if d.isSome then
      pushHelper .withDirectives
      push "("
    pushHelper .createElementVNode
    push "("
    tag t
    match p with
    | some p =>
      push ", "
      props p
    | none => if c.isSome then push ", null"
    match c with
    | some c =>
      push ", "
      vnodeChildren c
    | none => pure ()
    push ")"
    match d with
    | some d =>
      push ", "
      array d
      push ")"
    | none => pure ()

def props : PropsCode → PrintM Unit
  | .object o => object o
  | .call c => call c
  | .simple s => simple s

def vnodeChildren : VNodeChildren → PrintM Unit
  | .many cs => do
    push "["
    let _ ← childList true cs
    push "]"
  | .single t => textChild t
  | .renderList c => call c

def code : Code → PrintM Unit
  | .vnode v => vnode v
  | .call c => call c
  | .object o => object o
  | .array a => array a
  | .function f => function f
  | .expression e => expression e

def call : Call → PrintM Unit
  | { callee := f, arguments := as, .. } => do
    callee f
    push "("
    argumentList true as
    push ")"

def argumentList (isFirst : Bool) : List Argument → PrintM Unit
  | [] => pure ()
  | a :: rest => do
    if !isFirst then push ", "
    argument a
    argumentList false rest

def argument : Argument → PrintM Unit
  | .raw s => push s
  | .helper h => pushHelper h
  | .code c => code c
  | .child c => child c
  | .children cs => do
    push "["
    let _ ← childList true cs
    push "]"

def object : ObjectCode → PrintM Unit
  | { properties := ps, .. } =>
    if ps.isEmpty then push "\x7b\x7d"
    else do
      push "\x7b "
      propertyList true ps
      push " \x7d"

def propertyList (isFirst : Bool) : List Property → PrintM Unit
  | [] => pure ()
  | p :: rest => do
    if !isFirst then push ", "
    property p
    propertyList false rest

def property : Property → PrintM Unit
  | { key := k, value := v, .. } => do
    propertyKey k
    push ": "
    code v

def array : ArrayCode → PrintM Unit
  | { elements := xs, .. } => do
    push "["
    itemList true xs
    push "]"

def itemList (isFirst : Bool) : List ArrayItem → PrintM Unit
  | [] => pure ()
  | x :: rest => do
    if !isFirst then push ", "
    item x
    itemList false rest

def item : ArrayItem → PrintM Unit
  | .raw s => push s
  | .helper h => pushHelper h
  | .code c => code c

/-- Prints an arrow function. With `newline` its body is a block that returns the value on a line
of its own. -/
def function : FunctionCode → PrintM Unit
  | { params := ps, returns := r, newline := isBlock, .. } => do
    push "("
    params ps
    push ") => "
    if isBlock then
      push "\x7b"
      indent
      push "return "
    match r with
    | some r => returns r
    | none => pure ()
    if isBlock then
      deindent
      push "\x7d"

def returns : Returns → PrintM Unit
  | .child c => child c
  | .children cs => do
    push "["
    let _ ← childList true cs
    push "]"
  | .code c => code c

end

def children (cs : List Child) : PrintM Unit := do
  push "["
  let _ ← childList true cs
  push "]"

end TemplateCompiler.Print
