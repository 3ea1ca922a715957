/-! The runtime functions that generated code may call, and sets of them. -/
namespace TemplateCompiler

/-- A function or value of the runtime, in the order in which the preamble declares them. -/
inductive Helper where
  | createVNode
  | createElementVNode
  | resolveComponent
  | toHandlerKey
  | toDisplayString
  | mergeProps
  | normalizeClass
  | normalizeStyle
  | normalizeProps
  | fragment
  | vModelText
  | withDirectives
  | renderList
  | unref
  deriving DecidableEq, Repr, Inhabited

namespace Helper

def name : Helper → String
  | createVNode => "createVNode"
  | createElementVNode => "createElementVNode"
  | resolveComponent => "resolveComponent"
  | toHandlerKey => "toHandlerKey"
  | toDisplayString => "toDisplayString"
  | mergeProps => "mergeProps"
  | normalizeClass => "normalizeClass"
  | normalizeStyle => "normalizeStyle"
  | normalizeProps => "normalizeProps"
  | fragment => "Fragment"
  | vModelText => "vModelText"
  | withDirectives => "withDirectives"
  | renderList => "renderList"
  | unref => "unref"

def localName (h : Helper) : String := "_" ++ h.name

def all : List Helper :=
  [createVNode, createElementVNode, resolveComponent, toHandlerKey, toDisplayString, mergeProps,
   normalizeClass, normalizeStyle, normalizeProps, fragment, vModelText, withDirectives,
   renderList, unref]

private theorem mem_all (h : Helper) : h ∈ all := by
  cases h <;> decide

def index (h : Helper) : Nat := all.idxOf h

end Helper

/-- A set of helpers, listed in declaration order without repetition. -/
structure HelperSet where
  toList : List Helper
  canonical : toList = Helper.all.filter toList.contains
  deriving Repr

namespace HelperSet

def ofPredicate (p : Helper → Bool) : HelperSet where
  toList := Helper.all.filter p
  canonical := by
    apply List.filter_congr
    intro h hh
    cases hp : p h <;> simp [hh, hp]

def empty : HelperSet := ⟨[], by decide⟩

instance : Inhabited HelperSet := ⟨empty⟩

def contains (s : HelperSet) (h : Helper) : Bool := s.toList.contains h

def insert (s : HelperSet) (h : Helper) : HelperSet := ofPredicate fun x => x == h || s.contains x

def erase (s : HelperSet) (h : Helper) : HelperSet := ofPredicate fun x => x != h && s.contains x

@[simp] theorem contains_ofPredicate (p : Helper → Bool) (h : Helper) :
    (ofPredicate p).contains h = p h := by
  cases hp : p h <;> simp [contains, ofPredicate, hp, Helper.mem_all h]

@[simp] theorem contains_insert (s : HelperSet) (h x : Helper) :
    (s.insert h).contains x = (x == h || s.contains x) := by
  simp [insert]

@[simp] theorem contains_erase (s : HelperSet) (h x : Helper) :
    (s.erase h).contains x = (x != h && s.contains x) := by
  simp [erase]

theorem ext_contains {s t : HelperSet} (h : ∀ x, s.contains x = t.contains x) : s = t := by
  obtain ⟨l, hl⟩ := s
  obtain ⟨m, hm⟩ := t
  have : l = m := by
    rw [hl, hm]
    exact List.filter_congr fun x _ => h x
  subst this
  rfl

end HelperSet

end TemplateCompiler
