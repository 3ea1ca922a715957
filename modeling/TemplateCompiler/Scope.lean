/-! The names declared around a place of the template. A scope keeps them as a stack, so that
leaving a node forgets what was declared in it, beside a table of how often each is declared. -/
namespace TemplateCompiler

/-- How often each name is declared. A name that is not declared has no entry. -/
abbrev Counts := List (String × Nat)

namespace Counts

def bump (name : String) : Counts → Counts
  | [] => [(name, 1)]
  | (n, k) :: rest => if n = name then (n, k + 1) :: rest else (n, k) :: bump name rest

/-- Counts one declaration of the name less; the last one takes the entry along. -/
def release (name : String) : Counts → Counts
  | [] => []
  | (n, k) :: rest =>
    if n = name then if k ≤ 1 then rest else (n, k - 1) :: rest
    else (n, k) :: release name rest

def get? (counts : Counts) (name : String) : Option Nat := counts.lookup name

end Counts

/-- The declared names, the newest first, and their counts. -/
structure Scope where
  stack : List String := []
  counts : Counts := []
  deriving DecidableEq, Repr, Inhabited

namespace Scope

def contains (s : Scope) (name : String) : Bool := (s.counts.get? name).isSome

def push (s : Scope) (name : String) : Scope := ⟨name :: s.stack, s.counts.bump name⟩

def add (s : Scope) (names : List String) : Scope := names.foldl push s

/-- Takes the newest declaration of the name back, if there is one. -/
def drop (s : Scope) (name : String) : Scope :=
  if s.stack.contains name then ⟨s.stack.erase name, s.counts.release name⟩ else s

def remove (s : Scope) (names : List String) : Scope := names.foldl drop s

/-- The depth of the stack, to be restored later. -/
def mark (s : Scope) : Nat := s.stack.length

/-- Forgets the newest `n` declarations. -/
def pop (counts : Counts) : Nat → List String → Scope
  | 0, stack => ⟨stack, counts⟩
  | _ + 1, [] => ⟨[], counts⟩
  | n + 1, name :: stack => pop (counts.release name) n stack

/-- Forgets what was declared since the mark was taken. -/
def restore (s : Scope) (mark : Nat) : Scope := pop s.counts (s.stack.length - mark) s.stack

end Scope

end TemplateCompiler
