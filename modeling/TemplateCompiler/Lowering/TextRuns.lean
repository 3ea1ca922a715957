import TemplateCompiler.Template.Query

/-! Runs of text: neighbouring children that show as text become one compound expression. -/
namespace TemplateCompiler.Lowering

def partOfText : TextChild → Part
  | .text t => .text t
  | .interpolation i => .interpolation i
  | .compound c => .compound c

def childOfText : TextChild → Child
  | .text t => .text t
  | .interpolation i => .interpolation i
  | .compound c => .compound c

def plus : Part := .raw " + "

/-- The children for a run of text: none, the single member, or a compound that joins
the members. -/
def joinRun : List TextChild → List Child
  | [] => []
  | [t] => [childOfText t]
  | ts => [.compound { parts := (ts.map partOfText).intersperse plus }]

/-- Joins the runs of text in a list, given the run that has been read so far. -/
def mergeTextFrom (run : List TextChild) : List Child → List Child
  | [] => joinRun run
  | c :: rest =>
    match c.textChild? with
    | some t => mergeTextFrom (run ++ [t]) rest
    | none => joinRun run ++ c :: mergeTextFrom [] rest

def hasTextNeighbours : List Child → Bool
  | a :: b :: rest => (a.isTextLike && b.isTextLike) || hasTextNeighbours (b :: rest)
  | _ => false

/-- Joins every run of two or more children that show as text. A list without such a run is
returned as it is. -/
def mergeText (children : List Child) : List Child :=
  if hasTextNeighbours children then mergeTextFrom [] children else children

end TemplateCompiler.Lowering
