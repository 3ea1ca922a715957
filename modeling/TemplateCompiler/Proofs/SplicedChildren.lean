import Mathlib.Data.List.Forall2
import TemplateCompiler.Proofs.PrintedText

/-! Lists of children. A template element without code prints as its children do in its place, so a
list prints as the list in which every such element has been replaced by its children: their codes
with commas between them, or the refusal of the first of them that is refused. -/
namespace TemplateCompiler

mutual

/-- The children that stand for the child in a list. -/
def Child.spliced : Child → List Child
  | .element e => e.spliced
  | c => [c]

/-- The children that stand for the element in a list: its own, in turn, if it is a template element
without code, and else itself. -/
def Element.spliced : Element → List Child
  | { tag, kind, props, children := cs, isSelfClosing, span, code } =>
    if code.isNone && kind == .template then spliceAll cs
    else [.element { tag, kind, props, children := cs, isSelfClosing, span, code }]

/-- The children that stand for those of the list. -/
def spliceAll : List Child → List Child
  | [] => []
  | c :: rest => c.spliced ++ spliceAll rest

end

/-- The strokes of children that are printed one by one, with commas between them; `isFirst` says
that nothing stands before them. -/
def separatedStrokes (isFirst : Bool) : List Child → List Stroke
  | [] => []
  | c :: rest => separator isFirst ++ c.strokes ++ separatedStrokes false rest

private theorem separatedStrokes_append (isFirst : Bool) (cs ds : List Child) :
    separatedStrokes isFirst (cs ++ ds) =
      separatedStrokes isFirst cs ++ separatedStrokes (isFirst && cs.isEmpty) ds := by
  induction cs generalizing isFirst with
  | nil => simp [separatedStrokes]
  | cons c cs ih => simp [separatedStrokes, ih]

private theorem spliceAll_eq (cs : List Child) : spliceAll cs = cs.flatMap Child.spliced := by
  induction cs with
  | nil => rw [spliceAll, List.flatMap_nil]
  | cons c cs ih => rw [spliceAll, List.flatMap_cons, ih]

private theorem areVoid_eq {cs : List Child} (h : ∀ c ∈ cs, c.isVoid = c.spliced.isEmpty) :
    areVoid cs = (spliceAll cs).isEmpty := by
  induction cs with
  | nil => simp [areVoid, spliceAll]
  | cons c cs ih =>
    obtain ⟨hc, hcs⟩ := List.forall_mem_cons.mp h
    rw [areVoid, spliceAll, hc, ih hcs]
    cases c.spliced <;> rfl

private theorem Child.isVoid_eq (c : Child) : c.isVoid = c.spliced.isEmpty := by
  induction c using Child.induction with
  | element e ih =>
    obtain ⟨tag, kind, props, cs, isSelfClosing, span, code⟩ := e
    rw [Child.isVoid, Child.spliced, Element.isVoid, Element.spliced, areVoid_eq ih]
    cases code.isNone && kind == .template <;> rfl
  | _ => simp [Child.isVoid, Child.spliced]

private theorem childListStrokes_of_listed {cs : List Child}
    (h : ∀ c ∈ cs, ∀ isFirst, c.listedStrokes isFirst = separatedStrokes isFirst c.spliced)
    (isFirst : Bool) : childListStrokes isFirst cs = separatedStrokes isFirst (spliceAll cs) := by
  induction cs generalizing isFirst with
  | nil => rw [childListStrokes, spliceAll, separatedStrokes]
  | cons c cs ih =>
    obtain ⟨hc, hcs⟩ := List.forall_mem_cons.mp h
    -- The rest is still first exactly if no child stands for `c`.
    rw [childListStrokes, spliceAll, separatedStrokes_append, hc, Child.isVoid_eq, ih hcs]

private theorem Child.listedStrokes_eq (c : Child) (isFirst : Bool) :
    c.listedStrokes isFirst = separatedStrokes isFirst c.spliced := by
  induction c using Child.induction generalizing isFirst with
  | element e ih =>
    obtain ⟨tag, kind, props, cs, isSelfClosing, span, code⟩ := e
    rw [Child.listedStrokes, Child.spliced]
    cases code with
    | some c =>
      simp [Element.listedStrokes, Element.spliced, separatedStrokes, Child.strokes,
        Element.strokes]
    | none =>
      simp only [Element.listedStrokes, Element.spliced, Option.isNone_none, Bool.true_and]
      split
      · exact childListStrokes_of_listed ih isFirst
      · simp [separatedStrokes, Child.strokes, Element.strokes]
  | _ => simp [Child.listedStrokes, Child.spliced, separatedStrokes, Child.strokes]

private theorem childListStrokes_eq (isFirst : Bool) (cs : List Child) :
    childListStrokes isFirst cs = separatedStrokes isFirst (spliceAll cs) :=
  childListStrokes_of_listed (fun c _ => c.listedStrokes_eq) isFirst

private theorem Child.spliced_of_mem {c d : Child} (h : d ∈ c.spliced) : d.spliced = [d] := by
  induction c using Child.induction with
  | element e ih =>
    obtain ⟨tag, kind, props, cs, isSelfClosing, span, code⟩ := e
    rw [Child.spliced, Element.spliced] at h
    split at h
    · rw [spliceAll_eq] at h
      obtain ⟨c, hc, hd⟩ := List.mem_flatMap.mp h
      exact ih c hc hd
    · rename_i hcode
      rw [List.mem_singleton.mp h, Child.spliced, Element.spliced, if_neg hcode]
  | _ =>
    simp only [Child.spliced, List.mem_singleton] at h
    simp [h, Child.spliced]

private theorem spliceAll_spliceAll (cs : List Child) : spliceAll
    (spliceAll cs) = spliceAll cs := by
  have hself : ∀ ds : List Child, (∀ d ∈ ds, d.spliced = [d]) → spliceAll ds = ds := by
    intro ds hds
    induction ds with
    | nil => rw [spliceAll]
    | cons d ds ih =>
      obtain ⟨hd, hds⟩ := List.forall_mem_cons.mp hds
      rw [spliceAll, hd, ih hds]
      rfl
  refine hself _ ?_
  rw [spliceAll_eq, List.forall_mem_flatMap]
  exact fun c _ d hd => Child.spliced_of_mem hd

private theorem firstRefusal?_separated (isFirst : Bool) (cs : List Child) :
    firstRefusal? (separatedStrokes isFirst cs) =
      cs.findSome? fun c => firstRefusal? c.strokes := by
  induction cs generalizing isFirst with
  | nil => rfl
  | cons c cs ih =>
    rw [separatedStrokes, firstRefusal?_append, firstRefusal?_append,
      firstRefusal?_of_inline (inline_separator isFirst), Option.none_or, ih, List.findSome?_cons]
    cases firstRefusal? c.strokes <;> rfl

private theorem printedAt_separated (level : Nat) (cs : List Child) :
    printedAt level (separatedStrokes true cs) =
      ", ".intercalate (cs.map fun c => printedAt level c.strokes) := by
  induction cs with
  | nil => rfl
  | cons c cs ih =>
    cases cs with
    | nil => simp [separatedStrokes, separator]
    | cons d cs =>
      have hcons : separatedStrokes true (c :: d :: cs) =
          c.strokes ++ .raw ", " :: separatedStrokes true (d :: cs) := rfl
      rw [List.map_cons] at ih
      rw [hcons, printedAt_append, levelAfter_child, printedAt, List.map_cons, List.map_cons,
        String.intercalate_cons_cons, String.append_assoc, ← ih]
      rfl

namespace Print

variable {cs : List Child} {w w' : Writer} {d : Diagnostic}

private theorem children_draws (cs : List Child) :
    children cs = drawAll (.raw "[" :: separatedStrokes true (spliceAll cs) ++ [.raw "]"]) := by
  rw [← childListStrokes_eq]
  simp [children, childList_draws, drawAll, drawAll_append, Stroke.draw]

private theorem children_spliceAll (cs : List Child) : children cs = children (spliceAll cs) := by
  rw [children_draws, children_draws, spliceAll_spliceAll]

private theorem child_emits_iff {c : Child} {code : String} : Emits w (child c) code ↔
    firstRefusal? c.strokes = none ∧ printedAt w.level c.strokes = code := by
  rw [child_draws, drawAll_emits_iff (levelAfter_child w.level c)]

private theorem child_refuses_iff {c : Child} :
    Refuses w (child c) d ↔ firstRefusal? c.strokes = some d := by
  rw [child_draws, drawAll_refuses_iff]

private theorem children_ok_iff : children cs w = .ok () w' ↔
    (∀ c ∈ spliceAll cs, firstRefusal? c.strokes = none) ∧
    w' = { w with code := w.code ++ ("[" ++
      ", ".intercalate ((spliceAll cs).map fun c => printedAt w.level c.strokes) ++ "]") } := by
  have hlevel : levelAfter w.level (separatedStrokes true (spliceAll cs)) = w.level := by
    rw [← childListStrokes_eq, levelAfter_childList]
  rw [children_draws, drawAll_ok_iff]
  simp [firstRefusal?_separated, printedAt_separated, hlevel, printedAt, Stroke.refusal?,
    Stroke.levelAfter, Stroke.printedAt, String.append_assoc]

private theorem children_refuses_iff : Refuses w (children cs) d ↔
    (spliceAll cs).findSome? (fun c => firstRefusal? c.strokes) = some d := by
  rw [children_draws, drawAll_refuses_iff]
  simp [firstRefusal?_separated, Stroke.refusal?]

/-- A list of children is printed as if every template element without code in it were replaced by
its children. It is printed exactly if each of these children is; the text that is added then is
their codes, in their order and with commas between them, in square brackets. It is refused exactly
if one of them is, and in the way of the first of those. -/
theorem children_splice (cs : List Child) (w : Writer) :
    children cs = children (spliceAll cs) ∧
    (∀ w', children cs w = .ok () w' ↔
      ∃ codes, List.Forall₂ (fun c code => Emits w (child c) code) (spliceAll cs) codes ∧
        w' = { w with code := w.code ++ ("[" ++ ", ".intercalate codes ++ "]") }) ∧
    ∀ d, Refuses w (children cs) d ↔
      ∃ before c after, spliceAll cs = before ++ c :: after ∧
        (∀ b ∈ before, ∃ code, Emits w (child b) code) ∧ Refuses w (child c) d := by
  refine ⟨children_spliceAll cs, fun w' => ?_, fun d => ?_⟩
  · have hcodes (codes : List String) :
        List.Forall₂ (fun c code => Emits w (child c) code) (spliceAll cs) codes ↔
          (∀ c ∈ spliceAll cs, firstRefusal? c.strokes = none) ∧
            (spliceAll cs).map (fun c => printedAt w.level c.strokes) = codes := by
      simp only [child_emits_iff, List.forall₂_and_left, ← List.forall₂_eq_eq_eq,
        List.forall₂_map_left_iff]
    simp only [children_ok_iff, hcodes, and_assoc, exists_and_left, exists_eq_left']
  · simp only [children_refuses_iff, List.findSome?_eq_some_iff, child_emits_iff, child_refuses_iff,
      exists_and_left, exists_eq', and_true]
    constructor
    · rintro ⟨before, c, after, h, hc, hbefore⟩
      exact ⟨before, c, after, h, hbefore, hc⟩
    · rintro ⟨before, c, after, h, hbefore, hc⟩
      exact ⟨before, c, after, h, hc, hbefore⟩

end Print

end TemplateCompiler
