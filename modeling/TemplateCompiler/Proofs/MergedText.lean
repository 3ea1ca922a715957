import Mathlib.Data.List.SplitBy
import TemplateCompiler.Lowering.TextRuns
import TemplateCompiler.Proofs.PrintedText

/-! Runs of text. Joining them replaces each longest run of two or more children that show as text
by one compound, from which the run can be had back, and changes nothing else. The code of such a
compound is the codes of the members of the run with plus signs between them. -/
namespace TemplateCompiler.Lowering

open Print

def areText (a b : Child) : Bool := a.isTextLike && b.isTextLike

/-- The children, cut between any two neighbours that do not both show as text. -/
def textRuns (cs : List Child) : List (List Child) := cs.splitBy areText

/-- Whether the part is the code between two members of a run. -/
def isPlus : Part → Bool
  | .raw code => code == " + "
  | _ => false

/-- A part that shows as text, as a child. -/
def childOfPart? : Part → Option Child
  | .text t => some (.text t)
  | .interpolation i => some (.interpolation i)
  | .compound c => some (.compound c)
  | _ => none

/-- The run that a compound joins: its parts without the code between them. There is none if one of
these parts does not show as text. -/
def runOf? (c : Compound) : Option (List Child) :=
  (c.parts.filter fun p => !isPlus p).mapM childOfPart?

/-- The compound joins a run of two or more children that show as text. -/
structure Joins (run : List Child) (c : Compound) : Prop where
  several : 2 ≤ run.length
  shown : ∀ m ∈ run, m.isTextLike = true
  expanded : runOf? c = some run
  code : ∃ codes, List.Forall₂ (fun m code => ∀ w, Emits w (child m) code) run codes ∧
    ∀ w, Emits w (compound c) (" + ".intercalate codes)

/-- What stands for a run: a child that is a run by itself stays, any other run is joined. -/
inductive StandsFor : List Child → Child → Prop
  | single (c : Child) : StandsFor [c] c
  | joined {run : List Child} {c : Compound} (h : Joins run c) : StandsFor run (.compound c)

variable {cs : List Child} {c : Child} {t : TextChild} {ts : List TextChild}

private theorem childOfText_of_textChild? (h : c.textChild? = some t) : childOfText t = c := by
  cases c <;> cases h <;> rfl

private theorem isTextLike_childOfText (t : TextChild) : (childOfText t).isTextLike = true := by
  cases t <;> rfl

private theorem isTextLike_of_none (h : c.textChild? = none) : c.isTextLike = false := by
  rw [Child.isTextLike, h]
  rfl

/-- The code of a child that shows as text. -/
def textCode (t : TextChild) : String := printedAt 0 t.strokes

private theorem emits_strokes {xs : List Stroke} (h : xs.all Stroke.isInline = true) (w : Writer) :
    Emits w (drawAll xs) (printedAt 0 xs) := by
  rw [drawAll_emits_iff (levelAfter_of_inline h)]
  exact ⟨firstRefusal?_of_inline h, printedAt_of_inline h w.level 0⟩

private theorem emits_textCode (t : TextChild) (w : Writer) :
    Emits w (child (childOfText t)) (textCode t) := by
  have hstrokes : (childOfText t).strokes = t.strokes := by
    cases t <;> simp [childOfText, Child.strokes, TextChild.strokes]
  rw [child_draws, hstrokes]
  exact emits_strokes t.inline w

private theorem printedAt_part (t : TextChild) : printedAt 0
    (partOfText t).strokes = textCode t := by
  cases t <;> simp [partOfText, Part.strokes, textCode, TextChild.strokes]

private theorem printedAt_joined (ts : List TextChild) :
    printedAt 0 (partsStrokes ((ts.map partOfText).intersperse plus)) =
      " + ".intercalate (ts.map textCode) := by
  induction ts with
  | nil => rfl
  | cons t ts ih =>
    cases ts with
    | nil => simp [partsStrokes, printedAt_part]
    | cons u ts =>
      rw [List.map_cons] at ih
      have hplus : printedAt 0 plus.strokes = " + " := by
        simp [plus, Part.strokes, printedAt, Stroke.printedAt]
      simp only [List.map_cons, List.intersperse_cons_cons, partsStrokes, printedAt_append,
        levelAfter_of_inline (Part.inline _), printedAt_part, hplus, ih,
        String.intercalate_cons_cons, String.append_assoc]

private theorem filter_joined (ts : List TextChild) :
    ((ts.map partOfText).intersperse plus).filter (fun p => !isPlus p) = ts.map partOfText := by
  have hpart (t : TextChild) : isPlus (partOfText t) = false := by cases t <;> rfl
  have hplus : isPlus plus = true := by decide
  induction ts with
  | nil => rfl
  | cons t ts ih =>
    cases ts with
    | nil => simp [hpart]
    | cons u ts => simpa [List.filter_cons, hpart, hplus] using ih

private theorem runOf?_joined (ts : List TextChild) :
    runOf? { parts := (ts.map partOfText).intersperse plus } = some (ts.map childOfText) := by
  have hchild (t : TextChild) : childOfPart? (partOfText t) = some (childOfText t) := by
    cases t <;> rfl
  rw [runOf?, filter_joined]
  induction ts with
  | nil => rfl
  | cons t ts ih => simp [hchild, ih]

private theorem joins_joined (h : 2 ≤ ts.length) :
    Joins (ts.map childOfText) { parts := (ts.map partOfText).intersperse plus } where
  several := by rwa [List.length_map]
  shown := by
    intro m hm
    obtain ⟨t, -, rfl⟩ := List.mem_map.mp hm
    exact isTextLike_childOfText t
  expanded := runOf?_joined ts
  code := by
    refine ⟨ts.map textCode, ?_, fun w => ?_⟩
    · rw [List.forall₂_map_left_iff, List.forall₂_map_right_iff]
      exact List.forall₂_same.mpr fun t _ => emits_textCode t
    · rw [compound_draws, Compound.strokes, ← printedAt_joined]
      exact emits_strokes (inline_parts _) w

private theorem textRuns_of_text (hts : ts ≠ []) :
    textRuns (ts.map childOfText) = [ts.map childOfText] := by
  refine List.splitBy_of_isChain (by simpa using hts) (List.Pairwise.isChain ?_)
  rw [List.pairwise_map]
  exact List.pairwise_of_forall fun t u => by simp [areText, isTextLike_childOfText]

private theorem joinRun_standsFor (run : List TextChild) :
    List.Forall₂ StandsFor (textRuns (run.map childOfText)) (joinRun run) := by
  rcases run with _ | ⟨t, _ | ⟨u, ts⟩⟩
  · exact .nil
  · exact .cons (.single _) .nil
  · rw [textRuns_of_text (List.cons_ne_nil _ _)]
    exact .cons (.joined (joins_joined (by simp))) .nil

private theorem areText_left (h : c.textChild? = none) (d : Child) : areText c d = false := by
  rw [areText, isTextLike_of_none h, Bool.false_and]

private theorem areText_right (h : c.textChild? = none) (d : Child) : areText d c = false := by
  rw [areText, isTextLike_of_none h, Bool.and_false]

private theorem textRuns_append_cons (h : c.textChild? = none) (before after : List Child) :
    textRuns (before ++ c :: after) = textRuns before ++ [c] :: textRuns after := by
  have hafter : textRuns ([c] ++ after) = [[c]] ++ textRuns after :=
    List.splitBy_append fun x hx y _ => by
      cases hx
      exact areText_left h y
  rw [textRuns, List.splitBy_append_cons _ fun x _ => areText_right h x]
  exact congrArg (_ ++ ·) hafter

private theorem mergeTextFrom_standsFor (run : List TextChild) (cs : List Child) :
    List.Forall₂ StandsFor (textRuns (run.map childOfText ++ cs)) (mergeTextFrom run cs) := by
  -- Text moves from what is left to the run, and the list that is cut stays the same.
  induction cs generalizing run with
  | nil =>
    rw [List.append_nil, mergeTextFrom]
    exact joinRun_standsFor run
  | cons c cs ih =>
    rw [mergeTextFrom]
    split
    · rename_i t ht
      have hrun := ih (run ++ [t])
      rwa [List.map_append, List.map_singleton, childOfText_of_textChild? ht, List.append_assoc]
        at hrun
    · rename_i hc
      rw [textRuns_append_cons hc]
      exact List.rel_append (joinRun_standsFor run) (.cons (.single c) (ih []))

private theorem hasTextNeighbours_eq_false_iff :
    hasTextNeighbours cs = false ↔ cs.IsChain fun a b => areText a b = false := by
  induction cs with
  | nil => simp [hasTextNeighbours]
  | cons a cs ih =>
    cases cs with
    | nil => simp [hasTextNeighbours]
    | cons b cs => simp [hasTextNeighbours, ih, areText]

private theorem isChain_joinRun (run : List TextChild) :
    (joinRun run).IsChain fun a b => areText a b = false := by
  rcases run with _ | ⟨t, _ | ⟨u, ts⟩⟩
  · exact .nil
  · exact .singleton _
  · exact .singleton _

private theorem isChain_mergeTextFrom (run : List TextChild) (cs : List Child) :
    (mergeTextFrom run cs).IsChain fun a b => areText a b = false := by
  induction cs generalizing run with
  | nil => exact isChain_joinRun run
  | cons c cs ih =>
    rw [mergeTextFrom]
    split
    · exact ih _
    · rename_i hc
      refine List.isChain_append.mpr ⟨isChain_joinRun run, ?_, fun x _ y hy => ?_⟩
      · exact List.isChain_cons.mpr ⟨fun y _ => areText_left hc y, ih []⟩
      · cases hy
        exact areText_right hc x

private theorem mergeTextFrom_of_isChain (cs : List Child) :
    ((cs.IsChain fun a b => areText a b = false) → mergeTextFrom [] cs = cs) ∧
    ∀ t, ((childOfText t :: cs).IsChain fun a b => areText a b = false) →
      mergeTextFrom [t] cs = childOfText t :: cs := by
  induction cs with
  | nil => exact ⟨fun _ => rfl, fun _ _ => rfl⟩
  | cons c cs ih =>
    constructor
    · intro h
      rw [mergeTextFrom]
      split
      · rename_i t ht
        rw [← childOfText_of_textChild? ht] at h ⊢
        exact ih.2 t h
      · rw [ih.1 h.tail]
        rfl
    · intro t h
      obtain ⟨htext, h⟩ := List.isChain_cons.mp h
      have hc : c.isTextLike = false := by
        simpa [areText, isTextLike_childOfText] using htext c rfl
      have hnone : c.textChild? = none := by simpa [Child.isTextLike] using hc
      rw [mergeTextFrom]
      simp only [hnone, ih.1 h.tail]
      rfl

private theorem mergeText_eq (cs : List Child) : mergeText cs = mergeTextFrom [] cs := by
  rw [mergeText]
  split
  · rfl
  · rename_i h
    exact ((mergeTextFrom_of_isChain cs).1
      (hasTextNeighbours_eq_false_iff.mp (Bool.eq_false_iff.mpr h))).symm

private theorem mergeText_of_isChain (h : cs.IsChain fun a b => areText a b = false) :
    mergeText cs = cs := by
  rw [mergeText, hasTextNeighbours_eq_false_iff.mpr h]
  rfl

/-- Joining runs of text is exact. The runs make up the list, and what stands for them, one by one,
is the result: a run of one child stays, and for a longer run there is a compound from which it can
be had back, and whose code is the codes of its members with plus signs between them. In the result
no two neighbours show as text. Where the loop over the list is left out, it would have changed
nothing, and neither does joining for a second time. -/
theorem mergeText_exact (cs : List Child) :
    (textRuns cs).flatten = cs ∧
    List.Forall₂ StandsFor (textRuns cs) (mergeText cs) ∧
    ((mergeText cs).IsChain fun a b => ¬(a.isTextLike = true ∧ b.isTextLike = true)) ∧
    mergeTextFrom [] cs = mergeText cs ∧
    mergeText (mergeText cs) = mergeText cs := by
  have hchain := isChain_mergeTextFrom [] cs
  rw [mergeText_eq cs]
  refine ⟨List.flatten_splitBy _ cs, mergeTextFrom_standsFor [] cs, ?_, rfl,
    mergeText_of_isChain hchain⟩
  exact hchain.imp fun a b h => by simpa [areText] using h

end TemplateCompiler.Lowering
