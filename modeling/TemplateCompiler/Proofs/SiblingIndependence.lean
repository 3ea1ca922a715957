import Mathlib.Data.List.Induction
import TemplateCompiler.Proofs.WalkAgreement

/-! Siblings do not see each other. All of them are walked with one state, but what a walk adds to
the registrations does not depend on those that stand there already, and the names it declares are
gone when it ends. -/
namespace TemplateCompiler

def HelperSet.union (s t : HelperSet) : HelperSet :=
  ofPredicate fun h => s.contains h || t.contains h

/-- Registering components behind others adds those that would be added without the others, less
the ones that are among them. -/
private theorem Note.foldl_addComponent_of_subset (ns : List Note) {cs ds : List String}
    (h : cs ⊆ ds) :
    ns.foldl addComponent ds = ds ++ (ns.foldl addComponent cs).filter (!ds.contains ·) := by
  induction ns using List.reverseRecOn with
  | nil =>
    have hnone : cs.filter (!ds.contains ·) = [] := by
      rw [List.filter_eq_nil_iff]
      intro x hx
      simpa using h hx
    rw [List.foldl_nil, List.foldl_nil, hnone, List.append_nil]
  | append_singleton ns n ih =>
    rw [List.foldl_append, List.foldl_append, ih]
    generalize ns.foldl addComponent cs = fs
    cases n with
    | helper x => rfl
    | component x =>
      simp only [List.foldl_cons, List.foldl_nil, addComponent]
      by_cases hds : x ∈ ds <;> by_cases hfs : x ∈ fs <;> simp [hds, hfs]

private theorem Context.helpers_noteAll (c : Context) (ns ms : List Note) :
    ((c.noteAll ns).noteAll ms).helpers = (c.noteAll ns).helpers.union (c.noteAll ms).helpers := by
  apply HelperSet.ext_contains
  intro h
  rw [HelperSet.union, HelperSet.contains_ofPredicate, Bool.eq_iff_iff, Bool.or_eq_true]
  simp only [noteAll, HelperSet.contains_foldl_insert]
  tauto

private theorem Context.components_noteAll (c : Context) (ns ms : List Note) :
    ((c.noteAll ns).noteAll ms).components = (c.noteAll ns).components ++
      (c.noteAll ms).components.filter (!(c.noteAll ns).components.contains ·) := by
  apply Note.foldl_addComponent_of_subset
  rw [noteAll, Note.foldl_addComponent_of_subset ns (List.Subset.refl c.components)]
  exact List.subset_append_left _ _

namespace Lowering

open LowerM

variable {σ : Type}

/-- The walk has stopped with the fault, or left the children behind in the given state. Where the
walk stands at its end is left open. -/
def Ended (w : Walked σ) (c : Context) : Except Fault (List Child) → Prop
  | .ok cs => w.fault = none ∧ w.children = cs ∧ ∃ k, w.context = c.at k
  | .error f => w.fault = some f

private theorem Ended.fault_eq {w : Walked σ} {c : Context} {x : Except Fault (List Child)}
    (h : Ended w c x) : w.fault = errorOf? x := by
  cases x with
  | error f => exact h
  | ok cs => exact h.1

private theorem Ended.of_no_fault {w : Walked σ} {c : Context} {x : Except Fault (List Child)}
    (h : Ended w c x) (hw : w.fault = none) :
    ∃ cs, x = .ok cs ∧ w.children = cs ∧ ∃ k, w.context = c.at k := by
  cases x with
  | error f =>
    rw [h.fault_eq] at hw
    cases hw
  | ok cs => exact ⟨cs, rfl, h.2⟩

private theorem walkList_removed (visit : VisitM σ Unit) (parent : NodeKind) (index : Nat)
    (node : Child)
    (rest : List Child) (c : Context) (mem : σ) :
    walkList visit parent index (node :: rest) c mem =
      walkList visit parent index (node :: rest) (c.at { c.cursor with removed := false }) mem := by
  rw [walkList, walkList]

private theorem walkChildren_ended {c : Context} {cs : List Child} {x : Except Fault (List Child)}
    {ns : List Note} (hp : c.scope.Positive)
    (h : Lexical.children cs c = answer x (c.noteAll ns)) (parent : NodeKind) (mem : σ) :
    Ended (walkChildren standardPasses parent cs c mem) (c.noteAll ns) x := by
  cases cs with
  | nil =>
    rw [Lexical.children] at h
    cases x with
    | error f => cases h
    | ok cs' =>
      obtain ⟨rfl, hc⟩ : [] = cs' ∧ c = c.noteAll ns := by
        injection h with h₁ h₂
        exact ⟨h₁, h₂⟩
      exact ⟨rfl, rfl, c.cursor, by rw [← hc]; rfl⟩
  | cons node rest =>
    have hw := walks_children (σ := σ) (node :: rest) parent 0 c
      { c.cursor with removed := false } mem hp rfl
    rw [← walkList_removed, h] at hw
    rw [walkChildren]
    generalize walkList _ _ _ _ _ _ = w at hw ⊢
    cases x with
    | error f =>
      cases hw
      exact rfl
    | ok cs' =>
      obtain ⟨k, -⟩ := hw
      exact ⟨rfl, rfl, k, rfl⟩

private theorem Lexical.children_append (as bs : List Child) : children (as ++ bs) = (do
    let as' ← children as
    let bs' ← children bs
    return as' ++ bs') := by
  induction as with
  | nil =>
    rw [List.nil_append, children, pure_bind]
    exact (bind_pure _).symm
  | cons a as ih =>
    rw [List.cons_append, children, ih, children]
    simp only [bind_assoc, pure_bind, List.cons_append]

private theorem children_append_run {c : Context} {as bs : List Child}
    {xa xb : Except Fault (List Child)} {na nb : List Note}
    (ha : Lexical.children as c = answer xa (c.noteAll na))
    (hb : Lexical.children bs (c.noteAll na) = answer xb ((c.noteAll na).noteAll nb)) :
    ∃ ns, Lexical.children (as ++ bs) c = answer (do return (← xa) ++ (← xb)) (c.noteAll ns) ∧
      (xa.isOk = true → ns = na ++ nb) := by
  rw [Lexical.children_append, step_bind, ha]
  cases xa with
  | error f => exact ⟨na, rfl, by intro h; cases h⟩
  | ok as' =>
    refine ⟨na ++ nb, ?_, fun _ => rfl⟩
    rw [Context.noteAll_append]
    simp only [answer, step_bind, hb]
    cases xb <;> rfl

/-- A walk over two lists of siblings stops with the fault of the first of them that has one when
it is walked on its own. If neither has, it leaves the children that each list becomes on its own,
one list behind the other, the helpers of both walks, and the components of the first walk with
those of the second that are not among them. Nor does it matter to the second list whether it is
walked from the state that the first one leaves behind. -/
theorem walkChildren_append {c : Context} (hc : c.scope.Reachable) (parent : NodeKind)
    (as bs : List Child) (mem : σ) :
    let walk (cs : List Child) (c : Context) := walkChildren standardPasses parent cs c mem
    (walk (as ++ bs) c).fault = (walk as c).fault.or (walk bs c).fault ∧
      ((walk (as ++ bs) c).fault = none →
        (walk (as ++ bs) c).children = (walk as c).children ++ (walk bs c).children ∧
        (walk (as ++ bs) c).context.helpers =
          (walk as c).context.helpers.union (walk bs c).context.helpers ∧
        (walk (as ++ bs) c).context.components = (walk as c).context.components ++
          (walk bs c).context.components.filter (!(walk as c).context.components.contains ·)) ∧
      ((walk as c).fault = none →
        (walk bs (walk as c).context).fault = (walk bs c).fault ∧
        ((walk bs c).fault = none →
          (walk bs (walk as c).context).children = (walk bs c).children)) := by
  intro walk
  have hp := hc.positive
  obtain ⟨xa, _, na, ha, -⟩ := Lexical.registers_children as c.options c.scope
  obtain ⟨xb, _, nb, hb, -⟩ := Lexical.registers_children bs c.options c.scope
  obtain ⟨ns, hrun, hns⟩ := children_append_run (ha c rfl rfl) (hb (c.noteAll na) rfl rfl)
  have hwa := walkChildren_ended hp (ha c rfl rfl) parent mem
  have hwb := walkChildren_ended hp (hb c rfl rfl) parent mem
  have hwab := walkChildren_ended hp hrun parent mem
  change Ended (walk as c) _ _ at hwa
  change Ended (walk bs c) _ _ at hwb
  change Ended (walk (as ++ bs) c) _ _ at hwab
  have hfault : (walk (as ++ bs) c).fault = (walk as c).fault.or (walk bs c).fault := by
    rw [hwab.fault_eq, hwa.fault_eq, hwb.fault_eq]
    cases xa <;> cases xb <;> rfl
  refine ⟨hfault, fun hnone => ?_, fun hnone => ?_⟩
  · rw [hfault, Option.or_eq_none_iff] at hnone
    obtain ⟨as', rfl, hca, ka, hda⟩ := hwa.of_no_fault hnone.1
    obtain ⟨bs', rfl, hcb, kb, hdb⟩ := hwb.of_no_fault hnone.2
    obtain ⟨-, hcab, kab, hdab⟩ := hwab
    rw [hns rfl, Context.noteAll_append] at hdab
    rw [hcab, hca, hcb, hdab, hda, hdb]
    exact ⟨rfl, c.helpers_noteAll na nb, c.components_noteAll na nb⟩
  · obtain ⟨as', rfl, -, ka, hda⟩ := hwa.of_no_fault hnone
    -- the second list meets the same scope and options, and what it registers does not depend on
    -- the rest of the state
    have hwb' : Ended (walk bs (walk as c).context) ((walk as c).context.noteAll nb) xb := by
      rw [hda]
      exact walkChildren_ended (c := (c.noteAll na).at ka) hp (hb _ rfl rfl) parent mem
    refine ⟨by rw [hwb'.fault_eq, hwb.fault_eq], fun hfb => ?_⟩
    obtain ⟨bs', rfl, hcb, -⟩ := hwb.of_no_fault hfb
    rw [hcb]
    exact hwb'.2.1

/-- A repeated component and an interpolation. -/
def repeatedRow : List Child :=
  [.element {
    tag := "Row"
    kind := .component
    props := [.directive { name := "for", exp := some (.simple (.code "x in xs" .stub)) }] },
   .interpolation { content := .simple (.code "x" .stub) }]

/-- A component that has been registered already, a new one, and one that is among the siblings
before. -/
def cells : List Child :=
  [.element { tag := "Cell", kind := .component },
   .element { tag := "Mark", kind := .component, children := [.text { content := "x" }] },
   .element { tag := "Row", kind := .component }]

theorem repeatedRow_cells_append :
    let c : Context := { scope := .of ["xs"], components := ["Cell"], cursor.removed := true }
    let walk (cs : List Child) := walkChildren standardPasses .root cs c ()
    (walk (repeatedRow ++ cells)).fault = none ∧
      (walk (repeatedRow ++ cells)).children =
        (walk repeatedRow).children ++ (walk cells).children ∧
      (walk cells).context.components = ["Cell", "Mark", "Row"] ∧
      (walk (repeatedRow ++ cells)).context.components = ["Cell", "Row", "Mark"] := by
  intro c walk
  have hfault : (walk (repeatedRow ++ cells)).fault = none := by decide +kernel
  obtain ⟨-, hboth, -⟩ := walkChildren_append (c := c) (.add _ .empty) .root repeatedRow cells ()
  obtain ⟨hchildren, -, hcomponents⟩ := hboth hfault
  refine ⟨hfault, hchildren, by decide +kernel, hcomponents.trans ?_⟩
  decide +kernel

end Lowering

end TemplateCompiler
