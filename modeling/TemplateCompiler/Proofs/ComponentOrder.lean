import Mathlib.Data.List.Induction
import Mathlib.Data.List.Nodup
import TemplateCompiler.Proofs.Scoping

/-! The order in which components are registered. An element registers its component when it is
left, behind the elements inside it, and a component that has been registered keeps its place. -/
namespace TemplateCompiler

private theorem eraseDups_concat (names : List String) (name : String) :
    (names ++ [name]).eraseDups =
    if name ∈ names then names.eraseDups else names.eraseDups ++ [name] := by
  rw [List.eraseDups_append]
  split <;> simp [*, List.removeAll, List.eraseDups_cons]

theorem nodup_eraseDups (names : List String) : names.eraseDups.Nodup := by
  induction names using List.reverseRecOn with
  | nil => exact List.nodup_nil
  | append_singleton names name ih =>
    rw [eraseDups_concat]
    split
    · exact ih
    · rename_i h
      refine List.nodup_append.mpr ⟨ih, List.nodup_singleton name, fun a ha b hb => ?_⟩
      rintro rfl
      rw [List.mem_singleton.mp hb] at ha
      exact h (List.mem_eraseDups.mp ha)

private theorem foldl_addComponent (ns : List Note) :
    ns.foldl Note.addComponent [] = (ns.filterMap Note.component?).eraseDups := by
  induction ns using List.reverseRecOn with
  | nil => rfl
  | append_singleton ns n ih =>
    rw [List.foldl_concat, List.filterMap_append, ih]
    cases n with
    | helper h => exact congrArg List.eraseDups (List.append_nil _).symm
    | component name => simp [Note.addComponent, Note.component?, eraseDups_concat]

/-- The elements of a template in the order in which a walk leaves them. -/
def Root.exits (r : Root) : List Element := Lowering.childrenExits r.children

/-- A lowered template lists the components that it listed before, then those that its elements
register, in the order in which the elements are left and without repetition. -/
theorem Lowering.components_lower {o : LoweringOptions} {r r' : Root} (h : lower o r = .ok r') :
    r'.components = r.components ++ (r.exits.filterMap (lookup? o)).eraseDups := by
  obtain ⟨ns, hrun, hns⟩ := gives_lower o r
  rw [lower_eq, Lexical.lower, hrun { options := o } rfl rfl] at h
  cases hr : Scoped.lower o r with
  | error f =>
    rw [hr] at h
    cases h
  | ok r₁ =>
    rw [hr] at h
    cases h
    obtain ⟨cs, -, hroot⟩ := except_bind_ok.mp hr
    rw [Root.exits, ← hns r₁ hr, ← foldl_addComponent]
    exact congrArg (· ++ _) (root_keeps hroot).2

end TemplateCompiler
