import TemplateCompiler.Compile
import TemplateCompiler.Proofs.Emission
import TemplateCompiler.Proofs.Unref

/-! A compiled template lists the helpers that its code uses. -/
namespace TemplateCompiler

/-- A helper whose local name the stroke prints is in the set. -/
def Registered (hs : HelperSet) (x : Stroke) : Prop :=
  ∀ h, x.helper? = some h → hs.contains h = true

private theorem HelperSet.mem_toList {hs : HelperSet} {h : Helper} :
    h ∈ hs.toList ↔ hs.contains h = true :=
  List.contains_iff_mem.symm

private theorem HelperSet.sublist_all (hs : HelperSet) : hs.toList.Sublist Helper.all := by
  rw [hs.canonical]
  exact List.filter_sublist

namespace Lowering

private theorem admits_registered (hs : HelperSet) : AdmitsShown (Registered hs) hs false where
  raw _ _ h := by cases h
  literal _ _ h := by cases h
  helper _ hh _ h := by
    cases h
    exact hh
  idle _ h := by cases h
  code h := by cases h
  compound h := by cases h
  text _ _ h := by cases h
  display hh _ _ h := by
    cases h
    exact hh

section
variable {o : LoweringOptions} {r r' : Root}

/-- The registered helpers, behind those that the template had before, are those of the code that
is returned and, unless the template had components before, of all that is printed. -/
private theorem lower_registered (hr : r.isRaw false = true) (h : lower o r = .ok r') :
    ∃ hs : HelperSet, r'.helpers = r.helpers ++ hs.toList ∧
      Fine (Registered hs) r'.codeStrokes ∧
      (r.components = [] → Fine (Registered hs) r'.strokes) := by
  have hallowed (hs : HelperSet) (site : Site) : site.Allowed (Registered hs) o := by
    intro e _ h hh
    cases hh
  obtain ⟨hs, components, r₁, hcode, hresolve, rfl⟩ := lower_ensures
    (fun hs => root_fine (admits_registered hs) hr fun site _ => hallowed hs site) h
  refine ⟨hs, rfl, hcode, fun hnone => ?_⟩
  refine fine_rootStrokes (by simp [Registered, Stroke.helper?])
    (by simp [Registered, Stroke.helper?]) ?_ hcode
  simp only [hnone, List.nil_append]
  exact fun hc => (admits_registered hs).helper _ (hresolve hc)

private theorem lower_unref (h : lower o r = .ok r') :
    ∀ site ∈ childrenSites r.children [], site.ReadsUnref o → .unref ∈ r'.helpers := by
  obtain ⟨hs, components, r₁, hunref, -, rfl⟩ := lower_ensures (fun hs => root_unref r) h
  intro site hsite hreads
  exact List.mem_append_right _ (HelperSet.mem_toList.mpr (hunref site hsite hreads))

end

/-- The compiled template lists every helper that the returned code uses and, unless it listed
components before, every helper that the render function uses; `unref`, if a name is read through
it; and each helper once, in the order of declaration. -/
theorem compile_lists_helpers {o : Options} {r r' : Root} {p : Print.Program}
    (hr : r.isRaw false = true) (hnone : r.helpers = []) (h : compile o r = .ok (r', p)) :
    Print.renderFunction r' = drawAll r'.strokes ∧
      (∀ x ∈ r'.codeStrokes, ∀ h, x.helper? = some h → h ∈ r'.helpers) ∧
      (r.components = [] → ∀ x ∈ r'.strokes, ∀ h, x.helper? = some h → h ∈ r'.helpers) ∧
      (∀ site ∈ childrenSites r.children [], site.ReadsUnref o.lowering → .unref ∈ r'.helpers) ∧
      r'.helpers.Sublist Helper.all := by
  have hlower : lower o.lowering r = .ok r' := by
    obtain ⟨lowered, hlower, h⟩ := except_bind_ok.mp h
    split at h
    · cases h
    · cases h
      exact hlower
  obtain ⟨hs, hhelpers, hcode, hall⟩ := lower_registered hr hlower
  rw [hnone, List.nil_append] at hhelpers
  have hmem {xs : List Stroke} (hxs : Fine (Registered hs) xs) :
      ∀ x ∈ xs, ∀ h, x.helper? = some h → h ∈ r'.helpers := by
    intro x hx h hh
    rw [hhelpers]
    exact HelperSet.mem_toList.mpr (hxs x hx h hh)
  refine ⟨Print.renderFunction_draws r', hmem hcode, fun hc => hmem (hall hc), ?_, ?_⟩
  · exact lower_unref hlower
  · rw [hhelpers]
    exact hs.sublist_all

/-- With a name that setup code declares by `let`. -/
theorem itemRows_lists_helpers :
    let o : Options :=
      { lowering := { inline := true, bindings := some ⟨[("other", .setupLet)]⟩ } }
    ∃ r' p, compile o itemRows = .ok (r', p) ∧
      (∀ x ∈ r'.strokes, ∀ h, x.helper? = some h → h ∈ r'.helpers) ∧
      .unref ∈ r'.helpers ∧ r'.helpers.Sublist Helper.all := by
  intro o
  have hok : (compile o itemRows).isOk = true := by decide +kernel
  obtain ⟨⟨r', p⟩, h⟩ := except_ok_of_isOk hok
  obtain ⟨-, -, hall, hunref, hsublist⟩ := compile_lists_helpers (by decide) rfl h
  refine ⟨r', p, h, hall rfl, hunref (.expression ["item", "i"] (.code "other" .stub)) ?_ ?_,
    hsublist⟩
  · decide +kernel
  · refine ⟨rfl, by decide, rfl, ⟨"other".toList, [], [], none⟩, by decide +kernel, ?_⟩
    exact ⟨⟨"_unref(other)".toList, true, true, true⟩, by decide +kernel, by decide +kernel⟩

/-- Components that a template lists before it is lowered are looked up, but the helper that does
so is not registered for them. -/
theorem helper_of_listed_component_missing :
    ∃ r' p, compile {} { components := ["Row"] } = .ok (r', p) ∧
      .helper .resolveComponent ∈ r'.strokes ∧ .resolveComponent ∉ r'.helpers :=
  ⟨{ components := ["Row"], transformed := true }, _, rfl,
    by simp [Root.strokes, assetListStrokes, assetStrokes], by decide⟩

end Lowering

end TemplateCompiler
