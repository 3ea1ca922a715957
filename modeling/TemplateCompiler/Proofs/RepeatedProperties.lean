import Mathlib.Data.List.Induction
import TemplateCompiler.Lowering.MergeProps

/-! Repeated properties. The properties that are kept are those with a computed key and, of each
static key, the first; the values under a key that is gathered stand in one array. -/
namespace TemplateCompiler

def Property.withValue (p : Property) (value : Code) : Property := { p with value }

@[simp]
private theorem Property.staticKey?_withValue (p : Property) (value : Code) :
    (p.withValue value).staticKey? = p.staticKey? := rfl

private theorem Property.withValue_value (p : Property) : p.withValue p.value = p := by
  cases p
  rfl

namespace Lowering

/-- Whether the key of the property is computed, or is the static key of none of those before it. -/
def isNewAfter (before : List Property) (p : Property) : Bool :=
  p.staticKey?.isNone || before.all fun q => q.staticKey? != p.staticKey?

/-- The properties with a computed key and the first of each static key, in their order. -/
def firstProperties (ps : List Property) : List Property :=
  (ps.zipIdx.filter fun x => isNewAfter (ps.take x.2) x.1).map Prod.fst

/-- The values under a static key, in their order. -/
def valuesUnder (name : String) (ps : List Property) : List Code :=
  (ps.filter fun p => p.staticKey? == some name).map Property.value

/-- One value as it is, several in an array. -/
def gatheredCode : List Code → Code
  | [value] => value
  | values => .array { elements := values.map .code }

/-- The value that a property has in the end. -/
def finalValue (ps : List Property) (p : Property) : Code :=
  match p.staticKey? with
  | none => p.value
  | some name => if isGathered name then gatheredCode (valuesUnder name ps) else p.value

/-- The properties without repetition of a static key. -/
def distinctProperties (ps : List Property) : List Property :=
  (firstProperties ps).map fun p => p.withValue (finalValue ps p)

/-- No property has an array for its value. -/
def NoArrays (ps : List Property) : Prop := ∀ p ∈ ps, ∀ a, p.value ≠ .array a

variable {ps : List Property} {p : Property} {name : String}

theorem firstProperties_concat (ps : List Property) (p : Property) :
    firstProperties (ps ++ [p]) = firstProperties ps ++ if isNewAfter ps p then [p] else [] := by
  have hbefore : ∀ x ∈ ps.zipIdx, isNewAfter ((ps ++ [p]).take x.2) x.1 =
      isNewAfter (ps.take x.2) x.1 := by
    intro x hx
    have hlt : x.2 < ps.length := by
      have := List.snd_lt_of_mem_zipIdx hx
      omega
    rw [List.take_append_of_le_length (Nat.le_of_lt hlt)]
  rw [firstProperties, firstProperties, List.zipIdx_append, List.filter_append, List.map_append,
    List.filter_congr hbefore]
  congr 1
  by_cases h : isNewAfter ps p = true <;> simp [h]

private theorem valuesUnder_concat (name : String) (ps : List Property) (p : Property) :
    valuesUnder name (ps ++ [p]) =
      valuesUnder name ps ++ if p.staticKey? = some name then [p.value] else [] := by
  rw [valuesUnder, List.filter_append, List.map_append]
  by_cases h : p.staticKey? = some name <;> simp [valuesUnder, h]

private theorem mergeProperties_concat (ps : List Property) (p : Property) :
    mergeProperties (ps ++ [p]) = addProperty (mergeProperties ps) p := by
  rw [mergeProperties, List.foldl_append]
  rfl

private theorem mem_of_mem_firstProperties (h : p ∈ firstProperties ps) : p ∈ ps := by
  obtain ⟨x, hx, rfl⟩ := List.mem_map.mp h
  exact List.fst_mem_of_mem_zipIdx (List.mem_filter.mp hx).1

private theorem isNewAfter_of_none (h : p.staticKey? = none) (ps : List Property) :
    isNewAfter ps p = true := by
  rw [isNewAfter, h]
  rfl

theorem isNewAfter_iff (h : p.staticKey? = some name) (ps : List Property) :
    isNewAfter ps p = true ↔ ∀ q ∈ ps, q.staticKey? ≠ some name := by
  simp [isNewAfter, h]

private theorem exists_firstProperty (h : ∃ q ∈ ps, q.staticKey? = some name) :
    ∃ q ∈ firstProperties ps, q.staticKey? = some name := by
  induction ps using List.reverseRecOn with
  | nil =>
    obtain ⟨q, hq, -⟩ := h
    cases hq
  | append_singleton ps p ih =>
    rw [firstProperties_concat]
    by_cases hps : ∃ q ∈ ps, q.staticKey? = some name
    · obtain ⟨q, hq, hkey⟩ := ih hps
      exact ⟨q, List.mem_append_left _ hq, hkey⟩
    · have hp : p.staticKey? = some name := by
        obtain ⟨q, hq, hkey⟩ := h
        rcases List.mem_append.mp hq with hq | hq
        · exact absurd ⟨q, hq, hkey⟩ hps
        · rwa [← List.mem_singleton.mp hq]
      have hnew : isNewAfter ps p = true := by
        rw [isNewAfter_iff hp]
        intro q hq hkey
        exact hps ⟨q, hq, hkey⟩
      rw [if_pos hnew]
      exact ⟨p, List.mem_append_right _ List.mem_cons_self, hp⟩

private theorem nodup_firstProperties (ps : List Property) :
    ((firstProperties ps).filterMap Property.staticKey?).Nodup := by
  induction ps using List.reverseRecOn with
  | nil => exact List.nodup_nil
  | append_singleton ps p ih =>
    rw [firstProperties_concat, List.filterMap_append]
    by_cases hnew : isNewAfter ps p = true
    · rw [if_pos hnew]
      cases hp : p.staticKey? with
      | none => simpa [hp] using ih
      | some name =>
        have hkeys : name ∉ (firstProperties ps).filterMap Property.staticKey? := by
          intro hname
          obtain ⟨q, hq, hkey⟩ := List.mem_filterMap.mp hname
          exact (isNewAfter_iff hp ps).mp hnew q (mem_of_mem_firstProperties hq) hkey
        rw [List.filterMap_cons_some hp]
        refine List.nodup_append.mpr ⟨ih, by simp, ?_⟩
        intro key hkey other hother hsame
        rw [List.mem_singleton.mp hother] at hsame
        exact hkeys (hsame ▸ hkey)
    · rw [if_neg hnew]
      simpa using ih

private theorem gatheredCode_concat {values : List Code} (hne : values ≠ [])
    (harray : ∀ v ∈ values, ∀ a, v ≠ .array a) (value : Code) :
    gatheredCode (values ++ [value]) = gather (gatheredCode values) value := by
  rcases values with _ | ⟨v, _ | ⟨w, values⟩⟩
  · exact absurd rfl hne
  · have hv := harray v List.mem_cons_self
    cases v with
    | array a => exact absurd rfl (hv a)
    | _ => rfl
  · simp [gatheredCode, gather]

private theorem gatherUnder_map {kept : List Property} {old new : Property → Code} {value : Code}
    (hkeys : (kept.filterMap Property.staticKey?).Nodup)
    (hsame : ∀ q ∈ kept, q.staticKey? = some name → new q = gather (old q) value)
    (hother : ∀ q ∈ kept, q.staticKey? ≠ some name → new q = old q) :
    gatherUnder name value (kept.map fun q => q.withValue (old q)) =
      kept.map fun q => q.withValue (new q) := by
  induction kept with
  | nil => rfl
  | cons q kept ih =>
    rw [List.map_cons, List.map_cons, gatherUnder, Property.staticKey?_withValue]
    by_cases hq : q.staticKey? = some name
    · have hrest : ∀ r ∈ kept, new r = old r := by
        intro r hr
        refine hother r (List.mem_cons_of_mem _ hr) fun hkey => ?_
        rw [List.filterMap_cons_some hq, List.nodup_cons] at hkeys
        exact hkeys.1 (List.mem_filterMap.mpr ⟨r, hr, hkey⟩)
      rw [if_pos (beq_iff_eq.mpr hq), hsame q List.mem_cons_self hq]
      congr 1
      exact List.map_congr_left fun r hr => congrArg r.withValue (hrest r hr).symm
    · have hkeys' : (kept.filterMap Property.staticKey?).Nodup :=
        hkeys.sublist ((List.sublist_cons_self q kept).filterMap _)
      rw [if_neg fun h => hq (beq_iff_eq.mp h), hother q List.mem_cons_self hq,
        ih hkeys' (fun r hr => hsame r (List.mem_cons_of_mem _ hr))
          fun r hr => hother r (List.mem_cons_of_mem _ hr)]

private theorem finalValue_of_none (h : p.staticKey? = none) (ps : List Property) :
    finalValue ps p = p.value := by
  rw [finalValue, h]

private theorem finalValue_of_not_gathered (h : p.staticKey? = some name)
    (hname : isGathered name = false)
    (ps : List Property) : finalValue ps p = p.value := by
  rw [finalValue, h]
  exact if_neg (by rw [hname]; decide)

/-- Under a key that gathers, the value of a property holds the values of all of its repetitions. -/
theorem finalValue_of_gathered (h : p.staticKey? = some name) (hname : isGathered name = true)
    (ps : List Property) : finalValue ps p = gatheredCode (valuesUnder name ps) := by
  rw [finalValue, h]
  exact if_pos hname

private theorem finalValue_concat_of_not_gathered {q : Property}
    (h : ∀ name, p.staticKey? = some name →
    q.staticKey? = some name → isGathered name = false) :
    finalValue (ps ++ [p]) q = finalValue ps q := by
  cases hq : q.staticKey? with
  | none => rw [finalValue_of_none hq, finalValue_of_none hq]
  | some name =>
    by_cases hp : p.staticKey? = some name
    · have hname := h name hp hq
      rw [finalValue_of_not_gathered hq hname, finalValue_of_not_gathered hq hname]
    · simp only [finalValue, hq, valuesUnder_concat, if_neg hp, List.append_nil]

private theorem valuesUnder_eq_nil (h : ∀ q ∈ ps, q.staticKey? ≠ some name) : valuesUnder name ps =
    [] := by
  rw [valuesUnder, List.map_eq_nil_iff, List.filter_eq_nil_iff]
  exact fun q hq hkey => h q hq (beq_iff_eq.mp hkey)

private theorem finalValue_concat_self (h : isNewAfter ps p = true) :
    finalValue (ps ++ [p]) p = p.value := by
  cases hp : p.staticKey? with
  | none => exact finalValue_of_none hp _
  | some name =>
    by_cases hname : isGathered name = true
    · have hnone := valuesUnder_eq_nil ((isNewAfter_iff hp ps).mp h)
      rw [finalValue_of_gathered hp hname, valuesUnder_concat, hnone, if_pos hp]
      rfl
    · exact finalValue_of_not_gathered hp (Bool.eq_false_iff.mpr hname) _

private theorem distinctProperties_concat_new (h : isNewAfter ps p = true) :
    distinctProperties (ps ++ [p]) = distinctProperties ps ++ [p] := by
  have hother : ∀ q ∈ firstProperties ps,
      q.withValue (finalValue (ps ++ [p]) q) = q.withValue (finalValue ps q) := by
    intro q hq
    refine congrArg q.withValue (finalValue_concat_of_not_gathered fun name hp hkey => ?_)
    exact absurd hkey ((isNewAfter_iff hp ps).mp h q (mem_of_mem_firstProperties hq))
  rw [distinctProperties, firstProperties_concat, if_pos h, List.map_append,
    List.map_congr_left hother, List.map_singleton, finalValue_concat_self h,
    Property.withValue_value, distinctProperties]

private theorem any_distinctProperties (hp : p.staticKey? = some name) :
    ((distinctProperties ps).any fun q => q.staticKey? == some name) = !isNewAfter ps p := by
  rw [Bool.eq_iff_iff, Bool.not_eq_true', Bool.eq_false_iff, ne_eq, isNewAfter_iff hp,
    distinctProperties, List.any_map, List.any_eq_true]
  constructor
  · rintro ⟨q, hq, hkey⟩ hnone
    exact hnone q (mem_of_mem_firstProperties hq) (beq_iff_eq.mp hkey)
  · intro hsome
    have hexists : ∃ q ∈ ps, q.staticKey? = some name := by
      by_contra hnone
      exact hsome fun q hq hkey => hnone ⟨q, hq, hkey⟩
    obtain ⟨q, hq, hkey⟩ := exists_firstProperty hexists
    exact ⟨q, hq, beq_iff_eq.mpr hkey⟩

private theorem gather_finalValue (hps : NoArrays ps) (hname : isGathered name = true)
    (hp : p.staticKey? = some name) {q : Property} (hq : q ∈ ps)
    (hkey : q.staticKey? = some name) :
    finalValue (ps ++ [p]) q = gather (finalValue ps q) p.value := by
  have hmem : q.value ∈ valuesUnder name ps :=
    List.mem_map_of_mem (List.mem_filter.mpr ⟨hq, beq_iff_eq.mpr hkey⟩)
  have harray : ∀ v ∈ valuesUnder name ps, ∀ a, v ≠ .array a := by
    intro v hv
    obtain ⟨r, hr, rfl⟩ := List.mem_map.mp hv
    exact hps r (List.mem_filter.mp hr).1
  rw [finalValue_of_gathered hkey hname, finalValue_of_gathered hkey hname, valuesUnder_concat,
    if_pos hp, gatheredCode_concat (List.ne_nil_of_mem hmem) harray]

private theorem addProperty_distinct (hps : NoArrays ps) (p : Property) :
    addProperty (distinctProperties ps) p = distinctProperties (ps ++ [p]) := by
  rw [addProperty]
  cases hp : p.staticKey? with
  | none => exact (distinctProperties_concat_new (isNewAfter_of_none hp ps)).symm
  | some name =>
    simp only [any_distinctProperties hp]
    by_cases hnew : isNewAfter ps p = true
    · rw [hnew, distinctProperties_concat_new hnew]
      rfl
    · -- The key is there already: the same properties stay, and at most one value changes.
      have hfirst : firstProperties (ps ++ [p]) = firstProperties ps := by
        rw [firstProperties_concat, if_neg hnew, List.append_nil]
      rw [Bool.eq_false_iff.mpr hnew, Bool.not_false, if_pos rfl, distinctProperties,
        distinctProperties, hfirst]
      split
      · rename_i hname
        refine gatherUnder_map (nodup_firstProperties ps) (fun q hq hkey => ?_) fun q hq hkey => ?_
        · exact gather_finalValue hps hname hp (mem_of_mem_firstProperties hq) hkey
        · refine finalValue_concat_of_not_gathered fun other hp' hq' => ?_
          exact absurd (hq'.trans (hp'.symm.trans hp)) hkey
      · rename_i hname
        refine List.map_congr_left fun q hq => congrArg q.withValue ?_
        refine (finalValue_concat_of_not_gathered fun other hp' _ => ?_).symm
        cases hp.symm.trans hp'
        exact Bool.eq_false_iff.mpr hname

/-- The properties that are left are the distinct ones. -/
theorem mergeProperties_eq (h : NoArrays ps) : mergeProperties ps = distinctProperties ps := by
  induction ps using List.reverseRecOn with
  | nil => rfl
  | append_singleton ps p ih =>
    have hps : NoArrays ps := fun q hq => h q (List.mem_append_left _ hq)
    rw [mergeProperties_concat, ih hps, addProperty_distinct hps]

/-- Of properties none of whose values is an array, the distinct ones are left, and no two of them
have the same static key. -/
theorem mergeProperties_distinct (h : NoArrays ps) :
    mergeProperties ps = distinctProperties ps ∧
      ((mergeProperties ps).filterMap Property.staticKey?).Nodup := by
  refine ⟨mergeProperties_eq h, ?_⟩
  rw [mergeProperties_eq h, distinctProperties, List.filterMap_map]
  exact nodup_firstProperties ps

/-- Three classes, a computed key, two ids and a handler. -/
def repeatedClasses : List Property :=
  let fixed (name : String) : Expression := .simple (.fixed name .stub)
  let code (content : String) : Expression := .simple (.code content .stub)
  [{ key := fixed "class", value := .expression (fixed "a") },
    { key := code "name", value := .expression (code "x") },
    { key := fixed "id", value := .expression (code "first") },
    { key := fixed "class", value := .expression (code "b") },
    { key := fixed "onClick", value := .expression (code "run") },
    { key := fixed "id", value := .expression (code "second") },
    { key := code "name", value := .expression (code "y") },
    { key := fixed "class", value := .expression (code "c") }]

theorem repeatedClasses_distinct :
    mergeProperties repeatedClasses = distinctProperties repeatedClasses ∧
      (distinctProperties repeatedClasses).map Property.staticKey? =
        [some "class", none, some "id", some "onClick", none] ∧
      ((mergeProperties repeatedClasses).filterMap Property.staticKey?).Nodup := by
  have hvalues : NoArrays repeatedClasses := by simp [NoArrays, repeatedClasses]
  have h := mergeProperties_distinct hvalues
  exact ⟨h.1, by decide, h.2⟩

end Lowering

end TemplateCompiler
