import TemplateCompiler.Proofs.ArrowHeads
import TemplateCompiler.Proofs.ByteScanners

/-! Arrow functions by byte offset. They are those that are counted in characters, and a name at
the start of a character means a parameter of the one exactly if it means one of the other. -/
namespace TemplateCompiler.Expression

open Text

/-- The arrow functions of a text by byte offsets, from the offset on at which the rest stands. -/
def arrowScopesAt (text : List Char) (i : Nat) (s : List Char) : List ArrowScope :=
  match s with
  | [] => []
  | c :: rest =>
    match h : arrowHead? (c :: rest) with
    | some (params, r) =>
      have : r.length ≤ rest.length := Nat.le_of_lt_succ (length_lt_of_arrowHead? h)
      let body := i + (byteLength (c :: rest) - byteLength r)
      ⟨params, i, arrowBodyEnd text body⟩ :: arrowScopesAt text body r
    | none => arrowScopesAt text (i + c.utf8Size) rest
termination_by s.length

/-- The byte offset of a place that is counted in characters. -/
def offsetOf (text : List Char) (place : Nat) : Nat := byteLength (text.take place)

private theorem offsetOf_mono (text : List Char) {k m : Nat} (h : k ≤ m) :
    offsetOf text k ≤ offsetOf text m := by
  obtain ⟨u, hu⟩ := List.take_prefix_take_left h
  rw [offsetOf, offsetOf, ← hu, byteLength_append]
  omega

private theorem offsetOf_strictMono {text : List Char} {k m : Nat} (h : k < m)
    (hk : k < text.length) :
    offsetOf text k < offsetOf text m := by
  refine Nat.lt_of_lt_of_le ?_ (offsetOf_mono text h)
  have hpos := text[k].utf8Size_pos
  rw [offsetOf, offsetOf, List.take_succ_eq_append_getElem hk, byteLength_append, byteLength_cons]
  omega

private theorem offset_eq_of_standsAt {text s : List Char} {i : Nat} (h : StandsAt text i s) :
    i = offsetOf text (text.length - s.length) := by
  obtain ⟨before, rfl, rfl⟩ := h
  rw [offsetOf, List.length_append, Nat.add_sub_cancel, List.take_left]

/-- The arrow function with byte offsets in place of character counts. -/
def ArrowScope.inBytes (text : List Char) (a : ArrowScope) : ArrowScope :=
  { a with start := offsetOf text a.start, stop := offsetOf text a.stop }

private theorem arrowScopesAt_eq {text s : List Char} {i : Nat} (h : StandsAt text i s) :
    arrowScopesAt text i s =
      (arrowScopesFrom (text.length - s.length) s).map (ArrowScope.inBytes text) := by
  have hlength := h.length_le
  fun_induction arrowScopesAt text i s with
  | case1 i => rw [arrowScopesFrom, List.map_nil]
  | case2 i c rest params r hhead _ body ih =>
    have hr := arrowHead?_suffix hhead
    have hbody : StandsAt text body r := h.of_suffix hr
    have hstop := standsAt_arrowBodyEnd hbody
    have hr_le := hr.length_le
    have hafter_le := (afterBody_suffix r).length_le
    have hadd (k : Nat) (hk : k ≤ (c :: rest).length) :
        text.length - (c :: rest).length + ((c :: rest).length - k) = text.length - k := by omega
    rw [arrowScopesFrom_some hhead, List.map_cons, ih hbody hbody.length_le, hadd _ hr_le,
      hadd _ (Nat.le_trans hafter_le hr_le), ArrowScope.inBytes, ← offset_eq_of_standsAt h,
      ← offset_eq_of_standsAt hstop]
  | case3 i c rest hhead ih =>
    rw [List.length_cons] at hlength
    have hplace : text.length - (c :: rest).length + 1 = text.length - rest.length := by
      rw [List.length_cons]
      omega
    rw [arrowScopesFrom_none hhead, ih h.tail h.tail.length_le, hplace]

private theorem covers_inBytes {text : List Char} (a : ArrowScope) (name : String) {place : Nat}
    (h : place < text.length) :
    (a.inBytes text).covers name (offsetOf text place) = a.covers name place := by
  have hstart : offsetOf text a.start ≤ offsetOf text place ↔ a.start ≤ place := by
    refine ⟨fun hle => ?_, offsetOf_mono text⟩
    by_contra hlt
    have := offsetOf_strictMono (Nat.lt_of_not_le hlt) h
    omega
  have hstop : offsetOf text place < offsetOf text a.stop ↔ place < a.stop := by
    refine ⟨fun hlt => ?_, fun hlt => offsetOf_strictMono hlt h⟩
    by_contra hle
    have := offsetOf_mono text (Nat.le_of_not_lt hle)
    omega
  simp only [ArrowScope.covers, ArrowScope.inBytes, hstart, hstop]

/-- A name means a parameter by byte offsets exactly if it means one by characters. -/
theorem any_covers_arrowScopesAt {text s : List Char} {i : Nat} (h : StandsAt text i s)
    (hs : s ≠ []) (name : String) :
    ((arrowScopesAt text 0 text).any fun a => a.covers name i) =
      (arrowScopes text).any fun a => a.covers name (text.length - s.length) := by
  have hlength := h.length_le
  have hpos := List.length_pos_iff.mpr hs
  have hplace : text.length - s.length < text.length := by omega
  rw [arrowScopesAt_eq (.whole text), Nat.sub_self, List.any_map, arrowScopes]
  congr 1
  funext a
  rw [Function.comp, offset_eq_of_standsAt h, covers_inBytes a name hplace]

end TemplateCompiler.Expression
