import Mathlib.Data.List.Perm.Basic
import TemplateCompiler.Scope

/-! Scopes as stacks: what has been declared can be taken back, and a scope contains exactly the
names on it. -/
namespace TemplateCompiler

namespace Counts

/-- Every entry counts at least one declaration. -/
def Positive (cs : Counts) : Prop := ∀ e ∈ cs, 0 < e.2

theorem Positive.tail {e : String × Nat} {cs : Counts} (h : Positive (e :: cs)) : Positive cs :=
  fun e he => h e (List.mem_cons_of_mem _ he)

theorem Positive.bump {cs : Counts} (h : cs.Positive) (name : String) :
    (cs.bump name).Positive := by
  induction cs with
  | nil => simp [Counts.bump, Positive]
  | cons e rest ih =>
    obtain ⟨n, k⟩ := e
    simp only [Counts.bump]
    split
    · intro e he
      rcases List.mem_cons.mp he with rfl | he
      · exact Nat.succ_pos k
      · exact h.tail e he
    · intro e he
      rcases List.mem_cons.mp he with rfl | he
      · exact h (n, k) List.mem_cons_self
      · exact ih h.tail e he

theorem Positive.release {cs : Counts} (h : cs.Positive) (name : String) :
    (cs.release name).Positive := by
  induction cs with
  | nil => exact h
  | cons e rest ih =>
    obtain ⟨n, k⟩ := e
    simp only [Counts.release]
    split
    · split
      · exact h.tail
      · intro e he
        rcases List.mem_cons.mp he with rfl | he
        · simp only
          omega
        · exact h.tail e he
    · intro e he
      rcases List.mem_cons.mp he with rfl | he
      · exact h (n, k) List.mem_cons_self
      · exact ih h.tail e he

private theorem release_bump {cs : Counts} (h : cs.Positive) (name : String) :
    (cs.bump name).release name = cs := by
  induction cs with
  | nil => simp [bump, release]
  | cons e rest ih =>
    obtain ⟨n, k⟩ := e
    have hk : 0 < k := h (n, k) List.mem_cons_self
    by_cases hn : n = name
    · simp only [bump, release, if_pos hn]
      rw [if_neg (by omega), Nat.add_sub_cancel]
    · simp only [bump, release, if_neg hn]
      rw [ih h.tail]

private theorem release_bump_of_ne (cs : Counts) {x y : String} (h : x ≠ y) :
    (cs.bump y).release x = (cs.release x).bump y := by
  induction cs with
  | nil => simp [bump, release, h.symm]
  | cons e rest ih =>
    obtain ⟨n, k⟩ := e
    by_cases hy : n = y
    · subst hy
      simp [bump, release, h.symm]
    · by_cases hx : n = x
      · subst hx
        simp only [bump, release, if_neg hy, if_true]
        split
        · rfl
        · simp [bump, hy]
      · simp [bump, release, hx, hy, ih]

end Counts

namespace Scope

/-- The scope in which exactly the given names are declared, the last one innermost. -/
def of (names : List String) : Scope := ({} : Scope).add names

theorem of_append (names more : List String) : of (names ++ more) = (of names).add more :=
  List.foldl_append

private theorem add_cons (s : Scope) (name : String) (names : List String) :
    s.add (name :: names) = (s.push name).add names := rfl

/-- Every count of the scope is positive. -/
def Positive (s : Scope) : Prop := s.counts.Positive

/-- The scope with further names declared, the newest first. -/
def under (s : Scope) (names : List String) : Scope :=
  ⟨names ++ s.stack, names.foldr Counts.bump s.counts⟩

/-- Adding names puts the last of them on top. -/
theorem add_eq_under (s : Scope) (names : List String) : s.add names = s.under names.reverse := by
  induction names generalizing s with
  | nil => rfl
  | cons name names ih => simp [add_cons, ih, push, under]

private theorem Positive.under {s : Scope} (h : s.Positive) (names : List String) :
    (s.under names).Positive := by
  induction names with
  | nil => exact h
  | cons name names ih => exact Counts.Positive.bump ih name

theorem Positive.add {s : Scope} (h : s.Positive) (names : List String) :
    (s.add names).Positive := by
  rw [add_eq_under]
  exact h.under _

private theorem release_foldr_bump {s : Scope} (h : s.Positive) {x : String} {names : List String}
    (hx : x ∈ names) : Counts.release x (names.foldr Counts.bump s.counts) =
      (names.erase x).foldr Counts.bump s.counts := by
  induction names with
  | nil => cases hx
  | cons y names ih =>
    by_cases hy : y = x
    · subst hy
      rw [List.erase_cons_head]
      exact Counts.release_bump (h.under names) y
    · have hx' : x ∈ names := (List.mem_cons.mp hx).resolve_left (Ne.symm hy)
      rw [List.erase_cons_tail (by simpa using hy), List.foldr_cons, List.foldr_cons,
        Counts.release_bump_of_ne _ (Ne.symm hy), ih hx']

private theorem drop_under {s : Scope} (h : s.Positive) {x : String} {names : List String}
    (hx : x ∈ names) : (s.under names).drop x = s.under (names.erase x) := by
  have hmem : (names ++ s.stack).contains x = true := by simp [hx]
  simp only [drop, under, hmem, if_true, List.erase_append_left _ hx, release_foldr_bump h hx]

private theorem remove_under {s : Scope} (h : s.Positive) {xs names : List String}
    (hp : xs.Perm names) :
    (s.under names).remove xs = s := by
  induction xs generalizing names with
  | nil =>
    rw [List.nil_perm.mp hp]
    rfl
  | cons x xs ih =>
    obtain ⟨hx, hp⟩ := List.cons_perm_iff_perm_erase.mp hp
    simp only [remove, List.foldl_cons, drop_under h hx]
    exact ih hp

/-- Taking back what has just been declared leaves the scope as it was, also when a name is
declared twice or hides an outer one. -/
theorem remove_add {s : Scope} (h : s.Positive) (names : List String) :
    (s.add names).remove names = s := by
  rw [add_eq_under]
  exact remove_under h names.reverse_perm.symm

/-- Going back to a mark undoes all that came after it. -/
theorem restore_mark (s : Scope) : s.restore s.mark = s := by
  simp [restore, mark, pop]

/-- Forgetting what was declared since the mark was taken leaves the scope as it was then. -/
theorem restore_under {s : Scope} (h : s.Positive) (names : List String) :
    (s.under names).restore s.mark = s := by
  have hpop : pop (names.foldr Counts.bump s.counts) names.length (names ++ s.stack) = s := by
    induction names with
    | nil => rfl
    | cons name names ih =>
      have hrelease := release_foldr_bump h (List.mem_cons_self (a := name) (l := names))
      rw [List.erase_cons_head] at hrelease
      rw [List.length_cons, List.cons_append, pop, hrelease]
      exact ih
  simpa [restore, mark, under] using hpop

/-- The scopes that can be made from the empty one by declaring names, taking declarations back
and going back to a mark. -/
inductive Reachable : Scope → Prop
  | empty : Reachable {}
  | add {s : Scope} (names : List String) (h : Reachable s) : Reachable (s.add names)
  | remove {s : Scope} (names : List String) (h : Reachable s) : Reachable (s.remove names)
  | restore {s : Scope} (mark : Nat) (h : Reachable s) : Reachable (s.restore mark)

private theorem Positive.remove {s : Scope} (h : s.Positive) (names : List String) :
    (s.remove names).Positive := by
  induction names generalizing s with
  | nil => exact h
  | cons name names ih =>
    apply ih
    unfold drop
    split
    · exact Counts.Positive.release h name
    · exact h

private theorem Positive.restore {s : Scope} (h : s.Positive) (mark : Nat) :
    (s.restore mark).Positive := by
  have hpop (n : Nat) (stack : List String) {cs : Counts} (hcs : cs.Positive) :
      (pop cs n stack).Positive := by
    induction n generalizing stack cs with
    | zero => exact hcs
    | succ n ih =>
      cases stack with
      | nil => exact hcs
      | cons name stack => exact ih stack (hcs.release name)
  exact hpop _ _ h

/-- In a scope that can be reached no name is counted zero times. -/
theorem Reachable.positive {s : Scope} (h : s.Reachable) : s.Positive := by
  induction h with
  | empty => exact List.forall_mem_nil _
  | add names _ ih => exact ih.add names
  | remove names _ ih => exact ih.remove names
  | restore mark _ ih => exact ih.restore mark

end Scope

end TemplateCompiler
