import TemplateCompiler.Proofs.ScopeStack

/-! The counts of a scope. Along any history of declarations, removals and returns to a mark they
say of each name how often it stands on the stack. -/
namespace TemplateCompiler

namespace Counts

private theorem get?_cons (n : String) (k : Nat) (rest : Counts) (name : String) :
    get? ((n, k) :: rest) name = if name = n then some k else get? rest name := by
  rw [get?, List.lookup_cons]
  by_cases hn : name = n
  · rw [if_pos hn, beq_iff_eq.mpr hn]
  · rw [if_neg hn, beq_eq_false_iff_ne.mpr hn]
    rfl

/-- The count of the name, where one without entry counts nothing. -/
def tally (cs : Counts) (name : String) : Nat := (cs.get? name).getD 0

private theorem tally_cons (n : String) (k : Nat) (rest : Counts) (name : String) :
    tally ((n, k) :: rest) name = if name = n then k else tally rest name := by
  rw [tally, get?_cons]
  split <;> rfl

/-- No name has two entries. -/
def Distinct (cs : Counts) : Prop := (cs.map Prod.fst).Nodup

private theorem Distinct.tail {e : String × Nat} {cs : Counts} (h : Distinct (e :: cs)) :
    Distinct cs :=
  (List.nodup_cons.mp h).2

private theorem tally_eq_zero {cs : Counts} {name : String} (h : name ∉ cs.map Prod.fst) :
    tally cs name = 0 := by
  induction cs with
  | nil => rfl
  | cons e rest ih =>
    obtain ⟨n, k⟩ := e
    rw [List.map_cons, List.mem_cons, not_or] at h
    rw [tally_cons, if_neg h.1, ih h.2]

private theorem tally_bump (cs : Counts) (name n : String) :
    tally (cs.bump name) n = tally cs n + if name = n then 1 else 0 := by
  induction cs with
  | nil =>
    rw [bump, tally_cons]
    simp only [eq_comm]
    split <;> rfl
  | cons e rest ih =>
    obtain ⟨m, k⟩ := e
    by_cases hm : m = name
    · subst hm
      rw [bump, if_pos rfl, tally_cons, tally_cons]
      simp only [eq_comm]
      split <;> rfl
    · rw [bump, if_neg hm, tally_cons, tally_cons]
      split
      · rename_i hn
        rw [if_neg (hn ▸ Ne.symm hm), Nat.add_zero]
      · exact ih

private theorem tally_release {cs : Counts} (h : cs.Distinct) (name n : String) :
    tally (cs.release name) n = tally cs n - if name = n then 1 else 0 := by
  induction cs with
  | nil => rw [release, tally, get?, List.lookup_nil, Option.getD_none, Nat.zero_sub]
  | cons e rest ih =>
    obtain ⟨m, k⟩ := e
    by_cases hm : m = name
    · subst hm
      rw [release, if_pos rfl, tally_cons]
      by_cases hn : n = m
      · -- the entry is the only one of its name, so none is left behind it
        have hrest : tally rest n = 0 := tally_eq_zero (hn ▸ (List.nodup_cons.mp h).1)
        rw [if_pos hn, if_pos hn.symm]
        split
        · rw [hrest]
          omega
        · rw [tally_cons, if_pos hn]
      · rw [if_neg hn, if_neg (Ne.symm hn), Nat.sub_zero]
        split
        · rfl
        · rw [tally_cons, if_neg hn]
    · rw [release, if_neg hm, tally_cons, tally_cons]
      split
      · rename_i hn
        rw [if_neg (hn ▸ Ne.symm hm), Nat.sub_zero]
      · exact ih h.tail

private theorem mem_keys_bump {cs : Counts} {name n : String}
    (h : n ∈ (cs.bump name).map Prod.fst) :
    n = name ∨ n ∈ cs.map Prod.fst := by
  induction cs with
  | nil => exact .inl (List.mem_singleton.mp h)
  | cons e rest ih =>
    obtain ⟨m, k⟩ := e
    rw [bump] at h
    split at h
    · exact .inr h
    · rcases List.mem_cons.mp h with rfl | h
      · exact .inr List.mem_cons_self
      · exact (ih h).imp_right (List.mem_cons_of_mem m)

private theorem keys_release_sublist (cs : Counts) (name : String) :
    ((cs.release name).map Prod.fst).Sublist (cs.map Prod.fst) := by
  induction cs with
  | nil => exact .slnil
  | cons e rest ih =>
    obtain ⟨m, k⟩ := e
    rw [release]
    split
    · split
      · exact List.sublist_cons_self _ _
      · exact List.Sublist.refl _
    · exact ih.cons_cons m

private theorem Distinct.bump {cs : Counts} (h : cs.Distinct) (name : String) :
    (cs.bump name).Distinct := by
  induction cs with
  | nil => exact List.nodup_cons.mpr ⟨List.not_mem_nil, List.nodup_nil⟩
  | cons e rest ih =>
    obtain ⟨m, k⟩ := e
    rw [Counts.bump]
    split
    · exact h
    · rename_i hm
      refine List.nodup_cons.mpr ⟨fun hmem => ?_, ih h.tail⟩
      exact (mem_keys_bump hmem).elim hm (List.nodup_cons.mp h).1

private theorem Distinct.release {cs : Counts} (h : cs.Distinct) (name : String) :
    (cs.release name).Distinct :=
  h.sublist (keys_release_sublist cs name)

private theorem Positive.get?_eq {cs : Counts} (h : cs.Positive) (name : String) :
    cs.get? name = if tally cs name = 0 then none else some (tally cs name) := by
  induction cs with
  | nil => rfl
  | cons e rest ih =>
    obtain ⟨n, k⟩ := e
    have hk : k ≠ 0 := Nat.ne_of_gt (h (n, k) List.mem_cons_self)
    rw [get?_cons, tally_cons]
    by_cases hn : name = n
    · rw [if_pos hn, if_pos hn, if_neg hk]
    · rw [if_neg hn, if_neg hn, ih h.tail]

end Counts

namespace Scope

/-- The table is in step with the stack: it has one entry for each name of the stack, with the
number of times the name stands there. -/
structure InStep (s : Scope) : Prop where
  distinct : s.counts.Distinct
  positive : s.counts.Positive
  tally_eq : ∀ name, s.counts.tally name = s.stack.count name

namespace InStep

variable {s : Scope}

private theorem push (h : s.InStep) (name : String) : (s.push name).InStep where
  distinct := h.distinct.bump name
  positive := h.positive.bump name
  tally_eq n := by
    rw [Scope.push, Counts.tally_bump, h.tally_eq, List.count_cons]
    simp only [beq_iff_eq]

private theorem drop (h : s.InStep) (name : String) : (s.drop name).InStep := by
  rw [Scope.drop]
  split
  · exact {
      distinct := h.distinct.release name
      positive := h.positive.release name
      tally_eq n := by
        rw [Counts.tally_release h.distinct, h.tally_eq, List.count_erase]
        simp only [beq_iff_eq] }
  · exact h

private theorem tail {name : String} {stack : List String} {cs : Counts}
    (h : InStep ⟨name :: stack, cs⟩) : InStep ⟨stack, cs.release name⟩ where
  distinct := h.distinct.release name
  positive := h.positive.release name
  tally_eq n := by
    have := h.tally_eq n
    rw [List.count_cons] at this
    rw [Counts.tally_release h.distinct, this]
    simp only [beq_iff_eq, Nat.add_sub_cancel]

private theorem pop {stack : List String} {cs : Counts} (h : InStep ⟨stack, cs⟩) (n : Nat) :
    (Scope.pop cs n stack).InStep := by
  induction n generalizing stack cs with
  | zero => exact h
  | succ n ih =>
    cases stack with
    | nil => exact h
    | cons name stack => exact ih h.tail

private theorem add (h : s.InStep) (names : List String) : (s.add names).InStep := by
  induction names generalizing s with
  | nil => exact h
  | cons name names ih => exact ih (h.push name)

private theorem remove (h : s.InStep) (names : List String) : (s.remove names).InStep := by
  induction names generalizing s with
  | nil => exact h
  | cons name names ih => exact ih (h.drop name)

private theorem get?_eq (h : s.InStep) (name : String) :
    s.counts.get? name = if name ∈ s.stack then some (s.stack.count name) else none := by
  rw [h.positive.get?_eq, h.tally_eq]
  by_cases hmem : name ∈ s.stack
  · rw [if_neg (Nat.ne_of_gt (List.count_pos_iff.mpr hmem)), if_pos hmem]
  · rw [if_pos (List.count_eq_zero.mpr hmem), if_neg hmem]

private theorem contains_iff (h : s.InStep) (name : String) :
    s.contains name = true ↔ name ∈ s.stack := by
  rw [contains, h.get?_eq]
  split <;> simp [*]

end InStep

private theorem Reachable.inStep {s : Scope} (h : s.Reachable) : s.InStep := by
  induction h with
  | empty => exact ⟨List.nodup_nil, List.forall_mem_nil _, fun _ => rfl⟩
  | add names _ ih => exact ih.add names
  | remove names _ ih => exact ih.remove names
  | restore mark _ ih => exact ih.pop _

private theorem remove_eq_self {s : Scope} {names : List String}
    (h : ∀ name ∈ names, name ∉ s.stack) :
    s.remove names = s := by
  induction names with
  | nil => rfl
  | cons name names ih =>
    obtain ⟨hname, hnames⟩ := List.forall_mem_cons.mp h
    have hdrop : s.drop name = s := by simp [drop, hname]
    rw [remove, List.foldl_cons, hdrop]
    exact ih hnames

/-- After any history of declarations, removals and returns to a mark, the table holds exactly the
names of the stack, each once and with the number of times it stands there, which is never zero; a
name is in scope if it stands on the stack; removing names that are not in scope changes nothing;
and removing what has just been declared leaves stack and table as they were. -/
theorem counts_tell_stack {s : Scope} (h : s.Reachable) :
    (∀ name, s.counts.get? name =
      if name ∈ s.stack then some (s.stack.count name) else none) ∧
    (s.counts.map Prod.fst).Nodup ∧ (∀ entry ∈ s.counts, 0 < entry.2) ∧
    (∀ name, s.contains name = true ↔ name ∈ s.stack) ∧
    (∀ names, (∀ name ∈ names, s.contains name = false) → s.remove names = s) ∧
    ∀ names, (s.add names).remove names = s := by
  have hstep := h.inStep
  refine ⟨hstep.get?_eq, hstep.distinct, hstep.positive, hstep.contains_iff, fun names hnames => ?_,
    remove_add h.positive⟩
  refine remove_eq_self fun name hname hmem => ?_
  rw [← hstep.contains_iff, hnames name hname] at hmem
  cases hmem

/-- An item declared three times, with a name taken back from between and the newest item forgotten
at a mark. -/
def shadowedItems : Scope :=
  (((({} : Scope).add ["item", "index"]).add ["item", "key", "item"]).remove ["index"]).restore 3

theorem shadowedItems_tell_stack :
    shadowedItems.stack = ["key", "item", "item"] ∧
    shadowedItems.counts.get? "item" = some 2 ∧ shadowedItems.counts.get? "index" = none ∧
    (shadowedItems.add ["item", "row", "item"]).remove ["item", "row", "item"] = shadowedItems := by
  have h : shadowedItems.Reachable := .restore 3 (.remove _ (.add _ (.add _ .empty)))
  obtain ⟨hget, -, -, -, -, hremove⟩ := counts_tell_stack h
  exact ⟨by decide, hget "item", hget "index", hremove _⟩

end Scope

end TemplateCompiler
