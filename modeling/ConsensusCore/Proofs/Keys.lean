import Mathlib.Data.List.Nodup

/-!
# Lists with keys

Calls that wait, tickets and connections are kept in lists in which each entry has a key, and no
two have the same one. So a key stands for one place in its list (`split_of_mem`), and that is
where an entry is taken out (`filter_of_mem`) or replaced (`replace_of_lookup`).
-/

namespace ConsensusCore

variable {α β : Type} [DecidableEq α] {l : List (α × β)} {k : α} {b : β}

theorem mem_of_lookup (h : l.lookup k = some b) : (k, b) ∈ l := by
  obtain ⟨before, after, rfl, -⟩ := List.lookup_eq_some_iff.1 h
  exact List.mem_append_right _ List.mem_cons_self

omit [DecidableEq α] in
/-- No other entry has the key. -/
theorem split_of_mem (hnodup : (l.map (·.1)).Nodup) (hmem : (k, b) ∈ l) :
    ∃ before after, l = before ++ (k, b) :: after ∧ (∀ e ∈ before, e.1 ≠ k) ∧
      ∀ e ∈ after, e.1 ≠ k := by
  obtain ⟨before, after, rfl⟩ := List.append_of_mem hmem
  rw [List.map_append, List.map_cons, List.nodup_append, List.nodup_cons] at hnodup
  obtain ⟨-, ⟨hafter, -⟩, hbefore⟩ := hnodup
  refine ⟨before, after, rfl, fun e he heq => ?_, fun e he heq => ?_⟩
  · exact hbefore _ (List.mem_map_of_mem he) _ List.mem_cons_self heq
  · exact hafter (List.mem_map.2 ⟨e, he, heq⟩)

theorem lookup_of_mem (hnodup : (l.map (·.1)).Nodup) (hmem : (k, b) ∈ l) : l.lookup k = some b := by
  obtain ⟨before, after, rfl, hbefore, -⟩ := split_of_mem hnodup hmem
  exact List.lookup_eq_some_iff.2
    ⟨before, after, rfl, fun e he => bne_iff_ne.2 (Ne.symm (hbefore e he))⟩

theorem filter_of_mem (hnodup : (l.map (·.1)).Nodup) (hmem : (k, b) ∈ l) :
    ∃ before after, l = before ++ (k, b) :: after ∧
      (l.filter fun e => !(e.1 == k)) = before ++ after := by
  obtain ⟨before, after, rfl, hbefore, hafter⟩ := split_of_mem hnodup hmem
  have hkeep : ∀ es : List (α × β), (∀ e ∈ es, e.1 ≠ k) →
      (es.filter fun e => !(e.1 == k)) = es := by
    intro es hes
    exact List.filter_eq_self.2 fun e he => by
      rw [Bool.not_eq_true', beq_eq_false_iff_ne]
      exact hes e he
  refine ⟨before, after, rfl, ?_⟩
  rw [List.filter_append, List.filter_cons, hkeep before hbefore, hkeep after hafter]
  simp

theorem filter_of_lookup (hnodup : (l.map (·.1)).Nodup) (hlookup : l.lookup k = some b) :
    ∃ before after, l = before ++ (k, b) :: after ∧
      (l.filter fun e => !(e.1 == k)) = before ++ after :=
  filter_of_mem hnodup (mem_of_lookup hlookup)

theorem replace_of_lookup (hnodup : (l.map (·.1)).Nodup) (hlookup : l.lookup k = some b) (b' : β) :
    ∃ before after, l = before ++ (k, b) :: after ∧
      (l.map fun e => if e.1 == k then (k, b') else e) = before ++ (k, b') :: after := by
  obtain ⟨before, after, rfl, hbefore, hafter⟩ := split_of_mem hnodup (mem_of_lookup hlookup)
  have hkeep : ∀ es : List (α × β), (∀ e ∈ es, e.1 ≠ k) →
      (es.map fun e => if e.1 == k then (k, b') else e) = es := by
    intro es hes
    rw [List.map_congr_left fun e he => if_neg (by simpa using hes e he), List.map_id']
  refine ⟨before, after, rfl, ?_⟩
  rw [List.map_append, List.map_cons, hkeep before hbefore, hkeep after hafter,
    if_pos (beq_self_eq_true k)]

end ConsensusCore
