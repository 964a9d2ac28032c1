import FaultCache.BudgetPrefix
import Mathlib.Algebra.Order.Group.Nat
import Mathlib.Data.List.Perm.Subperm

/-!
# What has been used lately, in a recency list

A recency list brings an element to its front when it is used. The elements
used since some moment are then a prefix of the list, newest first. As long as
they weigh no more than the budget together, cutting the list down to the budget
from the back does not reach them.
-/

set_option autoImplicit false

namespace FaultCache.RecencyWindow
open FaultCache.BudgetPrefix

variable {α : Type} {w : α → ℕ} {budget : ℕ} {us q q' : List α}

theorem weight_le_of_subset (hn : us.Nodup) (h : us ⊆ q) : weight w us ≤ weight w q := by
  obtain ⟨ks,hp,hs⟩ := List.subperm_of_subset hn h
  rw [← weight_perm w hp]
  exact (hs.map w).sum_le_sum (by simp)

/-- Cutting from the back, with everything kept that fits. -/
structure Trims (w : α → ℕ) (budget : ℕ) (q q' : List α) : Prop where
  isPrefix : q' <+: q
  longest : ∀ z, z <+: q → weight w z ≤ budget → z <+: q'

theorem Trims.keeps (h : Trims w budget q q') (hu : us <+: q) (hw : weight w us ≤ budget) : us <+: q' :=
  h.longest us hu hw

variable [BEq α] [LawfulBEq α]

/-- The list after a use of `x`. -/
def bring (x : α) (q : List α) : List α := x::q.erase x

theorem mem_bring {x y : α} : y ∈ bring x q ↔ y = x ∨ y ∈ q := by
  rw [bring,List.mem_cons]
  by_cases hy : y = x
  · simp [hy]
  · rw [List.mem_erase_of_ne hy]

/-- Elements behind the window come and go. -/
theorem erase_behind (h : us <+: q) {x : α} (hx : x ∉ us) : us <+: q.erase x := by
  obtain ⟨t,rfl⟩ := h
  rw [List.erase_append_right _ hx]
  exact List.prefix_append _ _

/-- A use moves its element to the front of the window, out of the rest of the
list if it was there. -/
theorem bring_prefix (h : us <+: q) (x : α) : bring x us <+: bring x q := by
  refine List.cons_prefix_cons.mpr ⟨rfl,?_⟩
  by_cases hx : x ∈ us
  · obtain ⟨t,rfl⟩ := h
    rw [List.erase_append_left _ hx]
    exact List.prefix_append _ _
  · rw [List.erase_of_not_mem hx]
    exact erase_behind h hx

end FaultCache.RecencyWindow
