import FaultCache.BudgetPrefix
import Mathlib.Data.List.Perm.Lattice

/-!
# Two elements taking turns at the front of a split recency list

A recency list is kept within a budget by dropping its back, and its front is
hot up to half the weight that is left. Two elements that are accessed in turn
both become hot exactly when the other elements that still fit beside them
weigh at least as much as the two together; otherwise each access makes the
other one cold again.
-/

set_option autoImplicit false

namespace FaultCache.SplitRecency
open FaultCache.BudgetPrefix

variable {α : Type} [BEq α] [LawfulBEq α] (w : α → ℕ) (budget : ℕ)

/-- One access to an element that is not hot. -/
structure MovesToFront (x : α) (hot cold hot' cold' : List α) : Prop where
  kept : hot' ++ cold' = x::takeWithin w (budget-w x) ((hot ++ cold).erase x)
  front : hot' = x::takeWithin w (weight w (hot' ++ cold')/2-w x) hot

/-- Everything but the two elements. -/
def rest (x y : α) (q : List α) : List α := q.filter (fun z => z != x && z != y)

/-- What fits beside the two elements. -/
def beside (x y : α) (q : List α) : List α := takeWithin w (budget-(w x+w y)) (rest x y q)

variable {w budget}

omit [LawfulBEq α] in
theorem rest_comm (x y : α) (q : List α) : rest x y q = rest y x q := by
  simp only [rest,Bool.and_comm]

omit [LawfulBEq α] in
theorem beside_comm (x y : α) (q : List α) : beside w budget x y q = beside w budget y x q := by
  rw [beside,beside,rest_comm,Nat.add_comm]

theorem rest_erase (x y : α) {q : List α} (hq : q.Nodup) : rest x y (q.erase x) = rest x y q := by
  rw [rest,rest,hq.erase_eq_filter,List.filter_filter]
  congr 1
  funext z
  by_cases hz : z = x <;> simp [hz]

theorem rest_cons (x y : α) (q : List α) : rest x y (x::q) = rest x y q := by
  simp [rest]

/-- Without `x` the two elements add at most the weight of `y`. -/
theorem weight_le_rest {x y : α} {q : List α} (hq : q.Nodup) (hx : x ∉ q) :
    weight w q ≤ weight w (rest x y q)+w y := by
  induction q with
  | nil => simp
  | cons a q ih =>
    rw [List.nodup_cons] at hq
    have hxq : x ∉ q := fun hm => hx (List.mem_cons_of_mem _ hm)
    have hax : a ≠ x := fun he => hx (he ▸ List.mem_cons_self)
    by_cases hay : a = y
    · subst hay
      have hsame : rest x a q = q := by
        rw [rest,List.filter_eq_self]
        intro z hz
        have h1 : z ≠ x := fun he => hxq (he ▸ hz)
        have h2 : z ≠ a := fun he => hq.1 (he ▸ hz)
        simp [h1,h2]
      have hcons : rest x a (a::q) = rest x a q := by simp [rest]
      rw [hcons,hsame,weight_cons]
      omega
    · have hcons : rest x y (a::q) = a::rest x y q := by simp [rest,hax,hay]
      have := ih hq.2 hxq
      rw [hcons,weight_cons,weight_cons]
      omega

/-- With both elements present the weights add up. -/
theorem weight_eq_rest {x y : α} {q : List α} (hq : q.Nodup) (hxy : x ≠ y) (hx : x ∈ q) (hy : y ∈ q) :
    weight w q = w x+w y+weight w (rest x y q) := by
  have hy' : y ∈ q.erase x := (List.mem_erase_of_ne hxy.symm).mpr hy
  have hperm : q.Perm (x::y::rest x y q) := by
    have h1 := List.perm_cons_erase hx
    have h2 := List.perm_cons_erase hy'
    have h3 : (q.erase x).erase y = rest x y q := by
      rw [(hq.erase x).erase_eq_filter,hq.erase_eq_filter,List.filter_filter,rest]
      congr 1
      funext z
      exact Bool.and_comm _ _
    rw [h3] at h2
    exact h1.trans (h2.cons x)
  rw [weight_perm w hperm,weight_cons,weight_cons]
  omega

/-- An access does not change what fits beside the two. -/
theorem beside_kept {x y : α} {q : List α} (hq : q.Nodup) (hfit : w x+w y ≤ budget) :
    beside w budget x y (x::takeWithin w (budget-w x) (q.erase x)) = beside w budget x y q := by
  have hp : takeWithin w (budget-w x) (q.erase x) <+: q.erase x := takeWithin_isPrefix _ _ _
  rw [beside,beside,rest_cons,← rest_erase x y hq]
  apply takeWithin_of_between
  · obtain ⟨p,hpq,hpz⟩ := prefix_of_filter _ (q.erase x)
      (takeWithin_isPrefix w (budget-(w x+w y)) (rest x y (q.erase x)))
    have hle := takeWithin_weight_le w (budget-(w x+w y)) (rest x y (q.erase x))
    have hwp : weight w p ≤ weight w (rest x y p)+w y :=
      weight_le_rest ((hq.erase x).sublist hpq.sublist)
        (fun hm => hq.not_mem_erase (hpq.subset hm))
    have hrest : rest x y p = takeWithin w (budget-(w x+w y)) (rest x y (q.erase x)) := hpz
    rw [hrest] at hwp
    rw [← hrest]
    exact (isPrefix_takeWithin w hpq (by omega)).filter _
  · exact hp.filter _

section Access
variable {x y : α} {hot cold hot' cold' : List α}

theorem MovesToFront.nodup (h : MovesToFront w budget x hot cold hot' cold')
    (hq : (hot ++ cold).Nodup) : (hot' ++ cold').Nodup := by
  rw [h.kept,List.nodup_cons]
  have hp := takeWithin_isPrefix w (budget-w x) ((hot ++ cold).erase x)
  exact ⟨fun hm => hq.not_mem_erase (hp.subset hm),(hq.erase x).sublist hp.sublist⟩

theorem MovesToFront.beside_eq (h : MovesToFront w budget x hot cold hot' cold')
    (hq : (hot ++ cold).Nodup) (hfit : w x+w y ≤ budget) :
    beside w budget x y (hot' ++ cold') = beside w budget x y (hot ++ cold) := by
  rw [h.kept]
  exact beside_kept hq hfit

omit [LawfulBEq α] in
theorem MovesToFront.weight_le (h : MovesToFront w budget x hot cold hot' cold') (hx : w x ≤ budget) :
    weight w (hot' ++ cold') ≤ budget := by
  have := takeWithin_weight_le w (budget-w x) ((hot ++ cold).erase x)
  rw [h.kept,weight_cons]
  omega

theorem weight_mem_le {z : α} {q : List α} (h : z ∈ q) : w z ≤ weight w q := by
  have := weight_perm w (List.perm_cons_erase h)
  rw [weight_cons] at this
  omega

/-- Both hot after an access: the others weigh at least as much. -/
theorem beside_ge_of_both_hot (h : MovesToFront w budget x hot cold hot' cold')
    (hq : (hot ++ cold).Nodup) (hxy : x ≠ y) (hfit : w x+w y ≤ budget) (hpos : 0 < w y)
    (hy : y ∈ hot') : w x+w y ≤ weight w (beside w budget x y (hot ++ cold)) := by
  have hq' := h.nodup hq
  have hx' : x ∈ hot' ++ cold' := by
    rw [h.kept]
    exact List.mem_cons_self
  have hsplit := weight_eq_rest (w := w) hq' hxy hx' (List.mem_append_left _ hy)
  have hbudget := h.weight_le (by omega)
  have hhalf : w x+w y ≤ weight w (hot' ++ cold')/2 := by
    have hmem : y ∈ takeWithin w (weight w (hot' ++ cold')/2-w x) hot := by
      have hy' := hy
      rw [h.front] at hy'
      exact (List.mem_cons.mp hy').resolve_left hxy.symm
    have h1 := weight_mem_le (w := w) hmem
    have h2 := takeWithin_weight_le w (weight w (hot' ++ cold')/2-w x) hot
    omega
  rw [← h.beside_eq hq hfit,beside,takeWithin_eq_self w (by omega)]
  omega

/-- The second access makes both hot when the others weigh enough. -/
theorem both_hot_of_beside_ge (h : MovesToFront w budget y hot cold hot' cold')
    (hq : (hot ++ cold).Nodup) (hxy : x ≠ y) (hfit : w x+w y ≤ budget)
    (hx : ∃ hs, hot = x::hs) (hge : w x+w y ≤ weight w (beside w budget x y (hot ++ cold))) :
    x ∈ hot' := by
  obtain ⟨hs,rfl⟩ := hx
  have hq' := h.nodup hq
  have hy' : y ∈ hot' ++ cold' := by
    rw [h.kept]
    exact List.mem_cons_self
  have hx' : x ∈ hot' ++ cold' := by
    have he : (x::hs ++ cold).erase y = x::(hs ++ cold).erase y := by
      rw [List.cons_append,List.erase_cons_tail (by simpa using hxy)]
    rw [h.kept,he,takeWithin,if_pos (by omega)]
    simp
  have hsplit := weight_eq_rest (w := w) hq' hxy hx' hy'
  have hbeside : weight w (beside w budget x y (hot' ++ cold')) ≤ weight w (rest x y (hot' ++ cold')) :=
    weight_prefix_le w (takeWithin_isPrefix _ _ _)
  have hsame : beside w budget x y (hot' ++ cold') = beside w budget x y (x::hs ++ cold) := by
    rw [beside_comm x y,beside_comm x y]
    exact h.beside_eq hq (by omega)
  rw [hsame] at hbeside
  rw [h.front,takeWithin,if_pos (by omega)]
  simp

end Access

end FaultCache.SplitRecency
