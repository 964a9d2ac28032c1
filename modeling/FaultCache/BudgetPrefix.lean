import Mathlib.Algebra.BigOperators.Group.List.Lemmas
import Mathlib.Algebra.Order.BigOperators.Group.List
import Mathlib.Algebra.Ring.Nat
import Mathlib.Data.List.Infix

/-!
# The longest prefix within a budget

Dropping elements from the back of a weighted list until the rest fits leaves
its longest prefix within the budget. The prefix is taken greedily from the
front, which is the same because weights are not negative.
-/

set_option autoImplicit false

namespace FaultCache.BudgetPrefix

variable {α : Type} (w : α → ℕ)

def weight (xs : List α) : ℕ := (xs.map w).sum

def takeWithin : ℕ → List α → List α
  | _, [] => []
  | budget, x::xs => if w x ≤ budget then x::takeWithin (budget-w x) xs else []

@[simp] theorem weight_nil : weight w [] = 0 := rfl

@[simp] theorem weight_cons (x : α) (xs : List α) : weight w (x::xs) = w x+weight w xs := by
  simp [weight]

@[simp] theorem weight_append (xs ys : List α) : weight w (xs ++ ys) = weight w xs+weight w ys := by
  simp [weight]

theorem weight_perm {xs ys : List α} (h : xs.Perm ys) : weight w xs = weight w ys :=
  (h.map w).sum_eq

theorem weight_prefix_le {xs ys : List α} (h : xs <+: ys) : weight w xs ≤ weight w ys := by
  obtain ⟨zs,rfl⟩ := h
  rw [weight_append]
  omega

theorem takeWithin_isPrefix (budget : ℕ) (xs : List α) : takeWithin w budget xs <+: xs := by
  induction xs generalizing budget with
  | nil => exact List.prefix_refl _
  | cons x xs ih =>
    rw [takeWithin]
    split_ifs
    · exact List.cons_prefix_cons.mpr ⟨rfl,ih _⟩
    · exact List.nil_prefix

theorem takeWithin_weight_le (budget : ℕ) (xs : List α) : weight w (takeWithin w budget xs) ≤ budget := by
  induction xs generalizing budget with
  | nil => simp [takeWithin]
  | cons x xs ih =>
    rw [takeWithin]
    split_ifs with h
    · have := ih (budget-w x)
      rw [weight_cons]
      omega
    · simp

/-- Every prefix that fits is a prefix of the one taken. -/
theorem isPrefix_takeWithin {budget : ℕ} {xs zs : List α} (hp : zs <+: xs)
    (hw : weight w zs ≤ budget) : zs <+: takeWithin w budget xs := by
  induction xs generalizing budget zs with
  | nil => rwa [takeWithin]
  | cons x xs ih =>
    cases zs with
    | nil => exact List.nil_prefix
    | cons z zs =>
      obtain ⟨rfl,hp'⟩ := List.cons_prefix_cons.mp hp
      rw [weight_cons] at hw
      rw [takeWithin,if_pos (by omega)]
      exact List.cons_prefix_cons.mpr ⟨rfl,ih hp' (by omega)⟩

theorem prefix_antisymm {xs ys : List α} (h : xs <+: ys) (h' : ys <+: xs) : xs = ys :=
  h.eq_of_length (le_antisymm h.length_le h'.length_le)

/-- The prefix taken is the only one that fits and extends all that fit. -/
theorem eq_takeWithin {budget : ℕ} {xs zs : List α} (hp : zs <+: xs) (hw : weight w zs ≤ budget)
    (hmax : ∀ ys, ys <+: xs → weight w ys ≤ budget → ys <+: zs) : zs = takeWithin w budget xs :=
  prefix_antisymm (isPrefix_takeWithin w hp hw)
    (hmax _ (takeWithin_isPrefix w budget xs) (takeWithin_weight_le w budget xs))

/-- Cutting the list anywhere past the prefix taken does not change it. -/
theorem takeWithin_of_between {budget : ℕ} {xs ys : List α} (h1 : takeWithin w budget xs <+: ys)
    (h2 : ys <+: xs) : takeWithin w budget ys = takeWithin w budget xs := by
  refine (eq_takeWithin w h1 (takeWithin_weight_le w budget xs) ?_).symm
  exact fun zs hz hw => isPrefix_takeWithin w (hz.trans h2) hw

theorem takeWithin_eq_self {budget : ℕ} {xs : List α} (h : weight w xs ≤ budget) :
    takeWithin w budget xs = xs :=
  (eq_takeWithin w (List.prefix_refl xs) h (fun _ hz _ => hz)).symm

theorem takeWithin_zero {xs : List α} (h : ∀ x ∈ xs, 0 < w x) : takeWithin w 0 xs = [] := by
  cases xs with
  | nil => rfl
  | cons x xs =>
    have := h x List.mem_cons_self
    rw [takeWithin,if_neg (by omega)]

/-- A prefix of what a filter keeps comes from a prefix of the list. -/
theorem prefix_of_filter (f : α → Bool) (q : List α) {z : List α} (h : z <+: q.filter f) :
    ∃ p, p <+: q ∧ p.filter f = z := by
  induction q generalizing z with
  | nil => exact ⟨[],List.prefix_refl _,(List.prefix_nil.mp h).symm⟩
  | cons a q ih =>
    cases z with
    | nil => exact ⟨[],List.nil_prefix,rfl⟩
    | cons b z =>
      by_cases ha : f a = true
      · rw [List.filter_cons_of_pos ha] at h
        obtain ⟨rfl,hz⟩ := List.cons_prefix_cons.mp h
        obtain ⟨p,hp,hpz⟩ := ih hz
        exact ⟨b::p,List.cons_prefix_cons.mpr ⟨rfl,hp⟩,by rw [List.filter_cons_of_pos ha,hpz]⟩
      · rw [List.filter_cons_of_neg ha] at h
        obtain ⟨p,hp,hpz⟩ := ih h
        exact ⟨a::p,List.cons_prefix_cons.mpr ⟨rfl,hp⟩,by rw [List.filter_cons_of_neg ha,hpz]⟩

/-- Dropping one element further back never lengthens a proper prefix. -/
theorem prefix_of_concat {xs zs : List α} {x : α} (h : zs <+: xs ++ [x]) (hne : zs ≠ xs ++ [x]) :
    zs <+: xs := by
  rcases List.prefix_concat_iff.mp h with h | h
  · exact absurd h hne
  · exact h

end FaultCache.BudgetPrefix
