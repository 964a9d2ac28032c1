import Mathlib.Order.Basic
import Mathlib.Tactic.Ring

/-!
# Bisection over an index range

Two loop shapes over a Boolean test: one keeps the last index that passes,
the other the first index that fails. The loops carry a fuel argument; the
specifications ask only that it covers the width of the range.
-/

set_option autoImplicit false

namespace FaultCache.Bisection

def lastLoop (p : ℕ → Bool) : ℕ → ℕ → ℕ → ℕ
  | 0, lo, _ => lo
  | fuel+1, lo, hi =>
    if lo < hi then
      let mid := lo+(hi-lo+1)/2
      if p mid then lastLoop p fuel mid hi else lastLoop p fuel lo (mid-1)
    else lo

def firstLoop (p : ℕ → Bool) : ℕ → ℕ → ℕ → ℕ
  | 0, lo, _ => lo
  | fuel+1, lo, hi =>
    if lo < hi then
      let mid := lo+(hi-lo)/2
      if p mid then firstLoop p fuel (mid+1) hi else firstLoop p fuel lo mid
    else lo

def DownClosed (p : ℕ → Bool) (hi : ℕ) : Prop := ∀ i j, i ≤ j → j < hi → p j = true → p i = true

/-- The upward loop stops at the last index of the range that passes. -/
theorem last_loop_spec (p : ℕ → Bool) (n : ℕ) (hp : DownClosed p n) (fuel lo hi : ℕ)
    (hf : hi-lo ≤ fuel) (hle : lo ≤ hi) (hn : hi < n) (hlo : p lo = true) :
    lo ≤ lastLoop p fuel lo hi ∧ lastLoop p fuel lo hi ≤ hi ∧
      p (lastLoop p fuel lo hi) = true ∧
      ∀ j, lastLoop p fuel lo hi < j → j ≤ hi → p j = false := by
  induction fuel generalizing lo hi with
  | zero =>
    refine ⟨le_refl _,hle,hlo,?_⟩
    intro j hj hj'
    simp only [lastLoop] at hj
    omega
  | succ fuel ih =>
    rw [lastLoop]
    by_cases hlt : lo < hi
    · simp only [if_pos hlt]
      by_cases hm : p (lo+(hi-lo+1)/2) = true
      · simp only [if_pos hm]
        obtain ⟨h1,h2,h3,h4⟩ := ih (lo+(hi-lo+1)/2) hi (by omega) (by omega) hn hm
        exact ⟨by omega,h2,h3,h4⟩
      · simp only [if_neg hm]
        obtain ⟨h1,h2,h3,h4⟩ := ih lo (lo+(hi-lo+1)/2-1) (by omega) (by omega) (by omega) hlo
        refine ⟨h1,by omega,h3,?_⟩
        intro j hj hj'
        by_cases hjm : j ≤ lo+(hi-lo+1)/2-1
        · exact h4 j hj hjm
        · cases hpj : p j with
          | false => rfl
          | true => exact absurd (hp _ j (by omega) (by omega) hpj) hm
    · simp only [if_neg hlt]
      exact ⟨le_refl _,hle,hlo,fun j hj hj' => by omega⟩

/-- The half-open loop stops at the first index that fails, or at the end. -/
theorem first_loop_spec (p : ℕ → Bool) (n : ℕ) (hp : DownClosed p n) (fuel lo hi : ℕ)
    (hf : hi-lo ≤ fuel) (hle : lo ≤ hi) (hn : hi ≤ n) (hlo : ∀ j < lo, p j = true) :
    lo ≤ firstLoop p fuel lo hi ∧ firstLoop p fuel lo hi ≤ hi ∧
      (∀ j < firstLoop p fuel lo hi, p j = true) ∧
      ∀ j, firstLoop p fuel lo hi ≤ j → j < hi → p j = false := by
  induction fuel generalizing lo hi with
  | zero =>
    refine ⟨le_refl _,hle,hlo,?_⟩
    intro j hj hj'
    simp only [firstLoop] at hj
    omega
  | succ fuel ih =>
    rw [firstLoop]
    by_cases hlt : lo < hi
    · simp only [if_pos hlt]
      by_cases hm : p (lo+(hi-lo)/2) = true
      · simp only [if_pos hm]
        have hb : ∀ j < lo+(hi-lo)/2+1, p j = true := by
          intro j hj
          exact hp j _ (by omega) (by omega) hm
        obtain ⟨h1,h2,h3,h4⟩ := ih (lo+(hi-lo)/2+1) hi (by omega) (by omega) hn hb
        exact ⟨by omega,h2,h3,h4⟩
      · simp only [if_neg hm]
        obtain ⟨h1,h2,h3,h4⟩ := ih lo (lo+(hi-lo)/2) (by omega) (by omega) (by omega) hlo
        refine ⟨h1,by omega,h3,?_⟩
        intro j hj hj'
        by_cases hjm : j < lo+(hi-lo)/2
        · exact h4 j hj hjm
        · cases hpj : p j with
          | false => rfl
          | true => exact absurd (hp _ j (by omega) (by omega) hpj) hm
    · simp only [if_neg hlt]
      exact ⟨le_refl _,hle,hlo,fun j hj hj' => by omega⟩

end FaultCache.Bisection
