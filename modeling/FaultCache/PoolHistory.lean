import FaultCache.PoolMachine
import Mathlib.Tactic.SplitIfs

/-!
# Fills and evictions over a run

The history of a pool, newest event first. Fills and evictions of one chunk
alternate, starting with a fill; promotions and demotions do not count.
-/

set_option autoImplicit false

namespace FaultCache.PoolHistory
open FaultCache.PoolMachine

def node : Event → Node
  | .fill n _ => n
  | .promote n => n
  | .demote n => n
  | .evict n => n

/-- What the event makes of its chunk's `initialized` flag. -/
def sets : Event → Option Bool
  | .fill _ _ => some true
  | .evict _ => some false
  | _ => none

def populated (n : Node) : List Event → Bool
  | [] => false
  | e::h => if node e = n then (sets e).getD (populated n h) else populated n h

def Alternates (n : Node) : List Event → Prop
  | [] => True
  | e::h => (node e = n → ∀ b, sets e = some b → populated n h = !b) ∧ Alternates n h

def fills (n : Node) (h : List Event) : ℕ := h.countP (fun e => node e = n ∧ sets e = some true)
def evicts (n : Node) (h : List Event) : ℕ := h.countP (fun e => node e = n ∧ sets e = some false)

theorem fills_cons (n : Node) (e : Event) (h : List Event) :
    fills n (e::h) = fills n h+if node e = n ∧ sets e = some true then 1 else 0 := by
  simp [fills,List.countP_cons]

theorem evicts_cons (n : Node) (e : Event) (h : List Event) :
    evicts n (e::h) = evicts n h+if node e = n ∧ sets e = some false then 1 else 0 := by
  simp [evicts,List.countP_cons]

/-- Each event changes the difference of the two counts as it changes the flag. -/
theorem fills_eq_evicts_add {n : Node} {h : List Event} (ha : Alternates n h) :
    fills n h = evicts n h+(populated n h).toNat := by
  induction h with
  | nil => rfl
  | cons e h ih =>
    have hih := ih ha.2
    have hstep := ha.1
    rw [fills_cons,evicts_cons,populated,hih]
    by_cases hn : node e = n
    · have := hstep hn
      cases hs : sets e with
      | none => simp [hn]
      | some b =>
        have hp := this b hs
        cases b with
        | true => simp [hn,hp]
        | false => simp [hn,hp]
    · simp [hn]

theorem alternates_suffix {n : Node} {h₁ h₂ : List Event} (ha : Alternates n (h₁ ++ h₂)) :
    Alternates n h₂ := by
  induction h₁ with
  | nil => exact ha
  | cons e h ih => exact ih ha.2

theorem populated_until_evict {n : Node} {b : ℕ} {h₁ h₂ : List Event} (he : Event.evict n ∉ h₁) :
    populated n (h₁ ++ .fill n b::h₂) = true := by
  induction h₁ with
  | nil => simp [populated,node,sets]
  | cons e h ih =>
    have hih := ih (fun hc => he (List.mem_cons_of_mem _ hc))
    rw [List.cons_append,populated]
    split_ifs with hn
    · cases e with
      | fill m a => rfl
      | promote m => exact hih
      | demote m => exact hih
      | evict m =>
        obtain rfl : m = n := hn
        exact absurd List.mem_cons_self he
    · exact hih

/-- Two fills of one chunk enclose an eviction of it. -/
theorem evict_between_fills {n : Node} {a b : ℕ} {h₁ h₂ h₃ : List Event}
    (ha : Alternates n (h₁ ++ .fill n a::(h₂ ++ .fill n b::h₃))) : Event.evict n ∈ h₂ := by
  by_contra hc
  have h := (alternates_suffix ha).1 rfl true rfl
  rw [populated_until_evict hc] at h
  cases h

theorem evicts_eq_zero {n : Node} {h : List Event} (he : Event.evict n ∉ h) : evicts n h = 0 := by
  rw [evicts,List.countP_eq_zero]
  intro e hm hc
  simp only [decide_eq_true_eq] at hc
  cases e with
  | evict m =>
    obtain rfl : m = n := hc.1
    exact he hm
  | fill m a => cases hc.2
  | promote m => cases hc.2
  | demote m => cases hc.2

/-- A history in which a chunk is never named. -/
theorem populated_of_absent {n : Node} {h : List Event} (hn : ∀ e ∈ h, node e ≠ n) :
    populated n h = false := by
  induction h with
  | nil => rfl
  | cons e h ih =>
    rw [populated,if_neg (hn e List.mem_cons_self)]
    exact ih (fun e' he' => hn e' (List.mem_cons_of_mem _ he'))

end FaultCache.PoolHistory
