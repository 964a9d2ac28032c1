import Mathlib.Data.Set.Insert
import Mathlib.Logic.Function.Basic

/-!
# Owners of handles

A library hands out handles and a caller keeps each of them in one owner, which
forgets it when it gives the handle back. As long as opening takes a new handle
and closing forgets the one that is given back, the handles that are out are
exactly those that some owner remembers, and none has two owners.
-/

set_option autoImplicit false

namespace FaultCache.OwnedHandles

variable {O H : Type*}

/-- The owners remember the live handles, one owner each. -/
structure Names (handle : O → Option H) (live : Set H) : Prop where
  live : ∀ h, h ∈ live ↔ ∃ o, handle o = some h
  injective : ∀ {o o' h}, handle o = some h → handle o' = some h → o = o'

namespace Names
variable {handle handle' : O → Option H} {live live' : Set H} {o : O} {h : H}

theorem none (H : Type*) : Names (fun _ : O => (Option.none : Option H)) ∅ where
  live := by simp
  injective := by simp

theorem mem (hn : Names handle live) (ho : handle o = some h) : h ∈ live := (hn.live h).mpr ⟨o,ho⟩

theorem congr (hn : Names handle live) (he : ∀ o, handle' o = handle o) (hl : ∀ h, h ∈ live' ↔ h ∈ live) :
    Names handle' live' := by
  obtain rfl : handle' = handle := funext he
  obtain rfl : live' = live := Set.ext hl
  exact hn

/-- A new handle is kept by an owner that has none. -/
theorem opened [DecidableEq O] (hn : Names handle live) (ho : handle o = Option.none) (hh : h ∉ live) :
    Names (Function.update handle o (some h)) (insert h live) where
  live := by
    intro h'
    rw [Set.mem_insert_iff,hn.live]
    constructor
    · rintro (rfl | ⟨o',ho'⟩)
      · exact ⟨o,Function.update_self _ _ _⟩
      · refine ⟨o',(Function.update_of_ne ?_ _ _).trans ho'⟩
        rintro rfl
        rw [ho] at ho'
        cases ho'
    · rintro ⟨o',ho'⟩
      by_cases he : o' = o
      · subst he
        rw [Function.update_self] at ho'
        exact Or.inl (Option.some.inj ho').symm
      · rw [Function.update_of_ne he] at ho'
        exact Or.inr ⟨o',ho'⟩
  injective := by
    have hout : ∀ o', handle o' = some h → False := fun o' ho' => hh (hn.mem ho')
    intro o₁ o₂ h' h₁ h₂
    by_cases e₁ : o₁ = o <;> by_cases e₂ : o₂ = o
    · exact e₁.trans e₂.symm
    · subst e₁
      rw [Function.update_self,Option.some.injEq] at h₁
      rw [Function.update_of_ne e₂,← h₁] at h₂
      exact (hout o₂ h₂).elim
    · subst e₂
      rw [Function.update_self,Option.some.injEq] at h₂
      rw [Function.update_of_ne e₁,← h₂] at h₁
      exact (hout o₁ h₁).elim
    · rw [Function.update_of_ne e₁] at h₁
      rw [Function.update_of_ne e₂] at h₂
      exact hn.injective h₁ h₂

/-- An owner gives its handle back. -/
theorem closed [DecidableEq O] (hn : Names handle live) (ho : handle o = some h) :
    Names (Function.update handle o Option.none) (live \ {h}) where
  live := by
    intro h'
    rw [Set.mem_sdiff,Set.mem_singleton_iff,hn.live]
    constructor
    · rintro ⟨⟨o',ho'⟩,hne⟩
      refine ⟨o',(Function.update_of_ne ?_ _ _).trans ho'⟩
      rintro rfl
      exact hne (Option.some.inj (ho'.symm.trans ho))
    · rintro ⟨o',ho'⟩
      by_cases he : o' = o
      · subst he
        rw [Function.update_self] at ho'
        cases ho'
      · rw [Function.update_of_ne he] at ho'
        refine ⟨⟨o',ho'⟩,?_⟩
        rintro rfl
        exact he (hn.injective ho' ho)
  injective := by
    intro o₁ o₂ h' h₁ h₂
    have hne : ∀ o', Function.update handle o Option.none o' = some h' → handle o' = some h' := by
      intro o' ho'
      by_cases he : o' = o
      · subst he
        rw [Function.update_self] at ho'
        cases ho'
      · rwa [Function.update_of_ne he] at ho'
    exact hn.injective (hne o₁ h₁) (hne o₂ h₂)

end Names

end FaultCache.OwnedHandles
