import Mathlib.Algebra.Order.Floor.Div
import Mathlib.Data.Nat.Notation
import Mathlib.Tactic.SplitIfs

/-!
# Address spaces

The memory of a process as the mapping calls of Linux change it, address by
address. Every mapped byte has a protection and an owner, which tells the
mappings of one party from those of the others. A call that fails returns
nothing. Lengths are rounded up to whole pages.
-/

set_option autoImplicit false

namespace FaultCache.AddressSpace

inductive Prot where
  | none
  | read
  | readWrite
  deriving DecidableEq, Repr

structure Cell (O : Type*) where
  prot : Prot
  owner : O
  byte : UInt8

abbrev Space (O : Type*) := ℕ → Option (Cell O)

variable {O : Type*} {P addr len n q i : ℕ} {sp sp' sp₂ : Space O} {f : ℕ → Option (Cell O)}

def onRange (sp : Space O) (addr len : ℕ) (f : ℕ → Option (Cell O)) : Space O :=
  fun q => if addr ≤ q ∧ q < addr+len then f q else sp q

theorem onRange_in (h : addr ≤ q ∧ q < addr+len) : onRange sp addr len f q = f q := if_pos h

theorem onRange_out (h : ¬ (addr ≤ q ∧ q < addr+len)) : onRange sp addr len f q = sp q := if_neg h

def wholePages (P len : ℕ) : ℕ := (len+P-1)/P*P

theorem wholePages_aligned (hP : 0 < P) (h : P ∣ len) : wholePages P len = len := by
  obtain ⟨k,rfl⟩ := h
  have hd : (P*k+P-1)/P = k := by
    rw [Nat.add_sub_assoc hP,Nat.mul_add_div hP,Nat.div_eq_of_lt (by omega),Nat.add_zero]
  rw [wholePages,hd,Nat.mul_comm]

/-- Whole pages are inside a range of whole pages or outside of it. -/
theorem page_within (ha : P ∣ addr) (hl : P ∣ len) (hq : P ∣ q) (hi : i < P) :
    addr ≤ q+i ∧ q+i < addr+len ↔ addr ≤ q ∧ q < addr+len := by
  obtain ⟨a,rfl⟩ := ha
  obtain ⟨l,rfl⟩ := hl
  obtain ⟨k,rfl⟩ := hq
  have h1 : P*a ≤ P*k+i ↔ P*a ≤ P*k := by
    constructor
    · intro h
      by_contra hc
      have hlt : k < a := lt_of_not_ge (fun hle => hc (Nat.mul_le_mul_left P hle))
      have := Nat.mul_le_mul_left P (Nat.succ_le_of_lt hlt)
      rw [Nat.mul_succ] at this
      omega
    · omega
  have h2 : P*k+i < P*a+P*l ↔ P*k < P*a+P*l := by
    constructor
    · omega
    · intro h
      rw [← Nat.mul_add] at h ⊢
      have hlt : k < a+l := Nat.lt_of_mul_lt_mul_left h
      have := Nat.mul_le_mul_left P (Nat.succ_le_of_lt hlt)
      rw [Nat.mul_succ] at this
      omega
  exact and_congr h1 h2

/-- Private anonymous memory at an address, whatever is there. -/
def mmap (P : ℕ) (sp : Space O) (addr len : ℕ) (prot : Prot) (owner : O) : Option (Space O) :=
  if P ∣ addr ∧ 0 < len ∧ addr+wholePages P len ≤ 2^64 then
    some (onRange sp addr (wholePages P len) (fun _ => some ⟨prot,owner,0⟩))
  else none

def munmap (P : ℕ) (sp : Space O) (addr len : ℕ) : Option (Space O) :=
  if P ∣ addr ∧ 0 < len ∧ addr+wholePages P len ≤ 2^64 then
    some (onRange sp addr (wholePages P len) (fun _ => none))
  else none

def mprotect (P : ℕ) (sp : Space O) (addr len : ℕ) (prot : Prot) : Option (Space O) :=
  if P ∣ addr ∧ ∀ i < wholePages P len, (sp (addr+i)).isSome = true then
    some (onRange sp addr (wholePages P len) (fun q => (sp q).map (fun c => { c with prot := prot })))
  else none

/-- Bytes that are mapped, all in the same way. -/
def OneMapping (sp : Space O) (addr len : ℕ) : Prop :=
  ∀ i < len, (sp (addr+i)).isSome = true ∧
    (sp (addr+i)).map (fun c => (c.prot,c.owner)) = (sp addr).map (fun c => (c.prot,c.owner))

instance [DecidableEq O] (sp : Space O) (addr len : ℕ) : Decidable (OneMapping sp addr len) :=
  inferInstanceAs (Decidable (∀ i < len, (sp (addr+i)).isSome = true ∧
    (sp (addr+i)).map (fun c => (c.prot,c.owner)) = (sp addr).map (fun c => (c.prot,c.owner))))

/-- `MREMAP_MAYMOVE | MREMAP_FIXED` with the old size for the new one. -/
def mremap [DecidableEq O] (P : ℕ) (sp : Space O) (old len target : ℕ) : Option (Space O) :=
  let n := wholePages P len
  if P ∣ old ∧ P ∣ target ∧ 0 < len ∧ target+n ≤ 2^64 ∧ (old+n ≤ target ∨ target+n ≤ old) ∧
      OneMapping sp old n then
    some (onRange (onRange sp old n (fun _ => none)) target n (fun q => sp (old+(q-target))))
  else none

/-- What an instruction reads, if it is not stopped. -/
def load (sp : Space O) (q : ℕ) : Option UInt8 :=
  (sp q).bind (fun c => if c.prot = .none then none else some c.byte)

def store (sp : Space O) (addr : ℕ) (bytes : ℕ → UInt8) (len : ℕ) : Option (Space O) :=
  if ∀ i < len, (sp (addr+i)).any (fun c => c.prot == .readWrite) = true then
    some (onRange sp addr len (fun q => (sp q).map (fun c => { c with byte := bytes (q-addr) })))
  else none

def copy (sp : Space O) (dst src len : ℕ) : Option (Space O) :=
  if ∀ i < len, (load sp (src+i)).isSome = true then
    store sp dst (fun i => (load sp (src+i)).getD 0) len
  else none

section Owners
variable {C : Type*} {m m' m₂ : ℕ → Option C} (Mine : C → Prop)

/-- An address that is mapped as one of ours. -/
def OwnedBy (m : ℕ → Option C) (q : ℕ) : Prop := ∃ c, m q = some c ∧ Mine c

/-- The owners take addresses that nobody has and give back what they have. -/
structure KeepsOthers (m m' : ℕ → Option C) : Prop where
  take : ∀ q, ¬ OwnedBy Mine m q → m' q = m q ∨ m q = none ∧ OwnedBy Mine m' q
  give : ∀ q, OwnedBy Mine m q → OwnedBy Mine m' q ∨ m' q = none

/-- The others never touch what the owners have, or hand them anything. -/
def OthersMove (m m' : ℕ → Option C) : Prop := ∀ q, OwnedBy Mine m q ∨ OwnedBy Mine m' q → m' q = m q

variable {Mine}

theorem OwnedBy.congr (h : m' q = m q) : OwnedBy Mine m' q ↔ OwnedBy Mine m q := by
  rw [OwnedBy,OwnedBy,h]

theorem not_owned_none (h : m q = none) : ¬ OwnedBy Mine m q := by
  rintro ⟨c,hc,-⟩
  rw [h] at hc
  cases hc

theorem KeepsOthers.trans (h : KeepsOthers Mine m m') (h₂ : KeepsOthers Mine m' m₂) : KeepsOthers Mine m m₂ := by
  constructor
  · intro q hq
    rcases h.take q hq with he | ⟨hn,ho⟩
    · rcases h₂.take q ((OwnedBy.congr he).not.mpr hq) with he₂ | ⟨hn₂,ho₂⟩
      · exact Or.inl (he₂.trans he)
      · exact Or.inr ⟨he ▸ hn₂,ho₂⟩
    · rcases h₂.give q ho with ho₂ | hn₂
      · exact Or.inr ⟨hn,ho₂⟩
      · exact Or.inl (hn₂.trans hn.symm)
  · intro q hq
    rcases h.give q hq with ho | hn
    · exact h₂.give q ho
    · rcases h₂.take q (not_owned_none hn) with he | ⟨-,ho⟩
      · exact Or.inr (he.trans hn)
      · exact Or.inl ho

theorem KeepsOthers.of (h : ∀ q, m' q = m q ∨
    (m q = none ∨ OwnedBy Mine m q) ∧ (m' q = none ∨ OwnedBy Mine m' q)) : KeepsOthers Mine m m' := by
  constructor
  · intro q hq
    rcases h q with he | ⟨hn | ho,hm'⟩
    · exact Or.inl he
    · rcases hm' with hn' | ho'
      · exact Or.inl (hn'.trans hn.symm)
      · exact Or.inr ⟨hn,ho'⟩
    · exact absurd ho hq
  · intro q hq
    rcases h q with he | ⟨-,hm'⟩
    · exact Or.inl ((OwnedBy.congr he).mpr hq)
    · exact hm'.symm

theorem KeepsOthers.refl (m : ℕ → Option C) : KeepsOthers Mine m m := .of (fun _ => Or.inl rfl)

theorem onRange_keeps {f : ℕ → Option (Cell O)} {Mine : Cell O → Prop}
    (h : ∀ q, addr ≤ q ∧ q < addr+len → sp q = none ∨ OwnedBy Mine sp q)
    (hf : ∀ q, addr ≤ q ∧ q < addr+len → f q = none ∨ ∃ c, f q = some c ∧ Mine c) :
    KeepsOthers Mine sp (onRange sp addr len f) := by
  refine .of (fun q => ?_)
  by_cases hin : addr ≤ q ∧ q < addr+len
  · refine Or.inr ⟨h q hin,?_⟩
    rw [OwnedBy,onRange_in hin]
    exact hf q hin
  · exact Or.inl (onRange_out hin)

end Owners

end FaultCache.AddressSpace
