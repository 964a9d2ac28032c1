import FaultCache.AddressSpace
import Mathlib.Logic.Function.Basic

/-!
# Address spaces of allocations

The memory of a process as the mapping calls of Windows change it. An address
belongs to one allocation as a whole: a placeholder, which reserves its
addresses only, a view of a section, or memory that is not described further.
Placeholders are split into placeholders and replaced by views, views are taken
away and leave a placeholder or nothing. The bytes are those of the sections,
which stay as long as something shows them. A call that is not clearly promised
to succeed returns nothing.
-/

set_option autoImplicit false

namespace FaultCache.Placeholders
open FaultCache.AddressSpace

/-- `replaces` is set for a view that was put in place of a placeholder. -/
structure View where
  sec : ℕ
  off : ℕ
  prot : Prot
  replaces : Bool
  deriving DecidableEq, Repr

inductive Kind where
  | placeholder
  | view (v : View)
  | other
  deriving DecidableEq, Repr

structure Alloc (O : Type*) where
  base : ℕ
  size : ℕ
  kind : Kind
  owner : O
  deriving DecidableEq, Repr

def Alloc.Has {O : Type*} (a : Alloc O) (q : ℕ) : Prop := a.base ≤ q ∧ q < a.base+a.size

instance {O : Type*} (a : Alloc O) (q : ℕ) : Decidable (a.Has q) :=
  inferInstanceAs (Decidable (a.base ≤ q ∧ q < a.base+a.size))

/-- Each address with its allocation. -/
structure Space (O : Type*) where
  alloc : ℕ → Option (Alloc O)
  within : ∀ {q a}, alloc q = some a → a.Has q
  whole : ∀ {q p a}, alloc q = some a → a.Has p → alloc p = some a

variable {O : Type*} {sp : Space O} {a b : Alloc O} {p q : ℕ}

theorem Space.disjoint (h : sp.alloc q = some a) (hb : sp.alloc p = some b) (hne : a ≠ b) : ¬ a.Has p := by
  intro hp
  exact hne (Option.some.inj ((sp.whole h hp).symm.trans hb))

/-- The part of an allocation between two of its addresses. -/
def Alloc.part (a : Alloc O) (lo hi : ℕ) : Alloc O := { a with base := lo, size := hi-lo }

/-- The part of an allocation that an address is in, when it is cut at two addresses. -/
def Alloc.cut (a : Alloc O) (lo hi p : ℕ) : Alloc O :=
  if p < lo then a.part a.base lo else if p < hi then a.part lo hi else a.part hi (a.base+a.size)

theorem cut_has {lo hi : ℕ} (h1 : a.base ≤ lo) (h3 : hi ≤ a.base+a.size) (hp : a.Has p) :
    (a.cut lo hi p).Has p := by
  obtain ⟨h4,h5⟩ := hp
  simp only [Alloc.cut]
  split_ifs <;> simp only [Alloc.part,Alloc.Has] <;> omega

theorem cut_part {lo hi : ℕ} (h1 : a.base ≤ lo) (h2 : lo ≤ hi) (h3 : hi ≤ a.base+a.size)
    (hp : a.Has p) (hq : (a.cut lo hi p).Has q) : a.Has q ∧ a.cut lo hi q = a.cut lo hi p := by
  obtain ⟨h4,h5⟩ := hp
  simp only [Alloc.cut] at hq ⊢
  split_ifs at hq with hlo hhi <;> simp only [Alloc.part,Alloc.Has] at hq ⊢
  · exact ⟨by omega,by rw [if_pos (by omega),if_pos hlo]⟩
  · exact ⟨by omega,by rw [if_neg (by omega),if_pos (by omega),if_neg hlo,if_pos hhi]⟩
  · exact ⟨by omega,by rw [if_neg (by omega),if_neg (by omega),if_neg hlo,if_neg hhi]⟩

/-- A new allocation where there is none. -/
def Space.place (sp : Space O) (a : Alloc O) (h : ∀ i < a.size, sp.alloc (a.base+i) = none) : Space O where
  alloc p := if a.Has p then some a else sp.alloc p
  within := by
    intro p b hb
    split_ifs at hb with hp
    · cases hb
      exact hp
    · exact sp.within hb
  whole := by
    intro p r b hb hr
    split_ifs at hb with hp
    · cases hb
      rw [if_pos hr]
    · have hsame := sp.whole hb hr
      rw [hsame,if_neg]
      rintro ⟨h1,h2⟩
      have := h (r-a.base) (by omega)
      rw [Nat.add_sub_cancel' h1,hsame] at this
      cases this

theorem place_keeps {Mine : Alloc O → Prop} (h : ∀ i < a.size, sp.alloc (a.base+i) = none) (ha : Mine a) :
    KeepsOthers Mine sp.alloc (sp.place a h).alloc := by
  refine .of (fun p => ?_)
  by_cases hp : a.Has p
  · refine Or.inr ⟨Or.inl ?_,Or.inr ⟨a,if_pos hp,ha⟩⟩
    obtain ⟨h1,h2⟩ := hp
    have := h (p-a.base) (by omega)
    rwa [Nat.add_sub_cancel' h1] at this
  · exact Or.inl (if_neg hp)

variable [DecidableEq O]

/-- The allocation of an address is given back. -/
def Space.erase (sp : Space O) (q : ℕ) : Space O where
  alloc p := if sp.alloc p = sp.alloc q then none else sp.alloc p
  within := by
    intro p a h
    split_ifs at h
    exact sp.within h
  whole := by
    intro p r a h hr
    split_ifs at h with hp
    have := sp.whole h hr
    rw [this,← h,if_neg hp]

theorem erase_in (h : sp.alloc q = some a) (hp : a.Has p) : (sp.erase q).alloc p = none :=
  if_pos ((sp.whole h hp).trans h.symm)

theorem erase_out (h : sp.alloc q = some a) (hp : ¬ a.Has p) : (sp.erase q).alloc p = sp.alloc p := by
  refine if_neg (fun hc => hp ?_)
  exact sp.within (hc.trans h)

/-- The allocation of an address becomes another one of the same addresses. -/
def Space.setKind (sp : Space O) (q : ℕ) (k : Kind) : Space O where
  alloc p := if sp.alloc p = sp.alloc q then (sp.alloc p).map (fun a => { a with kind := k }) else sp.alloc p
  within := by
    intro p b hb
    split_ifs at hb with hp
    · obtain ⟨a,ha,rfl⟩ := Option.map_eq_some_iff.mp hb
      have hin := sp.within ha
      exact hin
    · exact sp.within hb
  whole := by
    intro p r b hb hr
    split_ifs at hb with hp
    · obtain ⟨a,ha,rfl⟩ := Option.map_eq_some_iff.mp hb
      have hsame := sp.whole ha hr
      rw [hsame,← ha,if_pos hp,ha]
      rfl
    · rw [sp.whole hb hr,← hb,if_neg hp]

theorem setKind_in {k : Kind} (h : sp.alloc q = some a) (hp : a.Has p) :
    (sp.setKind q k).alloc p = some { a with kind := k } := by
  have := sp.whole h hp
  change (if sp.alloc p = sp.alloc q then _ else _) = _
  rw [this,h,if_pos rfl]
  rfl

theorem setKind_out {k : Kind} (h : sp.alloc q = some a) (hp : ¬ a.Has p) :
    (sp.setKind q k).alloc p = sp.alloc p := by
  refine if_neg (fun hc => hp ?_)
  exact sp.within (hc.trans h)

/-- The allocation of an address is cut there and `len` bytes further on. -/
def Space.split (sp : Space O) (addr len : ℕ) : Space O where
  alloc p :=
    if sp.alloc p = sp.alloc addr then
      (sp.alloc p).map (fun a => a.cut addr (min (addr+len) (a.base+a.size)) p)
    else sp.alloc p
  within := by
    intro p b hb
    split_ifs at hb with hp
    · obtain ⟨a,ha,rfl⟩ := Option.map_eq_some_iff.mp hb
      exact cut_has (sp.within (hp.symm.trans ha)).1 (Nat.min_le_right _ _) (sp.within ha)
    · exact sp.within hb
  whole := by
    intro p r b hb hr
    split_ifs at hb with hp
    · obtain ⟨a,ha,rfl⟩ := Option.map_eq_some_iff.mp hb
      obtain ⟨h1,h2⟩ := sp.within (hp.symm.trans ha)
      obtain ⟨hr',he⟩ := cut_part h1 (Nat.le_min.mpr ⟨Nat.le_add_right _ _,h2.le⟩) (Nat.min_le_right _ _)
        (sp.within ha) hr
      have hsame := sp.whole ha hr'
      rw [hsame,← ha,if_pos hp,ha,Option.map_some,he]
    · rw [sp.whole hb hr,← hb,if_neg hp]

theorem split_in {addr len : ℕ} (h : sp.alloc addr = some a) (hlen : addr+len ≤ a.base+a.size) (hp : a.Has p) :
    (sp.split addr len).alloc p = some (a.cut addr (addr+len) p) := by
  have := sp.whole h hp
  change (if sp.alloc p = sp.alloc addr then _ else _) = _
  rw [this,h,if_pos rfl,Option.map_some,Nat.min_eq_left hlen]

theorem split_out {addr len : ℕ} (h : sp.alloc addr = some a) (hp : ¬ a.Has p) :
    (sp.split addr len).alloc p = sp.alloc p := by
  refine if_neg (fun hc => hp ?_)
  exact sp.within (hc.trans h)

section Keeping
variable {Mine : Alloc O → Prop}

theorem erase_keeps (h : sp.alloc q = some a) (ha : Mine a) : KeepsOthers Mine sp.alloc (sp.erase q).alloc := by
  refine .of (fun p => ?_)
  by_cases hp : a.Has p
  · exact Or.inr ⟨Or.inr ⟨a,sp.whole h hp,ha⟩,Or.inl (erase_in h hp)⟩
  · exact Or.inl (erase_out h hp)

theorem setKind_keeps {k : Kind} (h : sp.alloc q = some a) (ha : Mine a) (hk : Mine { a with kind := k }) :
    KeepsOthers Mine sp.alloc (sp.setKind q k).alloc := by
  refine .of (fun p => ?_)
  by_cases hp : a.Has p
  · exact Or.inr ⟨Or.inr ⟨a,sp.whole h hp,ha⟩,Or.inr ⟨_,setKind_in h hp,hk⟩⟩
  · exact Or.inl (setKind_out h hp)

theorem split_keeps {addr len : ℕ} (h : sp.alloc addr = some a) (hlen : addr+len ≤ a.base+a.size) (ha : Mine a)
    (hparts : ∀ p, Mine (a.cut addr (addr+len) p)) : KeepsOthers Mine sp.alloc (sp.split addr len).alloc := by
  refine .of (fun p => ?_)
  by_cases hp : a.Has p
  · exact Or.inr ⟨Or.inr ⟨a,sp.whole h hp,ha⟩,Or.inr ⟨_,split_in h hlen hp,hparts p⟩⟩
  · exact Or.inl (split_out h hp)

end Keeping

/-- `isOpen` tells whether there is a handle. -/
structure Section where
  size : ℕ
  bytes : ℕ → UInt8
  isOpen : Bool

/-- The sections carry the number of the call that made them. -/
structure Kernel (O : Type*) where
  space : Space O
  sections : ℕ → Option Section
  count : ℕ

/-- What is asked of an address, with the allocation and its kind if it is not free. -/
structure Query where
  base : ℕ
  allocBase : ℕ
  size : ℕ
  kind : Option Kind
  deriving DecidableEq, Repr

def freeRun (sp : Space O) : ℕ → ℕ → ℕ
  | 0, _ => 0
  | n+1, q => if sp.alloc q = none then freeRun sp n (q+1)+1 else 0

/-- `VirtualQuery` at the start of a page. -/
def virtualQuery (k : Kernel O) (q : ℕ) : Query :=
  match k.space.alloc q with
  | some a => ⟨q,a.base,a.base+a.size-q,some a.kind⟩
  | none => ⟨q,0,freeRun k.space (2^64-q) q,none⟩

/-- A new placeholder. -/
def virtualAlloc2 (k : Kernel O) (base size : ℕ) (owner : O) : Option (Kernel O) :=
  if h : 0 < size ∧ ∀ i < size, k.space.alloc (base+i) = none then
    some { k with space := k.space.place ⟨base,size,.placeholder,owner⟩ h.2 }
  else none

/-- `VirtualFree` of a whole placeholder. -/
def virtualFree (k : Kernel O) (q : ℕ) : Option (Kernel O) :=
  (k.space.alloc q).bind (fun a =>
    if a.kind = .placeholder ∧ a.base = q then some { k with space := k.space.erase q } else none)

/-- `VirtualFree` with `MEM_PRESERVE_PLACEHOLDER`, for a part of a placeholder. -/
def virtualFreePreserve (k : Kernel O) (addr len : ℕ) : Option (Kernel O) :=
  (k.space.alloc addr).bind (fun a =>
    if a.kind = .placeholder ∧ 0 < len ∧ len < a.size ∧ addr+len ≤ a.base+a.size then
      some { k with space := k.space.split addr len }
    else none)

/-- `CreateFileMappingW` with the halves of the size. -/
def createFileMapping (k : Kernel O) (sizeHigh sizeLow : ℕ) : Option (Kernel O × ℕ) :=
  let size := sizeHigh*2^32+sizeLow
  if 0 < size then
    some ({ k with
      sections := Function.update k.sections k.count (some ⟨size,fun _ => 0,true⟩)
      count := k.count+1 },k.count)
  else none

def closeHandle (k : Kernel O) (n : ℕ) : Option (Kernel O) :=
  (k.sections n).bind (fun s =>
    if s.isOpen then
      some { k with sections := Function.update k.sections n (some { s with isOpen := false }) }
    else none)

/-- The section is open and has the range. -/
def Shows (k : Kernel O) (n off len : ℕ) : Prop :=
  (k.sections n).any (fun s => s.isOpen && decide (off+len ≤ s.size)) = true

instance (k : Kernel O) (n off len : ℕ) : Decidable (Shows k n off len) :=
  inferInstanceAs (Decidable ((k.sections n).any (fun s => s.isOpen && decide (off+len ≤ s.size)) = true))

/-- A writable view of the start of a section, at an address that the kernel picks. -/
def mapViewOfFile (k : Kernel O) (n pick size : ℕ) (owner : O) : Option (Kernel O) :=
  if h : 0 < size ∧ Shows k n 0 size ∧ ∀ i < size, k.space.alloc (pick+i) = none then
    some { k with space := k.space.place ⟨pick,size,.view ⟨n,0,.readWrite,false⟩,owner⟩ h.2.2 }
  else none

/-- `MapViewOfFile3` with `MEM_REPLACE_PLACEHOLDER`, for a placeholder of just
that size. Offset and address are multiples of the allocation granularity. -/
def mapViewOfFile3 (P : ℕ) (k : Kernel O) (n target off len : ℕ) (prot : Prot) : Option (Kernel O) :=
  (k.space.alloc target).bind (fun a =>
    if P ∣ target ∧ P ∣ off ∧ a.kind = .placeholder ∧ a.base = target ∧ a.size = len ∧ Shows k n off len then
      some { k with space := k.space.setKind target (.view ⟨n,off,prot,true⟩) }
    else none)

def unmapViewOfFile (k : Kernel O) (q : ℕ) : Option (Kernel O) :=
  (k.space.alloc q).bind (fun a =>
    match a.kind with
    | .view _ => if a.base = q then some { k with space := k.space.erase q } else none
    | _ => none)

/-- `UnmapViewOfFileEx` with `MEM_PRESERVE_PLACEHOLDER`. -/
def unmapViewOfFileEx (k : Kernel O) (q : ℕ) : Option (Kernel O) :=
  (k.space.alloc q).bind (fun a =>
    match a.kind with
    | .view v =>
      if a.base = q ∧ v.replaces = true then some { k with space := k.space.setKind q .placeholder } else none
    | _ => none)

/-- `VirtualProtect` of a whole view. -/
def virtualProtect (k : Kernel O) (addr size : ℕ) (prot : Prot) : Option (Kernel O) :=
  (k.space.alloc addr).bind (fun a =>
    match a.kind with
    | .view v =>
      if a.base = addr ∧ a.size = size then
        some { k with space := k.space.setKind addr (.view { v with prot := prot }) }
      else none
    | _ => none)

def Kind.prot : Kind → Prot
  | .view v => v.prot
  | _ => .none

/-- The byte that a view shows at an address. -/
def Kind.byte (sections : ℕ → Option Section) (i : ℕ) : Kind → UInt8
  | .view v => ((sections v.sec).map (fun s => s.bytes (v.off+i))).getD 0
  | _ => 0

/-- What each address shows. -/
def cells (k : Kernel O) : AddressSpace.Space O := fun q =>
  (k.space.alloc q).map (fun a => ⟨a.kind.prot,a.owner,a.kind.byte k.sections (q-a.base)⟩)

/-- A store inside of one writable view. -/
def store (k : Kernel O) (addr : ℕ) (bytes : ℕ → UInt8) (len : ℕ) : Option (Kernel O) :=
  if len = 0 then some k
  else
    (k.space.alloc addr).bind (fun a =>
      match a.kind with
      | .view v =>
        if v.prot = .readWrite ∧ addr+len ≤ a.base+a.size then
          (k.sections v.sec).map (fun s => { k with
            sections := Function.update k.sections v.sec (some { s with
              bytes := fun i => if v.off+(addr-a.base) ≤ i ∧ i < v.off+(addr-a.base)+len then
                bytes (i-(v.off+(addr-a.base))) else s.bytes i }) })
        else none
      | _ => none)

omit [DecidableEq O] in
theorem store_view {k : Kernel O} {v : View} {s : Section} (addr len : ℕ) (bytes : ℕ → UInt8)
    (ha : k.space.alloc q = some a) (hk : a.kind = .view v) (hv : v.prot = .readWrite)
    (hs : k.sections v.sec = some s) (hlo : a.base ≤ addr) (hhi : addr+len ≤ a.base+a.size) :
    ∃ s', store k addr bytes len = some { k with sections := Function.update k.sections v.sec (some s') } ∧
      s'.size = s.size ∧ s'.isOpen = s.isOpen ∧
      ∀ i, s'.bytes i = if v.off+(addr-a.base) ≤ i ∧ i < v.off+(addr-a.base)+len then
        bytes (i-(v.off+(addr-a.base))) else s.bytes i := by
  rw [store]
  by_cases hlen : len = 0
  · subst hlen
    refine ⟨s,?_,rfl,rfl,fun i => (if_neg (by omega)).symm⟩
    rw [if_pos rfl,← hs,Function.update_eq_self]
  · have haddr := k.space.whole ha ⟨hlo,show addr < a.base+a.size by omega⟩
    rw [if_neg hlen,haddr,Option.bind_some]
    simp only [hk,hv,hhi,and_self,if_true,hs,Option.map_some]
    exact ⟨_,rfl,rfl,rfl,fun _ => rfl⟩

def copy (k : Kernel O) (dst src len : ℕ) : Option (Kernel O) :=
  if ∀ i < len, (load (cells k) (src+i)).isSome = true then
    store k dst (fun i => (load (cells k) (src+i)).getD 0) len
  else none

end FaultCache.Placeholders
