import FaultCache.ScratchContract
import Mathlib.Logic.Function.Basic

/-!
# What may be asked of the virtual-memory seam

The calls of `vm.h` on the whole process memory: the page table, the address
ranges that are reserved, and the scratch buffers that are held. A call is
allowed where the header says what it does. A buffer takes writes until it is
sealed, its pages are used up one disjoint range at a time, and it is gone with
the last of them. Only sealed pages are published, into reserved pages that
nothing can be read from.
-/

set_option autoImplicit false

namespace FaultCache.VmContract
open FaultCache.VmPages FaultCache.RangeTiling FaultCache.ScratchContract

/-- A scratch buffer by its holder: the running fill, or entry `j` of the table
of shared pages of region `rid` of pool `k`. -/
inductive Buffer where
  | scratch
  | staging (k rid j : ℕ)
  deriving DecidableEq, Repr

/-- `write` and `copy` are what the callback and `memcpy` do to a buffer. -/
inductive VmCall where
  | reserve (base size : ℕ)
  | release (base size : ℕ)
  | setReadable (addr size : ℕ) (readable : Bool)
  | decommit (addr size : ℕ)
  | create (b : Buffer) (size : ℕ)
  | write (b : Buffer) (off : ℕ) (bytes : ℕ → UInt8) (len : ℕ)
  | copy (dst : Buffer) (dstOff : ℕ) (src : Buffer) (srcOff len : ℕ)
  | seal (b : Buffer)
  | consume (b : Buffer) (piece : Piece)

structure Held where
  size : ℕ
  bytes : ℕ → UInt8
  sealed : Bool
  used : List Span

structure Memory where
  table : PageTable
  reserved : ℕ → Bool
  held : Buffer → Option Held

def Memory.hold (m : Memory) (b : Buffer) (h : Option Held) : Memory :=
  { m with held := Function.update m.held b h }

@[simp] theorem hold_table (m : Memory) (b : Buffer) (h : Option Held) : (m.hold b h).table = m.table := rfl

@[simp] theorem hold_reserved (m : Memory) (b : Buffer) (h : Option Held) :
    (m.hold b h).reserved = m.reserved := rfl

@[simp] theorem hold_self (m : Memory) (b : Buffer) (h : Option Held) : (m.hold b h).held b = h :=
  Function.update_self _ _ _

theorem hold_of_ne (m : Memory) {b b' : Buffer} (h : Option Held) (hb : b' ≠ b) :
    (m.hold b h).held b' = m.held b' := Function.update_of_ne hb _ _

def Held.use (h : Held) (r : Span) : Option Held :=
  if total (h.used ++ [r]) = h.size then none else some { h with used := h.used ++ [r] }

/-- What a call leaves. -/
def call (m : Memory) : VmCall → Memory
  | .reserve base size => { m with
      table := vmReserve m.table base size
      reserved := fun q => if base ≤ q ∧ q < base+size then true else m.reserved q }
  | .release base size => { m with
      table := vmRelease m.table base size
      reserved := fun q => if base ≤ q ∧ q < base+size then false else m.reserved q }
  | .setReadable addr size readable => { m with table := vmSetReadable m.table addr size readable }
  | .decommit addr size => { m with table := vmDecommit m.table addr size }
  | .create b size => m.hold b (some ⟨size,fun _ => 0,false,[]⟩)
  | .write b off bytes len =>
    m.hold b ((m.held b).map (fun h => { h with bytes := memcpy h.bytes off bytes 0 len }))
  | .copy dst dstOff src srcOff len =>
    m.hold dst ((m.held dst).bind (fun h => (m.held src).map (fun s =>
      { h with bytes := memcpy h.bytes dstOff s.bytes srcOff len })))
  | .seal b => m.hold b ((m.held b).map (fun h => { h with sealed := true }))
  | .consume b piece =>
    { m with table := ((m.held b).elim m.table (fun h => consume m.table ⟨h.size,h.bytes⟩ [piece])) }.hold b
      ((m.held b).bind (fun h => h.use (span piece)))

def calls (m : Memory) (cs : List VmCall) : Memory := cs.foldl call m

/-- Whole pages. -/
structure Pages (P addr size : ℕ) : Prop where
  start : P ∣ addr
  whole : P ∣ size
  pos : 0 < size

/-- Where a piece may go. -/
def Placeable (P : ℕ) (m : Memory) (h : Held) : Piece → Prop
  | .publish _ len target => h.sealed = true ∧ P ∣ target ∧ ∀ q, target ≤ q ∧ q < target+len →
      m.reserved q = true ∧ (P ∣ q → m.table q = .inaccessible)
  | .discard _ _ => True

/-- What each call asks of its caller, and `reserve` of the kernel. -/
def Allowed (P : ℕ) (m : Memory) : VmCall → Prop
  | .reserve base size => Pages P base size ∧ base+size < 2^64 ∧
      ∀ q, base ≤ q ∧ q < base+size → m.reserved q = false
  | .release base size => Pages P base size ∧ ∀ q, base ≤ q ∧ q < base+size → m.reserved q = true
  | .setReadable addr size _ => Pages P addr size ∧ ∀ q, addr ≤ q ∧ q < addr+size →
      m.reserved q = true ∧ (P ∣ q → m.table q ≠ .inaccessible)
  | .decommit addr size => Pages P addr size ∧ ∀ q, addr ≤ q ∧ q < addr+size →
      m.reserved q = true ∧ (P ∣ q → m.table q ≠ .inaccessible)
  | .create b size => Pages P 0 size ∧ m.held b = none
  | .write b off _ len => ∃ h, m.held b = some h ∧ h.sealed = false ∧ h.used = [] ∧ off+len ≤ h.size
  | .copy dst dstOff src srcOff len => dst ≠ src ∧
      (∃ h, m.held dst = some h ∧ h.sealed = false ∧ h.used = [] ∧ dstOff+len ≤ h.size) ∧
      ∃ s, m.held src = some s ∧ s.used = [] ∧ srcOff+len ≤ s.size
  | .seal b => ∃ h, m.held b = some h ∧ h.sealed = false ∧ h.used = []
  | .consume b piece => ∃ h, m.held b = some h ∧ Pages P (span piece).off (span piece).len ∧
      (span piece).off+(span piece).len ≤ h.size ∧
      (∀ r ∈ h.used, Disjoint r.bytes (span piece).bytes) ∧ Placeable P m h piece

def AllAllowed (P : ℕ) : Memory → List VmCall → Prop
  | _, [] => True
  | m, c::cs => Allowed P m c ∧ AllAllowed P (call m c) cs

variable {P : ℕ} {m : Memory} {c : VmCall} {cs ds : List VmCall}

@[simp] theorem calls_nil (m : Memory) : calls m [] = m := rfl

@[simp] theorem calls_cons (m : Memory) (c : VmCall) (cs : List VmCall) :
    calls m (c::cs) = calls (call m c) cs := rfl

theorem calls_append (m : Memory) (cs ds : List VmCall) : calls m (cs ++ ds) = calls (calls m cs) ds :=
  List.foldl_append

theorem allowed_append : AllAllowed P m (cs ++ ds) ↔ AllAllowed P m cs ∧ AllAllowed P (calls m cs) ds := by
  induction cs generalizing m with
  | nil => simp [AllAllowed]
  | cons c cs ih => simp [AllAllowed,ih,and_assoc]

end FaultCache.VmContract
