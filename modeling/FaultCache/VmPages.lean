import Mathlib.Data.Nat.Notation

/-!
# The virtual-memory seam

The process page table, keyed by page address, as the calls of `vm.h` change
it. A reserved page is inaccessible until something is published over it; a
published page can be hidden with its contents kept, or decommitted. A page's
bytes are indexed by their offset in the page. A scratch buffer is private
until a piece of it is published; publishing replaces whole pages at once.
-/

set_option autoImplicit false

namespace FaultCache.VmPages

inductive PageState where
  | inaccessible
  | hidden (bytes : ℕ → UInt8)
  | readable (bytes : ℕ → UInt8)

abbrev PageTable := ℕ → PageState

def PageState.isReadable : PageState → Bool
  | .readable _ => true
  | _ => false

/-- `mprotect` between `PROT_READ` and `PROT_NONE`. Contents survive; an
anonymous page that never had any reads as zero. -/
def PageState.setReadable : PageState → Bool → PageState
  | .inaccessible, false => .inaccessible
  | .inaccessible, true => .readable (fun _ => 0)
  | .hidden b, true => .readable b
  | .hidden b, false => .hidden b
  | .readable b, true => .readable b
  | .readable b, false => .hidden b

def vmSetReadable (t : PageTable) (addr size : ℕ) (readable : Bool) : PageTable :=
  fun q => if addr ≤ q ∧ q < addr+size then (t q).setReadable readable else t q

def vmDecommit (t : PageTable) (addr size : ℕ) : PageTable :=
  fun q => if addr ≤ q ∧ q < addr+size then .inaccessible else t q

def vmReserve (t : PageTable) (base size : ℕ) : PageTable :=
  fun q => if base ≤ q ∧ q < base+size then .inaccessible else t q

def vmRelease (t : PageTable) (base size : ℕ) : PageTable :=
  fun q => if base ≤ q ∧ q < base+size then .inaccessible else t q

structure Scratch where
  size : ℕ
  bytes : ℕ → UInt8

def vmScratchCreate (size : ℕ) : Scratch := ⟨size,fun _ => 0⟩

def vmScratchPublish (t : PageTable) (s : Scratch) (off len target : ℕ) : PageTable :=
  fun q => if target ≤ q ∧ q < target+len then .readable (fun i => s.bytes (off+(q-target)+i)) else t q

def memcpy (dst : ℕ → UInt8) (dstOff : ℕ) (src : ℕ → UInt8) (srcOff len : ℕ) : ℕ → UInt8 :=
  fun i => if dstOff ≤ i ∧ i < dstOff+len then src (srcOff+(i-dstOff)) else dst i

/-- One use of a scratch buffer's bytes: a range moved to a target address or
a range thrown away. -/
inductive Piece where
  | publish (off len target : ℕ)
  | discard (off len : ℕ)
  deriving DecidableEq, Repr

def consume (t : PageTable) (s : Scratch) : List Piece → PageTable
  | [] => t
  | .publish off len target::ps => consume (vmScratchPublish t s off len target) s ps
  | .discard _ _::ps => consume t s ps

end FaultCache.VmPages
