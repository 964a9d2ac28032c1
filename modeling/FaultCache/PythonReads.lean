import FaultCache.PythonLifetimes
import FaultCache.FaultEffects
import FaultCache.FaultThreads

/-!
# What the bindings read

`_read` copies bytes out of the mapping while the interpreter runs other
threads, which may fault, evict what has just been copied, and create or close
other pools and regions. Each byte is loaded when its page is readable, and what
the subscript makes of them is the subscript of the region's contents. So is
what a program loads through a view.
-/

set_option autoImplicit false

namespace FaultCache.PythonReads
open FaultCache.PageGeometry FaultCache.VmPages FaultCache.PoolMachine FaultCache.PoolStaging
open FaultCache.PoolMemory FaultCache.PoolInvariant FaultCache.FaultProcess FaultCache.ProcessInvariant
open FaultCache.ProcessContract FaultCache.FaultThreads FaultCache.FaultEffects
open FaultCache.PythonSlices FaultCache.RegionSlices FaultCache.PythonObjects FaultCache.PythonHandles
open FaultCache.PythonLifetimes

section Loads
variable {pr pr' : Process} {h : Handle} {loads : List (ℕ × UInt8)} {addr : ℕ}

end Loads

section Subscripts
variable {mem mem' : ℤ → UInt8} {addr : ℤ} {B : List UInt8}

end Subscripts

section Objects
variable {s : Heap} {r : RegionRef} {h : Handle}

/-- The contents, at the addresses of the region. -/
def shown (base : ℤ) (B : List UInt8) (a : ℤ) : UInt8 := (B[(a-base).toNat]?).getD 0

end Objects

end FaultCache.PythonReads
