import FaultCache.RegionSlices
import FaultCache.FaultProcess
import Mathlib.Logic.Relation
import Mathlib.Data.Finset.Insert

/-!
# The objects of the Python bindings

A `Pool` keeps its handle and the set of its open regions, a `Region` its
handle, its address and the number of views over it that are still around. An
object lives as long as something refers to it: the program, a view, the pool's
set, a region's `_pool`. One that nothing refers to any more is finalized at
some later moment, in no particular order, and `__del__` closes it.

The methods run one at a time. Reads fault wherever they like.
-/

set_option autoImplicit false

namespace FaultCache.PythonObjects
open FaultCache.PageGeometry FaultCache.PoolMachine FaultCache.PoolMemory FaultCache.FaultProcess
open FaultCache.PythonSlices FaultCache.RegionSlices

/-- What a method raises. -/
inductive PyException where
  | valueError
  | typeError
  | osError
  | bufferError
  deriving DecidableEq, Repr

abbrev PoolRef := ℕ

abbrev RegionRef := ℕ

inductive Ref where
  | pool (p : PoolRef)
  | region (r : RegionRef)
  deriving DecidableEq

/-- A `Pool`. -/
structure PoolObject where
  handle : Option PoolId
  regions : Finset RegionRef

/-- A `Region`. Its `fc_region_t` knows the pool that it belongs to. -/
structure RegionObject extends PyRegion where
  pool : PoolRef
  region : Option (PoolId × RegionId)
  filler : ℕ → ℕ → UInt8
  viewCount : ℤ

/-- A memoryview over `region[start:stop:step]`. -/
structure View where
  region : RegionRef
  addr : ℤ
  start : ℤ
  stop : ℤ
  step : ℤ
  deriving DecidableEq

/-- The addresses that a view shares with its region. -/
def View.addrs (v : View) : List ℤ := (pyRange v.start v.stop v.step).map (v.addr+·)

structure Heap where
  process : Process
  allocated : Ref → Bool
  pool : PoolRef → PoolObject
  region : RegionRef → RegionObject
  views : List View
  /-- what the program refers to -/
  held : Ref → Bool
  finalized : Ref → Bool

/-- The state a call leaves and what it raises. There is none where the library
aborts. -/
abbrev Outcome := Option (Heap × Option PyException)

/-- Right after the import. -/
def imported (pageSize : ℕ) (vm : VmPages.PageTable) : Heap where
  process := start pageSize vm
  allocated := fun _ => false
  pool := fun _ => ⟨none,∅⟩
  region := fun _ => ⟨⟨none,0⟩,0,none,fun _ _ => 0,0⟩
  views := []
  held := fun _ => false
  finalized := fun _ => false

/-- An integer argument of type `size_t` keeps its low 64 bits. -/
def toSizeT (z : ℤ) : ℕ := (z%2^64).toNat

/-- `(ctypes.c_size_t * n)(*chunk_sizes)`, of which the library sees the first
`n`, a `uint32_t`. -/
def sizesArr (chunkSizes : List ℤ) : List ℕ := (chunkSizes.take (chunkSizes.length%2^32)).map toSizeT

instance (P : ℕ) (sizes : List ℕ) (total : ℕ) : Decidable (Accepted P sizes total) :=
  decidable_of_iff (0 < P ∧ sizes ≠ [] ∧ sizes.length+1 < 2^32 ∧ (∀ size ∈ sizes, size < 2^64) ∧
      sumSizes sizes 0 = some total ∧ total+P-1 < 2^64)
    ⟨fun ⟨h1,h2,h3,h4,h5,h6⟩ => ⟨h1,h2,h3,h4,h5,h6⟩,
      fun ⟨h1,h2,h3,h4,h5,h6⟩ => ⟨h1,h2,h3,h4,h5,h6⟩⟩

/-- `Pool(maxsize)`, where `fc_pool_create` gets its memory. -/
def createPool (s : Heap) (p : PoolRef) (maxsize : ℤ) : Heap :=
  { s with
    process := fcPoolCreate s.process (toSizeT maxsize)
    allocated := Function.update s.allocated (.pool p) true
    pool := Function.update s.pool p ⟨some s.process.nextPool,∅⟩
    held := Function.update s.held (.pool p) true }

/-- The `Region` that `__init__` builds, in the set of its pool. -/
def addRegion (s : Heap) (p : PoolRef) (r : RegionRef) (pr : Process) (o : RegionObject) : Heap :=
  { s with
    process := pr
    allocated := Function.update s.allocated (.region r) true
    pool := Function.update s.pool p ⟨(s.pool p).handle,insert r (s.pool p).regions⟩
    region := Function.update s.region r o
    held := Function.update s.held (.region r) true }

/-- `Pool.create_region`, with the address that the library finds. `fillChunk`
is absent where the argument is not callable. A layout that passes the
validation and still does not fit the library's tables is left out. -/
def createRegion (s : Heap) (p : PoolRef) (r : RegionRef) (chunkSizes : List ℤ)
    (fillChunk : Option (ℕ → ℕ → UInt8)) (base : ℕ) : Outcome :=
  match (s.pool p).handle with
  | none => some (s,some .valueError)
  | some k =>
    match fillChunk with
    | none => some (s,some .typeError)
    | some fill =>
      -- `fc_region_create` takes an empty list for a bug of its caller
      if sizesArr chunkSizes = [] then none
      else match sumSizes (sizesArr chunkSizes) 0 with
        | none => some (s,some .osError)
        | some total =>
          if h : Accepted s.process.pageSize (sizesArr chunkSizes) total then
            some (addRegion s p r (fcRegionCreate s.process k (sizesArr chunkSizes) total h fill base)
              ⟨⟨some base,total⟩,p,some (k,s.process.nextRegion),fill,0⟩,none)
          else none

/-- `Region.view`. -/
def view (s : Heap) (r : RegionRef) (key : Slice) : Heap × Option PyException :=
  let o := s.region r
  match o.addr with
  | none => (s,some .valueError)
  | some addr =>
    match key.indices o.size with
    | .error _ => (s,some .valueError)
    | .ok (start,stop,step) =>
      ({ s with
          region := Function.update s.region r { o with viewCount := o.viewCount+1 }
          views := ⟨r,addr,start,stop,step⟩::s.views },none)

/-- A view goes away, and `weakref.finalize` calls `_view_released`. -/
def release (s : Heap) (v : View) : Heap :=
  let o := s.region v.region
  { s with
    region := Function.update s.region v.region { o with viewCount := o.viewCount-1 }
    views := s.views.erase v }

/-- `self._region = None`, and what goes with it. -/
def RegionObject.forget (o : RegionObject) : RegionObject :=
  { o with addr := none, size := 0, region := none }

/-- The region has left its pool's set and the library is done with it. -/
def forgetRegion (s : Heap) (r : RegionRef) (pr : Process) : Heap :=
  let o := s.region r
  let p := s.pool o.pool
  { s with
    process := pr
    pool := Function.update s.pool o.pool ⟨p.handle,p.regions.erase r⟩
    region := Function.update s.region r o.forget }

/-- `Region.close`. -/
def regionClose (s : Heap) (r : RegionRef) : Outcome :=
  let o := s.region r
  match o.addr with
  | none => some (s,none)
  | some _ =>
    if 0 < o.viewCount then some (s,some .bufferError)
    else
      let destroyed : Option Process :=
        if (s.pool o.pool).handle.isSome then o.region.bind (fun h => fcRegionDestroy s.process h.1 h.2)
        else some s.process
      destroyed.map (fun pr => (forgetRegion s r pr,none))

/-- `for region in list(self._regions): region.close()`. -/
def closeRegions : List RegionRef → Heap → Outcome
  | [], s => some (s,none)
  | r::rs, s =>
    match regionClose s r with
    | some (s',none) => closeRegions rs s'
    | outcome => outcome

/-- The library is done with the pool. -/
def forgetPool (s : Heap) (p : PoolRef) (pr : Process) : Heap :=
  { s with
    process := pr
    pool := Function.update s.pool p ⟨none,(s.pool p).regions⟩ }

/-- `Pool.close`, with the order in which the set lists its regions. -/
def poolClose (s : Heap) (p : PoolRef) (order : List RegionRef) : Outcome :=
  match (s.pool p).handle with
  | none => some (s,none)
  | some k =>
    match closeRegions order s with
    | some (s',none) => some (forgetPool s' p (fcPoolDestroy s'.process k),none)
    | outcome => outcome

/-- An order of a set. -/
def Lists (order : List RegionRef) (regions : Finset RegionRef) : Prop :=
  order.Nodup ∧ order.toFinset = regions

/-- Something refers to the object. -/
inductive Alive (s : Heap) : Ref → Prop
  | held {x : Ref} (h : s.held x = true) : Alive s x
  | viewed {v : View} (h : v ∈ s.views) : Alive s (.region v.region)
  | pool {r : RegionRef} (h : Alive s (.region r)) : Alive s (.pool (s.region r).pool)
  | member {p : PoolRef} {r : RegionRef} (h : Alive s (.pool p)) (hr : r ∈ (s.pool p).regions) :
      Alive s (.region r)

/-- `__del__`, which loses what `close` raises. -/
inductive Deleted (s : Heap) : Ref → Option PyException → Heap → Prop
  | pool {p : PoolRef} {order : List RegionRef} {e : Option PyException} {s' : Heap}
      (ho : Lists order (s.pool p).regions) (h : poolClose s p order = some (s',e)) :
      Deleted s (.pool p) e s'
  | region {r : RegionRef} {e : Option PyException} {s' : Heap} (h : regionClose s r = some (s',e)) :
      Deleted s (.region r) e s'

/-- One thing that a program does, or that happens to it. -/
inductive Step : Heap → Heap → Prop
  | createPool (s : Heap) (p : PoolRef) (maxsize : ℤ) (hp : s.allocated (.pool p) = false) :
      Step s (createPool s p maxsize)
  | createRegion (s : Heap) (p : PoolRef) (r : RegionRef) (chunkSizes : List ℤ)
      (fillChunk : Option (ℕ → ℕ → UInt8)) (base : ℕ) (e : Option PyException) (s' : Heap)
      (hp : s.held (.pool p) = true) (hr : s.allocated (.region r) = false)
      (hb : Reservable s.process base (pageCeil (sizesArr chunkSizes).sum s.process.pageSize))
      (h : createRegion s p r chunkSizes fillChunk base = some (s',e)) : Step s s'
  | view (s : Heap) (r : RegionRef) (key : Slice) (hr : s.held (.region r) = true) :
      Step s (view s r key).1
  | release (s : Heap) (v : View) (hv : v ∈ s.views) : Step s (release s v)
  | regionClose (s : Heap) (r : RegionRef) (e : Option PyException) (s' : Heap)
      (hr : s.held (.region r) = true) (h : regionClose s r = some (s',e)) : Step s s'
  | poolClose (s : Heap) (p : PoolRef) (order : List RegionRef) (e : Option PyException) (s' : Heap)
      (hp : s.held (.pool p) = true) (ho : Lists order (s.pool p).regions)
      (h : poolClose s p order = some (s',e)) : Step s s'
  | access (s : Heap) (addr : ℕ) (ours : Bool) (pr : Process)
      (h : faultTryResolve s.process addr = some (ours,pr)) : Step s { s with process := pr }
  | hold (s : Heap) (x : Ref) (hx : Alive s x) : Step s { s with held := Function.update s.held x true }
  | drop (s : Heap) (x : Ref) : Step s { s with held := Function.update s.held x false }
  | finalize (s : Heap) (x : Ref) (e : Option PyException) (s' : Heap) (ha : s.allocated x = true)
      (hx : ¬ Alive s x) (hf : s.finalized x = false) (h : Deleted s x e s') :
      Step s { s' with finalized := Function.update s'.finalized x true }

/-- Any number of them. -/
def Runs : Heap → Heap → Prop := Relation.ReflTransGen Step

/-- What a program that imports the bindings can get to. -/
def Reachable (s : Heap) : Prop := ∃ pageSize vm, Runs (imported pageSize vm) s

end FaultCache.PythonObjects
