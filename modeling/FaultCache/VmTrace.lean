import FaultCache.FillSafety
import FaultCache.HotHalf
import FaultCache.VmContract

/-!
# The calls that the pool makes on the seam

Every operation of the pool with the calls of `vm.h` it makes and the bytes it
writes into scratch buffers, in order. The page table that the pool's own model
computes is the one that these calls leave, its staging buffers are the ones that
are held, and no call is made that the seam does not allow.
-/

set_option autoImplicit false

namespace FaultCache.VmTrace
open FaultCache.SentinelRing FaultCache.PageGeometry FaultCache.SharedPages FaultCache.VmPages
open FaultCache.PoolMachine FaultCache.PoolStaging FaultCache.PoolQueue FaultCache.PoolMemory
open FaultCache.PoolHistory FaultCache.PoolInvariant FaultCache.PoolResolve FaultCache.FaultProcess
open FaultCache.ProcessInvariant FaultCache.LabelledRuns FaultCache.PoolLifetime FaultCache.FaultEffects
open FaultCache.RangeTiling FaultCache.ScratchContract FaultCache.FillTrace FaultCache.FillSafety
open FaultCache.VmContract

/-- `stage_into_shared_page` for entry `j`. The staging buffer is created on its
first use and used up by `install_shared_page`. -/
def stageCalls (k : PoolId) (rid : RegionId) (r : Region) (j c : ℕ) : List VmCall :=
  let L := r.layout
  let off := (sharedPage L j).pageOff
  let lo := if off < L.chunkStart c then L.chunkStart c else off
  let hi := if L.chunkStart (c+1) < off+L.pageSize then L.chunkStart (c+1) else off+L.pageSize
  (if (r.sharedPages j).staging.isSome then [] else [.create (.staging k rid j) L.pageSize]) ++
  (.copy (.staging k rid j) (lo-off) .scratch (lo-boundaryPage L c) (hi-lo)::
  if (r.sharedPages j).staged+1 = (sharedPage L j).lastChunk-(sharedPage L j).firstChunk+1 then
    [.seal (.staging k rid j),.consume (.staging k rid j) (.publish 0 L.pageSize (r.base+off))]
  else [])

def stageWhenCalls (k : PoolId) (rid : RegionId) (flag : Bool) (r : Region) (sp : Option ℕ) (c : ℕ) :
    List VmCall :=
  if flag then sp.elim [] (fun j => stageCalls k rid r j c) else []

/-- The head page and the tail page are different entries, so the second finds
its own as it was before the first. -/
def stageSharedCalls (k : PoolId) (rid : RegionId) (r : Region) (c : ℕ) : List VmCall :=
  let L := r.layout
  if r.chunkStaged c then []
  else
    stageWhenCalls k rid (hasHead L c) r (findSharedPage L (boundaryPage L c)) c ++
    stageWhenCalls k rid (stagesTail L c) r (findSharedPage L (boundaryPage L (c+1))) c

def fillChunkCalls (k : PoolId) (rid : RegionId) (r : Region) (c : ℕ) : List VmCall :=
  let L := r.layout
  let start := L.chunkStart c
  let stop := L.chunkStart (c+1)
  let spanLo := boundaryPage L c
  let spanHi := pageCeil stop L.pageSize
  .create .scratch (spanHi-spanLo)::.write .scratch (start-spanLo) (r.fillChunk c) (stop-start)::
    (stageSharedCalls k rid r c ++ .seal .scratch::(PoolMachine.fillPieces L r.base c).map (.consume .scratch))

def chunkSetReadableCalls (r : Region) (c : ℕ) (readable : Bool) : List VmCall :=
  let lo := r.layout.exclLo c
  let hi := r.layout.exclHi c
  if lo < hi then [.setReadable (r.base+lo) (hi-lo) readable] else []

def lruEvictCalls (r : Region) (c : ℕ) : List VmCall :=
  let lo := r.layout.exclLo c
  let hi := r.layout.exclHi c
  if hi = lo then [] else [.decommit (r.base+lo) (hi-lo)]

def rebalanceLoopCalls : ℕ → State → List VmCall
  | 0, _ => []
  | fuel+1, s =>
    if s.pool.residentBytes/2 < s.pool.hotBytes ∧ s.pool.midpoint ≠ s.pool.links.next .head then
      match s.pool.midpoint with
      | .node n => chunkSetReadableCalls (s.pool.region n.1) n.2 false ++ rebalanceLoopCalls fuel (demote s n)
      | _ => []
    else []

def lruRebalanceCalls (s : State) : List VmCall :=
  if s.pool.targetSize = 0 then [] else rebalanceLoopCalls (lruFuel s.pool) s

def evictLoopCalls (rid : RegionId) (lo hi : ℕ) : ℕ → State → List VmCall
  | 0, _ => []
  | fuel+1, s =>
    if s.pool.targetSize < s.pool.residentBytes then
      match s.pool.links.prev .head with
      | .node victim =>
        if victim.1 = rid ∧ lo ≤ victim.2 ∧ victim.2 ≤ hi then []
        else lruEvictCalls (s.pool.region victim.1) victim.2 ++
          (lruEvictChunk s victim).elim [] (evictLoopCalls rid lo hi fuel)
      | _ => []
    else []

def evictUntilWithinBudgetCalls (s : State) (rid : RegionId) (lo hi : ℕ) : List VmCall :=
  if s.pool.targetSize = 0 then [] else evictLoopCalls rid lo hi (lruFuel s.pool) s

def fillUnlessCalls (k : PoolId) (s : State) (rid : RegionId) (c : ℕ) : List VmCall :=
  if (s.pool.region rid).initialized c then [] else fillChunkCalls k rid (s.pool.region rid) c

def fillMissingCalls (k : PoolId) (rid : RegionId) : ℕ → ℕ → State → List VmCall
  | 0, _, _ => []
  | n+1, c, s => fillUnlessCalls k s rid c ++ (fillUnless s rid c).elim [] (fillMissingCalls k rid n (c+1))

def servePageCalls (k : PoolId) (s : State) (rid : RegionId) (page : ℕ) : List VmCall :=
  let r := s.pool.region rid
  match findSharedPage r.layout page with
  | some j =>
    let lo := (sharedPage r.layout j).firstChunk
    let hi := (sharedPage r.layout j).lastChunk
    fillMissingCalls k rid (hi+1-lo) lo s
  | none =>
    let c := r.layout.findChunk page
    if r.initialized c then chunkSetReadableCalls r c true else fillChunkCalls k rid r c

def resolveFaultCalls (k : PoolId) (s : State) (rid : RegionId) (off : ℕ) : List VmCall :=
  let page := pageFloor off (s.pool.region rid).layout.pageSize
  servePageCalls k s rid page ++ (servePage s rid page).elim [] (fun m =>
    evictUntilWithinBudgetCalls m.2.2 rid m.1 m.2.1 ++
    (evictUntilWithinBudget m.2.2 rid m.1 m.2.1).elim [] lruRebalanceCalls)

/-- The range and the staging pages that are still pending. -/
def regionFreeCalls (k : PoolId) (rid : RegionId) (r : Region) : List VmCall :=
  .release r.base r.layout.mappedSize::((List.range (nshared r.layout)).filter (fun j =>
    (r.sharedPages j).staging.isSome)).map (fun j => .consume (.staging k rid j) (.discard 0 r.layout.pageSize))

/-- The serialised calls of a process with what each asks of the seam. -/
inductive VmStep : Process → List VmCall → Process → Prop
  | poolCreate (pr : Process) (targetSize : ℕ) : VmStep pr [] (fcPoolCreate pr targetSize)
  | regionCreate (pr : Process) (k : PoolId) (sizes : List ℕ) (total : ℕ) (fill : ℕ → ℕ → UInt8)
      (base : ℕ) (hk : k ∈ pr.pools) (ha : Accepted pr.pageSize sizes total)
      (hb : Reservable pr base (pageCeil total pr.pageSize)) :
      VmStep pr [.reserve base (pageCeil total pr.pageSize)] (fcRegionCreate pr k sizes total ha fill base)
  | notOurs (pr : Process) (addr : ℕ) (h : faultTryResolve pr addr = some (false,pr)) : VmStep pr [] pr
  | fault (pr : Process) (addr : ℕ) (k : PoolId) (rid : RegionId) (pr' : Process) (hk : k ∈ pr.pools)
      (hf : findRegionLocked (pr.pool k) addr = some rid)
      (h : faultTryResolve pr addr = some (true,pr')) :
      VmStep pr (resolveFaultCalls k ⟨pr.pool k,pr.vm⟩ rid (addr-((pr.pool k).region rid).base)) pr'
  | regionDestroy (pr : Process) (k : PoolId) (rid : RegionId) (pr' : Process) (hk : k ∈ pr.pools)
      (hr : rid ∈ (pr.pool k).regions) (h : fcRegionDestroy pr k rid = some pr') :
      VmStep pr (regionFreeCalls k rid ((pr.pool k).region rid)) pr'
  | poolDestroy (pr : Process) (k : PoolId) (hk : k ∈ pr.pools) :
      VmStep pr ((pr.pool k).regions.flatMap (fun rid => regionFreeCalls k rid ((pr.pool k).region rid)))
        (fcPoolDestroy pr k)

end FaultCache.VmTrace
