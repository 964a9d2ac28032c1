import FaultCache.PoolResolve

/-!
# The process: pools, regions and the fault entry point

`g_pools` is a list of pools, newest first, over one page table. A fault names
only an address, so `fault_try_resolve` searches every region of every pool.
The calls are serialised by `g_pools_lock` and the pool's own lock, which is
why each of them is one step here. Identifiers stand for the addresses of the
heap objects and are never reused.
-/

set_option autoImplicit false

namespace FaultCache.FaultProcess
open FaultCache.SentinelRing FaultCache.PageGeometry FaultCache.VmPages FaultCache.PoolMachine
open FaultCache.PoolMemory

abbrev PoolId := ℕ

structure Process where
  pageSize : ℕ
  vm : PageTable
  pools : List PoolId
  pool : PoolId → Pool
  nextPool : PoolId
  nextRegion : RegionId

/-- `calloc`, `shared_pages_init` and `lru_init` on a fresh region. -/
def regionInit (L : Layout) (base : ℕ) (fill : ℕ → ℕ → UInt8) : Region where
  layout := L
  base := base
  fillChunk := fill
  initialized := fun _ => false
  sharedPages := fun _ => ⟨0,none,false⟩
  chunkStaged := fun _ => false
  chunkFaultsTotal := fun _ => 0
  residentBytes := 0
  residentChunks := 0
  faultEventsTotal := 0
  chunksResolved := 0
  faultsHandled := 0

def poolInit (targetSize : ℕ) : Pool where
  targetSize := targetSize
  residentBytes := 0
  links := Links.empty
  resident := fun _ => false
  cold := fun _ => false
  midpoint := .head
  hotBytes := 0
  regions := []
  region := fun _ => regionInit default 0 (fun _ _ => 0)
  history := []

def fcPoolCreate (pr : Process) (targetSize : ℕ) : Process :=
  { pr with
    pools := pr.nextPool::pr.pools
    pool := Function.update pr.pool pr.nextPool (poolInit targetSize)
    nextPool := pr.nextPool+1 }

/-- Links a fresh region into the pool's list, with zeroed queue nodes. -/
def regionListInsert (p : Pool) (rid : RegionId) (r : Region) : Pool :=
  { p with
    links := p.links.clear (fun n => n.1 = rid)
    resident := fun n => if n.1 = rid then false else p.resident n
    cold := fun n => if n.1 = rid then false else p.cold n
    regions := rid::p.regions
    region := Function.update p.region rid r }

/-- `fc_region_create` past the validation of its sizes, with the address that
`vm_reserve` returned. -/
def fcRegionCreate (pr : Process) (k : PoolId) (sizes : List ℕ) (total : ℕ)
    (h : Accepted pr.pageSize sizes total) (fill : ℕ → ℕ → UInt8) (base : ℕ) : Process :=
  let L := Layout.ofSizes pr.pageSize sizes total h
  { pr with
    vm := vmReserve pr.vm base L.mappedSize
    pool := Function.update pr.pool k
      (regionListInsert (pr.pool k) pr.nextRegion (regionInit L base fill))
    nextRegion := pr.nextRegion+1 }

def findRegionLocked (p : Pool) (addr : ℕ) : Option RegionId :=
  p.regions.find? (fun r => (p.region r).base ≤ addr ∧
    addr < (p.region r).base+(p.region r).layout.mappedSize)

/-- The loop over `g_pools`. A readable page is not ours and the search goes
on. -/
def faultScan (pr : Process) (addr : ℕ) : List PoolId → Option (Bool × Process)
  | [] => some (false,pr)
  | k::ks =>
    match findRegionLocked (pr.pool k) addr with
    | some rid =>
      let off := addr-((pr.pool k).region rid).base
      if pageReadable (pr.pool k) rid off then faultScan pr addr ks
      else (resolveFaultLocked ⟨pr.pool k,pr.vm⟩ rid off).map (fun s =>
        (true,{ pr with pool := Function.update pr.pool k s.pool, vm := s.vm }))
    | none => faultScan pr addr ks

def faultTryResolve (pr : Process) (addr : ℕ) : Option (Bool × Process) :=
  faultScan pr addr pr.pools

/-- `for (i = 0; i < nchunks; i++) lru_forget_chunk(pool, region, i)`, with the
number of iterations left. -/
def forgetChunks (rid : RegionId) : ℕ → ℕ → Pool → Option Pool
  | 0, _, p => some p
  | n+1, c, p => (lruForgetChunk p (rid,c)).bind (forgetChunks rid n (c+1))

def regionListRemove (p : Pool) (rid : RegionId) : Pool :=
  { p with regions := p.regions.erase rid }

def regionFree (vm : PageTable) (r : Region) : PageTable := vmRelease vm r.base r.layout.mappedSize

def fcRegionDestroy (pr : Process) (k : PoolId) (rid : RegionId) : Option Process :=
  let r := (pr.pool k).region rid
  (forgetChunks rid r.layout.nchunks 0 (pr.pool k)).map (fun p =>
    { pr with
      pool := Function.update pr.pool k (regionListRemove p rid)
      vm := regionFree pr.vm r })

def fcPoolDestroy (pr : Process) (k : PoolId) : Process :=
  { pr with
    pools := pr.pools.erase k
    vm := (pr.pool k).regions.foldl (fun vm r => regionFree vm ((pr.pool k).region r)) pr.vm }

/-- What `vm_reserve` promises of a new range. -/
structure Reservable (pr : Process) (base size : ℕ) : Prop where
  aligned : pr.pageSize ∣ base
  fits : base+size < 2^64
  vacant : ∀ k ∈ pr.pools, ∀ r ∈ (pr.pool k).regions, ∀ q, base ≤ q ∧ q < base+size →
    ¬ InRange ((pr.pool k).region r) q

/-- One serialised call. Faults may be raised at any address. -/
inductive Step : Process → Process → Prop
  | poolCreate (pr : Process) (targetSize : ℕ) : Step pr (fcPoolCreate pr targetSize)
  | regionCreate (pr : Process) (k : PoolId) (sizes : List ℕ) (total : ℕ) (fill : ℕ → ℕ → UInt8)
      (base : ℕ) (hk : k ∈ pr.pools) (ha : Accepted pr.pageSize sizes total)
      (hb : Reservable pr base (pageCeil total pr.pageSize)) :
      Step pr (fcRegionCreate pr k sizes total ha fill base)
  | fault (pr : Process) (addr : ℕ) (ours : Bool) (pr' : Process)
      (h : faultTryResolve pr addr = some (ours,pr')) : Step pr pr'
  | regionDestroy (pr : Process) (k : PoolId) (rid : RegionId) (pr' : Process) (hk : k ∈ pr.pools)
      (hr : rid ∈ (pr.pool k).regions) (h : fcRegionDestroy pr k rid = some pr') : Step pr pr'
  | poolDestroy (pr : Process) (k : PoolId) (hk : k ∈ pr.pools) : Step pr (fcPoolDestroy pr k)

/-- Any number of calls. -/
def Steps : Process → Process → Prop := Relation.ReflTransGen Step

/-- A process that has not created a pool yet. -/
def start (pageSize : ℕ) (vm : PageTable) : Process :=
  ⟨pageSize,vm,[],fun _ => poolInit 0,0,0⟩

def Reachable (pr : Process) : Prop := ∃ pageSize vm, Steps (start pageSize vm) pr

end FaultCache.FaultProcess
