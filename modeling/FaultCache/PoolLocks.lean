import FaultCache.LabelledRuns
import FaultCache.PoolLocality
import FaultCache.ProcessContract

/-!
# The locks of the pools

Threads that call into the library at the same time. `g_pools_lock` guards the
list of pools and is held for the whole of a fault; a pool's own lock guards its
regions and its queue. New regions are reserved before any lock is taken, and
what has been unlinked is freed after all of them are given back. What a thread
does to the records under a lock is one step.
-/

set_option autoImplicit false

namespace FaultCache.PoolLocks
open FaultCache.PageGeometry FaultCache.VmPages FaultCache.PoolMachine FaultCache.PoolMemory
open FaultCache.PoolInvariant FaultCache.PoolResolve FaultCache.FaultProcess FaultCache.ProcessInvariant
open FaultCache.LabelledRuns

abbrev ThreadId := ℕ

/-- A region that `fc_region_create` has reserved and not linked yet. -/
structure NewRegion where
  pool : PoolId
  layout : Layout
  base : ℕ
  fill : ℕ → ℕ → UInt8

def NewRegion.record (r : NewRegion) : Region := regionInit r.layout r.base r.fill

/-- Where a thread is in a public call. -/
inductive Phase where
  | idle
  /-- `fault_try_resolve`, before `g_pools_lock` -/
  | faulted (addr : ℕ)
  /-- at the loop over the pools that are left -/
  | searching (addr : ℕ) (ks : List PoolId)
  /-- with the lock of a pool, before the ones that are left -/
  | inPool (addr : ℕ) (k : PoolId) (ks : List PoolId)
  | resolved (addr : ℕ) (k : PoolId)
  | found (addr : ℕ)
  /-- `fc_pool_create` -/
  | making (targetSize : ℕ)
  | linking (targetSize : ℕ)
  | linked
  /-- `fc_pool_destroy`, with the regions that are still to be freed -/
  | dying (k : PoolId)
  | unlinking (k : PoolId)
  | unlinked (k : PoolId) (rs : List Region)
  | freeing (k : PoolId) (rs : List Region)
  /-- `fc_region_create` -/
  | reserved (r : NewRegion)
  | inserting (r : NewRegion)
  | inserted (k : PoolId)
  /-- `fc_region_destroy` -/
  | closing (k : PoolId) (rid : RegionId)
  | forgetting (k : PoolId) (rid : RegionId)
  | forgotten (k : PoolId) (r : Region)
  | releasing (r : Region)

def Phase.holdsPools : Phase → Bool
  | .searching _ _ | .inPool _ _ _ | .resolved _ _ | .found _ | .linking _ | .linked | .unlinking _
  | .unlinked _ _ => true
  | _ => false

/-- The pool whose lock the thread has. -/
def Phase.holdsPool : Phase → Option PoolId
  | .inPool _ k _ | .resolved _ k | .inserted k | .forgetting k _ | .forgotten k _ => some k
  | .inserting r => some r.pool
  | _ => none

/-- The pool that the caller has named, other than to destroy it. -/
def Phase.works : Phase → Option PoolId
  | .inserted k | .closing k _ | .forgetting k _ | .forgotten k _ => some k
  | .reserved r | .inserting r => some r.pool
  | _ => none

def Phase.destroys : Phase → Option PoolId
  | .dying k | .unlinking k | .unlinked k _ | .freeing k _ => some k
  | _ => none

def Phase.closes : Phase → Option (PoolId × RegionId)
  | .closing k rid | .forgetting k rid => some (k,rid)
  | _ => none

/-- Addresses that are reserved and belong to no linked region: of a region that
is not linked yet, or of one that is not freed yet. -/
def Phase.limbo : Phase → ℕ → Prop
  | .reserved r, q | .inserting r, q => InRange r.record q
  | .unlinked _ rs, q | .freeing _ rs, q => ∃ r ∈ rs, InRange r q
  | .forgotten _ r, q | .releasing r, q => InRange r q
  | _, _ => False

structure World where
  process : Process
  poolsLock : Option ThreadId
  poolLock : PoolId → Option ThreadId
  phase : ThreadId → Phase

inductive Label where
  | turn (t : ThreadId)
  | search (t : ThreadId) (addr : ℕ)
  | resolve (t : ThreadId) (addr : ℕ)
  | answer (t : ThreadId) (addr : ℕ) (ours : Bool)
  | poolCreate (t : ThreadId) (targetSize : ℕ)
  | poolDestroy (t : ThreadId) (k : PoolId)
  | regionCreate (t : ThreadId) (r : NewRegion)
  | regionDestroy (t : ThreadId) (k : PoolId) (rid : RegionId)

def Label.thread : Label → ThreadId
  | .turn t | .search t _ | .resolve t _ | .answer t _ _ | .poolCreate t _ | .poolDestroy t _
  | .regionCreate t _ | .regionDestroy t _ _ => t

/-- The list insertion of `fc_region_create`, past `vm_reserve`. -/
def insertRegion (pr : Process) (r : NewRegion) : Process :=
  { pr with
    pool := Function.update pr.pool r.pool (regionListInsert (pr.pool r.pool) pr.nextRegion r.record)
    nextRegion := pr.nextRegion+1 }

/-- `fc_region_destroy` up to the unlock. -/
def removeRegion (pr : Process) (k : PoolId) (rid : RegionId) : Option Process :=
  (forgetChunks rid ((pr.pool k).region rid).layout.nchunks 0 (pr.pool k)).map (fun p =>
    { pr with pool := Function.update pr.pool k (regionListRemove p rid) })

/-- The unlinking of `fc_pool_destroy`. -/
def unlinkPool (pr : Process) (k : PoolId) : Process := { pr with pools := pr.pools.erase k }

/-- Sizes that the validator accepts. -/
def Made (P : ℕ) (r : NewRegion) : Prop :=
  ∃ sizes total, ∃ h : Accepted P sizes total, r.layout = Layout.ofSizes P sizes total h

namespace World

def go (w : World) (t : ThreadId) (p : Phase) : World := { w with phase := Function.update w.phase t p }

def withPools (w : World) (l : Option ThreadId) : World := { w with poolsLock := l }

def withPool (w : World) (k : PoolId) (l : Option ThreadId) : World :=
  { w with poolLock := Function.update w.poolLock k l }

def withProcess (w : World) (pr : Process) : World := { w with process := pr }

def limbo (w : World) (q : ℕ) : Prop := ∃ t, (w.phase t).limbo q

end World

/-- Nothing to resolve at this address in this pool. -/
def Quiet (p : Pool) (addr : ℕ) : Prop := ∀ rid, findRegionLocked p addr = some rid →
  pageReadable p rid (addr-(p.region rid).base) = true

/-- What the kernel promises of a new range. -/
structure Room (w : World) (r : NewRegion) : Prop where
  aligned : w.process.pageSize ∣ r.base
  fits : r.base+r.layout.mappedSize < 2^64
  vacant : ∀ q, InRange r.record q → ¬ w.limbo q ∧ ∀ k ∈ w.process.pools,
    ∀ rid ∈ (w.process.pool k).regions, ¬ InRange ((w.process.pool k).region rid) q

/-- One step of one thread. A caller names a pool that nobody destroys, and
destroys what nobody else has named. -/
inductive Move : World → Label → World → Prop
  | fault {w : World} {t : ThreadId} (addr : ℕ) (hp : w.phase t = .idle) :
      Move w (.turn t) (w.go t (.faulted addr))
  | lockSearch {w : World} {t : ThreadId} {addr : ℕ} (hp : w.phase t = .faulted addr)
      (hl : w.poolsLock = none) :
      Move w (.search t addr) ((w.withPools (some t)).go t (.searching addr w.process.pools))
  | lockPool {w : World} {t : ThreadId} {addr : ℕ} {k : PoolId} {ks : List PoolId}
      (hp : w.phase t = .searching addr (k::ks)) (hl : w.poolLock k = none) :
      Move w (.turn t) ((w.withPool k (some t)).go t (.inPool addr k ks))
  | skip {w : World} {t : ThreadId} {addr : ℕ} {k : PoolId} {ks : List PoolId}
      (hp : w.phase t = .inPool addr k ks) (hq : Quiet (w.process.pool k) addr) :
      Move w (.turn t) ((w.withPool k none).go t (.searching addr ks))
  | resolve {w : World} {t : ThreadId} {addr : ℕ} {k : PoolId} {ks : List PoolId} {rid : RegionId}
      {s : State} (hp : w.phase t = .inPool addr k ks)
      (hf : findRegionLocked (w.process.pool k) addr = some rid)
      (hu : pageReadable (w.process.pool k) rid (addr-((w.process.pool k).region rid).base) = false)
      (hs : resolveFaultLocked ⟨w.process.pool k,w.process.vm⟩ rid
        (addr-((w.process.pool k).region rid).base) = some s) :
      Move w (.resolve t addr) ((w.withProcess (withState w.process k s)).go t (.resolved addr k))
  | leavePool {w : World} {t : ThreadId} {addr : ℕ} {k : PoolId} (hp : w.phase t = .resolved addr k) :
      Move w (.turn t) ((w.withPool k none).go t (.found addr))
  | answerTrue {w : World} {t : ThreadId} {addr : ℕ} (hp : w.phase t = .found addr) :
      Move w (.answer t addr true) ((w.withPools none).go t .idle)
  | answerFalse {w : World} {t : ThreadId} {addr : ℕ} (hp : w.phase t = .searching addr []) :
      Move w (.answer t addr false) ((w.withPools none).go t .idle)
  | make {w : World} {t : ThreadId} (targetSize : ℕ) (hp : w.phase t = .idle) :
      Move w (.turn t) (w.go t (.making targetSize))
  | lockLink {w : World} {t : ThreadId} {targetSize : ℕ} (hp : w.phase t = .making targetSize)
      (hl : w.poolsLock = none) :
      Move w (.turn t) ((w.withPools (some t)).go t (.linking targetSize))
  | link {w : World} {t : ThreadId} {targetSize : ℕ} (hp : w.phase t = .linking targetSize) :
      Move w (.poolCreate t targetSize)
        ((w.withProcess (fcPoolCreate w.process targetSize)).go t .linked)
  | leaveLink {w : World} {t : ThreadId} (hp : w.phase t = .linked) :
      Move w (.turn t) ((w.withPools none).go t .idle)
  | die {w : World} {t : ThreadId} (k : PoolId) (hp : w.phase t = .idle) (hk : k ∈ w.process.pools)
      (ha : ∀ u, (w.phase u).works ≠ some k ∧ (w.phase u).destroys ≠ some k) :
      Move w (.turn t) (w.go t (.dying k))
  | lockUnlink {w : World} {t : ThreadId} {k : PoolId} (hp : w.phase t = .dying k)
      (hl : w.poolsLock = none) : Move w (.turn t) ((w.withPools (some t)).go t (.unlinking k))
  | unlink {w : World} {t : ThreadId} {k : PoolId} (hp : w.phase t = .unlinking k) :
      Move w (.poolDestroy t k) ((w.withProcess (unlinkPool w.process k)).go t
        (.unlinked k ((w.process.pool k).regions.map (w.process.pool k).region)))
  | leaveUnlink {w : World} {t : ThreadId} {k : PoolId} {rs : List Region}
      (hp : w.phase t = .unlinked k rs) : Move w (.turn t) ((w.withPools none).go t (.freeing k rs))
  | free {w : World} {t : ThreadId} {k : PoolId} {r : Region} {rs : List Region}
      (hp : w.phase t = .freeing k (r::rs)) :
      Move w (.turn t) ((w.withProcess { w.process with vm := regionFree w.process.vm r }).go t
        (.freeing k rs))
  | freed {w : World} {t : ThreadId} {k : PoolId} (hp : w.phase t = .freeing k []) :
      Move w (.turn t) (w.go t .idle)
  | reserve {w : World} {t : ThreadId} (r : NewRegion) (hp : w.phase t = .idle)
      (hk : r.pool ∈ w.process.pools) (hm : Made w.process.pageSize r) (hr : Room w r)
      (ha : ∀ u, (w.phase u).destroys ≠ some r.pool) :
      Move w (.turn t) ((w.withProcess { w.process with
        vm := vmReserve w.process.vm r.base r.layout.mappedSize }).go t (.reserved r))
  | lockInsert {w : World} {t : ThreadId} {r : NewRegion} (hp : w.phase t = .reserved r)
      (hl : w.poolLock r.pool = none) :
      Move w (.turn t) ((w.withPool r.pool (some t)).go t (.inserting r))
  | insert {w : World} {t : ThreadId} {r : NewRegion} (hp : w.phase t = .inserting r) :
      Move w (.regionCreate t r) ((w.withProcess (insertRegion w.process r)).go t (.inserted r.pool))
  | leaveInsert {w : World} {t : ThreadId} {k : PoolId} (hp : w.phase t = .inserted k) :
      Move w (.turn t) ((w.withPool k none).go t .idle)
  | close {w : World} {t : ThreadId} (k : PoolId) (rid : RegionId) (hp : w.phase t = .idle)
      (hk : k ∈ w.process.pools) (hr : rid ∈ (w.process.pool k).regions)
      (ha : ∀ u, (w.phase u).destroys ≠ some k ∧ (w.phase u).closes ≠ some (k,rid)) :
      Move w (.turn t) (w.go t (.closing k rid))
  | lockForget {w : World} {t : ThreadId} {k : PoolId} {rid : RegionId} (hp : w.phase t = .closing k rid)
      (hl : w.poolLock k = none) :
      Move w (.turn t) ((w.withPool k (some t)).go t (.forgetting k rid))
  | forget {w : World} {t : ThreadId} {k : PoolId} {rid : RegionId} {pr : Process}
      (hp : w.phase t = .forgetting k rid) (he : removeRegion w.process k rid = some pr) :
      Move w (.regionDestroy t k rid)
        ((w.withProcess pr).go t (.forgotten k ((w.process.pool k).region rid)))
  | leaveForget {w : World} {t : ThreadId} {k : PoolId} {r : Region} (hp : w.phase t = .forgotten k r) :
      Move w (.turn t) ((w.withPool k none).go t (.releasing r))
  | release {w : World} {t : ThreadId} {r : Region} (hp : w.phase t = .releasing r) :
      Move w (.turn t) ((w.withProcess { w.process with vm := regionFree w.process.vm r }).go t .idle)

/-- Before any thread has called. -/
def worldStart (pageSize : ℕ) : World :=
  ⟨start pageSize (fun _ => .inaccessible),none,fun _ => none,fun _ => .idle⟩

end FaultCache.PoolLocks
