import FaultCache.SentinelRing
import FaultCache.SharedPages
import FaultCache.VmPages

/-!
# The in-process fault path of one pool

A pool owns regions, a recency queue threaded through the `chunk_lru_t` nodes
of all their chunks, and a midpoint in that queue. Resolving a fault fills or
promotes the chunks behind the faulting page, evicts from the cold end of the
queue until the pool is within its budget, and takes read access away from
everything past the midpoint. `none` stands for a failed `FC_ASSERT` or a null
dereference; the loops carry fuel and also answer `none` when it runs out.
-/

set_option autoImplicit false

namespace FaultCache.PoolMachine
open FaultCache.SentinelRing FaultCache.PageGeometry FaultCache.SharedPages FaultCache.VmPages

abbrev RegionId := ℕ
abbrev Node := RegionId × ℕ

def sizeAdd (a b : ℕ) : ℕ := (a+b) % 2^64
def sizeSub (a b : ℕ) : ℕ := (a+(2^64-b)) % 2^64
def countUp (a : ℕ) : ℕ := (a+1) % 2^32
def countDown (a : ℕ) : ℕ := (a+(2^32-1)) % 2^32

/-- The moving part of a `shared_page_t`. `staging` is present between the
first contribution and publication. -/
structure SharedPage where
  staged : ℕ
  staging : Option Scratch
  mapped : Bool

structure Region where
  layout : Layout
  base : ℕ
  fillChunk : ℕ → ℕ → UInt8
  initialized : ℕ → Bool
  sharedPages : ℕ → SharedPage
  chunkStaged : ℕ → Bool
  chunkFaultsTotal : ℕ → UInt64
  residentBytes : ℕ
  residentChunks : ℕ
  faultEventsTotal : UInt64
  chunksResolved : UInt32
  faultsHandled : UInt32

/-- What the pool has asked of its callbacks and of its queue, newest first:
every `fill_chunk` call with its size, every promotion, demotion and eviction. -/
inductive Event where
  | fill (n : Node) (size : ℕ)
  | promote (n : Node)
  | demote (n : Node)
  | evict (n : Node)
  deriving DecidableEq, Repr

structure Pool where
  targetSize : ℕ
  residentBytes : ℕ
  links : Links Node
  resident : Node → Bool
  cold : Node → Bool
  midpoint : Ref Node
  hotBytes : ℕ
  regions : List RegionId
  region : RegionId → Region
  history : List Event

structure State where
  pool : Pool
  vm : PageTable

def Pool.update (p : Pool) (r : RegionId) (f : Region → Region) : Pool :=
  { p with region := Function.update p.region r (f (p.region r)) }

def lruNodeSize (p : Pool) (n : Node) : ℕ := (p.region n.1).layout.chunkSize n.2

/-- Whether the page holding `off` can currently be read. -/
def pageReadable (p : Pool) (rid : RegionId) (off : ℕ) : Bool :=
  let r := p.region rid
  let page := pageFloor off r.layout.pageSize
  match findSharedPage r.layout page with
  | some k => (r.sharedPages k).mapped
  | none => r.initialized (r.layout.findChunk page) && !p.cold (rid,r.layout.findChunk page)

/-- Only the chunk's exclusive pages change access. -/
def chunkSetReadable (p : Pool) (t : PageTable) (n : Node) (readable : Bool) : PageTable :=
  let r := p.region n.1
  if r.layout.exclLo n.2 < r.layout.exclHi n.2 then
    vmSetReadable t (r.base+r.layout.exclLo n.2) (r.layout.exclHi n.2-r.layout.exclLo n.2) readable
  else t

/-- `lru_unlink` past its assertion. -/
def unlinked (p : Pool) (n : Node) : Pool :=
  { p with
    midpoint := if p.midpoint = .node n then p.links.prev (.node n) else p.midpoint
    hotBytes := if p.cold n then p.hotBytes else sizeSub p.hotBytes (lruNodeSize p n)
    links := p.links.unlink n
    resident := Function.update p.resident n false }

def lruUnlink (p : Pool) (n : Node) : Option Pool :=
  if p.resident n then some (unlinked p n) else none

/-- `lru_insert_mru` past its assertion. -/
def inserted (p : Pool) (n : Node) : Pool :=
  { p with
    links := p.links.insertFront n
    resident := Function.update p.resident n true
    cold := Function.update p.cold n false
    hotBytes := sizeAdd p.hotBytes (lruNodeSize p n)
    midpoint := if p.midpoint = .head then .node n else p.midpoint }

def lruInsertMru (p : Pool) (n : Node) : Option Pool :=
  if p.resident n then none else some (inserted p n)

/-- The body of the midpoint walk: hide the node and step past it. -/
def demote (s : State) (n : Node) : State :=
  { pool := { s.pool with
      cold := Function.update s.pool.cold n true
      hotBytes := sizeSub s.pool.hotBytes (lruNodeSize s.pool n)
      midpoint := s.pool.links.prev (.node n)
      history := .demote n::s.pool.history }
    vm := chunkSetReadable s.pool s.vm n false }

def rebalanceLoop : ℕ → State → Option State
  | 0, _ => none
  | fuel+1, s =>
    if s.pool.residentBytes/2 < s.pool.hotBytes ∧ s.pool.midpoint ≠ s.pool.links.next .head then
      match s.pool.midpoint with
      | .node n => rebalanceLoop fuel (demote s n)
      | _ => none
    else some s

/-- A bound on the length of the queue: the chunks of all live regions. -/
def lruFuel (p : Pool) : ℕ := (p.regions.map (fun r => (p.region r).layout.nchunks)).sum+1

def lruRebalance (s : State) : Option State :=
  if s.pool.targetSize = 0 then some s else rebalanceLoop (lruFuel s.pool) s

def lruPromote (s : State) (n : Node) : Option State :=
  if s.pool.cold n then
    (lruUnlink s.pool n).bind (fun p =>
      (lruInsertMru p n).map (fun p =>
        ⟨{ p with history := .promote n::p.history },chunkSetReadable s.pool s.vm n true⟩))
  else none

def dropChunk (r : Region) (c size : ℕ) : Region :=
  { r with
    initialized := Function.update r.initialized c false
    residentBytes := sizeSub r.residentBytes size
    residentChunks := countDown r.residentChunks }

/-- The counters and the flag of a chunk that has left the queue. -/
def forgotten (p : Pool) (n : Node) (size : ℕ) : Pool :=
  { p.update n.1 (fun r => dropChunk r n.2 size) with
    residentBytes := sizeSub p.residentBytes size }

def lruForgetChunk (p : Pool) (n : Node) : Option Pool :=
  if p.resident n then (lruUnlink p n).map (fun q => forgotten q n (lruNodeSize p n))
  else some p

def decommitChunk (r : Region) (vm : PageTable) (c : ℕ) : PageTable :=
  let lo := r.layout.exclLo c
  let hi := r.layout.exclHi c
  if hi = lo then vm else vmDecommit vm (r.base+lo) (hi-lo)

def lruEvictChunk (s : State) (n : Node) : Option State :=
  (lruForgetChunk s.pool n).map (fun p =>
    ⟨{ p with history := .evict n::p.history },decommitChunk (p.region n.1) s.vm n.2⟩)

def evictLoop (rid : RegionId) (lo hi : ℕ) : ℕ → State → Option State
  | 0, _ => none
  | fuel+1, s =>
    if s.pool.targetSize < s.pool.residentBytes then
      match s.pool.links.prev .head with
      | .node victim =>
        if victim.1 = rid ∧ lo ≤ victim.2 ∧ victim.2 ≤ hi then some s
        else (lruEvictChunk s victim).bind (evictLoop rid lo hi fuel)
      | _ => none
    else some s

def evictUntilWithinBudget (s : State) (rid : RegionId) (lo hi : ℕ) : Option State :=
  if s.pool.targetSize = 0 then some s else evictLoop rid lo hi (lruFuel s.pool) s

def installSharedPage (r : Region) (vm : PageTable) (k : ℕ) : Option (Region × PageTable) :=
  match (r.sharedPages k).staging with
  | none => none
  | some scratch =>
    let page := { r.sharedPages k with staging := none, mapped := true }
    some ({ r with sharedPages := Function.update r.sharedPages k page },
      vmScratchPublish vm scratch 0 r.layout.pageSize (r.base+(sharedPage r.layout k).pageOff))

/-- The staging page after chunk `c`'s slice of page `k` has been copied out of
`scratch`, which covers offsets from `spanLo` on. -/
def stagedSlice (r : Region) (k c : ℕ) (scratch : Scratch) (spanLo : ℕ) : Scratch :=
  let L := r.layout
  let off := (sharedPage L k).pageOff
  let staging := (r.sharedPages k).staging.getD (vmScratchCreate L.pageSize)
  let lo := if off < L.chunkStart c then L.chunkStart c else off
  let hi := if L.chunkStart (c+1) < off+L.pageSize then L.chunkStart (c+1) else off+L.pageSize
  { staging with bytes := memcpy staging.bytes (lo-off) scratch.bytes (lo-spanLo) (hi-lo) }

/-- Stages the slice and publishes the page after the last contributor. -/
def stageIntoSharedPage (r : Region) (vm : PageTable) (sp : Option ℕ) (c : ℕ)
    (scratch : Scratch) (spanLo : ℕ) : Option (Region × PageTable) :=
  match sp with
  | none => none
  | some k =>
    let page := r.sharedPages k
    let span := sharedPage r.layout k
    if page.mapped then none
    else
      let r := { r with
        chunkStaged := Function.update r.chunkStaged c true
        sharedPages := Function.update r.sharedPages k
          ⟨page.staged+1,some (stagedSlice r k c scratch spanLo),page.mapped⟩ }
      if page.staged+1 = span.lastChunk-span.firstChunk+1 then installSharedPage r vm k
      else some (r,vm)

/-- The scratch mapping after `fill_chunk` has written its `size` bytes. -/
def fillScratch (r : Region) (c : ℕ) : Scratch :=
  let L := r.layout
  let start := L.chunkStart c
  let stop := L.chunkStart (c+1)
  let spanLo := pageFloor start L.pageSize
  let spanHi := pageCeil stop L.pageSize
  let scratch := vmScratchCreate (spanHi-spanLo)
  { scratch with bytes := memcpy scratch.bytes (start-spanLo) (r.fillChunk c) 0 (stop-start) }

/-- How the scratch mapping is used up: the exclusive pages are published and
the shared ends discarded. -/
def fillPieces (L : Layout) (base c : ℕ) : List Piece :=
  let spanLo := pageFloor (L.chunkStart c) L.pageSize
  let spanHi := pageCeil (L.chunkStart (c+1)) L.pageSize
  let exclLo := L.exclLo c
  let exclHi := L.exclHi c
  if exclLo < exclHi then
    .publish (exclLo-spanLo) (exclHi-exclLo) (base+exclLo)::
      ((if spanLo < exclLo then [.discard 0 (exclLo-spanLo)] else []) ++
       (if exclHi < spanHi then [.discard (exclHi-spanLo) (spanHi-exclHi)] else []))
  else [.discard 0 (spanHi-spanLo)]

def stageWhen (flag : Bool) (r : Region) (vm : PageTable) (sp : Option ℕ) (c : ℕ)
    (scratch : Scratch) (spanLo : ℕ) : Option (Region × PageTable) :=
  if flag then stageIntoSharedPage r vm sp c scratch spanLo else some (r,vm)

/-- A chunk hands its slices to its shared pages on its first fill only. -/
def stageShared (r : Region) (vm : PageTable) (c : ℕ) (scratch : Scratch) :
    Option (Region × PageTable) :=
  let L := r.layout
  let spanLo := boundaryPage L c
  let tailPage := boundaryPage L (c+1)
  let head := hasHead L c
  let tail := hasTail L c && !(head && tailPage == spanLo)
  if r.chunkStaged c then some (r,vm)
  else
    (stageWhen head r vm (findSharedPage L spanLo) c scratch spanLo).bind (fun m =>
      stageWhen tail m.1 m.2 (findSharedPage L tailPage) c scratch spanLo)

def countFault (r : Region) (c : ℕ) : Region :=
  { r with
    chunkFaultsTotal := Function.update r.chunkFaultsTotal c (r.chunkFaultsTotal c+1)
    faultEventsTotal := r.faultEventsTotal+1 }

def addChunk (r : Region) (size : ℕ) : Region :=
  { r with
    residentBytes := sizeAdd r.residentBytes size
    residentChunks := countUp r.residentChunks }

/-- The byte and chunk counters of a chunk that has entered the queue. -/
def accounted (p : Pool) (n : Node) (size : ℕ) : Pool :=
  { p.update n.1 (fun r => addChunk r size) with
    residentBytes := sizeAdd p.residentBytes size }

def enqueue (p : Pool) (n : Node) (size : ℕ) : Option Pool :=
  if p.resident n then some p
  else (lruInsertMru p n).map (fun q => accounted q n size)

/-- The counters and the queue after a fill. -/
def fillAccount (p : Pool) (n : Node) : Option Pool :=
  (enqueue (p.update n.1 (fun r => countFault r n.2)) n (lruNodeSize p n)).map (fun q =>
    q.update n.1 (fun r => { r with chunksResolved := r.chunksResolved+1 }))

def fillChunkLocked (s : State) (rid : RegionId) (c : ℕ) : Option State :=
  let r := s.pool.region rid
  let scratch := fillScratch r c
  let r := { r with initialized := Function.update r.initialized c true }
  (stageShared r s.vm c scratch).bind (fun m =>
    let p := { s.pool.update rid (fun _ => m.1) with
      history := .fill (rid,c) (r.layout.chunkSize c)::s.pool.history }
    (fillAccount p (rid,c)).map (fun p =>
      ⟨p,consume m.2 scratch (fillPieces r.layout r.base c)⟩))

def fillUnless (s : State) (rid : RegionId) (c : ℕ) : Option State :=
  if (s.pool.region rid).initialized c then some s else fillChunkLocked s rid c

/-- `for (c = lo; c <= hi; c++) if (!initialized[c]) fill_chunk_locked(r, c)`,
with the number of iterations left. -/
def fillMissing (rid : RegionId) : ℕ → ℕ → State → Option State
  | 0, _, s => some s
  | n+1, c, s => (fillUnless s rid c).bind (fillMissing rid n (c+1))

/-- The promotion branch: hand the access back and count the fault. -/
def promoteChunk (s : State) (rid : RegionId) (c : ℕ) : Option State :=
  (lruPromote s (rid,c)).map (fun s =>
    { s with pool := s.pool.update rid (fun r => countFault r c) })

/-- Fills or promotes what the page needs. Also returns the chunks that the
following eviction must not touch. -/
def servePage (s : State) (rid : RegionId) (page : ℕ) : Option (ℕ × ℕ × State) :=
  let r := s.pool.region rid
  match findSharedPage r.layout page with
  | some k =>
    if (r.sharedPages k).mapped then none
    else
      let lo := (sharedPage r.layout k).firstChunk
      let hi := (sharedPage r.layout k).lastChunk
      (fillMissing rid (hi+1-lo) lo s).map (fun s => (lo,hi,s))
  | none =>
    let c := r.layout.findChunk page
    (if r.initialized c then promoteChunk s rid c else fillChunkLocked s rid c).map
      (fun s => (c,c,s))

def countHandled (s : State) (rid : RegionId) : State :=
  { s with pool := s.pool.update rid (fun r => { r with faultsHandled := r.faultsHandled+1 }) }

def resolveFaultLocked (s : State) (rid : RegionId) (off : ℕ) : Option State :=
  let page := pageFloor off (s.pool.region rid).layout.pageSize
  (servePage s rid page).bind (fun m =>
    if pageReadable m.2.2.pool rid page then
      (evictUntilWithinBudget m.2.2 rid m.1 m.2.1).bind (fun s =>
        (lruRebalance s).map (fun s => countHandled s rid))
    else none)

end FaultCache.PoolMachine
