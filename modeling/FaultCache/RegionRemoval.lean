import FaultCache.ProcessContract

/-!
# Destroying a region

The chunks of a region are scattered over a queue that other regions share.
They are unlinked one by one, and what is left is the old queue without them:
the same order, the same split into a hot and a cold part, exact byte counts.
Nothing of any other region changes.
-/

set_option autoImplicit false

namespace FaultCache.RegionRemoval
open FaultCache.SentinelRing FaultCache.PageGeometry FaultCache.SharedPages FaultCache.VmPages
open FaultCache.PoolMachine FaultCache.PoolQueue FaultCache.PoolMemory FaultCache.PoolInvariant
open FaultCache.FaultProcess FaultCache.ProcessInvariant FaultCache.ProcessContract

section Totals

/-- The bytes of a queue are those of one region and those of the others. -/
theorem sizeSum_split (p : Pool) (rid : RegionId) (ns : List Node) :
    sizeSum p (ns.filter (fun n => n.1 ≠ rid))+sizeSum p (ofRegion rid ns) = sizeSum p ns := by
  induction ns with
  | nil => rfl
  | cons n ns ih =>
    simp only [ofRegion] at ih ⊢
    by_cases hn : n.1 = rid
    · rw [List.filter_cons_of_neg (by simpa using hn),List.filter_cons_of_pos (by simpa using hn),
        sizeSum_cons,sizeSum_cons]
      omega
    · rw [List.filter_cons_of_pos (by simpa using hn),List.filter_cons_of_neg (by simpa using hn),
        sizeSum_cons,sizeSum_cons]
      omega

theorem forgets_layouts {p p' : Pool} {rid : RegionId} (h : Forgets p p' rid) : SameLayouts p p' := by
  intro r
  by_cases hr : r = rid
  · subst hr
    exact h.shape.layout
  · rw [h.others r hr]

theorem forgets_residentBytes {p p' : Pool} {rid : RegionId} {hot cold : List Node}
    (h : Queue p hot cold) (hr : rid ∈ p.regions) (hf : Forgets p p' rid)
    (hq : Queue p' (hot.filter (fun n => n.1 ≠ rid)) (cold.filter (fun n => n.1 ≠ rid))) :
    p'.residentBytes+(p.region rid).residentBytes = p.residentBytes := by
  rw [hq.account.bytes,h.account.bytes,h.account.regionBytes rid hr,(forgets_layouts hf).sizeSum,
    ← List.filter_append]
  exact sizeSum_split p rid (hot ++ cold)

end Totals

/-- The pool `k` and the process after `rid` has gone from it. -/
structure Removed (pr pr' : Process) (k : PoolId) (rid : RegionId) : Prop where
  queue : lruList (pr'.pool k) = (lruList (pr.pool k)).filter (fun n => n.1 ≠ rid)
  ring : Ring (pr'.pool k).links (lruList (pr'.pool k))
  hot : hotNodes (pr'.pool k) = (hotNodes (pr.pool k)).filter (fun n => n.1 ≠ rid)
  midpoint : (pr'.pool k).midpoint = lastRef (hotNodes (pr'.pool k))
  hotBytes : (pr'.pool k).hotBytes = sizeSum (pr'.pool k) (hotNodes (pr'.pool k))
  residentBytes : (pr'.pool k).residentBytes+((pr.pool k).region rid).residentBytes =
    (pr.pool k).residentBytes
  regions : (pr'.pool k).regions = (pr.pool k).regions.erase rid
  region : ∀ r, r ≠ rid → (pr'.pool k).region r = (pr.pool k).region r
  cold : (pr'.pool k).cold = (pr.pool k).cold
  resident : ∀ n, (pr'.pool k).resident n = ((pr.pool k).resident n && n.1 != rid)
  readable : ∀ r, r ≠ rid → ∀ off, pageReadable (pr'.pool k) r off = pageReadable (pr.pool k) r off
  pools : pr'.pools = pr.pools
  pool : ∀ j, j ≠ k → pr'.pool j = pr.pool j
  pages : ∀ j ∈ pr.pools, ∀ r ∈ (pr.pool j).regions, (j,r) ≠ (k,rid) → ∀ q,
    InRange ((pr.pool j).region r) q → pr'.vm q = pr.vm q

theorem removed_resident {p p' : Pool} {rid : RegionId} {hot cold : List Node}
    (h : Queue p hot cold)
    (hq : Queue p' (hot.filter (fun n => n.1 ≠ rid)) (cold.filter (fun n => n.1 ≠ rid))) (n : Node) :
    p'.resident n = (p.resident n && n.1 != rid) := by
  rw [Bool.eq_iff_iff,Bool.and_eq_true,h.order.resident n,hq.order.resident n,← List.filter_append,
    List.mem_filter,decide_eq_true_iff,bne_iff_ne]

/-- A page of another region is readable as long as its flags stand. -/
theorem readable_congr {p p' : Pool} {r : RegionId} (hr : p'.region r = p.region r)
    (hc : p'.cold = p.cold) (off : ℕ) : pageReadable p' r off = pageReadable p r off := by
  simp only [pageReadable,hr,hc]

/-- Only the pages of the destroyed region are released. -/
theorem freed_pages {pr : Process} (h : ProcessInv pr) {k : PoolId} (hk : k ∈ pr.pools)
    {rid : RegionId} (hr : rid ∈ (pr.pool k).regions) {j : PoolId} (hj : j ∈ pr.pools)
    {r : RegionId} (hr' : r ∈ (pr.pool j).regions) (hne : (j,r) ≠ (k,rid)) {q : ℕ}
    (hq : InRange ((pr.pool j).region r) q) :
    regionFree pr.vm ((pr.pool k).region rid) q = pr.vm q := by
  apply regionFree_out
  by_cases hjk : j = k
  · subst hjk
    obtain ⟨hot,cold,hp⟩ := h.pool j hj
    exact hp.apart r hr' rid hr (fun he => hne (by rw [he])) q hq
  · exact h.apart j hj k hk hjk r hr' rid hr q hq

theorem destroy_removed {pr : Process} (h : ProcessInv pr) {k : PoolId} (hk : k ∈ pr.pools)
    {rid : RegionId} (hr : rid ∈ (pr.pool k).regions) :
    ∃ pr', fcRegionDestroy pr k rid = some pr' ∧ Removed pr pr' k rid := by
  obtain ⟨hot,cold,hp⟩ := h.pool k hk
  have hqueue : Queue (pr.pool k) hot cold := hp.queue
  obtain ⟨p,e,hf,hq⟩ := forget_region hqueue rid
  have hgone : ∀ n ∈ hot.filter (fun m => m.1 ≠ rid) ++ cold.filter (fun m => m.1 ≠ rid),
      n.1 ≠ rid := by
    intro n hn
    rw [← List.filter_append] at hn
    exact of_decide_eq_true (List.mem_filter.mp hn).2
  have hq' := remove_queue hq hgone
  have hlist := hq'.lruList_eq
  have hhot := hq'.hotNodes_eq
  have hbytes := forgets_residentBytes hqueue hr hf hq
  refine ⟨withState pr k ⟨regionListRemove p rid,regionFree pr.vm ((pr.pool k).region rid)⟩,?_,?_⟩
  · simp only [fcRegionDestroy]
    rw [e]
    rfl
  · constructor
    case queue =>
      rw [withState_pool_self,hlist,hqueue.lruList_eq,List.filter_append]
    case ring =>
      rw [withState_pool_self,hlist]
      exact hq'.order.ring
    case hot => rw [withState_pool_self,hhot,hqueue.hotNodes_eq]
    case midpoint =>
      rw [withState_pool_self,hhot]
      exact hq'.order.midpoint
    case hotBytes =>
      rw [withState_pool_self,hhot]
      exact hq'.order.hotBytes
    case residentBytes =>
      rw [withState_pool_self]
      exact hbytes
    case regions =>
      rw [withState_pool_self,← hf.regions]
      rfl
    case region =>
      intro r hne
      rw [withState_pool_self]
      exact hf.others r hne
    case cold =>
      rw [withState_pool_self]
      exact hf.cold
    case resident =>
      intro n
      rw [withState_pool_self]
      exact removed_resident hqueue hq n
    case readable =>
      intro r hne off
      rw [withState_pool_self]
      exact readable_congr (hf.others r hne) hf.cold off
    case pools => rfl
    case pool => exact fun j hj => withState_pool_of_ne pr _ hj
    case pages => exact fun j hj r hr' hne q hq => freed_pages h hk hr hj hr' hne hq

/-- Destroying a live region of a reachable process returns, removes exactly
its chunks from the queue and leaves every other region as it was. -/
theorem region_destroy_removes {pr : Process} (h : Reachable pr) {k : PoolId} (hk : k ∈ pr.pools)
    {rid : RegionId} (hr : rid ∈ (pr.pool k).regions) :
    ∃ pr', fcRegionDestroy pr k rid = some pr' ∧ Removed pr pr' k rid :=
  destroy_removed (reachable_inv h) hk hr

theorem region_destroy_removes_sample : ∃ pr', fcRegionDestroy sampleFaulted 0 0 = some pr' ∧
    Removed sampleFaulted pr' 0 0 :=
  region_destroy_removes sampleFaulted_reachable (by decide) (by decide)

end FaultCache.RegionRemoval
