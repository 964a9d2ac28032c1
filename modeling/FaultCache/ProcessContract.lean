import FaultCache.ProcessInvariant
import Mathlib.Algebra.BigOperators.Group.Finset.Piecewise

/-!
# What holds in every reachable process

The contract of the in-process backend over whole runs: what a reader sees,
the state of the queue and its counters, how often a chunk is filled, and
which pages no later call can take back.
-/

set_option autoImplicit false

namespace FaultCache.ProcessContract
open FaultCache.SentinelRing FaultCache.PageGeometry FaultCache.SharedPages FaultCache.VmPages
open FaultCache.PoolMachine FaultCache.PoolStaging FaultCache.PoolQueue FaultCache.PoolMemory
open FaultCache.PoolHistory FaultCache.PoolInvariant FaultCache.PoolResolve FaultCache.FaultProcess
open FaultCache.ProcessInvariant

/-- What a reader of a region must find at an offset. -/
def ShowsByte (r : Region) (off : ℕ) (byte : UInt8) : Prop :=
  (off < r.layout.totalSize → ∃ c < r.layout.nchunks, r.layout.Covers c off ∧
    byte = r.fillChunk c (off-r.layout.chunkStart c)) ∧
  (r.layout.totalSize ≤ off → byte = 0)

theorem shows_content (r : Region) (off : ℕ) : ShowsByte r off (content r off) := by
  constructor
  · intro h
    exact ⟨_,r.layout.findChunk_lt off,r.layout.findChunk_covers h,by rw [content,if_pos h]⟩
  · intro h
    rw [content,if_neg (by omega)]

/-- A page of a live region in a good state. -/
theorem page_shown {s : State} {hot cold : List Node} (h : PoolInv s hot cold) {rid : RegionId}
    (hr : rid ∈ s.pool.regions) {off : ℕ} (hp : (s.pool.region rid).layout.pageSize ∣ off)
    (hm : off < (s.pool.region rid).layout.mappedSize) :
    ((s.vm ((s.pool.region rid).base+off)).isReadable = true ↔ pageReadable s.pool rid off = true) ∧
      ∀ b, s.vm ((s.pool.region rid).base+off) = .readable b →
        ∀ i < (s.pool.region rid).layout.pageSize, b i = content (s.pool.region rid) (off+i) := by
  have hinv := h.region rid hr
  have hfix := pageFloor_aligned hp
  cases hf : findSharedPage (s.pool.region rid).layout off with
  | some k =>
    obtain ⟨hk,rfl⟩ := (findSharedPage_some _ _ _).mp hf
    have hshown := hinv.shared k hk
    rw [readable_shared (by rw [hfix]; exact hf)]
    unfold PageShown at hshown
    split_ifs at hshown with hmap
    · obtain ⟨b,hb,hbytes⟩ := hshown
      rw [hb,hmap]
      refine ⟨by simp [PageState.isReadable],?_⟩
      rintro b' ⟨⟩
      exact hbytes
    · rw [hshown]
      exact ⟨by simpa [PageState.isReadable] using hmap,by simp⟩
  | none =>
    obtain ⟨h1,h2⟩ := page_exclusive _ hp hm hf
    have hholds := hinv.exclusive _ (Layout.findChunk_lt _ off) off hp ⟨h1,h2⟩
    rw [readable_exclusive (by rw [hfix]; exact hf),hfix]
    unfold coldFlags at hholds
    cases hv : s.vm ((s.pool.region rid).base+off) with
    | inaccessible =>
      rw [hv] at hholds
      have hi : (s.pool.region rid).initialized ((s.pool.region rid).layout.findChunk off) = false := hholds
      exact ⟨by simp [PageState.isReadable,hi],by simp⟩
    | hidden b =>
      rw [hv] at hholds
      obtain ⟨hi,hc,-⟩ := hholds
      exact ⟨by simp [PageState.isReadable,hi,hc],by simp⟩
    | readable b =>
      rw [hv] at hholds
      obtain ⟨hi,hc,hbytes⟩ := hholds
      refine ⟨by simp [PageState.isReadable,hi,hc],?_⟩
      rintro b' ⟨⟩
      exact hbytes

/-- In every reachable process a page of a live region is readable in the page
table exactly when `page_readable` says so, and then shows the bytes its
region's `fill_chunk` derives, with zeros in the padding. -/
theorem readable_pages_show_chunks {pr : Process} (h : Reachable pr) (k : PoolId) (hk : k ∈ pr.pools)
    (rid : RegionId) (hr : rid ∈ (pr.pool k).regions) (off : ℕ)
    (hp : ((pr.pool k).region rid).layout.pageSize ∣ off)
    (hm : off < ((pr.pool k).region rid).layout.mappedSize) :
    ((pr.vm (((pr.pool k).region rid).base+off)).isReadable = true ↔
      pageReadable (pr.pool k) rid off = true) ∧
    ∀ b, pr.vm (((pr.pool k).region rid).base+off) = .readable b →
      ∀ i < ((pr.pool k).region rid).layout.pageSize,
        ShowsByte ((pr.pool k).region rid) (off+i) (b i) := by
  obtain ⟨hot,cold,hinv⟩ := (reachable_inv h).pool k hk
  obtain ⟨h1,h2⟩ := page_shown hinv hr hp hm
  refine ⟨h1,?_⟩
  intro b hb i hi
  rw [h2 b hb i hi]
  exact shows_content _ _

theorem sampleSizes : Accepted 4 [6,4] 10 :=
  ⟨by decide,by decide,by decide,by decide,by decide,by decide⟩

/-- A bounded pool with one region of two chunks that share a page. -/
def sample : Process :=
  fcRegionCreate (fcPoolCreate (start 4 (fun _ => .inaccessible)) 8) 0 [6,4] 10 sampleSizes
    (fun c i => (16*c+i+1).toUInt8) 16

/-- The same process after a fault on the shared page. -/
def sampleFaulted : Process := ((faultTryResolve sample 20).getD (false,sample)).2

theorem sample_reachable : Reachable sample := by
  refine ⟨4,fun _ => .inaccessible,?_⟩
  refine Relation.ReflTransGen.tail (Relation.ReflTransGen.single (Step.poolCreate _ 8)) ?_
  exact Step.regionCreate _ 0 [6,4] 10 _ 16 (by decide) sampleSizes
    ⟨by decide,by decide,by simp [fcPoolCreate,start,poolInit]⟩

theorem sample_fault : faultTryResolve sample 20 = some (true,sampleFaulted) := rfl

theorem sampleFaulted_reachable : Reachable sampleFaulted :=
  reachable_steps sample_reachable (Relation.ReflTransGen.single (Step.fault _ 20 true _ sample_fault))

/-- The page at offset 4 holds the end of chunk 0 and the start of chunk 1. -/
theorem readable_pages_show_chunks_sample : pageReadable (sampleFaulted.pool 0) 0 4 = true ∧
    ((sampleFaulted.vm (16+4)).isReadable = true ↔ pageReadable (sampleFaulted.pool 0) 0 4 = true) ∧
    ∀ b, sampleFaulted.vm (16+4) = .readable b →
      ∀ i < 4, ShowsByte ((sampleFaulted.pool 0).region 0) (4+i) (b i) :=
  ⟨by decide +kernel,
    readable_pages_show_chunks sampleFaulted_reachable 0 (by decide) 0 (by decide) 4 (by decide) (by decide +kernel)⟩

theorem sum_pick (rs : List RegionId) (hn : rs.Nodup) {i : RegionId} (hi : i ∈ rs) (x : ℕ) :
    (rs.map (fun r => if i = r then x else 0)).sum = x := by
  rw [← List.sum_toFinset _ hn,Finset.sum_ite_eq,if_pos (List.mem_toFinset.mpr hi)]

/-- The queued bytes, counted region by region. -/
theorem region_sums (p : Pool) (q : List Node) (hn : p.regions.Nodup) (hl : ∀ n ∈ q, n.1 ∈ p.regions) :
    (p.regions.map (fun r => sizeSum p (ofRegion r q))).sum = sizeSum p q := by
  induction q with
  | nil => simp [ofRegion]
  | cons n q ih =>
    have hone : ∀ r, sizeSum p (ofRegion r (n::q)) =
        (if n.1 = r then lruNodeSize p n else 0)+sizeSum p (ofRegion r q) := by
      intro r
      by_cases hr : n.1 = r
      · simp [ofRegion,hr]
      · simp [ofRegion,hr]
    simp only [hone]
    rw [List.sum_map_add,sum_pick p.regions hn (hl n List.mem_cons_self),
      ih (fun m hm => hl m (List.mem_cons_of_mem _ hm)),sizeSum_cons]

/-- The redundant state of one pool, spelled out against the list `hot ++ cold`
that a walk from `lru_head.next` visits. -/
structure Consistent (p : Pool) (hot cold : List Node) : Prop where
  ring : Ring p.links (hot ++ cold)
  walk : lruList p = hot ++ cold
  resident : ∀ n, p.resident n = true ↔ n ∈ hot ++ cold
  live : ∀ n ∈ hot ++ cold, Live p n
  initialized : ∀ n, Live p n → (p.resident n = true ↔ (p.region n.1).initialized n.2 = true)
  hotFlag : ∀ n ∈ hot, p.cold n = false
  coldFlag : ∀ n ∈ cold, p.cold n = true
  midpoint : p.midpoint = lastRef hot
  noneHot : p.midpoint = .head ↔ ∀ n, p.resident n = true → p.cold n = true
  hotBytes : p.hotBytes = (hot.map (lruNodeSize p)).sum
  residentBytes : p.residentBytes = ((hot ++ cold).map (lruNodeSize p)).sum
  regionBytes : p.residentBytes = (p.regions.map (fun r => (p.region r).residentBytes)).sum
  residentChunks : ∀ r ∈ p.regions,
    (p.region r).residentChunks = ((hot ++ cold).filter (fun n => n.1 = r)).length
  faultEvents : ∀ r ∈ p.regions, (p.region r).faultEventsTotal =
    sumTo (p.region r).chunkFaultsTotal (p.region r).layout.nchunks

theorem consistent_of_inv {s : State} {hot cold : List Node} (h : PoolInv s hot cold) :
    Consistent s.pool hot cold := by
  have ho := h.queue.order
  have ha := h.queue.account
  refine ⟨ho.ring,h.queue.lruList_eq,ho.resident,ha.live,?_,ho.hotFlag,ho.coldFlag,ho.midpoint,?_,ho.hotBytes,ha.bytes,
    ?_,ha.regionChunks,fun r hr => (h.region r hr).faults⟩
  · intro n hn
    rw [ho.resident,h.initialized_iff hn]
  · rw [ho.midpoint,lastRef_eq_head]
    constructor
    · rintro rfl n hn
      exact ho.coldFlag n (by simpa using (ho.resident n).mp hn)
    · intro hall
      rw [List.eq_nil_iff_forall_not_mem]
      intro n hn
      have hc := hall n ((ho.resident n).mpr (List.mem_append_left _ hn))
      rw [ho.hotFlag n hn] at hc
      cases hc
  · rw [ha.bytes,← region_sums s.pool _ h.queue.distinct (fun n hn => (ha.live n hn).1)]
    congr 1
    exact List.map_congr_left (fun r hr => (ha.regionBytes r hr).symm)

/-- The queue and every counter kept beside it agree in every reachable state. -/
theorem queue_is_consistent {pr : Process} (h : Reachable pr) (k : PoolId) (hk : k ∈ pr.pools) :
    ∃ hot cold, Consistent (pr.pool k) hot cold := by
  obtain ⟨hot,cold,hinv⟩ := (reachable_inv h).pool k hk
  exact ⟨hot,cold,consistent_of_inv hinv⟩

/-- After the sample's fault chunk 1 is hot and chunk 0 past the midpoint. -/
theorem queue_is_consistent_sample :
    (sampleFaulted.pool 0).midpoint = .node (0,1) ∧ (sampleFaulted.pool 0).cold (0,0) = true ∧
      ∃ hot cold, Consistent (sampleFaulted.pool 0) hot cold :=
  ⟨by decide +kernel,by decide +kernel,queue_is_consistent sampleFaulted_reachable 0 (by decide)⟩

/-- No assertion of the fault path and of region destruction can fail, no
absent shared page is dereferenced and every loop ends: each call returns. -/
theorem calls_never_abort {pr : Process} (h : Reachable pr) :
    (∀ addr, (faultTryResolve pr addr).isSome = true) ∧
    ∀ k ∈ pr.pools, ∀ rid ∈ (pr.pool k).regions, (fcRegionDestroy pr k rid).isSome = true := by
  have hinv := reachable_inv h
  constructor
  · intro addr
    obtain ⟨ours,pr',he,-⟩ := fault_spec hinv addr
    rw [he]
    rfl
  · intro k hk rid hr
    obtain ⟨p,-,-,he,-⟩ := destroy_spec hinv hk hr
    rw [he]
    rfl

theorem calls_never_abort_sample :
    (∀ addr, (faultTryResolve sampleFaulted addr).isSome = true) ∧
    ∀ k ∈ sampleFaulted.pools, ∀ rid ∈ (sampleFaulted.pool k).regions,
      (fcRegionDestroy sampleFaulted k rid).isSome = true :=
  calls_never_abort sampleFaulted_reachable

/-- Fills and evictions of a chunk alternate over every run. -/
theorem fills_balance_evictions {pr : Process} (h : Reachable pr) (k : PoolId) (hk : k ∈ pr.pools) :
    (∀ n, Live (pr.pool k) n → fills n (pr.pool k).history =
      evicts n (pr.pool k).history+(((pr.pool k).region n.1).initialized n.2).toNat) ∧
    ((pr.pool k).targetSize = 0 → ∀ n, fills n (pr.pool k).history ≤ 1) ∧
    ∀ n a b h₁ h₂ h₃, (pr.pool k).history = h₁ ++ .fill n a::(h₂ ++ .fill n b::h₃) →
      .evict n ∈ h₂ := by
  obtain ⟨hot,cold,hinv⟩ := (reachable_inv h).pool k hk
  refine ⟨?_,?_,?_⟩
  · intro n hn
    rw [fills_eq_evicts_add (hinv.alternates n),hinv.populated n hn]
  · intro h0 n
    rw [fills_eq_evicts_add (hinv.alternates n),evicts_eq_zero (hinv.unbounded h0 n).1,Nat.zero_add]
    exact Bool.toNat_le _
  · intro n a b h₁ h₂ h₃ he
    apply evict_between_fills (n := n) (a := a) (b := b)
    rw [← he]
    exact hinv.alternates n

theorem fills_balance_evictions_sample :
    (sampleFaulted.pool 0).history = [.demote (0,0),.fill (0,1) 4,.fill (0,0) 6] ∧
    (∀ n, Live (sampleFaulted.pool 0) n → fills n (sampleFaulted.pool 0).history =
      evicts n (sampleFaulted.pool 0).history+
        (((sampleFaulted.pool 0).region n.1).initialized n.2).toNat) ∧
    ((sampleFaulted.pool 0).targetSize = 0 → ∀ n, fills n (sampleFaulted.pool 0).history ≤ 1) ∧
    ∀ n a b h₁ h₂ h₃, (sampleFaulted.pool 0).history = h₁ ++ .fill n a::(h₂ ++ .fill n b::h₃) →
      .evict n ∈ h₂ :=
  ⟨rfl,fills_balance_evictions sampleFaulted_reachable 0 (by decide)⟩

/-- What a live region keeps over one call: its place, and every shared page
that has been published. -/
structure Survives (pr pr' : Process) (k : PoolId) (rid : RegionId) : Prop where
  pool : k ∈ pr.pools
  region : rid ∈ (pr.pool k).regions
  shape : SameShape ((pr.pool k).region rid) ((pr'.pool k).region rid)
  published : ∀ j, (((pr.pool k).region rid).sharedPages j).mapped = true →
    (((pr'.pool k).region rid).sharedPages j).mapped = true
  shown : ∀ j < nshared ((pr.pool k).region rid).layout,
    (((pr.pool k).region rid).sharedPages j).mapped = true →
    pr'.vm (((pr.pool k).region rid).base+(sharedPage ((pr.pool k).region rid).layout j).pageOff) =
      pr.vm (((pr.pool k).region rid).base+(sharedPage ((pr.pool k).region rid).layout j).pageOff)

/-- A call that leaves the region's record and its pages alone. -/
theorem Survives.of_same {pr pr' : Process} {k : PoolId} {rid : RegionId} (hk : k ∈ pr.pools)
    (hr : rid ∈ (pr.pool k).regions) (he : (pr'.pool k).region rid = (pr.pool k).region rid)
    (hv : ∀ q, InRange ((pr.pool k).region rid) q → pr'.vm q = pr.vm q) :
    Survives pr pr' k rid where
  pool := hk
  region := hr
  shape := by rw [he]; exact SameShape.refl _
  published := by rw [he]; exact fun _ => id
  shown := by
    intro j hj _
    have := ((pr.pool k).region rid).layout.pageSize_pos
    exact hv _ (shared_inRange hj ⟨le_refl _,by omega⟩)

theorem fault_survives {pr pr' : Process} (h : ProcessInv pr) {addr : ℕ} {ours : Bool}
    (he : faultTryResolve pr addr = some (ours,pr')) {k : PoolId} {rid : RegionId}
    (hk : k ∈ pr.pools) (hr : rid ∈ (pr.pool k).regions) : Survives pr pr' k rid := by
  rcases faultScan_cases he with ⟨-,rfl⟩ | ⟨-,j,hj,x,s,hfind,hun,hs,rfl⟩
  · exact Survives.of_same hk hr rfl (fun _ _ => rfl)
  · obtain ⟨hot,cold,hp⟩ := h.pool j hj
    obtain ⟨hx,-⟩ := findRegionLocked_some hfind
    obtain ⟨s₁,hot',cold',hs₁,hreach,-⟩ := resolve_spec hp hx hun
    obtain rfl := Option.some.inj (hs₁.symm.trans hs)
    have hf := hreach.run.frame ⟨hot,cold,hp⟩
    by_cases hjk : k = j
    · subst hjk
      obtain ⟨n,hn⟩ := countHandled_region s₁ x rid
      refine ⟨hk,hr,?_,?_,?_⟩
      · rw [withState_pool_self,hn]
        exact (hf.shape rid).trans ⟨rfl,rfl,rfl⟩
      · intro i hi
        rw [withState_pool_self,hn]
        exact (congrArg SharedPage.mapped (hf.published rid i hi)).trans hi
      · exact fun i hi hm => hf.shown rid hr i hi hm
    · apply Survives.of_same hk hr
      · rw [withState_pool_of_ne pr _ hjk]
      · intro q hin
        by_contra hc
        obtain ⟨r',hr',hin'⟩ := hf.pages q hc
        exact h.apart k hk j hj hjk rid hr r' hr' q hin hin'

/-- Identifiers are not reused, so a region that is live after a call was live
before it unless the call created it. -/
theorem step_survives {pr pr' : Process} (h : ProcessInv pr) (hs : Step pr pr') {k : PoolId}
    {rid : RegionId} (hk : k < pr.nextPool) (hrid : rid < pr.nextRegion) (hk' : k ∈ pr'.pools)
    (hr' : rid ∈ (pr'.pool k).regions) : Survives pr pr' k rid := by
  cases hs with
  | poolCreate target =>
    have hold : k ∈ pr.pools := (List.mem_cons.mp hk').resolve_left (Nat.ne_of_lt hk)
    have he : (fcPoolCreate pr target).pool k = pr.pool k :=
      Function.update_of_ne (Nat.ne_of_lt hk) _ _
    rw [he] at hr'
    exact Survives.of_same hold hr' (by rw [he]) (fun _ _ => rfl)
  | regionCreate j sizes total fill base hj ha hb =>
    have hfree : rid ∈ (pr.pool k).regions →
        ∀ q, InRange ((pr.pool k).region rid) q →
          (fcRegionCreate pr j sizes total ha fill base).vm q = pr.vm q :=
      fun hold q hin => vmReserve_out (fun hc => hb.vacant k hk' rid hold q hc hin)
    by_cases hjk : k = j
    · subst hjk
      have he : (fcRegionCreate pr k sizes total ha fill base).pool k = _ := Function.update_self _ _ _
      rw [he] at hr'
      have hold := (List.mem_cons.mp hr').resolve_left (Nat.ne_of_lt hrid)
      refine Survives.of_same hk' hold ?_ (hfree hold)
      rw [he,insert_region_of_ne (Nat.ne_of_lt hrid)]
    · have he : (fcRegionCreate pr j sizes total ha fill base).pool k = pr.pool k :=
        Function.update_of_ne hjk _ _
      rw [he] at hr'
      exact Survives.of_same hk' hr' (by rw [he]) (hfree hr')
  | fault addr ours _ he =>
    obtain ⟨-,rfl⟩ | ⟨-,j,hj,x,s,hfind,hun,hs,rfl⟩ := faultScan_cases he
    · exact fault_survives h he hk' hr'
    · refine fault_survives h he hk' ?_
      by_cases hjk : k = j
      · subst hjk
        obtain ⟨hot,cold,hp⟩ := h.pool k hk'
        obtain ⟨s₁,hot',cold',hs₁,hreach,-⟩ := resolve_spec hp (findRegionLocked_some hfind).1 hun
        obtain rfl := Option.some.inj (hs₁.symm.trans hs)
        rw [withState_pool_self] at hr'
        exact hreach.regions ▸ hr'
      · rwa [withState_pool_of_ne pr _ hjk] at hr'
  | regionDestroy j x _ hj hx he =>
    obtain ⟨p,-,hf,e,-⟩ := destroy_spec h hj hx
    obtain rfl := Option.some.inj (e.symm.trans he)
    obtain ⟨hot,cold,hp⟩ := h.pool j hj
    have hout : ∀ q, ¬ InRange ((pr.pool j).region x) q →
        regionFree pr.vm ((pr.pool j).region x) q = pr.vm q := fun q hq => if_neg hq
    by_cases hjk : k = j
    · subst hjk
      rw [withState_pool_self] at hr'
      have hmem : rid ∈ (pr.pool k).regions.erase x := by
        rw [← hf.regions]
        exact hr'
      obtain ⟨hne,hold⟩ := hp.queue.distinct.mem_erase_iff.mp hmem
      refine Survives.of_same hj hold ?_ (fun q hin => hout q (hp.apart rid hold x hx hne q hin))
      rw [withState_pool_self]
      exact hf.others rid hne
    · rw [withState_pool_of_ne pr _ hjk] at hr'
      refine Survives.of_same hk' hr' ?_ (fun q hin => hout q (h.apart k hk' j hj hjk rid hr' x hx q hin))
      rw [withState_pool_of_ne pr _ hjk]
  | poolDestroy j hj =>
    obtain ⟨hne,hold⟩ := h.distinct.mem_erase_iff.mp hk'
    refine Survives.of_same hold hr' rfl (fun q hin => ?_)
    exact free_all_out _ _ _ _ (fun x hx => h.apart k hold j hj hne rid hr' x hx q hin)

theorem Survives.trans {pr pr' pr₂ : Process} {k : PoolId} {rid : RegionId} (h : Survives pr pr' k rid)
    (h₂ : Survives pr' pr₂ k rid) : Survives pr pr₂ k rid where
  pool := h.pool
  region := h.region
  shape := h.shape.trans h₂.shape
  published := fun j hj => h₂.published j (h.published j hj)
  shown := by
    intro j hj hm
    have hs := h₂.shown j (by rw [h.shape.layout]; exact hj) (h.published j hm)
    rw [h.shape.layout,h.shape.base] at hs
    rw [hs,h.shown j hj hm]

theorem step_next {pr pr' : Process} (hs : Step pr pr') :
    pr.nextPool ≤ pr'.nextPool ∧ pr.nextRegion ≤ pr'.nextRegion := by
  cases hs with
  | poolCreate => exact ⟨Nat.le_succ _,le_refl _⟩
  | regionCreate => exact ⟨le_refl _,Nat.le_succ _⟩
  | fault addr ours _ he =>
    rcases faultScan_cases he with ⟨-,rfl⟩ | ⟨-,j,hj,x,s,-,-,-,rfl⟩
    · exact ⟨le_refl _,le_refl _⟩
    · exact ⟨le_refl _,le_refl _⟩
  | regionDestroy j x _ hj hx he =>
    obtain ⟨p,-,rfl⟩ := Option.map_eq_some_iff.mp he
    exact ⟨le_refl _,le_refl _⟩
  | poolDestroy => exact ⟨le_refl _,le_refl _⟩

/-- Over a whole run, as long as the region is not destroyed. -/
theorem steps_survive {pr pr' : Process} (h : ProcessInv pr) (hs : Steps pr pr') {k : PoolId}
    {rid : RegionId} (hk : k ∈ pr.pools) (hr : rid ∈ (pr.pool k).regions) (hk' : k ∈ pr'.pools)
    (hr' : rid ∈ (pr'.pool k).regions) : Survives pr pr' k rid := by
  suffices hall : k < pr'.nextPool ∧ rid < pr'.nextRegion ∧
      (k ∈ pr'.pools → rid ∈ (pr'.pool k).regions → Survives pr pr' k rid) from hall.2.2 hk' hr'
  clear hk' hr'
  induction hs with
  | refl =>
    exact ⟨h.freshPool k hk,h.freshRegion k hk rid hr,fun _ _ => Survives.of_same hk hr rfl (fun _ _ => rfl)⟩
  | tail hrun hstep ih =>
    obtain ⟨ih1,ih2,ih3⟩ := ih
    obtain ⟨hp,hq⟩ := step_next hstep
    refine ⟨lt_of_lt_of_le ih1 hp,lt_of_lt_of_le ih2 hq,fun hk' hr' => ?_⟩
    have hlast := step_survives (steps_inv h hrun) hstep ih1 ih2 hk' hr'
    exact (ih3 hlast.pool hlast.region).trans hlast

/-- A readable shared page keeps its bytes until its region is destroyed. Each
operation on a chunk changes pages of that chunk's exclusive range only, or
publishes a shared page for the first time; destroying a region changes only
its own range. -/
theorem shared_pages_are_pinned {pr : Process} (h : Reachable pr) :
    (∀ pr', Steps pr pr' → ∀ k ∈ pr.pools, ∀ rid ∈ (pr.pool k).regions, k ∈ pr'.pools →
      rid ∈ (pr'.pool k).regions → ∀ j < nshared ((pr.pool k).region rid).layout, ∀ b,
      pr.vm (((pr.pool k).region rid).base+(sharedPage ((pr.pool k).region rid).layout j).pageOff) =
        .readable b →
      pr'.vm (((pr.pool k).region rid).base+(sharedPage ((pr.pool k).region rid).layout j).pageOff) =
        .readable b ∧
      pageReadable (pr'.pool k) rid (sharedPage ((pr.pool k).region rid).layout j).pageOff = true) ∧
    (∀ k ∈ pr.pools, ∀ s, MicroRun ⟨pr.pool k,pr.vm⟩ s → ∀ e s', Micro s e s' → ∀ q,
      s'.vm q ≠ s.vm q → InExclusive (s.pool.region (node e).1) (node e).2 q ∨
        (∃ n size, e = .fill n size) ∧ ∃ j < nshared (s.pool.region (node e).1).layout,
          ((s.pool.region (node e).1).sharedPages j).mapped = false ∧
          InShared (s.pool.region (node e).1) j q) ∧
    ∀ k ∈ pr.pools, ∀ rid ∈ (pr.pool k).regions, ∀ pr', fcRegionDestroy pr k rid = some pr' →
      ∀ q, pr'.vm q ≠ pr.vm q → InRange ((pr.pool k).region rid) q := by
  have hinv := reachable_inv h
  refine ⟨?_,?_,?_⟩
  · intro pr' hs k hk rid hr hk' hr' j hj b hb
    obtain ⟨hot,cold,hp⟩ := hinv.pool k hk
    have hf : findSharedPage ((pr.pool k).region rid).layout
        (sharedPage ((pr.pool k).region rid).layout j).pageOff = some j :=
      (findSharedPage_some _ _ _).mpr ⟨hj,rfl⟩
    have hal := shared_aligned _ hj
    have hlt : (sharedPage ((pr.pool k).region rid).layout j).pageOff <
        ((pr.pool k).region rid).layout.mappedSize := by
      have := shared_lt_mapped _ hj
      have := ((pr.pool k).region rid).layout.pageSize_pos
      omega
    have hread : pageReadable (pr.pool k) rid
        (sharedPage ((pr.pool k).region rid).layout j).pageOff = true :=
      (page_shown hp hr hal hlt).1.mp (by simp only [hb]; rfl)
    rw [readable_shared (by rw [pageFloor_aligned hal]; exact hf)] at hread
    have hsur := steps_survive hinv hs hk hr hk' hr'
    refine ⟨(hsur.shown j hj hread).trans hb,?_⟩
    rw [readable_shared (k := j) (by
      rw [hsur.shape.layout,pageFloor_aligned hal]
      exact hf)]
    exact hsur.published j hread
  · intro k hk s hrun e s' hm q hq
    obtain ⟨-,hot,cold,hs⟩ := hrun.induct (motive := fun _ => True) (hinv.pool k hk) trivial
      (fun _ _ _ _ _ _ _ => trivial)
    obtain ⟨ht,-⟩ := hm.touched hs
    refine (ht.pages q hq).imp_right (fun ⟨hset,hrest⟩ => ⟨?_,hrest⟩)
    cases e with
    | fill n size => exact ⟨n,size,rfl⟩
    | promote n => cases hset
    | demote n => cases hset
    | evict n => cases hset
  · intro k hk rid hr pr' he q hq
    obtain ⟨p,-,rfl⟩ := Option.map_eq_some_iff.mp he
    by_contra hc
    exact hq (if_neg hc)

theorem shared_pages_are_pinned_sample : (sampleFaulted.vm 20).isReadable = true ∧
    ∀ pr', Steps sampleFaulted pr' → 0 ∈ pr'.pools → 0 ∈ (pr'.pool 0).regions → ∀ b,
      sampleFaulted.vm 20 = .readable b → pr'.vm 20 = .readable b :=
  ⟨by decide +kernel,fun pr' hs hk hr b hb => ((shared_pages_are_pinned sampleFaulted_reachable).1 pr' hs 0
    (by decide) 0 (by decide) hk hr 0 (by decide) b hb).1⟩

end FaultCache.ProcessContract
