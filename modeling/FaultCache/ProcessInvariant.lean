import FaultCache.FaultProcess
import Mathlib.Algebra.BigOperators.Group.Finset.Basic
import Mathlib.Algebra.Order.BigOperators.Group.Finset
import Mathlib.Order.Interval.Finset.Nat

/-!
# The invariant of every reachable process

Each pool keeps its own invariant because the other pools' calls stay inside
their own regions. Live regions never overlap, so their sizes add up to less
than the address space and no byte counter wraps.
-/

set_option autoImplicit false

namespace FaultCache.ProcessInvariant
open FaultCache.SentinelRing FaultCache.PageGeometry FaultCache.SharedPages FaultCache.VmPages
open FaultCache.PoolMachine FaultCache.PoolStaging FaultCache.PoolQueue FaultCache.PoolMemory
open FaultCache.PoolHistory FaultCache.PoolInvariant FaultCache.PoolResolve FaultCache.FaultProcess

/-- Disjoint intervals below `bound` have total length at most `bound`. -/
theorem packing {ι : Type} [DecidableEq ι] (is : List ι) (base len : ι → ℕ) (bound : ℕ)
    (hn : is.Nodup) (hb : ∀ i ∈ is, base i+len i ≤ bound)
    (hd : ∀ i ∈ is, ∀ j ∈ is, i ≠ j → ∀ q, base i ≤ q ∧ q < base i+len i →
      ¬ (base j ≤ q ∧ q < base j+len j)) : (is.map len).sum ≤ bound := by
  have hcard : (is.toFinset.biUnion (fun i => Finset.Ico (base i) (base i+len i))).card =
      ∑ i ∈ is.toFinset, len i := by
    rw [Finset.card_biUnion]
    · simp
    · intro i hi j hj hij
      refine Finset.disjoint_left.mpr (fun q hq hq' => ?_)
      exact hd i (List.mem_toFinset.mp hi) j (List.mem_toFinset.mp hj) hij q (Finset.mem_Ico.mp hq)
        (Finset.mem_Ico.mp hq')
  have hsub : is.toFinset.biUnion (fun i => Finset.Ico (base i) (base i+len i)) ⊆
      Finset.range bound := by
    intro q hq
    obtain ⟨i,hi,hq⟩ := Finset.mem_biUnion.mp hq
    have := hb i (List.mem_toFinset.mp hi)
    have := Finset.mem_Ico.mp hq
    exact Finset.mem_range.mpr (by omega)
  have := Finset.card_le_card hsub
  rw [hcard,Finset.card_range,List.sum_toFinset len hn] at this
  exact this

/-- Where a live region lies. -/
structure Placed (P : ℕ) (r : Region) : Prop where
  pageSize : r.layout.pageSize = P
  aligned : P ∣ r.base
  fits : r.base+r.layout.mappedSize < 2^64

theorem Placed.transport {P : ℕ} {r r' : Region} (h : Placed P r) (hs : SameShape r r') : Placed P r' :=
  ⟨by rw [hs.layout]; exact h.pageSize,by rw [hs.base]; exact h.aligned,
    by rw [hs.base,hs.layout]; exact h.fits⟩

/-- The state of one pool put back into the process. -/
def withState (pr : Process) (k : PoolId) (s : State) : Process :=
  { pr with pool := Function.update pr.pool k s.pool, vm := s.vm }

@[simp] theorem withState_pool_self (pr : Process) (k : PoolId) (s : State) :
    (withState pr k s).pool k = s.pool := Function.update_self _ _ _

theorem withState_pool_of_ne (pr : Process) {k j : PoolId} (s : State) (h : j ≠ k) :
    (withState pr k s).pool j = pr.pool j := Function.update_of_ne h _ _

structure ProcessInv (pr : Process) : Prop where
  pool : ∀ k ∈ pr.pools, ∃ hot cold, PoolInv ⟨pr.pool k,pr.vm⟩ hot cold
  apart : ∀ k ∈ pr.pools, ∀ k' ∈ pr.pools, k ≠ k' → ∀ r ∈ (pr.pool k).regions,
    ∀ r' ∈ (pr.pool k').regions, ∀ q, InRange ((pr.pool k).region r) q →
      ¬ InRange ((pr.pool k').region r') q
  placed : ∀ k ∈ pr.pools, ∀ r ∈ (pr.pool k).regions, Placed pr.pageSize ((pr.pool k).region r)
  freshPool : ∀ k ∈ pr.pools, k < pr.nextPool
  freshRegion : ∀ k ∈ pr.pools, ∀ r ∈ (pr.pool k).regions, r < pr.nextRegion
  freshEvent : ∀ k ∈ pr.pools, ∀ e ∈ (pr.pool k).history, (node e).1 < pr.nextRegion
  distinct : pr.pools.Nodup

/-- A pool sees only the pages of its own regions. -/
theorem pool_outside {p : Pool} {vm vm' : PageTable} {hot cold : List Node}
    (h : PoolInv ⟨p,vm⟩ hot cold)
    (hv : ∀ r ∈ p.regions, ∀ q, InRange (p.region r) q → vm' q = vm q) :
    PoolInv ⟨p,vm'⟩ hot cold where
  queue := h.queue
  region := fun r hr => (h.region r hr).outside (fun _ => rfl) (hv r hr)
  apart := h.apart
  alternates := h.alternates
  populated := h.populated
  unbounded := h.unbounded

/-- One pool works on its own regions, or drops some of them. -/
theorem ProcessInv.replace {pr : Process} (h : ProcessInv pr) {k : PoolId} (hk : k ∈ pr.pools)
    {p : Pool} {vm : PageTable} {hot cold : List Node} (hp : PoolInv ⟨p,vm⟩ hot cold)
    (hsub : ∀ r ∈ p.regions, r ∈ (pr.pool k).regions)
    (hshape : ∀ r ∈ p.regions, SameShape ((pr.pool k).region r) (p.region r))
    (hev : ∀ e ∈ p.history, (node e).1 < pr.nextRegion)
    (hvm : ∀ q, vm q ≠ pr.vm q → ∃ r ∈ (pr.pool k).regions, InRange ((pr.pool k).region r) q) :
    ProcessInv (withState pr k ⟨p,vm⟩) := by
  have hself : Function.update pr.pool k p k = p := Function.update_self _ _ _
  have hne : ∀ j, j ≠ k → Function.update pr.pool k p j = pr.pool j :=
    fun j hj => Function.update_of_ne hj _ _
  refine ⟨?_,?_,?_,h.freshPool,?_,?_,h.distinct⟩
  · intro j hj
    by_cases hjk : j = k
    · subst hjk
      exact ⟨hot,cold,by simpa only [withState,hself] using hp⟩
    · obtain ⟨hot',cold',hp'⟩ := h.pool j hj
      refine ⟨hot',cold',?_⟩
      simp only [withState,hne j hjk]
      apply pool_outside hp'
      intro r hr q hin
      by_contra hc
      obtain ⟨r',hr',hin'⟩ := hvm q hc
      exact h.apart j hj k hk hjk r hr r' hr' q hin hin'
  · -- Replacing one side of a disjoint pair at a time.
    intro j hj j' hj' hjj r hr r' hr' q hin
    simp only [withState] at hr hr' hin ⊢
    by_cases hjk : j = k
    · subst hjk
      have hj'k : j' ≠ j := fun he => hjj he.symm
      rw [hself] at hr hin
      rw [hne j' hj'k] at hr' ⊢
      exact h.apart j hj j' hj' hjj r (hsub r hr) r' hr' q (((hshape r hr).inRange q).mp hin)
    · rw [hne j hjk] at hr hin
      by_cases hj'k : j' = k
      · subst hj'k
        rw [hself] at hr' ⊢
        rw [(hshape r' hr').inRange]
        exact h.apart j hj j' hj' hjj r hr r' (hsub r' hr') q hin
      · rw [hne j' hj'k] at hr' ⊢
        exact h.apart j hj j' hj' hjj r hr r' hr' q hin
  · intro j hj r hr
    simp only [withState] at hr ⊢
    by_cases hjk : j = k
    · subst hjk
      rw [hself] at hr ⊢
      exact (h.placed j hj r (hsub r hr)).transport (hshape r hr)
    · rw [hne j hjk] at hr ⊢
      exact h.placed j hj r hr
  · intro j hj r hr
    simp only [withState] at hr
    by_cases hjk : j = k
    · subst hjk
      rw [hself] at hr
      exact h.freshRegion j hj r (hsub r hr)
    · rw [hne j hjk] at hr
      exact h.freshRegion j hj r hr
  · intro j hj e he
    simp only [withState] at he
    by_cases hjk : j = k
    · subst hjk
      rw [hself] at he
      exact hev e he
    · rw [hne j hjk] at he
      exact h.freshEvent j hj e he

theorem start_inv (pageSize : ℕ) (vm : PageTable) : ProcessInv (start pageSize vm) := by
  constructor <;> simp [start]

theorem poolInit_inv (targetSize : ℕ) (vm : PageTable) : PoolInv ⟨poolInit targetSize,vm⟩ [] [] := by
  have hq : Queue (poolInit targetSize) [] [] := by
    refine ⟨⟨ring_empty,rfl,by simp,by simp,by simp [poolInit],rfl⟩,
      ⟨by simp,by simp [poolInit],rfl,by simp [poolInit],by simp [poolInit]⟩,by simp [poolInit],?_⟩
    simp [totalBytes,poolInit]
  refine ⟨hq,by simp [poolInit],by simp [poolInit],fun _ => trivial,?_,by simp [poolInit]⟩
  intro n hn
  have := hn.1
  simp [poolInit] at this

theorem poolCreate_inv {pr : Process} (h : ProcessInv pr) (targetSize : ℕ) :
    ProcessInv (fcPoolCreate pr targetSize) := by
  have hfresh : pr.nextPool ∉ pr.pools := fun hm => absurd (h.freshPool _ hm) (lt_irrefl _)
  have hself : (fcPoolCreate pr targetSize).pool pr.nextPool = poolInit targetSize :=
    Function.update_self _ _ _
  have hold : ∀ k ∈ pr.pools, (fcPoolCreate pr targetSize).pool k = pr.pool k := by
    intro k hk
    apply Function.update_of_ne
    rintro rfl
    exact hfresh hk
  have hcases : ∀ k ∈ (fcPoolCreate pr targetSize).pools, k = pr.nextPool ∨ k ∈ pr.pools :=
    fun k hk => List.mem_cons.mp hk
  refine ⟨?_,?_,?_,?_,?_,?_,List.nodup_cons.mpr ⟨hfresh,h.distinct⟩⟩
  · intro k hk
    rcases hcases k hk with rfl | hk
    · rw [hself]
      exact ⟨[],[],poolInit_inv targetSize pr.vm⟩
    · rw [hold k hk]
      exact h.pool k hk
  · intro k hk k' hk' hne r hr r' hr'
    rcases hcases k hk with rfl | hk
    · rw [hself] at hr
      cases hr
    · rcases hcases k' hk' with rfl | hk'
      · rw [hself] at hr'
        cases hr'
      · rw [hold k hk] at hr ⊢
        rw [hold k' hk'] at hr' ⊢
        exact h.apart k hk k' hk' hne r hr r' hr'
  · intro k hk r hr
    rcases hcases k hk with rfl | hk
    · rw [hself] at hr
      cases hr
    · rw [hold k hk] at hr ⊢
      exact h.placed k hk r hr
  · intro k hk
    rcases hcases k hk with rfl | hk
    · exact Nat.lt_succ_self _
    · exact Nat.lt_succ_of_lt (h.freshPool k hk)
  · intro k hk r hr
    rcases hcases k hk with rfl | hk
    · rw [hself] at hr
      cases hr
    · rw [hold k hk] at hr
      exact h.freshRegion k hk r hr
  · intro k hk e he
    rcases hcases k hk with rfl | hk
    · rw [hself] at he
      cases he
    · rw [hold k hk] at he
      exact h.freshEvent k hk e he

section Create
variable {p : Pool} {rid : RegionId} {r : Region} {hot cold : List Node}

theorem insert_region_self : (regionListInsert p rid r).region rid = r := Function.update_self _ _ _

theorem insert_region_of_ne {j : RegionId} (h : j ≠ rid) :
    (regionListInsert p rid r).region j = p.region j := Function.update_of_ne h _ _

theorem queued_ne (h : Queue p hot cold) (hf : rid ∉ p.regions) {n : Node} (hn : n ∈ hot ++ cold) :
    n.1 ≠ rid := fun he => hf (he ▸ (h.account.live n hn).1)

theorem sizeSum_congr {p p' : Pool} {ns : List Node} (h : ∀ n ∈ ns, lruNodeSize p' n = lruNodeSize p n) :
    sizeSum p' ns = sizeSum p ns := by
  simp only [sizeSum]
  congr 1
  exact List.map_congr_left h

theorem insert_sizeSum (h : Queue p hot cold) (hf : rid ∉ p.regions) {ns : List Node}
    (hns : ∀ n ∈ ns, n ∈ hot ++ cold) : sizeSum (regionListInsert p rid r) ns = sizeSum p ns := by
  apply sizeSum_congr
  intro n hn
  rw [lruNodeSize,lruNodeSize,insert_region_of_ne (queued_ne h hf (hns n hn))]

theorem insert_order_fresh (h : Queue p hot cold) (hf : rid ∉ p.regions) :
    Order (regionListInsert p rid r) hot cold := by
  have hflag : ∀ n ∈ hot ++ cold, (regionListInsert p rid r).cold n = p.cold n := by
    intro n hn
    exact if_neg (queued_ne h hf hn)
  refine ⟨?_,h.order.midpoint,?_,?_,?_,?_⟩
  · apply ring_clear h.order.ring
    intro n hn
    simpa using queued_ne h hf hn
  · intro n hn
    rw [hflag n (List.mem_append_left _ hn)]
    exact h.order.hotFlag n hn
  · intro n hn
    rw [hflag n (List.mem_append_right _ hn)]
    exact h.order.coldFlag n hn
  · intro n
    by_cases hn : n.1 = rid
    · have hnot : n ∉ hot ++ cold := fun hm => queued_ne h hf hm hn
      simp [regionListInsert,hn,hnot]
    · rw [← h.order.resident n]
      simp [regionListInsert,hn]
  · rw [insert_sizeSum h hf (fun n hn => List.mem_append_left _ hn)]
    exact h.order.hotBytes

/-- The totals of a fresh region are zero, like its share of the queue. -/
theorem insert_account_fresh (h : Queue p hot cold) (hf : rid ∉ p.regions)
    (hi : ∀ c, r.initialized c = false) (hb : r.residentBytes = 0) (hc : r.residentChunks = 0) :
    Account (regionListInsert p rid r) (hot ++ cold) := by
  have hempty : ofRegion rid (hot ++ cold) = [] := by
    rw [ofRegion,List.filter_eq_nil_iff]
    intro n hn
    simpa using queued_ne h hf hn
  have hcases : ∀ j ∈ (regionListInsert p rid r).regions, j = rid ∨ j ≠ rid ∧ j ∈ p.regions := by
    intro j hj
    rcases List.mem_cons.mp hj with rfl | hj
    · exact Or.inl rfl
    · exact Or.inr ⟨fun he => hf (he ▸ hj),hj⟩
  refine ⟨?_,?_,?_,?_,?_⟩
  · intro n hn
    have hl := h.account.live n hn
    exact ⟨List.mem_cons_of_mem _ hl.1,by rw [insert_region_of_ne (queued_ne h hf hn)]; exact hl.2⟩
  · intro j hj c hlt
    rcases hcases j hj with rfl | ⟨hne,hj⟩
    · have hnot : (j,c) ∉ hot ++ cold := fun hm => queued_ne h hf hm rfl
      rw [insert_region_self,hi c]
      simp [hnot]
    · rw [insert_region_of_ne hne] at hlt ⊢
      exact h.account.initialized j hj c hlt
  · rw [insert_sizeSum h hf (fun n hn => hn)]
    exact h.account.bytes
  · intro j hj
    have hsum : sizeSum (regionListInsert p rid r) (ofRegion j (hot ++ cold)) =
        sizeSum p (ofRegion j (hot ++ cold)) := insert_sizeSum h hf (fun n hn => (List.mem_filter.mp hn).1)
    rw [hsum]
    rcases hcases j hj with rfl | ⟨hne,hj⟩
    · rw [insert_region_self,hempty,hb]
      rfl
    · rw [insert_region_of_ne hne]
      exact h.account.regionBytes j hj
  · intro j hj
    rcases hcases j hj with rfl | ⟨hne,hj⟩
    · rw [insert_region_self,hempty,hc]
      rfl
    · rw [insert_region_of_ne hne]
      exact h.account.regionChunks j hj

end Create

/-- A region that has just been reserved: nothing staged, nothing readable. -/
theorem regionInit_inv {L : Layout} {base : ℕ} {fill : ℕ → ℕ → UInt8} {cold : ℕ → Bool}
    {vm : PageTable} (hv : ∀ q, InRange (regionInit L base fill) q → vm q = .inaccessible) :
    RegionInv (regionInit L base fill) cold vm where
  staged := by
    intro k hk
    have hne : (sharedPage L k).firstChunk ∈ contributors L k := by
      have := two_contributors L hk
      exact Finset.mem_Icc.mpr ⟨le_refl _,by omega⟩
    refine ⟨?_,?_,?_,?_⟩
    · simp [regionInit]
    · simp only [regionInit,Bool.false_eq_true,false_iff]
      exact fun hall => hall _ hne
    · simp [regionInit]
    · intro scratch hs
      simp [regionInit] at hs
  contributed := by
    intro c _ hi
    cases hi
  shared := by
    intro k hk
    rw [PageShown,if_neg (by simp [regionInit])]
    exact hv _ (shared_inRange hk ⟨le_refl _,by
      have := (regionInit L base fill).layout.pageSize_pos
      omega⟩)
  exclusive := by
    intro c hc off _ hoff
    rw [hv _ (exclusive_inRange hc (exclusive_address _ hoff))]
    rfl
  faults := by
    have hzero : ∀ n, sumTo (fun _ => 0) n = 0 := by
      intro n
      induction n with
      | zero => rfl
      | succ n ih => rw [sumTo,ih]; rfl
    exact (hzero _).symm

section Insertion
variable {p : Pool} {hot cold : List Node} {rid : RegionId} {L : Layout} {base P : ℕ}
  {fill : ℕ → ℕ → UInt8}

theorem mem_regionListInsert {r : Region} {j : RegionId} (hj : j ∈ (regionListInsert p rid r).regions) :
    j = rid ∨ j ∈ p.regions := List.mem_cons.mp hj

theorem regionInsert_old {r : Region} (hf : rid ∉ p.regions) {j : RegionId} (hj : j ∈ p.regions) :
    (regionListInsert p rid r).region j = p.region j :=
  insert_region_of_ne (fun he => hf (he ▸ hj))

/-- A new region in vacant space overlaps none of the others. -/
theorem regionInsert_apart (hf : rid ∉ p.regions)
    (hold : ∀ j ∈ p.regions, ∀ j' ∈ p.regions, j ≠ j' → ∀ q, InRange (p.region j) q →
      ¬ InRange (p.region j') q)
    (hvac : ∀ r ∈ p.regions, ∀ q, InRange (regionInit L base fill) q → ¬ InRange (p.region r) q) :
    ∀ j ∈ (regionListInsert p rid (regionInit L base fill)).regions,
      ∀ j' ∈ (regionListInsert p rid (regionInit L base fill)).regions, j ≠ j' → ∀ q,
      InRange ((regionListInsert p rid (regionInit L base fill)).region j) q →
      ¬ InRange ((regionListInsert p rid (regionInit L base fill)).region j') q := by
  intro j hj j' hj' hne q
  rcases mem_regionListInsert hj with rfl | hm
  · rcases mem_regionListInsert hj' with rfl | hm'
    · exact absurd rfl hne
    · rw [insert_region_self,regionInsert_old hf hm']
      exact hvac j' hm' q
  · rcases mem_regionListInsert hj' with rfl | hm'
    · rw [insert_region_self,regionInsert_old hf hm]
      exact fun h1 h2 => hvac j hm q h2 h1
    · rw [regionInsert_old hf hm,regionInsert_old hf hm']
      exact hold j hm j' hm' hne q

/-- The regions are disjoint parts of the address space, so their sizes still
add up without wrapping. -/
theorem regionInsert_queue {vm : PageTable} (h : PoolInv ⟨p,vm⟩ hot cold) (hf : rid ∉ p.regions)
    (hplaced : ∀ r ∈ p.regions, Placed P (p.region r)) (hfits : base+L.mappedSize < 2^64)
    (hvac : ∀ r ∈ p.regions, ∀ q, InRange (regionInit L base fill) q → ¬ InRange (p.region r) q) :
    Queue (regionListInsert p rid (regionInit L base fill)) hot cold := by
  set p' := regionListInsert p rid (regionInit L base fill) with hp'
  have hnd : p'.regions.Nodup := List.nodup_cons.mpr ⟨hf,h.queue.distinct⟩
  have hbound : ∀ j ∈ p'.regions, (p'.region j).base+(p'.region j).layout.mappedSize ≤ 2^64-1 := by
    intro j hj
    rcases mem_regionListInsert hj with rfl | hold
    · rw [hp',insert_region_self]
      exact Nat.le_sub_one_of_lt hfits
    · rw [hp',regionInsert_old hf hold]
      exact Nat.le_sub_one_of_lt (hplaced j hold).fits
  refine ⟨insert_order_fresh h.queue hf,insert_account_fresh h.queue hf (fun _ => rfl) rfl rfl,hnd,?_⟩
  have hpack := packing p'.regions (fun j => (p'.region j).base)
    (fun j => (p'.region j).layout.mappedSize) (2^64-1) hnd hbound (regionInsert_apart hf h.apart hvac)
  have hle : totalBytes p' ≤ (p'.regions.map (fun j => (p'.region j).layout.mappedSize)).sum :=
    List.sum_le_sum (fun j _ => (p'.region j).layout.mapped_bounds.1)
  omega

/-- What the fresh address range adds to the pool. -/
theorem regionInsert_inv {vm vm' : PageTable} (h : PoolInv ⟨p,vm⟩ hot cold)
    (hf : rid ∉ p.regions) (hev : ∀ e ∈ p.history, (node e).1 ≠ rid)
    (hplaced : ∀ r ∈ p.regions, Placed P (p.region r)) (hfits : base+L.mappedSize < 2^64)
    (hvac : ∀ r ∈ p.regions, ∀ q, InRange (regionInit L base fill) q → ¬ InRange (p.region r) q)
    (hin : ∀ q, InRange (regionInit L base fill) q → vm' q = .inaccessible)
    (hout : ∀ q, ¬ InRange (regionInit L base fill) q → vm' q = vm q) :
    PoolInv ⟨regionListInsert p rid (regionInit L base fill),vm'⟩ hot cold := by
  set p' := regionListInsert p rid (regionInit L base fill) with hp'
  have hself : p'.region rid = regionInit L base fill := insert_region_self
  refine ⟨regionInsert_queue h hf hplaced hfits hvac,?_,regionInsert_apart hf h.apart hvac,h.alternates,?_,
    h.unbounded⟩
  · intro j hj
    rcases mem_regionListInsert hj with rfl | hj
    · simp only [hself]
      exact regionInit_inv hin
    · have hne : j ≠ rid := fun he => hf (he ▸ hj)
      simp only [hp',regionInsert_old hf hj]
      refine (h.region j hj).outside (fun c => if_neg hne) (fun q hq => hout q ?_)
      exact fun hc => hvac j hj q hc hq
  · intro n hn
    rcases mem_regionListInsert hn.1 with he | hj
    · change populated n p.history = (p'.region n.1).initialized n.2
      rw [populated_of_absent (fun e hm hc => hev e hm (by rw [hc,he])),he,hself]
      rfl
    · have hl : n.2 < (p'.region n.1).layout.nchunks := hn.2
      simp only [hp',regionInsert_old hf hj] at hl ⊢
      exact h.populated n ⟨hj,hl⟩

end Insertion

theorem vmReserve_in {vm : PageTable} {base size q : ℕ} (h : base ≤ q ∧ q < base+size) :
    vmReserve vm base size q = .inaccessible := if_pos h

theorem vmReserve_out {vm : PageTable} {base size q : ℕ} (h : ¬ (base ≤ q ∧ q < base+size)) :
    vmReserve vm base size q = vm q := if_neg h

theorem regionCreate_inv {pr : Process} (h : ProcessInv pr) {k : PoolId} {sizes : List ℕ} {total : ℕ}
    {fill : ℕ → ℕ → UInt8} {base : ℕ} (hk : k ∈ pr.pools) (ha : Accepted pr.pageSize sizes total)
    (hb : Reservable pr base (pageCeil total pr.pageSize)) :
    ProcessInv (fcRegionCreate pr k sizes total ha fill base) := by
  set L := Layout.ofSizes pr.pageSize sizes total ha with hL
  set r := regionInit L base fill with hr
  set pr' := fcRegionCreate pr k sizes total ha fill base with hpr'
  have hself : pr'.pool k = regionListInsert (pr.pool k) pr.nextRegion r := Function.update_self _ _ _
  have hne : ∀ j, j ≠ k → pr'.pool j = pr.pool j := fun j hj => Function.update_of_ne hj _ _
  have hfresh : ∀ j ∈ pr.pools, pr.nextRegion ∉ (pr.pool j).regions :=
    fun j hj hm => absurd (h.freshRegion j hj _ hm) (lt_irrefl _)
  -- The regions of the new process are the old ones and the new one.
  have hcases : ∀ j ∈ pr.pools, ∀ x ∈ (pr'.pool j).regions,
      j = k ∧ x = pr.nextRegion ∧ (pr'.pool j).region x = r ∨
      x ∈ (pr.pool j).regions ∧ (pr'.pool j).region x = (pr.pool j).region x := by
    intro j hj x hx
    by_cases hjk : j = k
    · subst hjk
      rw [hself] at hx ⊢
      rcases List.mem_cons.mp hx with rfl | hx
      · exact Or.inl ⟨rfl,rfl,insert_region_self⟩
      · refine Or.inr ⟨hx,insert_region_of_ne ?_⟩
        rintro rfl
        exact hfresh j hj hx
    · rw [hne j hjk] at hx ⊢
      exact Or.inr ⟨hx,rfl⟩
  have hvac : ∀ j ∈ pr.pools, ∀ x ∈ (pr.pool j).regions, ∀ q, InRange r q →
      ¬ InRange ((pr.pool j).region x) q := fun j hj x hx q hq => hb.vacant j hj x hx q hq
  refine ⟨?_,?_,?_,h.freshPool,?_,?_,h.distinct⟩
  · intro j hj
    obtain ⟨hot,cold,hp⟩ := h.pool j hj
    refine ⟨hot,cold,?_⟩
    by_cases hjk : j = k
    · subst hjk
      rw [hself]
      apply regionInsert_inv hp (hfresh j hj) (fun e he => Nat.ne_of_lt (h.freshEvent j hj e he))
        (h.placed j hj) hb.fits (hvac j hj)
      · exact fun q hq => vmReserve_in hq
      · exact fun q hq => vmReserve_out hq
    · rw [hne j hjk]
      apply pool_outside hp
      exact fun x hx q hq => vmReserve_out (fun hc => hvac j hj x hx q hc hq)
  · intro j hj j' hj' hjj x hx x' hx' q
    rcases hcases j hj x hx with ⟨rfl,-,e⟩ | ⟨hold,e⟩
    · rcases hcases j' hj' x' hx' with ⟨rfl,-,-⟩ | ⟨hold',e'⟩
      · exact absurd rfl hjj
      · rw [e,e']
        exact hvac j' hj' x' hold' q
    · rcases hcases j' hj' x' hx' with ⟨rfl,-,e'⟩ | ⟨hold',e'⟩
      · rw [e,e']
        exact fun h1 h2 => hvac j hj x hold q h2 h1
      · rw [e,e']
        exact h.apart j hj j' hj' hjj x hold x' hold' q
  · intro j hj x hx
    rcases hcases j hj x hx with ⟨-,-,e⟩ | ⟨hold,e⟩
    · rw [e]
      exact ⟨rfl,hb.aligned,hb.fits⟩
    · rw [e]
      exact h.placed j hj x hold
  · intro j hj x hx
    rcases hcases j hj x hx with ⟨-,rfl,-⟩ | ⟨hold,-⟩
    · exact Nat.lt_succ_self _
    · exact Nat.lt_succ_of_lt (h.freshRegion j hj x hold)
  · intro j hj e he
    apply Nat.lt_succ_of_lt
    by_cases hjk : j = k
    · subst hjk
      rw [hself] at he
      exact h.freshEvent j hj e he
    · rw [hne j hjk] at he
      exact h.freshEvent j hj e he

theorem findRegionLocked_some {p : Pool} {addr : ℕ} {rid : RegionId}
    (h : findRegionLocked p addr = some rid) : rid ∈ p.regions ∧ InRange (p.region rid) addr :=
  ⟨List.mem_of_find?_eq_some h,by simpa [InRange] using List.find?_some h⟩

/-- The pages and events of one resolved fault, seen from the process. -/
theorem resolve_inv {pr : Process} (h : ProcessInv pr) {k : PoolId} (hk : k ∈ pr.pools)
    {rid : RegionId} {off : ℕ} (hr : rid ∈ (pr.pool k).regions)
    (hun : pageReadable (pr.pool k) rid off = false) :
    ∃ s, resolveFaultLocked ⟨pr.pool k,pr.vm⟩ rid off = some s ∧
      ProcessInv (withState pr k s) := by
  obtain ⟨hot,cold,hp⟩ := h.pool k hk
  obtain ⟨s₁,hot',cold',e,hreach,-⟩ := resolve_spec hp hr hun
  have hf := hreach.run.frame ⟨hot,cold,hp⟩
  have hshape : ∀ r, SameShape (s₁.pool.region r) ((countHandled s₁ rid).pool.region r) := by
    intro r
    obtain ⟨x,hx⟩ := countHandled_region s₁ rid r
    rw [hx]
    exact ⟨rfl,rfl,rfl⟩
  refine ⟨_,e,h.replace hk (countHandled_inv hreach.inv rid) ?_ ?_ ?_ hf.pages⟩
  · intro r hm
    exact hf.regions ▸ hm
  · exact fun r _ => (hf.shape r).trans (hshape r)
  · intro e' he'
    rcases hf.history e' he' with hold | hnew
    · exact h.freshEvent k hk e' hold
    · exact h.freshRegion k hk _ hnew

/-- The search never aborts, whatever the address. -/
theorem faultScan_spec {pr : Process} (h : ProcessInv pr) (addr : ℕ) (ks : List PoolId)
    (hks : ∀ k ∈ ks, k ∈ pr.pools) :
    ∃ ours pr', faultScan pr addr ks = some (ours,pr') ∧ ProcessInv pr' := by
  induction ks with
  | nil => exact ⟨false,pr,rfl,h⟩
  | cons k ks ih =>
    have hih := ih (fun j hj => hks j (List.mem_cons_of_mem _ hj))
    rw [faultScan]
    cases hf : findRegionLocked (pr.pool k) addr with
    | none => exact hih
    | some rid =>
      obtain ⟨hr,-⟩ := findRegionLocked_some hf
      simp only
      cases hb : pageReadable (pr.pool k) rid (addr-((pr.pool k).region rid).base) with
      | true => exact hih
      | false =>
        obtain ⟨s,e,hi⟩ := resolve_inv h (hks k List.mem_cons_self) hr hb
        rw [e]
        exact ⟨true,_,rfl,hi⟩

theorem fault_spec {pr : Process} (h : ProcessInv pr) (addr : ℕ) :
    ∃ ours pr', faultTryResolve pr addr = some (ours,pr') ∧ ProcessInv pr' :=
  faultScan_spec h addr pr.pools (fun _ hk => hk)

/-- What forgetting the chunks of `rid` leaves alone. -/
structure Forgets (p p' : Pool) (rid : RegionId) : Prop where
  regions : p'.regions = p.regions
  target : p'.targetSize = p.targetSize
  history : p'.history = p.history
  cold : p'.cold = p.cold
  shape : SameShape (p.region rid) (p'.region rid)
  others : ∀ r, r ≠ rid → p'.region r = p.region r

theorem Forgets.refl (p : Pool) (rid : RegionId) : Forgets p p rid :=
  ⟨rfl,rfl,rfl,rfl,SameShape.refl _,fun _ _ => rfl⟩

theorem Forgets.trans {p p' p₂ : Pool} {rid : RegionId} (h : Forgets p p' rid)
    (h₂ : Forgets p' p₂ rid) : Forgets p p₂ rid :=
  ⟨h₂.regions.trans h.regions,h₂.target.trans h.target,h₂.history.trans h.history,
    h₂.cold.trans h.cold,h.shape.trans h₂.shape,fun r hr => (h₂.others r hr).trans (h.others r hr)⟩

theorem forgotten_forgets (p : Pool) (n : Node) (size : ℕ) :
    Forgets p (forgotten (unlinked p n) n size) n.1 := by
  refine ⟨rfl,rfl,rfl,rfl,?_,fun r hr => forgotten_region_of_ne _ _ _ hr⟩
  rw [forgotten_region_self]
  exact ⟨rfl,rfl,rfl⟩

/-- The queue without one chunk, which need not be in it. -/
theorem forget_filter {p : Pool} {hot cold : List Node} (h : Queue p hot cold) (n : Node) :
    ∃ p', lruForgetChunk p n = some p' ∧ Forgets p p' n.1 ∧
      Queue p' (hot.filter (· != n)) (cold.filter (· != n)) := by
  obtain ⟨hh,hc,-⟩ := List.nodup_append.mp h.order.nodup
  rw [← hh.erase_eq_filter,← hc.erase_eq_filter]
  by_cases hn : n ∈ hot ++ cold
  · obtain ⟨e,hq⟩ := forget_queue h hn
    exact ⟨_,e,forgotten_forgets p n _,hq⟩
  · refine ⟨p,forget_absent h hn,Forgets.refl p n.1,?_⟩
    rw [List.mem_append,not_or] at hn
    rw [List.erase_of_not_mem hn.1,List.erase_of_not_mem hn.2]
    exact h

/-- The loop of `fc_region_destroy` takes the chunks it passes out of the
queue and keeps the order of the others. -/
theorem forget_chunks_spec (rid : RegionId) (len : ℕ) :
    ∀ (c : ℕ) (p : Pool) (hot cold : List Node), Queue p hot cold →
      ∃ p', forgetChunks rid len c p = some p' ∧ Forgets p p' rid ∧
        Queue p' (hot.filter (fun m => ¬ (m.1 = rid ∧ c ≤ m.2 ∧ m.2 < c+len)))
          (cold.filter (fun m => ¬ (m.1 = rid ∧ c ≤ m.2 ∧ m.2 < c+len))) := by
  induction len with
  | zero =>
    intro c p hot cold h
    have hall : ∀ ns : List Node, ns.filter (fun m => ¬ (m.1 = rid ∧ c ≤ m.2 ∧ m.2 < c+0)) = ns :=
      fun ns => List.filter_eq_self.mpr (fun m _ => decide_eq_true (by omega))
    refine ⟨p,rfl,Forgets.refl p rid,?_⟩
    rw [hall,hall]
    exact h
  | succ len ih =>
    intro c p hot cold h
    obtain ⟨p₁,e₁,f₁,q₁⟩ := forget_filter h (rid,c)
    obtain ⟨p₂,e₂,f₂,q₂⟩ := ih (c+1) p₁ _ _ q₁
    have hcomp : ∀ ns : List Node, (ns.filter (· != (rid,c))).filter
        (fun m => ¬ (m.1 = rid ∧ c+1 ≤ m.2 ∧ m.2 < c+1+len)) =
        ns.filter (fun m => ¬ (m.1 = rid ∧ c ≤ m.2 ∧ m.2 < c+(len+1))) := by
      intro ns
      rw [List.filter_filter]
      apply List.filter_congr
      rintro ⟨r,d⟩ -
      rw [Bool.eq_iff_iff,Bool.and_eq_true,decide_eq_true_iff,decide_eq_true_iff,bne_iff_ne,ne_eq,
        Prod.mk.injEq]
      constructor
      · rintro ⟨h1,h2⟩ ⟨h3,h4,h5⟩
        by_cases hd : d = c
        · exact h2 ⟨h3,hd⟩
        · exact h1 ⟨h3,by omega,by omega⟩
      · intro h1
        exact ⟨fun h2 => h1 ⟨h2.1,by omega,by omega⟩,fun h2 => h1 ⟨h2.1,by omega,by omega⟩⟩
    rw [hcomp,hcomp] at q₂
    refine ⟨p₂,?_,f₁.trans f₂,q₂⟩
    rw [forgetChunks,e₁]
    exact e₂

/-- All of a live region's chunks leave the queue. -/
theorem forget_region {p : Pool} {hot cold : List Node} (h : Queue p hot cold) (rid : RegionId) :
    ∃ p', forgetChunks rid (p.region rid).layout.nchunks 0 p = some p' ∧ Forgets p p' rid ∧
      Queue p' (hot.filter (fun m => m.1 ≠ rid)) (cold.filter (fun m => m.1 ≠ rid)) := by
  obtain ⟨p',e,hf,hq⟩ := forget_chunks_spec rid (p.region rid).layout.nchunks 0 p hot cold h
  have hlive : ∀ ns : List Node, (∀ m ∈ ns, m ∈ hot ++ cold) →
      ns.filter (fun m => ¬ (m.1 = rid ∧ 0 ≤ m.2 ∧ m.2 < 0+(p.region rid).layout.nchunks)) =
      ns.filter (fun m => m.1 ≠ rid) := by
    intro ns hns
    apply List.filter_congr
    intro m hm
    apply decide_eq_decide.mpr
    have hl := (h.account.live m (hns m hm)).2
    constructor
    · rintro hn rfl
      exact hn ⟨rfl,by omega,by omega⟩
    · exact fun hn hc => hn hc.1
  rw [hlive hot (fun m hm => List.mem_append_left _ hm),
    hlive cold (fun m hm => List.mem_append_right _ hm)] at hq
  exact ⟨p',e,hf,hq⟩

/-- Taking a region without queued chunks off the list. -/
theorem remove_queue {p : Pool} {hot cold : List Node} {rid : RegionId} (h : Queue p hot cold)
    (hn : ∀ n ∈ hot ++ cold, n.1 ≠ rid) : Queue (regionListRemove p rid) hot cold := by
  have hmem : ∀ r, r ∈ p.regions.erase rid ↔ r ≠ rid ∧ r ∈ p.regions :=
    fun r => h.distinct.mem_erase_iff
  have hle : totalBytes (regionListRemove p rid) ≤ totalBytes p :=
    (List.Sublist.map _ List.erase_sublist).sum_le_sum (by simp)
  refine ⟨h.order.transport (fun _ => rfl) rfl rfl rfl rfl rfl,⟨?_,?_,h.account.bytes,?_,?_⟩,
    h.distinct.erase rid,lt_of_le_of_lt hle h.fits⟩
  · intro n hq
    have hl := h.account.live n hq
    exact ⟨(hmem n.1).mpr ⟨hn n hq,hl.1⟩,hl.2⟩
  · exact fun r hr => h.account.initialized r ((hmem r).mp hr).2
  · exact fun r hr => h.account.regionBytes r ((hmem r).mp hr).2
  · exact fun r hr => h.account.regionChunks r ((hmem r).mp hr).2

theorem mem_regionListRemove {p₀ p : Pool} {rid : RegionId} (hf : Forgets p₀ p rid)
    (hnd : p₀.regions.Nodup) (r : RegionId) :
    r ∈ (regionListRemove p rid).regions ↔ r ≠ rid ∧ r ∈ p₀.regions := by
  rw [← hnd.mem_erase_iff,← hf.regions]
  rfl

theorem regionFree_out {vm : PageTable} {r : Region} {q : ℕ} (h : ¬ InRange r q) :
    regionFree vm r q = vm q := if_neg h

/-- The pool without the region, once none of its chunks is queued. -/
theorem regionRemove_inv {p₀ p : Pool} {vm : PageTable} {hot cold hot' cold' : List Node}
    {rid : RegionId} (hp : PoolInv ⟨p₀,vm⟩ hot cold) (hr : rid ∈ p₀.regions) (hf : Forgets p₀ p rid)
    (hq : Queue p hot' cold') (hgone : ∀ n ∈ hot' ++ cold', n.1 ≠ rid) :
    PoolInv ⟨regionListRemove p rid,regionFree vm (p₀.region rid)⟩ hot' cold' := by
  have hmem := mem_regionListRemove hf hp.queue.distinct
  have hsame : ∀ r ∈ (regionListRemove p rid).regions,
      (regionListRemove p rid).region r = p₀.region r :=
    fun r hr' => hf.others r ((hmem r).mp hr').1
  refine ⟨remove_queue hq hgone,?_,?_,?_,?_,?_⟩
  · intro r hr'
    obtain ⟨hne,hold⟩ := (hmem r).mp hr'
    simp only [hsame r hr']
    refine (hp.region r hold).outside (fun c => ?_) (fun q hin => regionFree_out ?_)
    · change p.cold (r,c) = p₀.cold (r,c)
      rw [hf.cold]
    · exact hp.apart r hold rid hr hne q hin
  · intro r hr' r' hr'' hne q
    simp only [hsame r hr',hsame r' hr'']
    exact hp.apart r ((hmem r).mp hr').2 r' ((hmem r').mp hr'').2 hne q
  · intro n
    change Alternates n p.history
    rw [hf.history]
    exact hp.alternates n
  · intro n hn
    have hl : n.2 < ((regionListRemove p rid).region n.1).layout.nchunks := hn.2
    have he := hsame n.1 hn.1
    change PoolHistory.populated n p.history = ((regionListRemove p rid).region n.1).initialized n.2
    rw [he] at hl ⊢
    rw [hf.history]
    exact hp.populated n ⟨((hmem n.1).mp hn.1).2,hl⟩
  · intro h0
    change p.targetSize = 0 at h0
    rw [hf.target] at h0
    change ∀ n, .evict n ∉ p.history ∧ .demote n ∉ p.history
    rw [hf.history]
    exact hp.unbounded h0

/-- Destruction never aborts, and only touches its own region. -/
theorem destroy_spec {pr : Process} (h : ProcessInv pr) {k : PoolId} (hk : k ∈ pr.pools)
    {rid : RegionId} (hr : rid ∈ (pr.pool k).regions) :
    ∃ p, forgetChunks rid ((pr.pool k).region rid).layout.nchunks 0 (pr.pool k) = some p ∧
      Forgets (pr.pool k) p rid ∧
      fcRegionDestroy pr k rid = some (withState pr k
        ⟨regionListRemove p rid,regionFree pr.vm ((pr.pool k).region rid)⟩) ∧
      ProcessInv (withState pr k
        ⟨regionListRemove p rid,regionFree pr.vm ((pr.pool k).region rid)⟩) := by
  obtain ⟨hot,cold,hp⟩ := h.pool k hk
  obtain ⟨p,e,hf,hq⟩ := forget_region hp.queue rid
  have hgone : ∀ n ∈ (hot.filter (fun m => m.1 ≠ rid)) ++ (cold.filter (fun m => m.1 ≠ rid)),
      n.1 ≠ rid := by
    intro n hn
    rw [← List.filter_append] at hn
    exact of_decide_eq_true (List.mem_filter.mp hn).2
  have hmem := mem_regionListRemove hf hp.queue.distinct
  refine ⟨p,e,hf,?_,?_⟩
  · simp only [fcRegionDestroy]
    rw [e]
    rfl
  · apply h.replace hk (regionRemove_inv hp hr hf hq hgone)
    · exact fun r hr' => ((hmem r).mp hr').2
    · intro r hr'
      have he : (regionListRemove p rid).region r = (pr.pool k).region r :=
        hf.others r ((hmem r).mp hr').1
      rw [he]
      exact SameShape.refl _
    · intro e' he'
      change e' ∈ p.history at he'
      rw [hf.history] at he'
      exact h.freshEvent k hk e' he'
    · intro q hq
      by_contra hc
      exact hq (regionFree_out (fun hin => hc ⟨rid,hr,hin⟩))

theorem free_all_out (p : Pool) (rs : List RegionId) (vm : PageTable) (q : ℕ)
    (h : ∀ r ∈ rs, ¬ InRange (p.region r) q) :
    rs.foldl (fun vm r => regionFree vm (p.region r)) vm q = vm q := by
  induction rs generalizing vm with
  | nil => rfl
  | cons r rs ih =>
    rw [List.foldl_cons,ih _ (fun r' hr' => h r' (List.mem_cons_of_mem _ hr'))]
    exact if_neg (h r List.mem_cons_self)

theorem poolDestroy_inv {pr : Process} (h : ProcessInv pr) {k : PoolId} (hk : k ∈ pr.pools) :
    ProcessInv (fcPoolDestroy pr k) := by
  have hmem : ∀ j, j ∈ (fcPoolDestroy pr k).pools ↔ j ≠ k ∧ j ∈ pr.pools :=
    fun j => h.distinct.mem_erase_iff
  refine ⟨?_,?_,?_,?_,?_,?_,h.distinct.erase k⟩
  · intro j hj
    obtain ⟨hne,hj⟩ := (hmem j).mp hj
    obtain ⟨hot,cold,hp⟩ := h.pool j hj
    refine ⟨hot,cold,pool_outside hp ?_⟩
    intro r hr q hin
    apply free_all_out
    exact fun r' hr' => h.apart j hj k hk hne r hr r' hr' q hin
  · intro j hj j' hj'
    exact h.apart j ((hmem j).mp hj).2 j' ((hmem j').mp hj').2
  · exact fun j hj => h.placed j ((hmem j).mp hj).2
  · exact fun j hj => h.freshPool j ((hmem j).mp hj).2
  · exact fun j hj => h.freshRegion j ((hmem j).mp hj).2
  · exact fun j hj => h.freshEvent j ((hmem j).mp hj).2

/-- What one call of `fault_try_resolve` can do. -/
theorem faultScan_cases {pr pr' : Process} {addr : ℕ} {ours : Bool} {ks : List PoolId}
    (h : faultScan pr addr ks = some (ours,pr')) :
    ours = false ∧ pr' = pr ∨ ours = true ∧ ∃ k ∈ ks, ∃ rid s,
      findRegionLocked (pr.pool k) addr = some rid ∧
      pageReadable (pr.pool k) rid (addr-((pr.pool k).region rid).base) = false ∧
      resolveFaultLocked ⟨pr.pool k,pr.vm⟩ rid (addr-((pr.pool k).region rid).base) = some s ∧
      pr' = withState pr k s := by
  induction ks with
  | nil =>
    obtain ⟨rfl,rfl⟩ := Prod.mk.inj (Option.some.inj h)
    exact Or.inl ⟨rfl,rfl⟩
  | cons k ks ih =>
    rw [faultScan] at h
    cases hf : findRegionLocked (pr.pool k) addr with
    | none =>
      rw [hf] at h
      refine (ih h).imp_right ?_
      rintro ⟨h1,j,hj,hrest⟩
      exact ⟨h1,j,List.mem_cons_of_mem k hj,hrest⟩
    | some rid =>
      rw [hf] at h
      simp only at h
      cases hb : pageReadable (pr.pool k) rid (addr-((pr.pool k).region rid).base) with
      | true =>
        rw [hb,if_pos rfl] at h
        refine (ih h).imp_right ?_
        rintro ⟨h1,j,hj,hrest⟩
        exact ⟨h1,j,List.mem_cons_of_mem k hj,hrest⟩
      | false =>
        rw [hb,if_neg (by simp)] at h
        cases hs : resolveFaultLocked ⟨pr.pool k,pr.vm⟩ rid (addr-((pr.pool k).region rid).base) with
        | none =>
          rw [hs] at h
          cases h
        | some s =>
          rw [hs] at h
          obtain ⟨rfl,rfl⟩ := Prod.mk.inj (Option.some.inj h)
          exact Or.inr ⟨rfl,k,List.mem_cons_self,rid,s,hf,hb,hs,rfl⟩

/-- An address in a live region is found in that region and in no other. -/
theorem findRegion_live {pr : Process} (h : ProcessInv pr) {k j : PoolId} (hk : k ∈ pr.pools)
    (hj : j ∈ pr.pools) {rid : RegionId} (hr : rid ∈ (pr.pool k).regions) {addr : ℕ}
    (hin : InRange ((pr.pool k).region rid) addr) :
    findRegionLocked (pr.pool j) addr = if j = k then some rid else none := by
  cases hf : findRegionLocked (pr.pool j) addr with
  | none =>
    rw [if_neg]
    rintro rfl
    have := List.find?_eq_none.mp hf rid hr
    simp only [decide_eq_true_eq] at this
    exact this hin
  | some x =>
    obtain ⟨hx,hxin⟩ := findRegionLocked_some hf
    by_cases hjk : j = k
    · subst hjk
      rw [if_pos rfl]
      congr 1
      by_contra hne
      obtain ⟨hot,cold,hp⟩ := h.pool j hk
      exact hp.apart x hx rid hr hne addr hxin hin
    · exact absurd hin (h.apart j hj k hk hjk x hx rid hr addr hxin)

theorem faultScan_live {pr : Process} (h : ProcessInv pr) {k : PoolId} (hk : k ∈ pr.pools)
    {rid : RegionId} (hr : rid ∈ (pr.pool k).regions) {addr : ℕ}
    (hin : InRange ((pr.pool k).region rid) addr) (ks : List PoolId)
    (hks : ∀ j ∈ ks, j ∈ pr.pools) :
    (k ∉ ks ∨ pageReadable (pr.pool k) rid (addr-((pr.pool k).region rid).base) = true →
      faultScan pr addr ks = some (false,pr)) ∧
    (k ∈ ks → pageReadable (pr.pool k) rid (addr-((pr.pool k).region rid).base) = false →
      ∀ s, resolveFaultLocked ⟨pr.pool k,pr.vm⟩ rid (addr-((pr.pool k).region rid).base) = some s →
      faultScan pr addr ks = some (true,withState pr k s)) := by
  induction ks with
  | nil => exact ⟨fun _ => rfl,fun hm => by cases hm⟩
  | cons j js ih =>
    obtain ⟨ih1,ih2⟩ := ih (fun i hi => hks i (List.mem_cons_of_mem _ hi))
    have hf := findRegion_live h hk (hks j List.mem_cons_self) hr hin
    rw [faultScan,hf]
    by_cases hjk : j = k
    · subst hjk
      simp only [if_true]
      constructor
      · intro hc
        have hread := hc.resolve_left (fun hn => hn List.mem_cons_self)
        rw [if_pos hread]
        exact ih1 (Or.inr hread)
      · intro _ hun s hs
        rw [if_neg (by rw [hun]; simp),hs]
        rfl
    · simp only [if_neg hjk]
      constructor
      · exact fun hc => ih1 (hc.imp_left (fun hn hm => hn (List.mem_cons_of_mem _ hm)))
      · exact fun hm => ih2 ((List.mem_cons.mp hm).resolve_left (fun he => hjk he.symm))

theorem step_inv {pr pr' : Process} (h : ProcessInv pr) (hs : Step pr pr') : ProcessInv pr' := by
  cases hs with
  | poolCreate target => exact poolCreate_inv h target
  | regionCreate k sizes total fill base hk ha hb => exact regionCreate_inv h hk ha hb
  | fault addr ours _ he =>
    obtain ⟨o,p,e,hi⟩ := fault_spec h addr
    obtain ⟨-,rfl⟩ := Prod.mk.inj (Option.some.inj (e.symm.trans he))
    exact hi
  | regionDestroy k rid _ hk hr he =>
    obtain ⟨p,-,-,e,hi⟩ := destroy_spec h hk hr
    obtain rfl := Option.some.inj (e.symm.trans he)
    exact hi
  | poolDestroy k hk => exact poolDestroy_inv h hk

theorem steps_inv {pr pr' : Process} (h : ProcessInv pr) (hs : Steps pr pr') : ProcessInv pr' := by
  induction hs with
  | refl => exact h
  | tail _ hstep ih => exact step_inv ih hstep

theorem reachable_inv {pr : Process} (h : Reachable pr) : ProcessInv pr := by
  obtain ⟨pageSize,vm,hs⟩ := h
  exact steps_inv (start_inv pageSize vm) hs

theorem reachable_steps {pr pr' : Process} (h : Reachable pr) (hs : Steps pr pr') : Reachable pr' := by
  obtain ⟨pageSize,vm,h0⟩ := h
  exact ⟨pageSize,vm,Relation.ReflTransGen.trans h0 hs⟩

end FaultCache.ProcessInvariant
