import FaultCache.OwnedHandles
import FaultCache.PythonObjects
import FaultCache.RegionRemoval

/-!
# What the objects of the bindings stand for

Every open `Pool` stands for one pool of the library and every open `Region` for
one of its regions, and tells where that is. Constructors, views and faults keep
it so, and so does a region that is destroyed once nothing views it.
-/

set_option autoImplicit false

namespace FaultCache.PythonHandles
open FaultCache.PageGeometry FaultCache.VmPages FaultCache.PoolMachine FaultCache.PoolMemory
open FaultCache.PoolInvariant FaultCache.PoolResolve FaultCache.FaultProcess FaultCache.ProcessInvariant
open FaultCache.ProcessContract FaultCache.RegionRemoval FaultCache.OwnedHandles
open FaultCache.PythonSlices FaultCache.RegionSlices FaultCache.PythonObjects

section Library
variable {pr pr' : Process}

abbrev Handle := PoolId × RegionId

/-- The regions of the library. -/
def liveRegions (pr : Process) : Set Handle := {h | h.1 ∈ pr.pools ∧ h.2 ∈ (pr.pool h.1).regions}

def livePools (pr : Process) : Set PoolId := {k | k ∈ pr.pools}

theorem mem_liveRegions {k : PoolId} {rid : RegionId} :
    (k,rid) ∈ liveRegions pr ↔ k ∈ pr.pools ∧ rid ∈ (pr.pool k).regions := Iff.rfl

def fcRegion (pr : Process) (h : Handle) : Region := (pr.pool h.1).region h.2

/-- A region that stays keeps its place and its contents. -/
theorem step_shape (hi : ProcessInv pr) (hs : FaultProcess.Step pr pr') {h : Handle}
    (hl : h ∈ liveRegions pr) (hl' : h ∈ liveRegions pr') : SameShape (fcRegion pr h) (fcRegion pr' h) :=
  (step_survives hi hs (hi.freshPool _ hl.1) (hi.freshRegion _ hl.1 _ hl.2) hl'.1 hl'.2).shape

theorem poolCreate_pools (target : ℕ) :
    livePools (fcPoolCreate pr target) = insert pr.nextPool (livePools pr) :=
  Set.ext (fun _ => List.mem_cons)

theorem nextPool_fresh (hi : ProcessInv pr) : pr.nextPool ∉ livePools pr :=
  fun hk => Nat.lt_irrefl _ (hi.freshPool _ hk)

theorem poolCreate_regions (hi : ProcessInv pr) (target : ℕ) :
    liveRegions (fcPoolCreate pr target) = liveRegions pr := by
  ext ⟨k,rid⟩
  by_cases hk : k = pr.nextPool
  · subst hk
    have hnone : (fcPoolCreate pr target).pool pr.nextPool = poolInit target := Function.update_self _ _ _
    constructor
    · rintro ⟨-,hr⟩
      rw [hnone] at hr
      cases hr
    · rintro ⟨hk,-⟩
      exact absurd hk (nextPool_fresh hi)
  · have hsame : (fcPoolCreate pr target).pool k = pr.pool k := Function.update_of_ne hk _ _
    have hmem : k ∈ (fcPoolCreate pr target).pools ↔ k ∈ pr.pools :=
      List.mem_cons.trans (or_iff_right hk)
    simp only [mem_liveRegions,hsame,hmem]

section Create
variable {k : PoolId} {sizes : List ℕ} {total : ℕ}

theorem nextRegion_fresh (hi : ProcessInv pr) : (k,pr.nextRegion) ∉ liveRegions pr :=
  fun h => Nat.lt_irrefl _ (hi.freshRegion _ h.1 _ h.2)

theorem regionCreate_regions (ha : Accepted pr.pageSize sizes total) (base : ℕ) (fill : ℕ → ℕ → UInt8)
    (hk : k ∈ pr.pools) :
    liveRegions (fcRegionCreate pr k sizes total ha fill base) =
      insert (k,pr.nextRegion) (liveRegions pr) := by
  ext ⟨j,rid⟩
  by_cases hj : j = k
  · subst hj
    have hself : (fcRegionCreate pr j sizes total ha fill base).pool j = _ := Function.update_self _ _ _
    simp only [mem_liveRegions,hself,Set.mem_insert_iff,Prod.mk.injEq,true_and]
    exact (and_iff_right hk).trans (List.mem_cons.trans (or_congr_right (and_iff_right hk).symm))
  · have hsame : (fcRegionCreate pr k sizes total ha fill base).pool j = pr.pool j :=
      Function.update_of_ne hj _ _
    simp only [mem_liveRegions,hsame,Set.mem_insert_iff,Prod.mk.injEq,hj,false_and,
      false_or]
    rfl

theorem regionCreate_region (k : PoolId) (ha : Accepted pr.pageSize sizes total) (base : ℕ)
    (fill : ℕ → ℕ → UInt8) :
    fcRegion (fcRegionCreate pr k sizes total ha fill base) (k,pr.nextRegion) =
      regionInit (Layout.ofSizes pr.pageSize sizes total ha) base fill := by
  have hself : (fcRegionCreate pr k sizes total ha fill base).pool k = _ := Function.update_self _ _ _
  rw [fcRegion,hself]
  exact insert_region_self

end Create

/-- A fault moves no pool and no region. -/
theorem fault_stays (hi : ProcessInv pr) {addr : ℕ} {ours : Bool}
    (hf : faultTryResolve pr addr = some (ours,pr')) :
    livePools pr' = livePools pr ∧ liveRegions pr' = liveRegions pr := by
  rcases faultScan_cases hf with ⟨-,rfl⟩ | ⟨-,j,hj,x,s,hfind,hun,hs,rfl⟩
  · exact ⟨rfl,rfl⟩
  · obtain ⟨hot,cold,hp⟩ := hi.pool j hj
    obtain ⟨s₁,hot',cold',hs₁,hreach,-⟩ := resolve_spec hp (findRegionLocked_some hfind).1 hun
    obtain rfl := Option.some.inj (hs₁.symm.trans hs)
    refine ⟨rfl,Set.ext (fun ⟨k,rid⟩ => and_congr_right (fun _ => ?_))⟩
    by_cases hk : k = j
    · subst hk
      rw [withState_pool_self]
      exact iff_of_eq (congrArg (rid ∈ ·) hreach.regions)
    · rw [withState_pool_of_ne pr _ hk]

section Destroy
variable {k : PoolId} {rid : RegionId}

theorem destroy_regions (hi : ProcessInv pr) (hl : (k,rid) ∈ liveRegions pr) :
    ∃ pr', fcRegionDestroy pr k rid = some pr' ∧ livePools pr' = livePools pr ∧
      liveRegions pr' = liveRegions pr \ {(k,rid)} := by
  obtain ⟨pr',he,hrem⟩ := destroy_removed hi hl.1 hl.2
  obtain ⟨hot,cold,hp⟩ := hi.pool k hl.1
  refine ⟨pr',he,congrArg (fun ks => {k | k ∈ ks}) hrem.pools,?_⟩
  ext ⟨j,r⟩
  simp only [mem_liveRegions,Set.mem_sdiff,Set.mem_singleton_iff,Prod.mk.injEq,hrem.pools]
  by_cases hj : j = k
  · subst hj
    rw [hrem.regions,hp.queue.distinct.mem_erase_iff]
    change j ∈ pr.pools ∧ r ≠ rid ∧ r ∈ (pr.pool j).regions ↔ _
    tauto
  · rw [hrem.pool j hj]
    simp [hj]

theorem poolDestroy_pools (hi : ProcessInv pr) :
    livePools (fcPoolDestroy pr k) = livePools pr \ {k} := by
  ext j
  change j ∈ pr.pools.erase k ↔ _
  rw [hi.distinct.mem_erase_iff,and_comm]
  rfl

/-- With nothing left in the pool its destruction frees no region. -/
theorem poolDestroy_regions (hi : ProcessInv pr) (hk : (pr.pool k).regions = []) :
    liveRegions (fcPoolDestroy pr k) = liveRegions pr := by
  ext ⟨j,r⟩
  simp only [mem_liveRegions]
  change j ∈ pr.pools.erase k ∧ r ∈ (pr.pool j).regions ↔ _
  rw [hi.distinct.mem_erase_iff]
  constructor
  · rintro ⟨⟨-,hj⟩,hr⟩
    exact ⟨hj,hr⟩
  · rintro ⟨hj,hr⟩
    refine ⟨⟨?_,hj⟩,hr⟩
    rintro rfl
    rw [hk] at hr
    cases hr

end Destroy

end Library

section Objects
variable {s s' : Heap} {p : PoolRef} {r : RegionRef} {h : Handle} {v : View}

/-- What a `Region` tells about the region of the library behind it. -/
structure Describes (pr : Process) (h : Handle) (o : RegionObject) : Prop where
  addr : o.addr = some ((fcRegion pr h).base : ℤ)
  size : o.size = (fcRegion pr h).layout.totalSize
  filler : o.filler = (fcRegion pr h).fillChunk

theorem Describes.transport {pr pr' : Process} {o : RegionObject} (hd : Describes pr h o)
    (hs : SameShape (fcRegion pr h) (fcRegion pr' h)) : Describes pr' h o :=
  ⟨by rw [hs.base,hd.addr],by rw [hs.layout,hd.size],by rw [hs.fillChunk,hd.filler]⟩

/-- The object has no handle. -/
def Closed (s : Heap) : Ref → Prop
  | .pool p => (s.pool p).handle = none
  | .region r => (s.region r).region = none

/-- A program's objects and the library agree. -/
structure Bound (s : Heap) : Prop where
  process : FaultProcess.Reachable s.process
  pools : Names (fun p => (s.pool p).handle) (livePools s.process)
  regions : Names (fun r => (s.region r).region) (liveRegions s.process)
  described : ∀ {r h}, (s.region r).region = some h → Describes s.process h (s.region r)
  owner : ∀ {r h}, (s.region r).region = some h → (s.pool (s.region r).pool).handle = some h.1
  closed : ∀ {r}, (s.region r).region = none → (s.region r).addr = none ∧ (s.region r).size = 0
  member : ∀ {p r}, r ∈ (s.pool p).regions ↔ (s.region r).region ≠ none ∧ (s.region r).pool = p
  counted : ∀ r, (s.region r).viewCount = (s.views.countP (fun v => v.region = r) : ℕ)
  viewed : ∀ v ∈ s.views, (s.region v.region).addr = some v.addr ∧
    ∃ key : Slice, key.indices (s.region v.region).size = .ok (v.start,v.stop,v.step)
  fresh : ∀ x, s.allocated x = false → Closed s x
  gone : ∀ x, s.finalized x = true → s.allocated x = true ∧ Closed s x

theorem imported_bound (pageSize : ℕ) (vm : PageTable) : Bound (imported pageSize vm) where
  process := ⟨pageSize,vm,.refl⟩
  pools := (Names.none PoolId).congr (fun _ => rfl) (fun h => by simp [livePools,imported,start])
  regions := (Names.none Handle).congr (fun _ => rfl) (fun h => by simp [liveRegions,imported,start])
  described := nofun
  owner := nofun
  closed := fun _ => ⟨rfl,rfl⟩
  member := by simp [imported]
  counted := fun _ => rfl
  viewed := nofun
  fresh := by rintro (p | r) - <;> rfl
  gone := nofun

@[simp] theorem addRegion_handle {pr : Process} {o : RegionObject} {p' : PoolRef} :
    ((addRegion s p r pr o).pool p').handle = (s.pool p').handle := by
  by_cases he : p' = p
  · subst he
    simp [addRegion]
  · simp [addRegion,he]

theorem addRegion_regions {pr : Process} {o : RegionObject} {p' : PoolRef} {r' : RegionRef} :
    r' ∈ ((addRegion s p r pr o).pool p').regions ↔ r' ∈ (s.pool p').regions ∨ p' = p ∧ r' = r := by
  by_cases he : p' = p
  · subst he
    simp [addRegion,or_comm]
  · simp [addRegion,he]

@[simp] theorem forgetRegion_handle {pr : Process} {p' : PoolRef} :
    ((forgetRegion s r pr).pool p').handle = (s.pool p').handle := by
  by_cases he : p' = (s.region r).pool
  · subst he
    simp [forgetRegion]
  · simp [forgetRegion,he]

theorem forgetRegion_regions {pr : Process} {p' : PoolRef} {r' : RegionRef} :
    r' ∈ ((forgetRegion s r pr).pool p').regions ↔
      r' ∈ (s.pool p').regions ∧ ¬ (p' = (s.region r).pool ∧ r' = r) := by
  by_cases he : p' = (s.region r).pool
  · subst he
    simp [forgetRegion,and_comm]
  · simp [forgetRegion,he]

theorem forgetRegion_region {pr : Process} (r' : RegionRef) :
    (forgetRegion s r pr).region r' = if r' = r then (s.region r).forget else s.region r' :=
  Function.update_apply _ _ _ _

theorem forgetPool_handle {pr : Process} (p' : PoolRef) :
    ((forgetPool s p pr).pool p').handle = if p' = p then none else (s.pool p').handle := by
  by_cases he : p' = p
  · subst he
    simp [forgetPool]
  · simp [forgetPool,he]

@[simp] theorem forgetPool_regions {pr : Process} (p' : PoolRef) :
    ((forgetPool s p pr).pool p').regions = (s.pool p').regions := by
  by_cases he : p' = p
  · subst he
    simp [forgetPool]
  · simp [forgetPool,he]

namespace Bound

theorem inv (hb : Bound s) : ProcessInv s.process := reachable_inv hb.process

theorem open_of_addr {a : ℤ} (hb : Bound s) (ha : (s.region r).addr = some a) :
    ∃ h, (s.region r).region = some h := by
  cases hr : (s.region r).region with
  | some h => exact ⟨h,rfl⟩
  | none =>
    rw [(hb.closed hr).1] at ha
    cases ha

theorem addr_none_iff (hb : Bound s) : (s.region r).addr = none ↔ (s.region r).region = none := by
  refine ⟨fun ha => ?_,fun hr => (hb.closed hr).1⟩
  by_contra hr
  obtain ⟨h,hr⟩ := Option.ne_none_iff_exists'.mp hr
  rw [(hb.described hr).addr] at ha
  cases ha

/-- A view is over an open region. -/
theorem view_open (hb : Bound s) (hv : v ∈ s.views) : ∃ h, (s.region v.region).region = some h :=
  hb.open_of_addr (hb.viewed v hv).1

theorem viewCount_zero_iff (hb : Bound s) : ¬ 0 < (s.region r).viewCount ↔ ∀ v ∈ s.views, v.region ≠ r := by
  rw [hb.counted,Int.natCast_pos,Nat.pos_iff_ne_zero,not_not,List.countP_eq_zero]
  simp

/-- An open region belongs to an open pool, which lists it. -/
theorem listed (hb : Bound s) (hr : (s.region r).region = some h) : r ∈ (s.pool (s.region r).pool).regions :=
  hb.member.mpr ⟨by rw [hr]; exact Option.some_ne_none _,rfl⟩

/-- A call of the library keeps the description of a region that it leaves. -/
theorem described_step {pr : Process} (hb : Bound s) (hs : FaultProcess.Step s.process pr)
    (hr : (s.region r).region = some h) (hl : h ∈ liveRegions pr) : Describes pr h (s.region r) :=
  (hb.described hr).transport (step_shape hb.inv hs (hb.regions.mem hr) hl)

theorem reachable_step {pr : Process} (hb : Bound s) (hs : FaultProcess.Step s.process pr) :
    FaultProcess.Reachable pr := reachable_steps hb.process (Relation.ReflTransGen.single hs)

theorem access {pr : Process} {addr : ℕ} {ours : Bool} (hb : Bound s)
    (hf : faultTryResolve s.process addr = some (ours,pr)) : Bound { s with process := pr } := by
  obtain ⟨hp,hl⟩ := fault_stays hb.inv hf
  have hs := FaultProcess.Step.fault _ addr ours _ hf
  exact { hb with
    process := hb.reachable_step hs
    pools := hp ▸ hb.pools
    regions := hl ▸ hb.regions
    described := fun {r h} hr => hb.described_step hs hr (hl ▸ hb.regions.mem hr) }

/-- A constructor takes an object that did not exist and leaves the others alone. -/
theorem allocate {x₀ : Ref} (s' : Heap) (hb : Bound s) (hx₀ : s.allocated x₀ = false)
    (ha : s'.allocated = Function.update s.allocated x₀ true) (hf : s'.finalized = s.finalized)
    (hc : ∀ x, x ≠ x₀ → Closed s x → Closed s' x) :
    (∀ x, s'.allocated x = false → Closed s' x) ∧
      ∀ x, s'.finalized x = true → s'.allocated x = true ∧ Closed s' x := by
  rw [ha,hf]
  constructor
  · intro x hx
    by_cases he : x = x₀
    · rw [he,Function.update_self] at hx
      cases hx
    · rw [Function.update_of_ne he] at hx
      exact hc x he (hb.fresh x hx)
  · intro x hx
    obtain ⟨hall,hold⟩ := hb.gone x hx
    have he : x ≠ x₀ := by
      rintro rfl
      rw [hx₀] at hall
      cases hall
    exact ⟨(Function.update_of_ne he _ _).trans hall,hc x he hold⟩

theorem createPool (hb : Bound s) (hp : s.allocated (.pool p) = false) (maxsize : ℤ) :
    Bound (createPool s p maxsize) := by
  have hs := FaultProcess.Step.poolCreate s.process (toSizeT maxsize)
  have hnone : (s.pool p).handle = none := hb.fresh _ hp
  have hempty : ∀ r, r ∉ (s.pool p).regions := by
    intro r hr
    obtain ⟨hopen,rfl⟩ := hb.member.mp hr
    obtain ⟨h,hr⟩ := Option.ne_none_iff_exists'.mp hopen
    rw [hb.owner hr] at hnone
    cases hnone
  have hl : liveRegions (fcPoolCreate s.process (toSizeT maxsize)) = liveRegions s.process :=
    poolCreate_regions hb.inv _
  have hnew := allocate (PythonObjects.createPool s p maxsize) hb hp rfl rfl (by
    rintro (p' | r) hne hx
    · exact (congrArg PoolObject.handle (Function.update_of_ne (fun he => hne (congrArg Ref.pool he)) _ _)).trans hx
    · exact hx)
  constructor
  case process => exact hb.reachable_step hs
  case pools =>
    refine (hb.pools.opened hnone (nextPool_fresh hb.inv)).congr ?_ ?_
    · intro p'
      by_cases he : p' = p
      · subst he
        simp [PythonObjects.createPool]
      · simp [PythonObjects.createPool,Function.update_of_ne he]
    · intro k
      exact iff_of_eq (congrArg (k ∈ ·) (poolCreate_pools _))
  case regions => exact hb.regions.congr (fun _ => rfl) (fun h => iff_of_eq (congrArg (h ∈ ·) hl))
  case described => exact fun {r h} hr => hb.described_step hs hr (hl ▸ hb.regions.mem hr)
  case owner =>
    intro r h hr
    refine (congrArg PoolObject.handle (Function.update_of_ne ?_ _ _)).trans (hb.owner hr)
    exact fun he => hempty r (he ▸ hb.listed hr)
  case closed => exact hb.closed
  case member =>
    intro p' r
    by_cases he : p' = p
    · subst he
      refine iff_of_false (by simp [PythonObjects.createPool]) ?_
      exact fun hr => hempty r (hb.member.mpr hr)
    · simp only [PythonObjects.createPool,Function.update_of_ne he]
      exact hb.member
  case counted => exact hb.counted
  case viewed => exact hb.viewed
  case fresh => exact hnew.1
  case gone => exact hnew.2

theorem createRegion_stored {chunkSizes : List ℤ} {fill : ℕ → ℕ → UInt8} {base k total : ℕ}
    (hk : (s.pool p).handle = some k) (hne : sizesArr chunkSizes ≠ [])
    (hsum : sumSizes (sizesArr chunkSizes) 0 = some total)
    (ha : Accepted s.process.pageSize (sizesArr chunkSizes) total) :
    PythonObjects.createRegion s p r chunkSizes (some fill) base =
      some (addRegion s p r (fcRegionCreate s.process k (sizesArr chunkSizes) total ha fill base)
        ⟨⟨some base,total⟩,p,some (k,s.process.nextRegion),fill,0⟩,none) := by
  simp only [PythonObjects.createRegion,hk,if_neg hne,hsum,dif_pos ha]

/-- What `create_region` comes to, and the new region where it does not raise. -/
theorem createRegion_cases {chunkSizes : List ℤ} {fillChunk : Option (ℕ → ℕ → UInt8)} {base : ℕ}
    {e : Option PyException} (hc : PythonObjects.createRegion s p r chunkSizes fillChunk base = some (s',e)) :
    (s' = s ∧ e ≠ none) ∨ ∃ k fill total ha, (s.pool p).handle = some k ∧ fillChunk = some fill ∧ e = none ∧
      s' = addRegion s p r (fcRegionCreate s.process k (sizesArr chunkSizes) total ha fill base)
        ⟨⟨some base,total⟩,p,some (k,s.process.nextRegion),fill,0⟩ := by
  unfold PythonObjects.createRegion at hc
  split at hc
  · cases hc
    exact Or.inl ⟨rfl,by decide⟩
  · next k hk =>
    split at hc
    · cases hc
      exact Or.inl ⟨rfl,by decide⟩
    · next fill =>
      split at hc
      · cases hc
      · split at hc
        · cases hc
          exact Or.inl ⟨rfl,by decide⟩
        · next total hsum =>
          split at hc
          · next ha =>
            cases hc
            exact Or.inr ⟨k,fill,total,ha,hk,rfl,rfl,rfl⟩
          · cases hc

theorem addRegion {k : PoolId} {sizes : List ℕ} {total base : ℕ} {fill : ℕ → ℕ → UInt8}
    (hb : Bound s) (hr : s.allocated (.region r) = false) (hk : (s.pool p).handle = some k)
    (ha : Accepted s.process.pageSize sizes total)
    (hres : Reservable s.process base (pageCeil total s.process.pageSize)) :
    Bound (addRegion s p r (fcRegionCreate s.process k sizes total ha fill base)
      ⟨⟨some base,total⟩,p,some (k,s.process.nextRegion),fill,0⟩) := by
  have hkl : k ∈ s.process.pools := hb.pools.mem hk
  have hs := FaultProcess.Step.regionCreate s.process k sizes total fill base hkl ha hres
  have hnone : (s.region r).region = none := hb.fresh _ hr
  have hl := regionCreate_regions ha base fill hkl
  have hself := regionCreate_region k ha base fill
  generalize hpr : fcRegionCreate s.process k sizes total ha fill base = pr at *
  generalize ho : (⟨⟨some base,total⟩,p,some (k,s.process.nextRegion),fill,0⟩ : RegionObject) = o
  have hnew := allocate (PythonObjects.addRegion s p r pr o) hb hr rfl rfl (by
    rintro (p' | r') hne hx
    · exact addRegion_handle.trans hx
    · refine (congrArg RegionObject.region (Function.update_of_ne ?_ _ _)).trans hx
      exact fun he => hne (congrArg Ref.region he))
  have hregion : ∀ r', (PythonObjects.addRegion s p r pr o).region r' = if r' = r then o else s.region r' :=
    fun r' => Function.update_apply _ _ _ _
  have hunviewed : ∀ v ∈ s.views, v.region ≠ r := by
    rintro v hv rfl
    obtain ⟨h,hopen⟩ := hb.view_open hv
    rw [hnone] at hopen
    cases hopen
  constructor
  case process => exact hb.reachable_step hs
  case pools => exact hb.pools.congr (fun _ => addRegion_handle) (fun _ => by rw [← hpr]; rfl)
  case regions =>
    refine (hb.regions.opened hnone (nextRegion_fresh (k := k) hb.inv)).congr ?_ ?_
    · intro r'
      rw [hregion,Function.update_apply]
      split_ifs with he
      · rw [← ho]
      · rfl
    · exact fun h => iff_of_eq (congrArg (h ∈ ·) hl)
  case described =>
    intro r' h hr'
    change Describes pr h _
    rw [hregion] at hr' ⊢
    split_ifs at hr' ⊢ with he
    · subst ho
      obtain rfl := Option.some.inj hr'
      exact ⟨by rw [hself]; rfl,by rw [hself]; rfl,by rw [hself]; rfl⟩
    · refine hb.described_step hs hr' ?_
      rw [hl]
      exact Set.mem_insert_of_mem _ (hb.regions.mem hr')
  case owner =>
    intro r' h hr'
    rw [hregion] at hr' ⊢
    rw [addRegion_handle]
    split_ifs at hr' ⊢ with he
    · subst ho
      obtain rfl := Option.some.inj hr'
      exact hk
    · exact hb.owner hr'
  case closed =>
    intro r' hr'
    rw [hregion] at hr' ⊢
    split_ifs at hr' ⊢ with he
    · subst ho
      cases hr'
    · exact hb.closed hr'
  case member =>
    intro p' r'
    rw [addRegion_regions,hregion,hb.member]
    split_ifs with he
    · subst ho he
      simp [hnone,eq_comm]
    · simp [he]
  case counted =>
    intro r'
    rw [hregion]
    split_ifs with he
    · subst ho he
      refine Eq.symm (Int.natCast_eq_zero.mpr (List.countP_eq_zero.mpr ?_))
      exact fun v hv => by simpa using hunviewed v hv
    · exact hb.counted r'
  case viewed =>
    intro v hv
    rw [hregion,if_neg (hunviewed v hv)]
    exact hb.viewed v hv
  case fresh => exact hnew.1
  case gone => exact hnew.2

/-- A region with another number of views over it. -/
theorem recount {n : ℤ} {vs : List View} (hb : Bound s)
    (hn : n = (vs.countP (fun v => v.region = r) : ℕ))
    (hvs : ∀ r', r' ≠ r → vs.countP (fun v => v.region = r') = s.views.countP (fun v => v.region = r'))
    (hv : ∀ v ∈ vs, (s.region v.region).addr = some v.addr ∧
      ∃ key : Slice, key.indices (s.region v.region).size = .ok (v.start,v.stop,v.step)) :
    Bound { s with
      region := Function.update s.region r { s.region r with viewCount := n }
      views := vs } := by
  have hsame : ∀ {α : Type} (f : RegionObject → α) (hf : f { s.region r with viewCount := n } = f (s.region r))
      (r' : RegionRef), f (Function.update s.region r { s.region r with viewCount := n } r') = f (s.region r') := by
    intro α f hf r'
    by_cases he : r' = r
    · rw [he,Function.update_self,hf]
    · rw [Function.update_of_ne he]
  have hregion := hsame RegionObject.region rfl
  have haddr := hsame (fun o => o.addr) rfl
  have hsize := hsame (fun o => o.size) rfl
  have hpool := hsame RegionObject.pool rfl
  have hfiller := hsame RegionObject.filler rfl
  constructor
  case process => exact hb.process
  case pools => exact hb.pools
  case regions => exact hb.regions.congr hregion (fun _ => Iff.rfl)
  case described =>
    intro r' h hr'
    obtain ⟨h1,h2,h3⟩ := hb.described ((hregion r').symm.trans hr')
    exact ⟨(haddr r').trans h1,(hsize r').trans h2,(hfiller r').trans h3⟩
  case owner =>
    intro r' h hr'
    change (s.pool (Function.update s.region r _ r').pool).handle = _
    rw [hpool r']
    exact hb.owner ((hregion r').symm.trans hr')
  case closed =>
    intro r' hr'
    obtain ⟨h1,h2⟩ := hb.closed ((hregion r').symm.trans hr')
    exact ⟨(haddr r').trans h1,(hsize r').trans h2⟩
  case member =>
    intro p' r'
    change _ ↔ (Function.update s.region r _ r').region ≠ none ∧ (Function.update s.region r _ r').pool = p'
    rw [hregion r',hpool r']
    exact hb.member
  case counted =>
    intro r'
    change (Function.update s.region r _ r').viewCount = _
    by_cases he : r' = r
    · subst he
      rw [Function.update_self]
      exact hn
    · rw [Function.update_of_ne he,hvs r' he]
      exact hb.counted r'
  case viewed =>
    intro v hmem
    obtain ⟨h1,key,h2⟩ := hv v hmem
    refine ⟨(haddr v.region).trans h1,key,?_⟩
    exact (congrArg key.indices (hsize v.region)).trans h2
  case fresh =>
    rintro (p' | r') hx
    · exact hb.fresh (.pool p') hx
    · exact (hregion r').trans (hb.fresh (.region r') hx)
  case gone =>
    rintro (p' | r') hx
    · exact hb.gone (.pool p') hx
    · obtain ⟨h1,h2⟩ := hb.gone (.region r') hx
      exact ⟨h1,(hregion r').trans h2⟩

theorem view (hb : Bound s) (key : Slice) : Bound (view s r key).1 := by
  cases ha : (s.region r).addr with
  | none =>
    simp only [PythonObjects.view,ha]
    exact hb
  | some addr =>
    cases hk : key.indices (s.region r).size with
    | error e =>
      simp only [PythonObjects.view,ha,hk]
      exact hb
    | ok b =>
      obtain ⟨start,stop,step⟩ := b
      simp only [PythonObjects.view,ha,hk]
      apply hb.recount
      · rw [hb.counted r]
        simp
      · intro r' hne
        rw [List.countP_cons_of_neg]
        simpa using hne.symm
      · intro v hv
        rcases List.mem_cons.mp hv with rfl | hv
        · exact ⟨ha,key,hk⟩
        · exact hb.viewed v hv

theorem release (hb : Bound s) (hv : v ∈ s.views) : Bound (release s v) := by
  have hperm : ∀ r', s.views.countP (fun w => w.region = r') =
      (v::s.views.erase v).countP (fun w => w.region = r') :=
    fun r' => (List.perm_cons_erase hv).countP_eq _
  apply hb.recount
  · rw [hb.counted,hperm]
    simp
  · intro r' hne
    rw [hperm,List.countP_cons_of_neg]
    simpa using hne.symm
  · exact fun w hw => hb.viewed w (List.mem_of_mem_erase hw)

/-- The library has destroyed the region, which has no views. -/
theorem forgetRegion {pr : Process} (hb : Bound s) (hr : (s.region r).region = some h)
    (hun : ∀ v ∈ s.views, v.region ≠ r) (hs : FaultProcess.Step s.process pr)
    (hp : livePools pr = livePools s.process) (hl : liveRegions pr = liveRegions s.process \ {h}) :
    Bound (forgetRegion s r pr) := by
  constructor
  case process => exact hb.reachable_step hs
  case pools => exact hb.pools.congr (fun _ => forgetRegion_handle) (fun k => iff_of_eq (congrArg (k ∈ ·) hp))
  case regions =>
    refine (hb.regions.closed hr).congr ?_ (fun h => iff_of_eq (congrArg (h ∈ ·) hl))
    intro r'
    rw [forgetRegion_region,Function.update_apply]
    split_ifs
    · rfl
    · rfl
  case described =>
    intro r' h' hr'
    change Describes pr h' _
    rw [forgetRegion_region] at hr' ⊢
    split_ifs at hr' ⊢ with he
    · cases hr'
    · refine hb.described_step hs hr' ?_
      rw [hl]
      refine ⟨hb.regions.mem hr',?_⟩
      rintro rfl
      exact he (hb.regions.injective hr' hr)
  case owner =>
    intro r' h' hr'
    rw [forgetRegion_region] at hr' ⊢
    rw [forgetRegion_handle]
    split_ifs at hr' ⊢ with he
    · cases hr'
    · exact hb.owner hr'
  case closed =>
    intro r' hr'
    rw [forgetRegion_region] at hr' ⊢
    split_ifs at hr' ⊢ with he
    · exact ⟨rfl,rfl⟩
    · exact hb.closed hr'
  case member =>
    intro p' r'
    rw [forgetRegion_regions,forgetRegion_region,hb.member]
    split_ifs with he
    · subst he
      refine iff_of_false ?_ (fun hc => hc.1 rfl)
      rintro ⟨⟨-,hpool⟩,hne⟩
      exact hne ⟨hpool.symm,rfl⟩
    · simp [he]
  case counted =>
    intro r'
    rw [forgetRegion_region]
    split_ifs with he
    · subst he
      exact hb.counted r'
    · exact hb.counted r'
  case viewed =>
    intro v hv
    rw [forgetRegion_region,if_neg (hun v hv)]
    exact hb.viewed v hv
  case fresh =>
    rintro (p' | r') hx
    · exact forgetRegion_handle.trans (hb.fresh (.pool p') hx)
    · rw [Closed,forgetRegion_region]
      split_ifs with he
      · rfl
      · exact hb.fresh (.region r') hx
  case gone =>
    rintro (p' | r') hx
    · exact ⟨(hb.gone (.pool p') hx).1,forgetRegion_handle.trans (hb.gone (.pool p') hx).2⟩
    · refine ⟨(hb.gone (.region r') hx).1,?_⟩
      rw [Closed,forgetRegion_region]
      split_ifs with he
      · rfl
      · exact (hb.gone (.region r') hx).2

end Bound

end Objects

end FaultCache.PythonHandles
