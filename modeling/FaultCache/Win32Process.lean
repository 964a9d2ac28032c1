import FaultCache.PosixProcess
import FaultCache.Win32Calls

/-!
# A process on Windows

The process model, its calls on the seam and the Windows back end put together.
What a fill publishes at once is the exclusive range of a chunk or one shared
page. These ranges are fixed with the layout of a region and do not overlap, so
that a page is always published, hidden and given back as part of the same range
and the borders that Windows keeps are never in the way.
-/

set_option autoImplicit false

namespace FaultCache.Win32Process
open FaultCache.SentinelRing FaultCache.PageGeometry FaultCache.SharedPages FaultCache.VmPages
open FaultCache.PoolMachine FaultCache.PoolStaging FaultCache.PoolQueue FaultCache.PoolMemory
open FaultCache.PoolHistory FaultCache.PoolInvariant FaultCache.PoolResolve FaultCache.FaultProcess
open FaultCache.ProcessInvariant FaultCache.ProcessContract FaultCache.LabelledRuns
open FaultCache.PoolLifetime FaultCache.FaultEffects FaultCache.FillSafety FaultCache.RangeTiling
open FaultCache.ScratchContract FaultCache.VmContract FaultCache.VmTrace FaultCache.VmBacking
open FaultCache.VmProcess FaultCache.Placeholders FaultCache.VmWin32
open FaultCache.AddressSpace (KeepsOthers load)
open FaultCache.VmPosix (protOf bytesOf)

section Units
variable {L : Layout} {off n p c j : ℕ}

/-- The ranges of a layout that are published at once. -/
inductive LayoutUnit (L : Layout) : ℕ → ℕ → Prop
  | chunk (c : ℕ) (hc : c < L.nchunks) (h : L.exclLo c < L.exclHi c) :
      LayoutUnit L (L.exclLo c) (L.exclHi c-L.exclLo c)
  | shared (j : ℕ) (hj : j < nshared L) : LayoutUnit L (sharedPage L j).pageOff L.pageSize

/-- The range that a page is in. -/
def pageUnit (L : Layout) (p : ℕ) : ℕ × ℕ :=
  match findSharedPage L p with
  | some j => ((sharedPage L j).pageOff,L.pageSize)
  | none => (L.exclLo (L.findChunk p),L.exclHi (L.findChunk p)-L.exclLo (L.findChunk p))

theorem LayoutUnit.pages (h : LayoutUnit L off n) :
    L.pageSize ∣ off ∧ 0 < n ∧ off+n ≤ L.mappedSize := by
  cases h with
  | chunk c hc hne =>
    have := exclHi_le L hc hne
    exact ⟨(excl_dvd L c).1,Nat.sub_pos_of_lt hne,by omega⟩
  | shared j hj => exact ⟨shared_aligned L hj,L.pageSize_pos,shared_lt_mapped L hj⟩

theorem LayoutUnit.of_page (h : LayoutUnit L off n) (hp : L.pageSize ∣ p) (h1 : off ≤ p) (h2 : p < off+n) :
    (off,n) = pageUnit L p := by
  cases h with
  | chunk c hc hne =>
    obtain ⟨-,hf,rfl⟩ := exclusive_page L hc hp ⟨h1,by omega⟩
    rw [pageUnit,hf]
  | shared j hj =>
    have he := aligned_eq (shared_aligned L hj) hp h1 h2
    rw [pageUnit,(findSharedPage_some L p j).mpr ⟨hj,he⟩]

theorem LayoutUnit.apart {off' n' : ℕ} (h : LayoutUnit L off n) (h' : LayoutUnit L off' n')
    (hm : Meet off n off' n') : off = off' ∧ n = n' := by
  obtain ⟨h1,h2⟩ := hm
  obtain ⟨d,hpos,-⟩ := h.pages
  obtain ⟨d',hpos',-⟩ := h'.pages
  have hmax : L.pageSize ∣ max off off' := by
    rcases max_choice off off' with he | he <;> rw [he] <;> assumption
  have := (h.of_page hmax (le_max_left _ _) (by omega)).trans
    (h'.of_page hmax (le_max_right _ _) (by omega)).symm
  exact Prod.mk.inj this

end Units

section Plans
variable {pr pr' : Process} {L L' : Layout} {base base' q : ℕ} {m : Memory}

/-- A live region with this layout at this place. -/
def Tenant (pr : Process) (L : Layout) (base : ℕ) : Prop :=
  ∃ k ∈ pr.pools, ∃ rid ∈ (pr.pool k).regions,
    ((pr.pool k).region rid).layout = L ∧ ((pr.pool k).region rid).base = base

theorem ours_tenant : Ours pr q ↔ ∃ L base, Tenant pr L base ∧ base ≤ q ∧ q < base+L.mappedSize := by
  constructor
  · rintro ⟨k,hk,rid,hr,hin⟩
    exact ⟨_,_,⟨k,hk,rid,hr,rfl,rfl⟩,hin⟩
  · rintro ⟨L,base,⟨k,hk,rid,hr,rfl,rfl⟩,hin⟩
    exact ⟨k,hk,rid,hr,hin⟩

theorem tenant_unique (h : ProcessInv pr) (ht : Tenant pr L base) (ht' : Tenant pr L' base')
    (hq : base ≤ q ∧ q < base+L.mappedSize) (hq' : base' ≤ q ∧ q < base'+L'.mappedSize) :
    L = L' ∧ base = base' := by
  obtain ⟨k,hk,rid,hr,rfl,rfl⟩ := ht
  obtain ⟨j,hj,x,hx,rfl,rfl⟩ := ht'
  by_cases hkj : k = j
  · subst hkj
    by_cases hrx : rid = x
    · subst hrx
      exact ⟨rfl,rfl⟩
    · obtain ⟨hot,cold,hp⟩ := h.pool k hk
      exact absurd hq' (hp.apart rid hr x hx hrx q hq)
  · exact absurd hq' (h.apart k hk j hj hkj rid hr x hx q hq)

theorem tenant_meet (h : ProcessInv pr) (ht : Tenant pr L base) (ht' : Tenant pr L' base')
    (hm : Meet base L.mappedSize base' L'.mappedSize) : L = L' ∧ base = base' := by
  obtain ⟨h1,h2⟩ := hm
  have h3 := mappedSize_pos L
  have h4 := mappedSize_pos L'
  exact tenant_unique h ht ht' (q := max base base') ⟨le_max_left _ _,by omega⟩ ⟨le_max_right _ _,by omega⟩

/-- The ranges of the live regions and of their chunks and shared pages. -/
def processPlan (pr : Process) (h : ProcessInv pr) : Plan where
  area b n := ∃ L, Tenant pr L b ∧ n = L.mappedSize
  unit b n := ∃ L base off, Tenant pr L base ∧ LayoutUnit L off n ∧ b = base+off
  area_pos := by
    rintro b n ⟨L,-,rfl⟩
    exact mappedSize_pos L
  unit_pos := by
    rintro b n ⟨L,base,off,-,hu,-⟩
    exact hu.pages.2.1
  areas_apart := by
    rintro b n b' n' ⟨L,ht,rfl⟩ ⟨L',ht',rfl⟩ hm
    obtain ⟨rfl,rfl⟩ := tenant_meet h ht ht' hm
    exact ⟨rfl,rfl⟩
  units_apart := by
    rintro b n b' n' ⟨L,base,off,ht,hu,rfl⟩ ⟨L',base',off',ht',hu',rfl⟩ ⟨h1,h2⟩
    obtain ⟨-,hpos,hend⟩ := hu.pages
    obtain ⟨-,hpos',hend'⟩ := hu'.pages
    obtain ⟨rfl,rfl⟩ := tenant_meet h ht ht' ⟨by omega,by omega⟩
    obtain ⟨rfl,rfl⟩ := hu.apart hu' ⟨by omega,by omega⟩
    exact ⟨rfl,rfl⟩
  unit_inside := by
    rintro b n b' n' ⟨L,base,off,ht,hu,rfl⟩ ⟨L',ht',rfl⟩ ⟨h1,h2⟩
    obtain ⟨-,hpos,hend⟩ := hu.pages
    obtain ⟨rfl,rfl⟩ := tenant_meet h ht ht' ⟨by omega,by omega⟩
    exact ⟨by omega,by omega⟩

/-- Two plans say the same of the reserved addresses. -/
def Agree (m : Memory) (U V : Plan) : Prop := ∀ q, m.reserved q = true → ∀ b n, b ≤ q → q < b+n →
  (U.area b n ↔ V.area b n) ∧ (U.unit b n ↔ V.unit b n)

theorem sim_replan {P : ℕ} {U V : Plan} {w : Win32} (h₀ : Sim P U m w) (ha : Agree m U V) : Sim P V m w := by
  refine ⟨⟨h₀.mapped.below,h₀.mapped.whole,?_,h₀.mapped.vacant,h₀.mapped.pages⟩,h₀.buffers,h₀.frozen,h₀.ledger⟩
  intro q hq
  obtain ⟨a,haq,hf⟩ := h₀.mapped.piece q hq
  obtain ⟨h1,h2⟩ := w.kernel.space.within haq
  refine ⟨a,haq,{ hf with area := ?_, kind := ?_ }⟩
  · obtain ⟨b,n,harea,h3,h4⟩ := hf.area
    exact ⟨b,n,((ha q hq b n (by omega) (by omega)).1).mp harea,h3,h4⟩
  · have hkind := hf.kind
    cases hk : a.kind with
    | placeholder =>
      rw [hk] at hkind
      intro b n hun hmeet
      obtain ⟨h3,h4⟩ := hmeet
      have hpos := V.unit_pos hun
      have hres : m.reserved (max b a.base) = true := hf.reserved _ ⟨le_max_right _ _,by omega⟩
      refine hkind b n (((ha _ hres b n (le_max_left _ _) (by omega)).2).mpr hun) ⟨h3,h4⟩
    | view v =>
      rw [hk] at hkind
      obtain ⟨hrep,hun,hsec⟩ := hkind
      exact ⟨hrep,((ha q hq _ _ h1 h2).2).mp hun,hsec⟩
    | other =>
      rw [hk] at hkind
      exact hkind

/-- A process with fewer regions has the plan of the larger one where it has any. -/
theorem agree_of_sub {big small : Process} (h : ProcessInv big) (h' : ProcessInv small)
    (hsub : ∀ L base, Tenant small L base → Tenant big L base) (hm : ∀ q, m.reserved q = true → Ours small q) :
    Agree m (processPlan big h) (processPlan small h') := by
  intro q hq b n h1 h2
  obtain ⟨L₀,base₀,ht₀,hin₀⟩ := ours_tenant.mp (hm q hq)
  constructor
  · constructor
    · rintro ⟨L,ht,rfl⟩
      obtain ⟨rfl,rfl⟩ := tenant_unique h ht (hsub _ _ ht₀) ⟨h1,h2⟩ hin₀
      exact ⟨L,ht₀,rfl⟩
    · rintro ⟨L,ht,rfl⟩
      exact ⟨L,hsub _ _ ht,rfl⟩
  · constructor
    · rintro ⟨L,base,off,ht,hu,rfl⟩
      obtain ⟨-,-,hend⟩ := hu.pages
      obtain ⟨rfl,rfl⟩ := tenant_unique h ht (hsub _ _ ht₀) (q := q) ⟨by omega,by omega⟩ hin₀
      exact ⟨L,base,off,ht₀,hu,rfl⟩
    · rintro ⟨L,base,off,ht,hu,rfl⟩
      exact ⟨L,base,off,hsub _ _ ht,hu,rfl⟩

theorem Agree.symm {U V : Plan} (h : Agree m U V) : Agree m V U := fun q hq b n h1 h2 =>
  ⟨(h q hq b n h1 h2).1.symm,(h q hq b n h1 h2).2.symm⟩

end Plans

section Keeping
variable {P : ℕ} {U : Plan} {k : PoolId} {rid : RegionId} {r : Region} {s s' : State} {c : ℕ} {e : Event}
  {hot cold : List Node}

/-- The units of a region belong to the plan. -/
def Planned (U : Plan) (r : Region) : Prop := ∀ off n, LayoutUnit r.layout off n → U.unit (r.base+off) n

theorem Planned.of_shape {r' : Region} (h : Planned U r) (hs : SameShape r r') : Planned U r' := by
  intro off n hu
  rw [hs.layout] at hu
  rw [hs.base]
  exact h off n hu

theorem setReadable_keeps (h : Planned U r) (hc : c < r.layout.nchunks) (readable : Bool) :
    ∀ d ∈ chunkSetReadableCalls r c readable, Keeps U d := by
  intro d hd
  simp only [chunkSetReadableCalls] at hd
  split_ifs at hd with hne
  · rw [List.mem_singleton.mp hd]
    exact h _ _ (.chunk c hc hne)
  · cases hd

theorem evict_keeps (h : Planned U r) (hc : c < r.layout.nchunks) : ∀ d ∈ lruEvictCalls r c, Keeps U d := by
  intro d hd
  have hle := excl_le r.layout c
  simp only [lruEvictCalls] at hd
  split_ifs at hd with hne
  · cases hd
  · rw [List.mem_singleton.mp hd]
    exact h _ _ (.chunk c hc (by omega))

theorem stage_keeps {j : ℕ} (h : Planned U r) (hj : j < nshared r.layout) :
    ∀ d ∈ stageCalls k rid r j c, Keeps U d := by
  intro d hd
  simp only [stageCalls] at hd
  rcases List.mem_append.mp hd with hd | hd
  · split_ifs at hd
    · cases hd
    · rw [List.mem_singleton.mp hd]
      trivial
  · rcases List.mem_cons.mp hd with rfl | hd
    · trivial
    · split_ifs at hd
      · rcases List.mem_pair.mp hd with rfl | rfl
        · trivial
        · exact h _ _ (.shared j hj)
      · cases hd

theorem stageWhen_keeps {flag : Bool} {p : ℕ} (h : Planned U r) :
    ∀ d ∈ stageWhenCalls k rid flag r (findSharedPage r.layout p) c, Keeps U d := by
  intro d hd
  simp only [stageWhenCalls] at hd
  split_ifs at hd
  · cases hf : findSharedPage r.layout p with
    | none =>
      rw [hf] at hd
      cases hd
    | some j =>
      rw [hf] at hd
      exact stage_keeps h ((findSharedPage_some _ _ _).mp hf).1 d hd
  · cases hd

theorem fill_keeps (h : Planned U r) (hc : c < r.layout.nchunks) :
    ∀ d ∈ fillChunkCalls k rid r c, Keeps U d := by
  intro d hd
  simp only [fillChunkCalls,List.mem_cons,List.mem_append,List.mem_map] at hd
  rcases hd with rfl | rfl | hd | rfl | ⟨p,hp,rfl⟩
  · trivial
  · trivial
  · simp only [stageSharedCalls] at hd
    split_ifs at hd
    · cases hd
    · rcases List.mem_append.mp hd with hd | hd
      · exact stageWhen_keeps h d hd
      · exact stageWhen_keeps h d hd
  · trivial
  · have hpages : Pages r.layout.pageSize (span p).off (span p).len := fillPieces_pages hc p hp
    rcases fillPieces_cases r.layout r.base c with ⟨ds,he,hds⟩ | ⟨-,hds⟩
    · rw [he] at hp
      rcases List.mem_cons.mp hp with rfl | hp
      · have hpos : 0 < r.layout.exclHi c-r.layout.exclLo c := hpages.pos
        exact h _ _ (.chunk c hc (by omega))
      · obtain ⟨off,len,rfl⟩ := hds p hp
        trivial
    · obtain ⟨off,len,rfl⟩ := hds p hp
      trivial

/-- One chunk operation. -/
theorem micro_keeps (h : PoolInv s hot cold) (hU : ∀ rid ∈ s.pool.regions, Planned U (s.pool.region rid))
    (hm : Micro s e s') : ∀ d ∈ microCalls k s e, Keeps U d := by
  have hl := (hm.touched h).1.live
  cases e with
  | fill n size => exact fill_keeps (hU _ hl.1) hl.2
  | promote n => exact setReadable_keeps (hU _ hl.1) hl.2 true
  | demote n => exact setReadable_keeps (hU _ hl.1) hl.2 false
  | evict n => exact evict_keeps (hU _ hl.1) hl.2

theorem run_keeps {ms : List (State × Event)} (hr : Run Micro s ms s') (h : PoolInv s hot cold)
    (hU : ∀ rid ∈ s.pool.regions, Planned U (s.pool.region rid)) : ∀ d ∈ runCalls k ms, Keeps U d := by
  induction hr with
  | start => exact fun d hd => absurd hd List.not_mem_nil
  | @move ms v v' e hrun hm ih =>
    have hframe := (Run.microRun hrun).frame ⟨hot,cold,h⟩
    obtain ⟨-,hot₁,cold₁,hv⟩ := run_history hrun ⟨hot,cold,h⟩
    intro d hd
    rw [runCalls_cons] at hd
    rcases List.mem_append.mp hd with hd | hd
    · exact ih d hd
    · refine micro_keeps hv (fun x hx => ?_) hm d hd
      exact (hU x (hframe.regions ▸ hx)).of_shape (hframe.shape x)

end Keeping

section Steps
variable {pr pr' : Process} {cs ds : List VmCall} {m : Memory} {L : Layout} {base : ℕ}

theorem plan_planned (h : ProcessInv pr) {k : PoolId} {rid : RegionId} (hk : k ∈ pr.pools)
    (hr : rid ∈ (pr.pool k).regions) : Planned (processPlan pr h) ((pr.pool k).region rid) :=
  fun _ _ hu => ⟨_,_,_,⟨k,hk,rid,hr,rfl,rfl⟩,hu,rfl⟩

theorem plan_area (h : ProcessInv pr) {k : PoolId} {rid : RegionId} (hk : k ∈ pr.pools)
    (hr : rid ∈ (pr.pool k).regions) :
    (processPlan pr h).area ((pr.pool k).region rid).base ((pr.pool k).region rid).layout.mappedSize :=
  ⟨_,⟨k,hk,rid,hr,rfl,rfl⟩,rfl⟩

/-- Only the creation of a region adds a range. -/
theorem tenant_old (h : ProcessInv pr) (hs : Step pr pr') (h' : ProcessInv pr')
    (hregion : pr'.nextRegion = pr.nextRegion) (ht : Tenant pr' L base) : Tenant pr L base := by
  obtain ⟨k,hk,rid,hr,rfl,rfl⟩ := ht
  have hrid : rid < pr.nextRegion := hregion ▸ h'.freshRegion k hk rid hr
  have hpool : k < pr.nextPool := by
    cases hs with
    | poolCreate target =>
      rcases List.mem_cons.mp hk with rfl | hk
      · have hself : (fcPoolCreate pr target).pool pr.nextPool = poolInit target := Function.update_self _ _ _
        rw [hself] at hr
        cases hr
      · exact h.freshPool k hk
    | regionCreate => exact h'.freshPool k hk
    | fault addr ours _ he =>
      rcases faultScan_cases he with ⟨-,rfl⟩ | ⟨-,j,hj,x,s,-,-,-,rfl⟩
      · exact h'.freshPool k hk
      · exact h'.freshPool k hk
    | regionDestroy j x _ hj hx he =>
      obtain ⟨p,-,rfl⟩ := Option.map_eq_some_iff.mp he
      exact h'.freshPool k hk
    | poolDestroy => exact h'.freshPool k hk
  have hsurv := step_survives h hs hpool hrid hk hr
  exact ⟨k,hsurv.pool,rid,hsurv.region,hsurv.shape.layout.symm,hsurv.shape.base.symm⟩

theorem tenant_create {k : PoolId} {sizes : List ℕ} {total : ℕ} {fill : ℕ → ℕ → UInt8}
    {ha : Accepted pr.pageSize sizes total} (h : ProcessInv pr) (ht : Tenant pr L base) (b : ℕ) :
    Tenant (fcRegionCreate pr k sizes total ha fill b) L base := by
  obtain ⟨j,hj,x,hx,hlay,hbase⟩ := ht
  refine ⟨j,hj,x,?_⟩
  by_cases hjk : j = k
  · subst hjk
    have hself : (fcRegionCreate pr j sizes total ha fill b).pool j = regionListInsert (pr.pool j) pr.nextRegion
        (regionInit (Layout.ofSizes pr.pageSize sizes total ha) b fill) := Function.update_self _ _ _
    have hfresh : pr.nextRegion ∉ (pr.pool j).regions := fun hm => lt_irrefl _ (h.freshRegion j hj _ hm)
    rw [hself,regionInsert_old hfresh hx]
    exact ⟨List.mem_cons_of_mem _ hx,hlay,hbase⟩
  · have hne : (fcRegionCreate pr k sizes total ha fill b).pool j = pr.pool j := Function.update_of_ne hjk _ _
    rw [hne]
    exact ⟨hx,hlay,hbase⟩

theorem regionFree_keeps (U : Plan) (k : PoolId) (rid : RegionId) (r : Region)
    (hU : U.area r.base r.layout.mappedSize) : ∀ d ∈ regionFreeCalls k rid r, Keeps U d := by
  intro d hd
  rcases List.mem_cons.mp hd with rfl | hd
  · exact hU
  · obtain ⟨j,-,rfl⟩ := List.mem_map.mp hd
    trivial

/-- The calls of a step keep to one plan, which agrees with that of the process
before and after. -/
theorem step_plan (h : Sound pr) (hs : VmStep pr cs pr') (hb : Backed pr m) :
    ∃ U, (∀ c ∈ cs, Keeps U c) ∧ Agree m (processPlan pr h.inv) U ∧
      Agree (calls m cs) U (processPlan pr' (vmStep_sound h hs).inv) := by
  have h' := vmStep_sound h hs
  obtain ⟨-,hb'⟩ := vmStep_backed h hs hb
  have hstep := vmStep_step hs
  have hnow : ∀ q, m.reserved q = true → Ours pr q := fun q => (hb.reserved q).mp
  have hthen : ∀ q, (calls m cs).reserved q = true → Ours pr' q := fun q => (hb'.reserved q).mp
  have hself : Agree m (processPlan pr h.inv) (processPlan pr h.inv) := fun _ _ _ _ _ _ => ⟨Iff.rfl,Iff.rfl⟩
  -- nothing is reserved in this step
  have hold : pr'.nextRegion = pr.nextRegion → (∀ c ∈ cs, Keeps (processPlan pr h.inv) c) →
      ∃ U, (∀ c ∈ cs, Keeps U c) ∧ Agree m (processPlan pr h.inv) U ∧
        Agree (calls m cs) U (processPlan pr' h'.inv) := fun hn hk =>
    ⟨_,hk,hself,agree_of_sub h.inv h'.inv (fun L base => tenant_old h.inv hstep h'.inv hn) hthen⟩
  cases hs with
  | poolCreate target => exact hold rfl (fun _ hc => absurd hc List.not_mem_nil)
  | notOurs addr he => exact hold rfl (fun _ hc => absurd hc List.not_mem_nil)
  | regionCreate k sizes total fill b hk ha hr =>
    refine ⟨_,?_,(agree_of_sub h'.inv h.inv (fun L base ht => tenant_create h.inv ht b) hnow).symm,
      fun _ _ _ _ _ _ => ⟨Iff.rfl,Iff.rfl⟩⟩
    intro c hc
    rw [List.mem_singleton.mp hc]
    have hpool : (fcRegionCreate pr k sizes total ha fill b).pool k = regionListInsert (pr.pool k) pr.nextRegion
        (regionInit (Layout.ofSizes pr.pageSize sizes total ha) b fill) := Function.update_self _ _ _
    refine ⟨Layout.ofSizes pr.pageSize sizes total ha,⟨k,hk,pr.nextRegion,?_⟩,rfl⟩
    rw [hpool,insert_region_self]
    exact ⟨List.mem_cons_self,rfl,rfl⟩
  | fault addr k rid _ hk hf he =>
    obtain ⟨hx,hin⟩ := findRegionLocked_some hf
    rcases faultScan_cases he with ⟨hc,-⟩ | ⟨-,j,hj,x,s,hfind,hun,hs,rfl⟩
    · cases hc
    rw [findRegion_live h.inv hk hj hx hin] at hfind
    split_ifs at hfind with hjk
    subst hjk
    cases hfind
    obtain ⟨hot,cold,hp⟩ := h.inv.pool j hj
    obtain ⟨ms,s₁,hrun,-,hcs⟩ := resolve_calls (k := j) hp hx hun hs
    refine hold rfl ?_
    rw [hcs]
    exact run_keeps hrun hp (fun y hy => plan_planned h.inv hj hy)
  | regionDestroy k rid _ hk hr he =>
    refine hold ?_ (regionFree_keeps _ _ _ _ (plan_area h.inv hk hr))
    obtain ⟨p,-,rfl⟩ := Option.map_eq_some_iff.mp he
    rfl
  | poolDestroy k hk =>
    refine hold rfl (fun c hc => ?_)
    obtain ⟨x,hx,hc⟩ := List.mem_flatMap.mp hc
    exact regionFree_keeps _ _ _ _ (plan_area h.inv hk hx) c hc

end Steps

/-- A process in which the cache has not done anything yet. -/
structure Untouched (w : Win32) : Prop where
  uncached : ∀ q, ¬ Cached w.kernel q
  sections : ∀ n, w.kernel.sections n = none

section Samples

instance (P : ℕ) (k : Kernel Owner) (addr size : ℕ) : Decidable (Vacant P k addr size) :=
  decidable_of_iff (P ∣ addr ∧ addr+size < 2^64 ∧ ∀ i < size, k.space.alloc (addr+i) = none) (by
    constructor
    · rintro ⟨h1,h2,h3⟩
      refine ⟨h1,h2,fun q hq => ?_⟩
      have := h3 (q-addr) (by omega)
      rwa [Nat.add_sub_cancel' hq.1] at this
    · rintro ⟨h1,h2,h3⟩
      exact ⟨h1,h2,fun i hi => h3 _ ⟨Nat.le_add_right _ _,Nat.add_lt_add_left hi _⟩⟩)

instance (P pick : ℕ) (w : Win32) (c : VmCall) : Decidable (Picks P pick w c) :=
  match c with
  | .reserve base size => inferInstanceAs (Decidable (Vacant P w.kernel base size))
  | .create _ size => inferInstanceAs (Decidable (Vacant P w.kernel pick size))
  | .release _ _ | .setReadable _ _ _ | .decommit _ _ | .write _ _ _ _ | .copy _ _ _ _ _ | .seal _
  | .consume _ _ => inferInstanceAs (Decidable True)

/-- The calls with a kernel that picks by the kind of the call. -/
def windowsRun (P : ℕ) (pick : VmCall → ℕ) : Win32 → List VmCall → Option Win32
  | w, [] => some w
  | w, c::cs => if Picks P (pick c) w c then (win32Call P (pick c) w c).bind (windowsRun P pick · cs) else none

theorem windowsRun_exec {P : ℕ} {pick : VmCall → ℕ} {w₀ w w' : Win32} {cs ds : List VmCall}
    (hx : Exec P w₀ cs w) (he : windowsRun P pick w ds = some w') : Exec P w₀ (cs ++ ds) w' := by
  induction ds generalizing w cs with
  | nil =>
    cases he
    rwa [List.append_nil]
  | cons d ds ih =>
    rw [windowsRun] at he
    split_ifs at he with hp
    obtain ⟨w₁,h1,h2⟩ := Option.bind_eq_some_iff.mp he
    have := ih (hx.call hp h1) h2
    rwa [List.append_assoc] at this

/-- Sixteen bytes of the program, and nothing else. -/
def aloneSpace : Space Owner where
  alloc q := if q < 16 then some ⟨0,16,.other,.other⟩ else none
  within := by
    intro q a h
    split_ifs at h with hq
    cases h
    exact ⟨Nat.zero_le _,hq⟩
  whole := by
    intro q p a h hp
    split_ifs at h
    cases h
    exact if_pos hp.2

def alone : Win32 := ⟨⟨aloneSpace,fun _ => none,0⟩,fun _ => none⟩

theorem alone_untouched : Untouched alone := by
  refine ⟨?_,fun _ => rfl⟩
  rintro q ⟨a,ha,hmine⟩
  simp only [alone,aloneSpace] at ha
  split_ifs at ha
  cases ha
  cases hmine

def afterCalls (cs : List VmCall) : Win32 := (windowsRun 4 PosixProcess.samplePick alone cs).getD alone

theorem afterCalls_exec {cs : List VmCall} (h : (windowsRun 4 PosixProcess.samplePick alone cs).isSome = true) :
    Exec 4 alone cs (afterCalls cs) := by
  obtain ⟨w,hw⟩ := Option.isSome_iff_exists.mp h
  have := windowsRun_exec .start hw
  rwa [List.nil_append,show w = afterCalls cs by rw [afterCalls,hw]; rfl] at this

end Samples

section Windows
variable {P pick : ℕ} {vm : PageTable} {ms : List (Process × List VmCall)} {pr pr' : Process}
  {w₀ w : Win32} {cs ds : List VmCall} {c : VmCall}

theorem untouched_sim (h₀ : Untouched w₀) (h : ProcessInv (start P vm)) :
    Sim P (processPlan (start P vm) h) (untouched vm) w₀ := by
  have hnone : ∀ b h x, ¬ Holds (untouched vm) w₀ b h x := by
    rintro b h x ⟨hb,-⟩
    cases hb
  have hres : ∀ q, ¬ (untouched vm).reserved q = true := fun _ hr => absurd hr Bool.false_ne_true
  refine ⟨⟨fun q hq => absurd hq (hres q),fun _ _ _ _ => rfl,fun q hq => absurd hq (hres q),
    fun q _ _ hq => absurd hq (hres q),fun q _ _ _ hq => absurd hq (hres q)⟩,?_,
    fun q _ _ _ _ _ hq => absurd hq (hres q),?_⟩
  · refine ⟨fun b h hb => (by cases hb),fun b _ h _ x _ hb => absurd hb (hnone b h x),?_,?_⟩
    · intro n s hs
      rw [h₀.sections n] at hs
      cases hs
    · exact fun n _ => h₀.sections n
  · intro q
    refine iff_of_false (h₀.uncached q) ?_
    rintro (hq | ⟨b,h,x,hb,-⟩)
    · exact hres q hq
    · exact hnone b h x hb

theorem run_sim (hr : Run VmStep (start P vm) ms pr) (h₀ : Untouched w₀) (hx : Exec P w₀ (vmCalls ms) w) :
    ∃ h : ProcessInv pr, Sim P (processPlan pr h) (calls (untouched vm) (vmCalls ms)) w := by
  induction hr generalizing w with
  | start => exact ⟨start_inv P vm,exec_sim (untouched_sim h₀ _) trivial (by simp [vmCalls]) hx⟩
  | @move ms v v' cs hrun hs ih =>
    obtain ⟨hsound,hsize,hal,hb⟩ := run_backed hrun (start_sound P vm) (start_backed P vm)
    obtain rfl : v.pageSize = P := hsize
    rw [vmCalls_cons] at hx ⊢
    obtain ⟨w₁,hx₁,hx₂⟩ := hx.split
    obtain ⟨h,hsim⟩ := ih hx₁
    obtain ⟨U,hkeep,hbefore,hafter⟩ := step_plan hsound hs hb
    rw [calls_append]
    exact ⟨(vmStep_sound hsound hs).inv,
      sim_replan (exec_sim (sim_replan hsim hbefore) (vmStep_backed hsound hs hb).1 hkeep hx₂) hafter⟩

/-- Between two system calls of a public call. -/
theorem step_sim (hr : Run VmStep (start P vm) ms pr) (hs : VmStep pr (cs ++ ds) pr') (h₀ : Untouched w₀)
    (hx : Exec P w₀ (vmCalls ms ++ cs) w) :
    ∃ U, Sim P U (calls (calls (untouched vm) (vmCalls ms)) cs) w ∧ ∀ d ∈ cs ++ ds, Keeps U d := by
  obtain ⟨hsound,hsize,hal,hb⟩ := run_backed hr (start_sound P vm) (start_backed P vm)
  obtain rfl : pr.pageSize = P := hsize
  obtain ⟨w₁,hx₁,hx₂⟩ := hx.split
  obtain ⟨h,hsim⟩ := run_sim hr h₀ hx₁
  obtain ⟨U,hkeep,hbefore,-⟩ := step_plan hsound hs hb
  exact ⟨U,exec_sim (sim_replan hsim hbefore) (allowed_append.mp (vmStep_backed hsound hs hb).1).1
    (fun d hd => hkeep d (List.mem_append_left _ hd)) hx₂,hkeep⟩

/-- An address of the staging view of a page that waits for its second contribution. -/
def Waiting (pr : Process) (w : Win32) (q : ℕ) : Prop :=
  ∃ k rid j x, (kept pr k rid j).isSome = true ∧ w.scratch (.staging k rid j) = some x ∧
    x.addr ≤ q ∧ q < x.addr+pr.pageSize

/-- An allocation in a region: a placeholder, or a view of what is published at once. -/
def InRegion (pr : Process) (a : Alloc Owner) : Prop :=
  a.owner = .cache ∧ (a.kind = .placeholder ∨ ∃ v k rid off, a.kind = .view v ∧ k ∈ pr.pools ∧
    rid ∈ (pr.pool k).regions ∧ LayoutUnit ((pr.pool k).region rid).layout off a.size ∧
    a.base = ((pr.pool k).region rid).base+off)

/-- Between two public calls the cache has the ranges of the live regions, with
the protections and bytes of the page table, and the staging views of the pages
that wait for their second contribution, whose sections are the only ones with a
handle. No view in a region has pages of two chunks. -/
theorem allocations_are_accounted (hr : Run VmStep (start P vm) ms pr) (h₀ : Untouched w₀)
    (hx : Exec P w₀ (vmCalls ms) w) :
    (∀ q, Cached w.kernel q ↔ Ours pr q ∨ Waiting pr w q) ∧
    (∀ q, Ours pr q → ∃ a, w.kernel.space.alloc q = some a ∧ InRegion pr a) ∧
    (∀ q i, P ∣ q → i < P → Ours pr q →
      cells w.kernel (q+i) = some ⟨protOf (pr.vm q),.cache,bytesOf (pr.vm q) i⟩) ∧
    ∀ n s, w.kernel.sections n = some s → s.isOpen = true →
      ∃ k rid j x, (kept pr k rid j).isSome = true ∧ w.scratch (.staging k rid j) = some x ∧ x.sec = n := by
  obtain ⟨hsound,hsize,hal,hb⟩ := run_backed hr (start_sound P vm) (start_backed P vm)
  obtain ⟨hinv,hsim⟩ := run_sim hr h₀ hx
  set m := calls (untouched vm) (vmCalls ms) with hm
  have hstaging : ∀ b h, m.held b = some h → ∃ k rid j, b = .staging k rid j ∧ h.size = pr.pageSize ∧
      (kept pr k rid j).isSome = true := by
    intro b h hh
    cases b with
    | scratch =>
      rw [hb.scratch] at hh
      cases hh
    | staging k rid j =>
      refine ⟨k,rid,j,rfl,?_,?_⟩
      · rw [hb.staging,kept] at hh
        split_ifs at hh with hlive
        obtain ⟨buffer,hbuf,rfl⟩ := Option.map_eq_some_iff.mp hh
        exact (hsound.sized k hlive.1 rid hlive.2.1 j buffer hbuf).trans
          (hsound.inv.placed k hlive.1 rid hlive.2.1).pageSize
      · rw [← hb.staging,hh]
        rfl
  refine ⟨?_,?_,?_,?_⟩
  · intro q
    rw [hsim.ledger q,hb.reserved q]
    refine or_congr Iff.rfl ⟨?_,?_⟩
    · rintro ⟨b,h,x,⟨hh,hx⟩,h1,h2⟩
      obtain ⟨k,rid,j,rfl,hsz,hkept⟩ := hstaging b h hh
      simp only [stagingView,hsz] at h1 h2
      exact ⟨k,rid,j,x,hkept,hx,h1,h2⟩
    · rintro ⟨k,rid,j,x,hkept,hx,h1,h2⟩
      rw [← hb.staging] at hkept
      obtain ⟨h,hh⟩ := Option.isSome_iff_exists.mp hkept
      obtain ⟨-,-,-,-,hsz,-⟩ := hstaging _ h hh
      exact ⟨_,h,x,⟨hh,hx⟩,h1,by simp only [stagingView,hsz]; exact h2⟩
  · intro q hq
    obtain ⟨a,ha,hf⟩ := hsim.mapped.piece q ((hb.reserved q).mpr hq)
    refine ⟨a,ha,hf.owner,?_⟩
    have hkind := hf.kind
    cases hk : a.kind with
    | placeholder => exact Or.inl rfl
    | view v =>
      rw [hk] at hkind
      obtain ⟨-,⟨L,base,off,⟨k,hk,rid,hrid,rfl,rfl⟩,hu,hbase⟩,-⟩ := hkind
      exact Or.inr ⟨v,k,rid,off,rfl,hk,hrid,hu,hbase⟩
    | other =>
      rw [hk] at hkind
      exact hkind.elim
  · intro q i hq hi hours
    rw [← hb.table]
    exact hsim.mapped.pages q i hq hi ((hb.reserved q).mpr hours)
  · intro n s hs hopen
    obtain ⟨b,h,x,⟨hh,hx⟩,hn⟩ := hsim.buffers.handles n s hs hopen
    obtain ⟨k,rid,j,rfl,-,hkept⟩ := hstaging b h hh
    exact ⟨k,rid,j,x,hkept,hx,hn⟩

theorem allocations_are_accounted_mixed :
    (∀ q, Cached (afterCalls (vmCalls mixedRun)).kernel q ↔
      Ours mixedFilled q ∨ Waiting mixedFilled (afterCalls (vmCalls mixedRun)) q) ∧
    (∀ q, Ours mixedFilled q → ∃ a, (afterCalls (vmCalls mixedRun)).kernel.space.alloc q = some a ∧
      InRegion mixedFilled a) ∧
    (∀ q i, 4 ∣ q → i < 4 → Ours mixedFilled q → cells (afterCalls (vmCalls mixedRun)).kernel (q+i) =
      some ⟨protOf (mixedFilled.vm q),.cache,bytesOf (mixedFilled.vm q) i⟩) ∧
    ∀ n s, (afterCalls (vmCalls mixedRun)).kernel.sections n = some s → s.isOpen = true →
      ∃ k rid j x, (kept mixedFilled k rid j).isSome = true ∧
        (afterCalls (vmCalls mixedRun)).scratch (.staging k rid j) = some x ∧ x.sec = n :=
  allocations_are_accounted mixedRun_run alone_untouched (afterCalls_exec (by decide +kernel))

/-- After the same calls the two back ends show the same bytes with the same
protection at every address of a live region, wherever the two kernels put the
buffers and whatever else runs on the two machines. -/
theorem back_ends_agree {s₀ s : VmPosix.Posix} {k : PoolId} {rid : RegionId} {addr : ℕ}
    (hr : Run VmStep (start P vm) ms pr) (hs : VmStep pr (cs ++ ds) pr')
    (hp₀ : ∀ q, ¬ VmPosix.Cached s₀.space q) (hp : VmPosix.Exec P s₀ (vmCalls ms ++ cs) s)
    (h₀ : Untouched w₀) (hx : Exec P w₀ (vmCalls ms ++ cs) w) (hk : k ∈ pr.pools)
    (hrid : rid ∈ (pr.pool k).regions) (hk' : k ∈ pr'.pools) (hrid' : rid ∈ (pr'.pool k).regions)
    (hin : InRange ((pr.pool k).region rid) addr) :
    ∃ prot byte area, s.space addr = some ⟨prot,.cache area,byte⟩ ∧
      cells w.kernel addr = some ⟨prot,.cache,byte⟩ := by
  obtain ⟨hsound,hsize,hal,hb⟩ := run_backed hr (start_sound P vm) (start_backed P vm)
  obtain rfl : pr.pageSize = P := hsize
  obtain ⟨U,hsim,-⟩ := step_sim hr hs h₀ hx
  have hall : AllAllowed pr.pageSize (untouched vm) (vmCalls ms ++ cs) :=
    allowed_append.mpr ⟨hal,(allowed_append.mp (vmStep_backed hsound hs hb).1).1⟩
  have hposix := VmPosix.exec_sim (PosixProcess.untouched_sim hp₀) hall hp
  rw [calls_append] at hposix
  obtain ⟨hl,hbase,-⟩ := hsound.inv.placed k hk rid hrid
  have hP : 0 < pr.pageSize := hl ▸ ((pr.pool k).region rid).layout.pageSize_pos
  set p := pr.pageSize*(addr/pr.pageSize) with hpage
  have haddr : addr = p+addr%pr.pageSize := (Nat.div_add_mod addr pr.pageSize).symm
  have hpd : pr.pageSize ∣ p := dvd_mul_right _ _
  have hlt := Nat.mod_lt addr hP
  have hpin : InRange ((pr.pool k).region rid) p :=
    (AddressSpace.page_within hbase (hl ▸ ((pr.pool k).region rid).layout.dvd_mapped) hpd hlt).mp (haddr ▸ hin)
  obtain ⟨hres,-⟩ := PosixProcess.page_between hsound hb hs hk hrid hk' hrid' hpin
  obtain ⟨area,harea⟩ := hposix.pages p _ hpd hlt hres
  have hcell := hsim.mapped.pages p _ hpd hlt hres
  rw [← haddr] at harea hcell
  exact ⟨_,_,area,harea,hcell⟩

theorem back_ends_agree_mixed :
    ∃ prot byte area, (PosixProcess.afterCalls (vmCalls PosixProcess.mixedStart ++
        PosixProcess.firstFault.take 6)).space 17 = some ⟨prot,.cache area,byte⟩ ∧
      cells (afterCalls (vmCalls PosixProcess.mixedStart ++ PosixProcess.firstFault.take 6)).kernel 17 =
        some ⟨prot,.cache,byte⟩ :=
  back_ends_agree PosixProcess.mixedStart_run PosixProcess.firstFault_step PosixProcess.alone_uncached
    (PosixProcess.afterCalls_exec (by decide +kernel)) alone_untouched (afterCalls_exec (by decide +kernel))
    (k := 0) (by decide) (show 0 ∈ (mixed.pool 0).regions by decide) (by decide +kernel) (by decide +kernel)
    (by decide)

end Windows

end FaultCache.Win32Process
