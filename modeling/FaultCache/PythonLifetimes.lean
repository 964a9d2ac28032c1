import FaultCache.PythonHandles

/-!
# When the bindings give their handles back

`close` refuses as long as a view is around, and a pool may have closed some of
its regions before it finds one. Garbage has no views, so `__del__` never
refuses: whatever the program does and in whatever order its garbage is
collected, no handle is used once it is gone and none is left behind.
-/

set_option autoImplicit false

namespace FaultCache.PythonLifetimes
open FaultCache.PageGeometry FaultCache.VmPages FaultCache.PoolMachine FaultCache.PoolMemory
open FaultCache.FaultProcess FaultCache.ProcessInvariant FaultCache.OwnedHandles
open FaultCache.PythonSlices FaultCache.RegionSlices FaultCache.PythonObjects FaultCache.PythonHandles

section Closing
variable {s s' : Heap} {p : PoolRef} {r : RegionRef} {h : Handle} {v : View}

/-- Some of the objects in `Q` have been closed, and none with a view. -/
structure Closing (s s' : Heap) (Q : Ref → Prop) : Prop where
  calls : FaultProcess.Steps s.process s'.process
  views : s'.views = s.views
  pool : ∀ p, (s'.pool p).handle = (s.pool p).handle ∨ Q (.pool p) ∧ (s'.pool p).handle = none
  region : ∀ r, s'.region r = s.region r ∨
    Q (.region r) ∧ (∀ v ∈ s.views, v.region ≠ r) ∧ s'.region r = (s.region r).forget
  held : s'.held = s.held
  allocated : s'.allocated = s.allocated
  finalized : s'.finalized = s.finalized

namespace Closing
variable {Q Q' : Ref → Prop} {s₁ : Heap}

theorem refl (s : Heap) (Q : Ref → Prop) : Closing s s Q :=
  ⟨.refl,rfl,fun _ => Or.inl rfl,fun _ => Or.inl rfl,rfl,rfl,rfl⟩

theorem mono (hc : Closing s s' Q) (hq : ∀ x, Q x → Q' x) : Closing s s' Q' :=
  { hc with
    pool := fun p => (hc.pool p).imp_right (And.imp_left (hq _))
    region := fun r => (hc.region r).imp_right (And.imp_left (hq _)) }

theorem trans (h₁ : Closing s s₁ Q) (h₂ : Closing s₁ s' Q) : Closing s s' Q where
  calls := h₁.calls.trans h₂.calls
  views := h₂.views.trans h₁.views
  pool := by
    intro p
    rcases h₂.pool p with e₂ | ⟨hq,e₂⟩
    · rcases h₁.pool p with e₁ | ⟨hq,e₁⟩
      · exact Or.inl (e₂.trans e₁)
      · exact Or.inr ⟨hq,e₂.trans e₁⟩
    · exact Or.inr ⟨hq,e₂⟩
  region := by
    intro r
    rcases h₁.region r with e₁ | ⟨hq,hun,e₁⟩
    · rcases h₂.region r with e₂ | ⟨hq,hun,e₂⟩
      · exact Or.inl (e₂.trans e₁)
      · rw [h₁.views] at hun
        exact Or.inr ⟨hq,hun,e₂.trans (congrArg RegionObject.forget e₁)⟩
    · refine Or.inr ⟨hq,hun,?_⟩
      rcases h₂.region r with e₂ | ⟨-,-,e₂⟩
      · exact e₂.trans e₁
      · exact e₂.trans ((congrArg RegionObject.forget e₁).trans rfl)
  held := h₂.held.trans h₁.held
  allocated := h₂.allocated.trans h₁.allocated
  finalized := h₂.finalized.trans h₁.finalized

/-- What is closed stays closed. -/
theorem closed (hc : Closing s s' Q) {x : Ref} (hx : Closed s x) : Closed s' x := by
  cases x with
  | pool p =>
    rcases hc.pool p with he | ⟨-,he⟩
    · exact he.trans hx
    · exact he
  | region r =>
    rcases hc.region r with he | ⟨-,-,he⟩
    · exact (congrArg RegionObject.region he).trans hx
    · exact congrArg RegionObject.region he

end Closing

/-- `Region.close` refuses exactly a region with views, and else closes it. -/
theorem regionClose_spec (hb : Bound s) (r : RegionRef) :
    ∃ s' e, regionClose s r = some (s',e) ∧ Bound s' ∧ Closing s s' (· = .region r) ∧
      ((∃ v ∈ s.views, v.region = r) ∧ e = some .bufferError ∧ s' = s ∨
        (∀ v ∈ s.views, v.region ≠ r) ∧ e = none ∧ (s'.region r).region = none) := by
  cases ho : (s.region r).region with
  | none =>
    refine ⟨s,none,?_,hb,Closing.refl _ _,Or.inr ⟨?_,rfl,ho⟩⟩
    · simp only [regionClose,(hb.closed ho).1]
    · rintro v hv rfl
      obtain ⟨h,hopen⟩ := hb.view_open hv
      rw [ho] at hopen
      cases hopen
  | some h =>
    have haddr := (hb.described ho).addr
    by_cases hv : 0 < (s.region r).viewCount
    · refine ⟨s,some .bufferError,?_,hb,Closing.refl _ _,Or.inl ⟨?_,rfl,rfl⟩⟩
      · simp only [regionClose,haddr,if_pos hv]
      · have hno := mt hb.viewCount_zero_iff.mpr (not_not.mpr hv)
        push Not at hno
        exact hno
    · have hun := hb.viewCount_zero_iff.mp hv
      have hpool := hb.owner ho
      obtain ⟨k,rid⟩ := h
      have hlive := hb.regions.mem ho
      obtain ⟨pr,hd,hp,hl⟩ := destroy_regions hb.inv hlive
      have hs := FaultProcess.Step.regionDestroy _ k rid pr hlive.1 hlive.2 hd
      refine ⟨forgetRegion s r pr,none,?_,hb.forgetRegion ho hun hs hp hl,?_,Or.inr ⟨hun,rfl,?_⟩⟩
      · simp only [regionClose,haddr,if_neg hv,hpool,Option.isSome_some,if_true,ho,Option.bind_some,hd,
          Option.map_some]
      · refine ⟨Relation.ReflTransGen.single hs,rfl,fun _ => Or.inl forgetRegion_handle,?_,rfl,rfl,rfl⟩
        intro r'
        rw [forgetRegion_region]
        split_ifs with he
        · subst he
          exact Or.inr ⟨rfl,hun,rfl⟩
        · exact Or.inl rfl
      · rw [forgetRegion_region,if_pos rfl]
        rfl

/-- The loop of `Pool.close` gets past the regions without views. -/
theorem closeRegions_spec (rs : List RegionRef) (hb : Bound s) :
    ∃ s' e, closeRegions rs s = some (s',e) ∧ Bound s' ∧
      Closing s s' (fun x => ∃ r ∈ rs, x = .region r) ∧
      ((∃ v ∈ s.views, v.region ∈ rs) ∧ e = some .bufferError ∨
        (∀ v ∈ s.views, v.region ∉ rs) ∧ e = none ∧ ∀ r ∈ rs, (s'.region r).region = none) := by
  induction rs generalizing s with
  | nil => exact ⟨s,none,rfl,hb,Closing.refl s _,Or.inr ⟨fun _ _ => List.not_mem_nil,rfl,nofun⟩⟩
  | cons r rs ih =>
    obtain ⟨s₁,e₁,h₁,hb₁,hc₁,⟨⟨v,hv,hvr⟩,rfl,rfl⟩ | ⟨hun,rfl,hclosed⟩⟩ := regionClose_spec hb r
    · refine ⟨s₁,some .bufferError,?_,hb₁,Closing.refl _ _,Or.inl ⟨⟨v,hv,?_⟩,rfl⟩⟩
      · simp only [closeRegions,h₁]
      · exact hvr ▸ List.mem_cons_self
    · obtain ⟨s₂,e₂,h₂,hb₂,hc₂,hcases⟩ := ih hb₁
      refine ⟨s₂,e₂,?_,hb₂,(hc₁.mono ?_).trans (hc₂.mono ?_),?_⟩
      · simp only [closeRegions,h₁,h₂]
      · exact fun x hx => ⟨r,List.mem_cons_self,hx⟩
      · exact fun x ⟨r',hr',hx⟩ => ⟨r',List.mem_cons_of_mem _ hr',hx⟩
      · rw [hc₁.views] at hcases
        rcases hcases with ⟨⟨v,hv,hvr⟩,rfl⟩ | ⟨hun₂,rfl,hclosed₂⟩
        · exact Or.inl ⟨⟨v,hv,List.mem_cons_of_mem _ hvr⟩,rfl⟩
        · refine Or.inr ⟨?_,rfl,?_⟩
          · intro v hv hmem
            rcases List.mem_cons.mp hmem with he | hmem
            · exact hun v hv he
            · exact hun₂ v hv hmem
          · intro r' hmem
            rcases List.mem_cons.mp hmem with rfl | hmem
            · exact hc₂.closed (x := .region r') hclosed
            · exact hclosed₂ r' hmem

/-- The pool after its regions have gone. -/
theorem poolDestroy_bound {k : PoolId} (hb : Bound s) (hk : (s.pool p).handle = some k)
    (hr : ∀ r ∈ (s.pool p).regions, (s.region r).region = none) :
    Bound (forgetPool s p (fcPoolDestroy s.process k)) ∧
    FaultProcess.Step s.process (fcPoolDestroy s.process k) := by
  have hkl : k ∈ s.process.pools := hb.pools.mem hk
  have hs := FaultProcess.Step.poolDestroy s.process k hkl
  -- a region of the library would be one that the set lists
  have hempty : (s.process.pool k).regions = [] := by
    refine List.eq_nil_iff_forall_not_mem.mpr (fun rid hrid => ?_)
    obtain ⟨r,hro⟩ := (hb.regions.live (k,rid)).mp ⟨hkl,hrid⟩
    have hpool := hb.pools.injective (hb.owner hro) hk
    have := hr r (hpool ▸ hb.listed hro)
    rw [hro] at this
    cases this
  have hl := poolDestroy_regions hb.inv hempty
  refine ⟨?_,hs⟩
  constructor
  case process => exact hb.reachable_step hs
  case pools =>
    refine (hb.pools.closed hk).congr ?_ ?_
    · intro p'
      rw [forgetPool_handle,Function.update_apply]
    · exact fun k' => iff_of_eq (congrArg (k' ∈ ·) (poolDestroy_pools hb.inv))
  case regions => exact hb.regions.congr (fun _ => rfl) (fun h => iff_of_eq (congrArg (h ∈ ·) hl))
  case described => exact fun {r h} hro => hb.described_step hs hro (hl ▸ hb.regions.mem hro)
  case owner =>
    intro r h hro
    rw [forgetPool_handle,if_neg ?_]
    · exact hb.owner hro
    · intro he
      have hnone : (s.region r).region = none := hr r (he ▸ hb.listed hro)
      cases hnone.symm.trans hro
  case closed => exact hb.closed
  case member =>
    intro p' r
    rw [forgetPool_regions]
    exact hb.member
  case counted => exact hb.counted
  case viewed => exact hb.viewed
  case fresh =>
    rintro (p' | r) hx
    · have := hb.fresh (.pool p') hx
      rw [Closed,forgetPool_handle,this]
      exact ite_self none
    · exact hb.fresh (.region r) hx
  case gone =>
    rintro (p' | r) hx
    · obtain ⟨h1,h2⟩ := hb.gone (.pool p') hx
      refine ⟨h1,?_⟩
      rw [Closed,forgetPool_handle,h2]
      exact ite_self none
    · exact hb.gone (.region r) hx

/-- What belongs to a pool. -/
def OfPool (s : Heap) (p : PoolRef) : Ref → Prop
  | .pool p' => p' = p
  | .region r => (s.region r).pool = p

/-- `Pool.close` refuses exactly a pool with a view over one of its regions. It
may have closed other regions by then. -/
theorem poolClose_spec {order : List RegionRef} (hb : Bound s) (ho : Lists order (s.pool p).regions) :
    ∃ s' e, poolClose s p order = some (s',e) ∧ Bound s' ∧ Closing s s' (OfPool s p) ∧
      ((∃ v ∈ s.views, (s.region v.region).pool = p) ∧ e = some .bufferError ∧
          (s'.pool p).handle = (s.pool p).handle ∨
        (∀ v ∈ s.views, (s.region v.region).pool ≠ p) ∧ e = none ∧ ∀ x, OfPool s p x → Closed s' x) := by
  have hmem : ∀ {r}, r ∈ order ↔ r ∈ (s.pool p).regions := by
    intro r
    rw [← ho.2,List.mem_toFinset]
  have hviews : ∀ v ∈ s.views, v.region ∈ order ↔ (s.region v.region).pool = p := by
    intro v hv
    obtain ⟨h,hopen⟩ := hb.view_open hv
    rw [hmem,hb.member,hopen]
    simp
  have hof : ∀ r, (s.region r).pool = p → r ∉ order → (s.region r).region = none := by
    intro r hp hr
    by_contra hopen
    exact hr (hmem.mpr (hb.member.mpr ⟨hopen,hp⟩))
  cases hk : (s.pool p).handle with
  | none =>
    have hnone : ∀ r, (s.region r).pool = p → (s.region r).region = none := by
      intro r hp
      by_contra hopen
      obtain ⟨h,hopen⟩ := Option.ne_none_iff_exists'.mp hopen
      have howner := hb.owner hopen
      rw [hp,hk] at howner
      cases howner
    refine ⟨s,none,by simp only [poolClose,hk],hb,Closing.refl _ _,Or.inr ⟨?_,rfl,?_⟩⟩
    · intro v hv hp
      obtain ⟨h,hopen⟩ := hb.view_open hv
      cases (hnone _ hp).symm.trans hopen
    · rintro (p' | r) hx
      · rw [show p' = p from hx]
        exact hk
      · exact hnone r hx
  | some k =>
    obtain ⟨s₁,e,hc,hb₁,hclosing,hcases⟩ := closeRegions_spec order hb
    have hclosing' : Closing s s₁ (OfPool s p) := by
      apply hclosing.mono
      rintro x ⟨r,hr,rfl⟩
      exact (hb.member.mp (hmem.mp hr)).2
    have hhandle : ∀ p', (s₁.pool p').handle = (s.pool p').handle :=
      fun p' => (hclosing.pool p').resolve_right (fun ⟨⟨_,_,he⟩,_⟩ => by cases he)
    rcases hcases with ⟨⟨v,hv,hvr⟩,rfl⟩ | ⟨hun,rfl,hall⟩
    · refine ⟨s₁,some .bufferError,?_,hb₁,hclosing',Or.inl ⟨⟨v,hv,(hviews v hv).mp hvr⟩,rfl,?_⟩⟩
      · simp only [poolClose,hk,hc]
      · rw [hhandle,hk]
    · have hregions : ∀ r, (s.region r).pool = p → (s₁.region r).region = none := by
        intro r hp
        by_cases hr : r ∈ order
        · exact hall r hr
        · exact hclosing.closed (x := .region r) (hof r hp hr)
      have hpool : ∀ r, (s₁.region r).pool = (s.region r).pool := by
        intro r
        rcases hclosing.region r with he | ⟨-,-,he⟩
        · rw [he]
        · rw [he]
          rfl
      obtain ⟨hb₂,hs⟩ := poolDestroy_bound hb₁ ((hhandle p).trans hk)
        (fun r hr => hregions r ((hpool r).symm.trans (hb₁.member.mp hr).2))
      refine ⟨_,none,?_,hb₂,?_,Or.inr ⟨fun v hv hp => hun v hv ((hviews v hv).mpr hp),rfl,?_⟩⟩
      · simp only [poolClose,hk,hc]
      · refine { hclosing' with calls := hclosing.calls.tail hs, pool := fun p' => ?_ }
        rw [forgetPool_handle]
        split_ifs with he
        · exact Or.inr ⟨he,rfl⟩
        · exact Or.inl (hhandle p')
      · rintro (p' | r) hx
        · exact (forgetPool_handle p').trans (if_pos hx)
        · exact hregions r hx

/-- A view keeps its region alive, and the region its pool. -/
theorem garbage_unviewed {x : Ref} (hx : ¬ Alive s x) :
    match x with
    | .pool p => ∀ v ∈ s.views, (s.region v.region).pool ≠ p
    | .region r => ∀ v ∈ s.views, v.region ≠ r := by
  cases x with
  | pool p =>
    rintro v hv rfl
    exact hx (.pool (.viewed hv))
  | region r =>
    rintro v hv rfl
    exact hx (.viewed hv)

/-- What goes when an object is deleted. -/
def Taken (s : Heap) : Ref → Ref → Prop
  | .pool p => OfPool s p
  | .region r => (· = .region r)

/-- `__del__` has nothing to raise. -/
theorem deleted_spec {x : Ref} {e : Option PyException} (hb : Bound s) (hx : ¬ Alive s x)
    (hd : Deleted s x e s') : e = none ∧ Bound s' ∧ Closing s s' (Taken s x) ∧ Closed s' x := by
  have hun := garbage_unviewed hx
  cases hd with
  | @pool p order _ _ ho hc =>
    obtain ⟨s₁,e₁,hc₁,hb₁,hclosing,⟨⟨v,hv,hp⟩,-⟩ | ⟨-,rfl,hall⟩⟩ := poolClose_spec hb ho
    · exact absurd hp (hun v hv)
    · obtain ⟨rfl,rfl⟩ := Prod.mk.inj (Option.some.inj (hc₁.symm.trans hc))
      exact ⟨rfl,hb₁,hclosing,hall (.pool p) rfl⟩
  | @region r _ _ hc =>
    obtain ⟨s₁,e₁,hc₁,hb₁,hclosing,⟨⟨v,hv,hr⟩,-⟩ | ⟨-,rfl,hclosed⟩⟩ := regionClose_spec hb r
    · exact absurd hr (hun v hv)
    · obtain ⟨rfl,rfl⟩ := Prod.mk.inj (Option.some.inj (hc₁.symm.trans hc))
      exact ⟨rfl,hb₁,hclosing,hclosed⟩

/-- Whatever happens keeps the objects bound, and calls the library as it asks
to be called. -/
theorem step_bound (hb : Bound s) (hs : Step s s') : Bound s' ∧ FaultProcess.Steps s.process s'.process := by
  cases hs with
  | createPool p maxsize hp => exact ⟨hb.createPool hp maxsize,.single (.poolCreate _ _)⟩
  | createRegion p r chunkSizes fillChunk base e _ hp hr hres hc =>
    rcases Bound.createRegion_cases hc with ⟨rfl,-⟩ | ⟨k,fill,total,ha,hk,rfl,rfl,rfl⟩
    · exact ⟨hb,.refl⟩
    · obtain ⟨hsum,-⟩ := sum_sizes_exact _ 0 _ (by omega) ha.widths ha.summed
      rw [Nat.zero_add] at hsum
      rw [← hsum] at hres
      exact ⟨hb.addRegion hr hk ha hres,.single (.regionCreate _ _ _ _ _ _ (hb.pools.mem hk) ha hres)⟩
  | view r key hr =>
    refine ⟨hb.view key,?_⟩
    have hpr : (view s r key).1.process = s.process := by
      simp only [view]
      split
      · rfl
      · split
        · rfl
        · rfl
    rw [hpr]
    exact .refl
  | release v hv => exact ⟨hb.release hv,.refl⟩
  | regionClose r e _ hr hc =>
    obtain ⟨s₁,e₁,hc₁,hb₁,hclosing,-⟩ := regionClose_spec hb r
    obtain ⟨rfl,rfl⟩ := Prod.mk.inj (Option.some.inj (hc₁.symm.trans hc))
    exact ⟨hb₁,hclosing.calls⟩
  | poolClose p order e _ hp ho hc =>
    obtain ⟨s₁,e₁,hc₁,hb₁,hclosing,-⟩ := poolClose_spec hb ho
    obtain ⟨rfl,rfl⟩ := Prod.mk.inj (Option.some.inj (hc₁.symm.trans hc))
    exact ⟨hb₁,hclosing.calls⟩
  | access addr ours pr hf => exact ⟨hb.access hf,.single (.fault _ addr ours pr hf)⟩
  | hold x hx => exact ⟨{ hb with },.refl⟩
  | drop x => exact ⟨{ hb with },.refl⟩
  | finalize x e s₁ ha hx hf hd =>
    obtain ⟨-,hb₁,hclosing,hclosed⟩ := deleted_spec hb hx hd
    refine ⟨{ hb₁ with gone := ?_ },hclosing.calls⟩
    intro y hy
    by_cases he : y = x
    · subst he
      exact ⟨(congrFun hclosing.allocated y).trans ha,hclosed⟩
    · exact hb₁.gone y ((Function.update_of_ne he _ _).symm.trans hy)

theorem reachable_bound (h : Reachable s) : Bound s := by
  obtain ⟨pageSize,vm,hr⟩ := h
  induction hr with
  | refl => exact imported_bound pageSize vm
  | tail _ hs ih => exact (step_bound ih hs).1

/-- An object as another state has it. -/
def Kept (s s' : Heap) : Ref → Prop
  | .pool p => s'.pool p = s.pool p
  | .region r => s'.region r = s.region r

end Closing

section Runs
variable {s : Heap}

/-- A pool of eight bytes. -/
def samplePool : Heap := createPool (imported 4 (fun _ => .inaccessible)) 0 8

/-- With a region of two chunks that share a page. -/
def sampleCreated : Heap :=
  addRegion samplePool 0 0
    (fcRegionCreate samplePool.process 0 [6,4] 10 ProcessContract.sampleSizes (fun c i => (16*c+i+1).toUInt8) 16)
    ⟨⟨some 16,10⟩,0,some (0,0),fun c i => (16*c+i+1).toUInt8,0⟩

/-- And a view over its last five bytes, backwards. -/
def sampleViewed : Heap := (view sampleCreated 0 ⟨none,some 4,some (-1)⟩).1

theorem sampleViewed_reachable : Reachable sampleViewed := by
  refine ⟨4,fun _ => .inaccessible,?_⟩
  refine .tail (.tail (.single (.createPool _ 0 8 rfl)) ?_) (.view sampleCreated 0 _ rfl)
  refine .createRegion samplePool 0 0 [6,4] (some (fun c i => (16*c+i+1).toUInt8)) 16 none _ rfl rfl ?_ ?_
  · exact ⟨by decide,by decide,by simp [samplePool,createPool,imported,fcPoolCreate,start,poolInit]⟩
  · exact Bound.createRegion_stored rfl (by decide) rfl ProcessContract.sampleSizes

end Runs

end FaultCache.PythonLifetimes
