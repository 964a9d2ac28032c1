import FaultCache.VmPosix
import FaultCache.VmProcess

/-!
# A process on Linux

The process model, its calls on the seam and the Linux back end put together.
Other threads may look at the memory between any two system calls of a public
call. A page of a region is then as it was before one of the chunk operations of
the call or as it is after one, or nothing can be read from it: a fill publishes
every page once.
-/

set_option autoImplicit false

namespace FaultCache.PosixProcess
open FaultCache.SentinelRing FaultCache.PageGeometry FaultCache.SharedPages FaultCache.VmPages
open FaultCache.PoolMachine FaultCache.PoolStaging FaultCache.PoolQueue FaultCache.PoolMemory
open FaultCache.PoolHistory FaultCache.PoolInvariant FaultCache.PoolResolve FaultCache.FaultProcess
open FaultCache.ProcessInvariant FaultCache.ProcessContract FaultCache.LabelledRuns
open FaultCache.PoolLifetime FaultCache.FaultEffects FaultCache.FillSafety FaultCache.RangeTiling
open FaultCache.ScratchContract FaultCache.VmContract FaultCache.VmTrace FaultCache.VmBacking
open FaultCache.VmProcess FaultCache.AddressSpace
open FaultCache.VmPosix (Posix Owner Exec Cached Holds Picks Sim posixCall protOf bytesOf Vacant)

section Between
variable {P : ℕ} {m : Memory} {cs ds : List VmCall} {c : VmCall} {q : ℕ}

/-- The calls of a fill, which touch the region by publishing only. -/
def OnBuffers : VmCall → Prop
  | .create _ _ | .write _ _ _ _ | .copy _ _ _ _ _ | .seal _ | .consume _ _ => True
  | _ => False

theorem buffer_call (hc : OnBuffers c) (ha : Allowed P m c) : (call m c).reserved = m.reserved ∧
    (P ∣ q → (call m c).table q = m.table q ∨ m.table q = .inaccessible) := by
  match c, hc, ha with
  | .create _ _, _, _ => exact ⟨rfl,fun _ => Or.inl rfl⟩
  | .write _ _ _ _, _, _ => exact ⟨rfl,fun _ => Or.inl rfl⟩
  | .copy _ _ _ _ _, _, _ => exact ⟨rfl,fun _ => Or.inl rfl⟩
  | .seal _, _, _ => exact ⟨rfl,fun _ => Or.inl rfl⟩
  | .consume b (.discard off len), _, ha =>
    obtain ⟨h,hb,-⟩ := ha
    exact ⟨rfl,fun _ => Or.inl (by rw [call,hb]; rfl)⟩
  | .consume b (.publish off len target), _, ha =>
    obtain ⟨h,hb,-,-,-,-,-,hr⟩ := ha
    refine ⟨rfl,fun hq => ?_⟩
    by_cases hin : target ≤ q ∧ q < target+len
    · exact Or.inr ((hr q hin).2 hq)
    · refine Or.inl ?_
      rw [call,hb]
      exact if_neg hin

theorem buffer_calls (hc : ∀ c ∈ cs, OnBuffers c) (ha : AllAllowed P m cs) :
    (calls m cs).reserved = m.reserved ∧
    (P ∣ q → (calls m cs).table q = m.table q ∨ m.table q = .inaccessible) := by
  induction cs generalizing m with
  | nil => exact ⟨rfl,fun _ => Or.inl rfl⟩
  | cons c cs ih =>
    obtain ⟨h1,h2⟩ := buffer_call (q := q) (hc c List.mem_cons_self) ha.1
    obtain ⟨h3,h4⟩ := ih (fun d hd => hc d (List.mem_cons_of_mem _ hd)) ha.2
    refine ⟨h3.trans h1,fun hq => ?_⟩
    rcases h2 hq with he | hi
    · rw [← he]
      exact h4 hq
    · exact Or.inr hi

theorem stageCalls_onBuffers (k : PoolId) (rid : RegionId) (r : Region) (j i : ℕ) :
    ∀ c ∈ stageCalls k rid r j i, OnBuffers c := by
  intro c hc
  simp only [stageCalls] at hc
  rcases List.mem_append.mp hc with hc | hc
  · split_ifs at hc
    · cases hc
    · rw [List.mem_singleton.mp hc]
      trivial
  · rcases List.mem_cons.mp hc with rfl | hc
    · trivial
    · split_ifs at hc
      · rcases List.mem_pair.mp hc with rfl | rfl <;> trivial
      · cases hc

theorem stageWhenCalls_onBuffers (k : PoolId) (rid : RegionId) (flag : Bool) (r : Region) (sp : Option ℕ)
    (i : ℕ) : ∀ c ∈ stageWhenCalls k rid flag r sp i, OnBuffers c := by
  intro c hc
  simp only [stageWhenCalls] at hc
  split_ifs at hc
  · cases sp with
    | none => cases hc
    | some j => exact stageCalls_onBuffers k rid r j i c hc
  · cases hc

theorem fill_onBuffers (k : PoolId) (rid : RegionId) (r : Region) (i : ℕ) :
    ∀ c ∈ fillChunkCalls k rid r i, OnBuffers c := by
  intro c hc
  simp only [fillChunkCalls,List.mem_cons,List.mem_append,List.mem_map] at hc
  rcases hc with rfl | rfl | hc | rfl | ⟨p,-,rfl⟩
  · trivial
  · trivial
  · simp only [stageSharedCalls] at hc
    split_ifs at hc
    · cases hc
    · rcases List.mem_append.mp hc with hc | hc
      · exact stageWhenCalls_onBuffers _ _ _ _ _ _ c hc
      · exact stageWhenCalls_onBuffers _ _ _ _ _ _ c hc
  · trivial
  · trivial

/-- Nothing can be read from the page, or it is as some state has it. -/
def As (m : Memory) (q : ℕ) (vm : PageTable) : Prop := m.table q = .inaccessible ∨ m.table q = vm q

theorem short_split (hlen : cs.length ≤ 1) {as bs : List VmCall} (he : cs = as ++ bs) : as = [] ∨ bs = [] := by
  rw [he,List.length_append] at hlen
  rcases as with - | ⟨a,as⟩
  · exact Or.inl rfl
  · exact Or.inr (List.length_eq_zero_iff.mp (by rw [List.length_cons] at hlen; omega))

variable {k : PoolId} {s s' : State} {e : Event} {hot cold : List Node} {as bs : List VmCall}

/-- Between the calls of one chunk operation. -/
theorem micro_between (h : PoolInv s hot cold) (hp : Paged P s.pool) (hz : BuffersSized s.pool)
    (hb : Backs k s m) (hm : Micro s e s') (he : microCalls k s e = as ++ bs) :
    (calls m as).reserved = m.reserved ∧
      (P ∣ q → As (calls m as) q s.vm ∨ As (calls m as) q s'.vm) := by
  obtain ⟨hal,hbs,hkept⟩ := micro_backs h hp hz hb hm
  have hends : (as = [] ∨ bs = []) → (calls m as).reserved = m.reserved ∧
      (P ∣ q → As (calls m as) q s.vm ∨ As (calls m as) q s'.vm) := by
    rintro (rfl | rfl)
    · exact ⟨rfl,fun _ => Or.inl (Or.inr (congrFun hb.table q))⟩
    · rw [List.append_nil] at he
      rw [← he]
      exact ⟨hkept.reserved,fun _ => Or.inr (Or.inr (congrFun hbs.table q))⟩
  have hset : ∀ (r : Region) (c : ℕ) (b : Bool), (chunkSetReadableCalls r c b).length ≤ 1 := by
    intro r c b
    simp only [chunkSetReadableCalls]
    split_ifs <;> simp
  cases e with
  | fill n size =>
    have hall := fill_onBuffers k n.1 (s.pool.region n.1) n.2
    have he' : fillChunkCalls k n.1 (s.pool.region n.1) n.2 = as ++ bs := he
    rw [he] at hal
    rw [he'] at hall
    obtain ⟨a₁,a₂⟩ := allowed_append.mp hal
    refine ⟨(buffer_calls (q := q) (fun c hc => hall c (List.mem_append_left _ hc)) a₁).1,fun hq => Or.inr ?_⟩
    rcases (buffer_calls (q := q) (fun c hc => hall c (List.mem_append_right _ hc)) a₂).2 hq with heq | hi
    · rw [← calls_append,← he,hbs.table] at heq
      exact Or.inr heq.symm
    · exact Or.inl hi
  | promote n => exact hends (short_split (hset _ _ _) he)
  | demote n => exact hends (short_split (hset _ _ _) he)
  | evict n =>
    refine hends (short_split ?_ he)
    simp only [microCalls,lruEvictCalls]
    split_ifs <;> simp

theorem run_sized {ms : List (State × Event)} (hr : Run Micro s ms s') (h : PoolInv s hot cold)
    (hz : BuffersSized s.pool) : BuffersSized s'.pool := by
  let Good : State → Prop := fun v => (∃ hot cold, PoolInv v hot cold) ∧ BuffersSized v.pool
  have hstep : ∀ {v v' e}, Good v → Micro v e v' → Good v' := by
    rintro v v' e ⟨⟨hot,cold,hv⟩,hz⟩ hm
    exact ⟨(hm.touched hv).2,micro_buffersSized hv hm hz⟩
  exact (Run.invariant (show Good s from ⟨⟨hot,cold,h⟩,hz⟩) hstep hr).1.2

/-- Between the calls of several chunk operations. -/
theorem run_between {ms : List (State × Event)} (hr : Run Micro s ms s') (h : PoolInv s hot cold)
    (hp : Paged P s.pool) (hz : BuffersSized s.pool) (hb : Backs k s m) (he : runCalls k ms = as ++ bs) :
    (calls m as).reserved = m.reserved ∧
      (P ∣ q → ∃ v, MicroRun s v ∧ As (calls m as) q v.vm) := by
  induction hr generalizing bs with
  | start =>
    obtain ⟨rfl,rfl⟩ := List.append_eq_nil_iff.mp he.symm
    exact ⟨rfl,fun _ => ⟨s,Relation.ReflTransGen.refl,Or.inr (congrFun hb.table q)⟩⟩
  | @move ms v v' e hrun hm ih =>
    rw [runCalls_cons] at he
    rcases List.append_eq_append_iff.mp he with ⟨cs,rfl,hrest⟩ | ⟨cs,hrest,-⟩
    · obtain ⟨hal,hbv,hkept⟩ := run_backs hrun h hp hz hb
      have hframe := (Run.microRun hrun).frame ⟨hot,cold,h⟩
      obtain ⟨-,hot₁,cold₁,hv⟩ := run_history hrun ⟨hot,cold,h⟩
      obtain ⟨hres,hpage⟩ := micro_between (q := q) hv (hp.of_shapes hframe.regions hframe.shape)
        (run_sized hrun h hz) hbv hm hrest
      rw [calls_append]
      refine ⟨hres.trans hkept.reserved,fun hq => ?_⟩
      rcases hpage hq with has | has
      · exact ⟨v,Run.microRun hrun,has⟩
      · exact ⟨v',(Run.microRun hrun).tail ⟨e,hm⟩,has⟩
    · exact ih hrest

end Between

section Instants
variable {pr pr' : Process} {m : Memory} {as bs : List VmCall} {q : ℕ}

/-- The calls of a destruction. -/
def GivesBack : VmCall → Prop
  | .release _ _ | .consume _ (.discard _ _) => True
  | _ => False

theorem givesBack_calls (hc : ∀ c ∈ as, GivesBack c) : (calls m as).table q = .inaccessible ∨
    (calls m as).table q = m.table q := by
  induction as generalizing m with
  | nil => exact Or.inr rfl
  | cons c cs ih =>
    rcases ih (m := call m c) (fun d hd => hc d (List.mem_cons_of_mem _ hd)) with hi | he
    · exact Or.inl hi
    · rw [calls_cons,he]
      match c, hc c List.mem_cons_self with
      | .release base size, _ =>
        by_cases hin : base ≤ q ∧ q < base+size
        · exact Or.inl (if_pos hin)
        · exact Or.inr (if_neg hin)
      | .consume b (.discard off len), _ =>
        refine Or.inr ?_
        simp only [call]
        cases m.held b <;> rfl

theorem givesBack_reserved (hc : ∀ c ∈ bs, GivesBack c) (hq : (calls m bs).reserved q = true) :
    m.reserved q = true := by
  induction bs generalizing m with
  | nil => exact hq
  | cons c cs ih =>
    have hnext := ih (m := call m c) (fun d hd => hc d (List.mem_cons_of_mem _ hd)) hq
    match c, hc c List.mem_cons_self with
    | .release base size, _ =>
      simp only [call] at hnext
      split_ifs at hnext
      exact hnext
    | .consume b (.discard off len), _ => exact hnext

theorem regionFree_givesBack (k : PoolId) (rid : RegionId) (r : Region) :
    ∀ c ∈ regionFreeCalls k rid r, GivesBack c := by
  intro c hc
  rcases List.mem_cons.mp hc with rfl | hc
  · trivial
  · obtain ⟨j,-,rfl⟩ := List.mem_map.mp hc
    trivial

/-- A state of the process in which the region is where it was. -/
structure SameRegion (pr w : Process) (k : PoolId) (rid : RegionId) : Prop where
  inv : ProcessInv w
  pool : k ∈ w.pools
  region : rid ∈ (w.pool k).regions
  shape : SameShape ((pr.pool k).region rid) ((w.pool k).region rid)

/-- A page that can be read shows finished chunks. -/
theorem SameRegion.shown {w : Process} {k : PoolId} {rid : RegionId} {b : ℕ → UInt8} (h : SameRegion pr w k rid)
    (hq : InRange ((pr.pool k).region rid) q) (hd : ((pr.pool k).region rid).layout.pageSize ∣ q)
    (hbase : ((pr.pool k).region rid).layout.pageSize ∣ ((pr.pool k).region rid).base) (has : As m q w.vm)
    (hb : m.table q = .readable b) : ∀ i < ((pr.pool k).region rid).layout.pageSize,
      ShowsByte ((pr.pool k).region rid) (q-((pr.pool k).region rid).base+i) (b i) := by
  obtain ⟨hot,cold,hinv⟩ := h.inv.pool k h.pool
  obtain ⟨hle,hlt⟩ := hq
  have hvm : w.vm q = .readable b := by
    rcases has with hi | he
    · rw [hi] at hb
      cases hb
    · rw [← he]
      exact hb
  have hoff : q-((pr.pool k).region rid).base < ((pr.pool k).region rid).layout.mappedSize := by omega
  have haligned : ((w.pool k).region rid).layout.pageSize ∣ q-((pr.pool k).region rid).base := by
    rw [h.shape.layout]
    exact Nat.dvd_sub hd hbase
  have hshown := (page_shown hinv h.region haligned (by simp only [h.shape.layout]; exact hoff)).2 b
  simp only [h.shape.base,h.shape.layout,h.shape.content,Nat.add_sub_cancel' hle] at hshown
  intro i hi
  rw [hshown hvm i hi]
  exact shows_content _ _

/-- At any moment during a public call a page of a live region is as it is
in some consistent state of the process, or nothing can be read from it. -/
theorem page_between {k : PoolId} {rid : RegionId} (h : Sound pr) (hb : Backed pr m)
    (hs : VmStep pr (as ++ bs) pr') (hk : k ∈ pr.pools) (hr : rid ∈ (pr.pool k).regions)
    (hk' : k ∈ pr'.pools) (hr' : rid ∈ (pr'.pool k).regions) (hq : InRange ((pr.pool k).region rid) q) :
    (calls m as).reserved q = true ∧
      (pr.pageSize ∣ q → ∃ w, SameRegion pr w k rid ∧ As (calls m as) q w.vm) := by
  have hself : SameRegion pr pr k rid := ⟨h.inv,hk,hr,SameShape.refl _⟩
  have hbefore : m.reserved q = true := (hb.reserved q).mpr ⟨k,hk,rid,hr,hq⟩
  have hshape := (step_survives h.inv (vmStep_step hs) (h.inv.freshPool k hk) (h.inv.freshRegion k hk rid hr)
    hk' hr').shape
  have hafter : (calls m (as ++ bs)).reserved q = true :=
    ((vmStep_backed h hs hb).2.reserved q).mpr ⟨k,hk',rid,hr',(hshape.inRange q).mpr hq⟩
  have hback : (∀ c ∈ as ++ bs, GivesBack c) → (calls m as).reserved q = true ∧
      (pr.pageSize ∣ q → ∃ w, SameRegion pr w k rid ∧ As (calls m as) q w.vm) := by
    intro hall
    rw [calls_append] at hafter
    refine ⟨givesBack_reserved (fun c hc => hall c (List.mem_append_right _ hc)) hafter,fun _ => ?_⟩
    refine ⟨pr,hself,?_⟩
    rcases givesBack_calls (m := m) (q := q) (fun c hc => hall c (List.mem_append_left _ hc)) with hi | he
    · exact Or.inl hi
    · exact Or.inr (he.trans (congrFun hb.table q))
  generalize he : as ++ bs = cs at hs hback hafter
  cases hs with
  | poolCreate targetSize =>
    obtain ⟨rfl,rfl⟩ := List.append_eq_nil_iff.mp he
    exact hback (fun _ hc => absurd hc List.not_mem_nil)
  | notOurs addr _ =>
    obtain ⟨rfl,rfl⟩ := List.append_eq_nil_iff.mp he
    exact hback (fun _ hc => absurd hc List.not_mem_nil)
  | regionCreate j sizes total fill base hj ha hres =>
    rcases short_split (le_refl _) he.symm with rfl | rfl
    · exact ⟨hbefore,fun _ => ⟨pr,hself,Or.inr (congrFun hb.table q)⟩⟩
    · rw [List.append_nil] at he
      rw [he]
      refine ⟨hafter,fun _ => ⟨pr,hself,?_⟩⟩
      have hout : ¬ (base ≤ q ∧ q < base+pageCeil total pr.pageSize) := fun hc => hres.vacant k hk rid hr q hc hq
      exact Or.inr ((if_neg hout).trans (congrFun hb.table q))
  | fault addr j x _ hj hf hres =>
    obtain ⟨hx,hin⟩ := findRegionLocked_some hf
    rcases faultScan_cases hres with ⟨hc,-⟩ | ⟨-,j',hj',x',s,hfind,hun,hs,rfl⟩
    · cases hc
    rw [findRegion_live h.inv hj hj' hx hin] at hfind
    split_ifs at hfind with hjk
    subst hjk
    cases hfind
    obtain ⟨hot,cold,hp⟩ := h.inv.pool j' hj
    obtain ⟨ms,s₁,hrun,-,hcs⟩ := resolve_calls (k := j') hp hx hun hs
    obtain ⟨hreserved,hpage⟩ := run_between (q := q) hrun hp (paged h.inv hj) (h.sized j' hj) (hb.pool hj)
      (hcs.symm.trans he.symm)
    refine ⟨(congrFun hreserved q).trans hbefore,fun hd => ?_⟩
    obtain ⟨v,hv,has⟩ := hpage hd
    obtain ⟨-,hot₁,cold₁,hvinv⟩ := hv.induct (motive := fun _ => True) ⟨hot,cold,hp⟩ trivial
      (fun _ _ _ _ _ _ _ => trivial)
    have hframe := hv.frame ⟨hot,cold,hp⟩
    refine ⟨withState pr j' v,⟨?_,hk,?_,?_⟩,has⟩
    · refine h.inv.replace hj hvinv ?_ ?_ ?_ hframe.pages
      · exact fun r hr => hframe.regions ▸ hr
      · exact fun r _ => hframe.shape r
      · intro e he
        rcases hframe.history e he with hold | hnew
        · exact h.inv.freshEvent j' hj e hold
        · exact h.inv.freshRegion j' hj _ hnew
    · by_cases hkj : k = j'
      · subst hkj
        rw [withState_pool_self,hframe.regions]
        exact hr
      · rw [withState_pool_of_ne pr v hkj]
        exact hr
    · by_cases hkj : k = j'
      · subst hkj
        rw [withState_pool_self]
        exact hframe.shape rid
      · rw [withState_pool_of_ne pr v hkj]
        exact SameShape.refl _
  | regionDestroy j x _ hj hx _ => exact hback (regionFree_givesBack _ _ _)
  | poolDestroy j hj =>
    refine hback (fun c hc => ?_)
    obtain ⟨x,-,hc⟩ := List.mem_flatMap.mp hc
    exact regionFree_givesBack _ _ _ c hc

/-- What is mapped at an address of a live region between two system calls,
where the pages are mapped as the contract says. -/
theorem shows_between {O : Type*} (sp : Space O) {k : PoolId} {rid : RegionId} {addr : ℕ}
    (h : Sound pr) (hb : Backed pr m) (hs : VmStep pr (as ++ bs) pr') (hk : k ∈ pr.pools)
    (hr : rid ∈ (pr.pool k).regions) (hk' : k ∈ pr'.pools) (hr' : rid ∈ (pr'.pool k).regions)
    (hin : InRange ((pr.pool k).region rid) addr)
    (hpages : ∀ q i, pr.pageSize ∣ q → i < pr.pageSize → (calls m as).reserved q = true →
      ∃ o, sp (q+i) = some ⟨protOf ((calls m as).table q),o,bytesOf ((calls m as).table q) i⟩) :
    (∀ byte, load sp addr = some byte →
      ShowsByte ((pr.pool k).region rid) (addr-((pr.pool k).region rid).base) byte) ∧
    ∃ c, sp addr = some c ∧ c.prot ≠ .readWrite := by
  have hplaced := h.inv.placed k hk rid hr
  set r := (pr.pool k).region rid with hrdef
  set P := pr.pageSize with hPdef
  have hP : 0 < P := by
    have := r.layout.pageSize_pos
    rwa [hplaced.pageSize] at this
  obtain ⟨hl,hbase,hfits⟩ := hplaced
  set p := P*(addr/P) with hp
  set i := addr%P with hi
  have haddr : addr = p+i := (Nat.div_add_mod addr P).symm
  have hpd : P ∣ p := dvd_mul_right _ _
  have hilt : i < P := Nat.mod_lt _ hP
  have hpin : InRange r p := (page_within hbase (hl ▸ r.layout.dvd_mapped) hpd hilt).mp (haddr ▸ hin)
  obtain ⟨hresp,hpage⟩ := page_between h hb hs hk hr hk' hr' hpin
  obtain ⟨w,hw,has⟩ := hpage hpd
  obtain ⟨o,ho⟩ := hpages p i hpd hilt hresp
  rw [← haddr] at ho
  refine ⟨fun byte hbyte => ?_,_,ho,?_⟩
  · rw [load,ho,Option.bind_some] at hbyte
    cases ht : (calls m as).table p with
    | inaccessible =>
      rw [ht] at hbyte
      cases hbyte
    | hidden b =>
      rw [ht] at hbyte
      cases hbyte
    | readable b =>
      rw [ht] at hbyte
      cases hbyte
      have hoff : addr-r.base = p-r.base+i := by
        have := hpin.1
        omega
      rw [hoff]
      exact hw.shown hpin (hl.symm ▸ hpd) (hl.symm ▸ hbase) has ht i (hl.symm ▸ hilt)
  · cases (calls m as).table p <;> simp [protOf]

end Instants

section Samples

instance (P : ℕ) (sp : Space Owner) (addr size : ℕ) : Decidable (Vacant P sp addr size) :=
  decidable_of_iff (P ∣ addr ∧ addr+wholePages P size ≤ 2^64 ∧
      ∀ i < wholePages P size, (sp (addr+i)).isNone = true) (by
    constructor
    · rintro ⟨h1,h2,h3⟩
      refine ⟨h1,h2,fun q hq => ?_⟩
      have := h3 (q-addr) (by omega)
      rwa [Nat.add_sub_cancel' hq.1,Option.isNone_iff_eq_none] at this
    · rintro ⟨h1,h2,h3⟩
      refine ⟨h1,h2,fun i hi => ?_⟩
      rw [h3 (addr+i) ⟨Nat.le_add_right _ _,Nat.add_lt_add_left hi _⟩]
      rfl)

instance (P pick : ℕ) (s : Posix) (c : VmCall) : Decidable (Picks P pick s c) :=
  match c with
  | .reserve base size => inferInstanceAs (Decidable (Vacant P s.space base size))
  | .create _ size => inferInstanceAs (Decidable (Vacant P s.space pick size))
  | .release _ _ | .setReadable _ _ _ | .decommit _ _ | .write _ _ _ _ | .copy _ _ _ _ _ | .seal _
  | .consume _ _ => inferInstanceAs (Decidable True)

/-- The calls with a kernel that picks by the kind of the call. -/
def kernelRun (P : ℕ) (pick : VmCall → ℕ) : Posix → List VmCall → Option Posix
  | s, [] => some s
  | s, c::cs => if Picks P (pick c) s c then (posixCall P (pick c) s c).bind (kernelRun P pick · cs) else none

theorem kernelRun_exec {P : ℕ} {pick : VmCall → ℕ} {s₀ s s' : Posix} {cs ds : List VmCall}
    (hx : Exec P s₀ cs s) (he : kernelRun P pick s ds = some s') : Exec P s₀ (cs ++ ds) s' := by
  induction ds generalizing s cs with
  | nil =>
    cases he
    rwa [List.append_nil]
  | cons d ds ih =>
    rw [kernelRun] at he
    split_ifs at he with hp
    obtain ⟨s₁,h1,h2⟩ := Option.bind_eq_some_iff.mp he
    have := ih (hx.call hp h1) h2
    rwa [List.append_assoc] at this

/-- Sixteen bytes of the program, and nothing else. -/
def aloneSpace : Posix := ⟨fun q => if q < 16 then some ⟨.readWrite,.other,7⟩ else none,0,fun _ => none⟩

theorem alone_uncached : ∀ q, ¬ Cached aloneSpace.space q := by
  rintro q ⟨c,hc,area,hmine⟩
  simp only [aloneSpace] at hc
  split_ifs at hc
  cases hc
  cases hmine

def samplePick : VmCall → ℕ
  | .create .scratch _ => 64
  | _ => 96

def afterCalls (cs : List VmCall) : Posix := (kernelRun 4 samplePick aloneSpace cs).getD aloneSpace

theorem afterCalls_exec {cs : List VmCall} (h : (kernelRun 4 samplePick aloneSpace cs).isSome = true) :
    Exec 4 aloneSpace cs (afterCalls cs) := by
  obtain ⟨s,hs⟩ := Option.isSome_iff_exists.mp h
  have := kernelRun_exec .start hs
  rwa [List.nil_append,show s = afterCalls cs by rw [afterCalls,hs]; rfl] at this

end Samples

section Linux
variable {P pick : ℕ} {vm : PageTable} {ms : List (Process × List VmCall)} {pr pr' : Process}
  {s₀ s : Posix} {cs ds : List VmCall} {c : VmCall}

theorem untouched_sim (h₀ : ∀ q, ¬ Cached s₀.space q) : Sim P (untouched vm) s₀ := by
  have hno : ∀ b q, ¬ Holds (untouched vm) s₀ b q := by
    rintro b q ⟨h,x,hb,-⟩
    cases hb
  refine ⟨?_,fun _ _ _ _ => rfl,?_,?_,?_,?_,?_⟩
  · exact fun _ hr => absurd hr Bool.false_ne_true
  · exact fun _ _ _ _ hr => absurd hr Bool.false_ne_true
  · intro b h hb
    cases hb
  · intro q
    refine iff_of_false (h₀ q) ?_
    rintro (hr | ⟨b,hb⟩)
    · exact absurd hr Bool.false_ne_true
    · exact hno b q hb
  · exact fun b q hq => absurd hq (hno b q)
  · exact fun b _ q hq => absurd hq (hno b q)

/-- An address of a page that waits for its second contribution. -/
def Waiting (pr : Process) (s : Posix) (q : ℕ) : Prop :=
  ∃ k rid j x, (kept pr k rid j).isSome = true ∧ s.scratch (.staging k rid j) = some x ∧
    x.addr ≤ q ∧ q < x.addr+pr.pageSize

/-- Between two public calls the cache has the ranges of the live regions, with
the protections and bytes of the page table, and the pages that wait for their
second contribution. Nothing else of the address space is its own. -/
theorem address_space_is_accounted (hr : Run VmStep (start P vm) ms pr) (h₀ : ∀ q, ¬ Cached s₀.space q)
    (hx : Exec P s₀ (vmCalls ms) s) :
    (∀ q, Cached s.space q ↔ Ours pr q ∨ Waiting pr s q) ∧
    ∀ q i, P ∣ q → i < P → Ours pr q →
      ∃ a, s.space (q+i) = some ⟨protOf (pr.vm q),.cache a,bytesOf (pr.vm q) i⟩ := by
  obtain ⟨hsound,hsize,hal,hb⟩ := run_backed hr (start_sound P vm) (start_backed P vm)
  have hsim := VmPosix.exec_sim (untouched_sim h₀) hal hx
  set m := calls (untouched vm) (vmCalls ms) with hm
  have hstaging : ∀ k rid j h, m.held (.staging k rid j) = some h → h.used = [] ∧ h.size = pr.pageSize := by
    intro k rid j h hh
    rw [hb.staging,kept] at hh
    split_ifs at hh with hlive
    obtain ⟨buffer,hbuf,rfl⟩ := Option.map_eq_some_iff.mp hh
    refine ⟨rfl,?_⟩
    exact (hsound.sized k hlive.1 rid hlive.2.1 j buffer hbuf).trans
      (hsound.inv.placed k hlive.1 rid hlive.2.1).pageSize
  constructor
  · intro q
    rw [hsim.ledger q,hb.reserved q]
    refine or_congr Iff.rfl ⟨?_,?_⟩
    · rintro ⟨b,h,x,hh,hx,hle,hrem⟩
      cases b with
      | scratch =>
        rw [hb.scratch] at hh
        cases hh
      | staging k rid j =>
        obtain ⟨hu,hs⟩ := hstaging k rid j h hh
        have hlt := (VmPosix.remains_unused hu).mp hrem
        refine ⟨k,rid,j,x,?_,hx,hle,by omega⟩
        rw [← hb.staging,hh]
        rfl
    · rintro ⟨k,rid,j,x,hkept,hx,hle,hlt⟩
      rw [← hb.staging] at hkept
      obtain ⟨h,hh⟩ := Option.isSome_iff_exists.mp hkept
      obtain ⟨hu,hs⟩ := hstaging k rid j h hh
      exact ⟨_,h,x,hh,hx,hle,(VmPosix.remains_unused hu).mpr (by omega)⟩
  · intro q i hq hi hours
    rw [← hb.table]
    exact hsim.pages q i hq hi ((hb.reserved q).mpr hours)

theorem address_space_is_accounted_mixed :
    (∀ q, Cached (afterCalls (vmCalls mixedRun)).space q ↔
      Ours mixedFilled q ∨ Waiting mixedFilled (afterCalls (vmCalls mixedRun)) q) ∧
    ∀ q i, 4 ∣ q → i < 4 → Ours mixedFilled q → ∃ a, (afterCalls (vmCalls mixedRun)).space (q+i) =
      some ⟨protOf (mixedFilled.vm q),.cache a,bytesOf (mixedFilled.vm q) i⟩ :=
  address_space_is_accounted mixedRun_run alone_uncached (afterCalls_exec (by decide +kernel))

/-- Whatever another thread loads from a live region at any moment, between any
two system calls of any public call, is a byte of a finished chunk, and no store
into the region succeeds. -/
theorem loads_see_finished_chunks {k : PoolId} {rid : RegionId} {addr : ℕ}
    (hr : Run VmStep (start P vm) ms pr) (hs : VmStep pr (cs ++ ds) pr') (h₀ : ∀ q, ¬ Cached s₀.space q)
    (hx : Exec P s₀ (vmCalls ms ++ cs) s) (hk : k ∈ pr.pools) (hrid : rid ∈ (pr.pool k).regions)
    (hk' : k ∈ pr'.pools) (hrid' : rid ∈ (pr'.pool k).regions)
    (hin : InRange ((pr.pool k).region rid) addr) :
    (∀ byte, load s.space addr = some byte →
      ShowsByte ((pr.pool k).region rid) (addr-((pr.pool k).region rid).base) byte) ∧
    ∀ bytes, store s.space addr bytes 1 = none := by
  obtain ⟨hsound,hsize,hal,hb⟩ := run_backed hr (start_sound P vm) (start_backed P vm)
  obtain rfl : pr.pageSize = P := hsize
  have hall : AllAllowed pr.pageSize (untouched vm) (vmCalls ms ++ cs) :=
    allowed_append.mpr ⟨hal,(allowed_append.mp (vmStep_backed hsound hs hb).1).1⟩
  have hsim := VmPosix.exec_sim (untouched_sim h₀) hall hx
  rw [calls_append] at hsim
  obtain ⟨hload,c,hc,hprot⟩ := shows_between s.space hsound hb hs hk hrid hk' hrid' hin
    (fun q i hq hi hres => (hsim.pages q i hq hi hres).elim (fun a ha => ⟨_,ha⟩))
  refine ⟨hload,fun bytes => if_neg (fun hstore => hprot ?_)⟩
  have := hstore 0 Nat.one_pos
  rw [Nat.add_zero,hc] at this
  simpa using this

/-- The run up to the first fault on `mixed`, and the calls of that fault. -/
def mixedStart : List (Process × List VmCall) := mixedRun.drop 2

def firstFault : List VmCall := resolveFaultCalls 0 ⟨mixed.pool 0,mixed.vm⟩ 0 0

theorem mixedStart_run : Run VmStep (start 4 (fun _ => .inaccessible)) mixedStart mixed := by
  refine .move (.move .start ?_) ?_
  · exact .poolCreate _ 12
  · exact .regionCreate _ 0 [6,6,4] 16 _ 16 (by decide) mixedSizes
      ⟨by decide,by decide,by simp [fcPoolCreate,start,poolInit]⟩

theorem firstFault_step : VmStep mixed (firstFault.take 6 ++ firstFault.drop 6) (afterFault mixed 16) := by
  rw [List.take_append_drop]
  exact .fault _ 16 0 0 _ (by decide) (by decide) (afterFault_resolved (by decide +kernel))

/-- The first page has been published and the rest of its buffer is still there. -/
theorem loads_see_finished_chunks_mixed :
    load (afterCalls (vmCalls mixedStart ++ firstFault.take 6)).space 17 = some 2 ∧
    (∀ byte, load (afterCalls (vmCalls mixedStart ++ firstFault.take 6)).space 17 = some byte →
      ShowsByte ((mixed.pool 0).region 0) (17-((mixed.pool 0).region 0).base) byte) ∧
    ∀ bytes, store (afterCalls (vmCalls mixedStart ++ firstFault.take 6)).space 17 bytes 1 = none :=
  ⟨by decide +kernel,loads_see_finished_chunks mixedStart_run firstFault_step alone_uncached
    (afterCalls_exec (by decide +kernel)) (by decide) (by decide) (by decide +kernel) (by decide +kernel)
    (by decide)⟩

end Linux

end FaultCache.PosixProcess
