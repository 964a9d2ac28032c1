import FaultCache.HotHalf
import FaultCache.RegionRemoval

/-!
# The cold flag of chunks that are gone

`cold` says of a resident chunk that it has been demoted. Demotion sets the
flag and re-insertion clears it, but `lru_unlink` leaves it alone, so a chunk
that is evicted out of the cold part of the queue keeps it. The debug interface
then reports a chunk that is cold and not resident, until it is filled again.
-/

set_option autoImplicit false

namespace FaultCache.ColdFlags
open FaultCache.SentinelRing FaultCache.PageGeometry FaultCache.SharedPages FaultCache.VmPages
open FaultCache.PoolMachine FaultCache.PoolStaging FaultCache.PoolQueue FaultCache.PoolMemory
open FaultCache.PoolHistory FaultCache.PoolInvariant FaultCache.PoolResolve FaultCache.FaultProcess
open FaultCache.ProcessInvariant FaultCache.ProcessContract FaultCache.LabelledRuns
open FaultCache.PoolLifetime FaultCache.FaultEffects FaultCache.HotHalf FaultCache.RegionRemoval

/-- `struct fc_region_debug_lru_entry`. -/
structure LruEntry where
  chunk : ℕ
  size : ℕ
  faultsTotal : UInt64
  resident : ℕ
  cold : ℕ
  deriving DecidableEq, Repr

def fcRegionDebugLruHistory (p : Pool) (rid : RegionId) : List LruEntry :=
  let r := p.region rid
  (List.range r.layout.nchunks).map (fun chunk =>
    { chunk := chunk
      size := r.layout.chunkSize chunk
      faultsTotal := r.chunkFaultsTotal chunk
      resident := if p.resident (rid,chunk) then 1 else 0
      cold := if p.cold (rid,chunk) then 1 else 0 })

/-- Every chunk of a live region whose flag is set is resident. -/
def FlagsStand (p : Pool) : Prop := ∀ n, Live p n → p.cold n = true → p.resident n = true

/-- No entry of a live region is reported cold and not resident. -/
def Truthful (p : Pool) : Prop :=
  ∀ rid ∈ p.regions, ∀ entry ∈ fcRegionDebugLruHistory p rid, ¬ (entry.cold = 1 ∧ entry.resident = 0)

theorem truthful_iff (p : Pool) : Truthful p ↔ FlagsStand p := by
  constructor
  · rintro h ⟨rid,c⟩ ⟨hr,hc⟩ hcold
    have hentry := h rid hr _ (List.mem_map.mpr ⟨c,List.mem_range.mpr hc,rfl⟩)
    by_contra hres
    simp [hcold,hres] at hentry
  · rintro h rid hr entry hentry ⟨h1,h2⟩
    obtain ⟨c,hc,rfl⟩ := List.mem_map.mp hentry
    have hcold : p.cold (rid,c) = true := by simpa using h1
    have hres := h (rid,c) ⟨hr,List.mem_range.mp hc⟩ hcold
    simp [hres] at h2

section Stages
variable {s s' : State} {hot cold : List Node}

theorem mem_requeued {e : Event} {q : List Node} {n : Node} (he : ∀ m, e ≠ .evict m)
    (hn : n = node e ∧ refreshes e = true ∨ n ∈ q) : n ∈ requeued e q := by
  have hfront : ∀ m, n = m ∨ n ∈ q → n ∈ m::q.erase m := by
    intro m hm
    by_cases hnm : n = m
    · exact hnm ▸ List.mem_cons_self
    · exact List.mem_cons_of_mem _ ((List.mem_erase_of_ne hnm).mpr (hm.resolve_left hnm))
  cases e with
  | fill m size => exact hfront m (hn.imp And.left id)
  | promote m => exact hfront m (hn.imp And.left id)
  | demote m => exact hn.resolve_left (fun hc => Bool.noConfusion hc.2)
  | evict => exact absurd rfl (he _)

/-- The flags stand through every operation but eviction. -/
theorem micro_flags {e : Event} (h : PoolInv s hot cold) (hm : Micro s e s')
    (he : ∀ n, e ≠ .evict n) (hq : FlagsStand s.pool) : FlagsStand s'.pool := by
  obtain ⟨ht,hot',cold',hi,hqueue⟩ := hm.spec h
  intro n hl hcold
  rw [hi.queue.order.resident,hqueue]
  apply mem_requeued he
  by_cases hn : n = node e
  · subst hn
    cases hm with
    | fill => exact Or.inl ⟨rfl,rfl⟩
    | promote => exact Or.inl ⟨rfl,rfl⟩
    | demote hpos hmid =>
      have hhot := (demote_counted h (.demote hpos hmid)).2.1
      rw [h.queue.hotNodes_eq] at hhot
      exact Or.inr (List.mem_append_left _ hhot)
    | evict => exact absurd rfl (he _)
  · rw [ht.cold n hn] at hcold
    exact Or.inr ((h.queue.order.resident n).mp (hq n ((ht.live_iff n).mp hl) hcold))

theorem run_flags {ms : List (State × Event)} (hr : Run Micro s ms s') (h : PoolInv s hot cold)
    (he : ∀ e ∈ ms.map Prod.snd, ∀ n, e ≠ .evict n) (hq : FlagsStand s.pool) : FlagsStand s'.pool := by
  have hkeep : ∀ {v v' e hot cold}, PoolInv v hot cold → Micro v e v' → (∀ n, e ≠ .evict n) →
      FlagsStand v.pool → FlagsStand v'.pool := micro_flags
  exact (run_keeps _ hkeep hr ⟨hot,cold,h⟩ hq (fun _ hm => he _ (List.mem_map_of_mem hm))).1.1

theorem evictChunk_cold {n : Node} (h : lruEvictChunk s n = some s') : s'.pool.cold = s.pool.cold := by
  obtain ⟨p,hp,rfl⟩ := Option.map_eq_some_iff.mp h
  unfold lruForgetChunk at hp
  split_ifs at hp with hres
  · rw [lruUnlink,if_pos hres] at hp
    cases hp
    rfl
  · cases hp
    rfl

theorem evictLoop_cold {rid : RegionId} {lo hi : ℕ} (fuel : ℕ)
    (h : evictLoop rid lo hi fuel s = some s') : s'.pool.cold = s.pool.cold := by
  induction fuel generalizing s with
  | zero => cases h
  | succ fuel ih =>
    rw [evictLoop] at h
    split_ifs at h
    · split at h
      · split_ifs at h
        · cases h
          rfl
        · obtain ⟨s₁,e₁,e₂⟩ := Option.bind_eq_some_iff.mp h
          exact (ih e₂).trans (evictChunk_cold e₁)
      · cases h
    · cases h
      rfl

/-- Eviction leaves every flag as it is. -/
theorem evict_cold {rid : RegionId} {lo hi : ℕ} (h : evictUntilWithinBudget s rid lo hi = some s') :
    s'.pool.cold = s.pool.cold := by
  unfold evictUntilWithinBudget at h
  split_ifs at h
  · cases h
    rfl
  · exact evictLoop_cold _ h

/-- The walk of the midpoint does not look at chunks that are gone. -/
theorem demotes_absent {ms : List (State × Event)} (hr : Run Micro s ms s') (h : PoolInv s hot cold)
    (hd : OnlyDemotes ms) {n : Node} (hn : s.pool.resident n = false) :
    s'.pool.resident n = false ∧ s'.pool.cold n = s.pool.cold n := by
  have hkeep : ∀ {v v' e hot cold}, PoolInv v hot cold → Micro v e v' → (∃ m, e = .demote m) →
      v.pool.resident n = false ∧ v.pool.cold n = s.pool.cold n →
      v'.pool.resident n = false ∧ v'.pool.cold n = s.pool.cold n := by
    rintro v v' e hot₁ cold₁ hi hm ⟨m,rfl⟩ ⟨hres,hc⟩
    have hhot := (demote_counted hi hm).2.1
    have ht := hm.touched hi
    rw [hi.queue.hotNodes_eq] at hhot
    have hne : n ≠ m := by
      rintro rfl
      rw [(hi.queue.order.resident n).mpr (List.mem_append_left _ hhot)] at hres
      cases hres
    cases hm with
    | demote => exact ⟨hres,(ht.1.cold n hne).trans hc⟩
  let Same : State → Prop := fun v => v.pool.resident n = false ∧ v.pool.cold n = s.pool.cold n
  exact (run_keeps _ hkeep hr ⟨hot,cold,h⟩ (show Same s from ⟨hn,rfl⟩) (fun v hv => hd v.1 v.2 hv)).1.1

end Stages

section Eviction
variable {p : Pool} {hit : Node → Prop} {hot cold hot' cold' : List Node}

/-- The cold part survives eviction unless its last chunk is the first victim. -/
theorem evicted_cold_iff (h : Evicted p hit hot cold hot' cold') (hnd : (hot ++ cold).Nodup) :
    cold' = cold ↔
      ¬ (p.targetSize < sizeSum p (hot ++ cold) ∧ ∃ q v, cold = q ++ [v] ∧ ¬ hit v) := by
  constructor
  · rintro rfl ⟨hover,q,v,rfl,hv⟩
    have hhot : hot' = hot := h.coldFirst.resolve_left (by simp)
    rw [hhot] at h
    rcases h.stop with hfit | ⟨q',n,hq,hn⟩
    · omega
    · rw [← List.append_assoc] at hq
      obtain ⟨-,he⟩ := List.append_inj' hq rfl
      cases he
      exact hv hn
  · intro hno
    by_contra hne
    apply hno
    constructor
    · by_contra hfit
      have hall := (h.longest _ (List.prefix_refl _) (by omega)).length_le
      rw [List.length_append,List.length_append] at hall
      have h1 := h.hotPrefix.length_le
      exact hne (h.coldPrefix.eq_of_length (by have := h.coldPrefix.length_le; omega))
    · rcases List.eq_nil_or_concat cold with rfl | ⟨q,v,rfl⟩
      · exact absurd (List.prefix_nil.mp h.coldPrefix) hne
      · rw [List.concat_eq_append] at *
        refine ⟨q,v,rfl,fun hv => ?_⟩
        -- A victim at the very end would have to be kept.
        rcases List.mem_append.mp (h.kept v (by simp) hv) with hm | hm
        · exact (List.nodup_append.mp hnd).2.2 v (h.hotPrefix.subset hm) v (by simp) rfl
        · obtain ⟨t,ht⟩ := h.coldPrefix
          rcases List.eq_nil_or_concat t with rfl | ⟨t,w,rfl⟩
          · exact hne (by rw [← ht,List.append_nil])
          · rw [List.concat_eq_append,← List.append_assoc] at ht
            obtain ⟨h1,h2⟩ := List.append_inj' ht rfl
            cases h2
            have hnd' := (List.nodup_append.mp hnd).2.1
            rw [← h1,List.append_assoc] at hnd'
            exact (List.nodup_append.mp hnd').2.2 v hm v (by simp) rfl

end Eviction

/-- The queue behind the chunks that the fault brings to its front. -/
def waiting (p : Pool) (rid : RegionId) (page : ℕ) : List Node :=
  match findSharedPage (p.region rid).layout page with
  | some _ => lruList p
  | none => (lruList p).erase (rid,(p.region rid).layout.findChunk page)

/-- The first victim of the fault is a cold chunk: the pool is over its budget
once the page is filled, and the last queued chunk that the fault does not
bring to the front is cold and has no byte in the page. -/
def EvictsCold (p : Pool) (rid : RegionId) (page : ℕ) : Prop :=
  0 < p.targetSize ∧ p.targetSize < p.residentBytes+sizeSum p (neededNodes p rid page) ∧
  ∃ q v, waiting p rid page = q ++ [v] ∧ p.cold v = true ∧ ¬ Behind p rid page v

section Served
variable {p : Pool} {vm : PageTable} {rid : RegionId} {page lo hi : ℕ}
  {hot cold hot₁ cold₁ : List Node} {es : List Event}

theorem Serves.waiting (hs : Serves p rid page hot cold lo hi hot₁ cold₁ es) (h : Queue p hot cold) :
    waiting p rid page = hot ++ cold₁ := by
  cases hs with
  | shared hf hlo hhi =>
    simp only [ColdFlags.waiting,hf]
    exact h.lruList_eq
  | exclusive hf hc hn =>
    simp only [ColdFlags.waiting,hf]
    rw [h.lruList_eq,← hc,List.erase_append_right _ hn]

/-- What is resident once the page has been served. -/
theorem Serves.bytes (hs : Serves p rid page hot cold lo hi hot₁ cold₁ es)
    (h : PoolInv ⟨p,vm⟩ hot cold) (hr : rid ∈ p.regions) (hd : (p.region rid).layout.pageSize ∣ page)
    (hm : page < (p.region rid).layout.mappedSize) :
    sizeSum p (hot₁ ++ cold₁) = p.residentBytes+sizeSum p (neededNodes p rid page) := by
  have hbytes : p.residentBytes = sizeSum p (hot ++ cold) := h.queue.account.bytes
  have hprot := hs.protected_iff hd hm
  cases hs with
  | shared hf hlo hhi =>
    subst hlo hhi
    rw [hbytes,List.append_assoc,sizeSum_append,sizeSum_perm p (missing_perm_needed hf),Nat.add_comm]
  | exclusive hf hc hn =>
    have hneed : ∀ n, n ∈ neededNodes p rid page ↔ n = (rid,lo) ∧ (p.region rid).initialized lo = false := by
      intro n
      rw [mem_neededNodes,← hprot]
      constructor
      · rintro ⟨⟨h1,h2,h3⟩,h4⟩
        obtain rfl : n = (rid,lo) := Prod.ext h1 (le_antisymm h3 h2)
        exact ⟨rfl,h4⟩
      · rintro ⟨rfl,h4⟩
        exact ⟨⟨rfl,le_refl _,le_refl _⟩,h4⟩
    have hl : Live p (rid,lo) := ⟨hr,hc ▸ Layout.findChunk_lt _ _⟩
    have hi := h.initialized_iff hl
    rw [hbytes,List.cons_append,sizeSum_cons]
    cases hb : (p.region rid).initialized lo with
    | true =>
      have hcold : (rid,lo) ∈ cold := (List.mem_append.mp (hi.mp hb)).resolve_left hn
      have hnil : neededNodes p rid page = [] := by
        apply List.eq_nil_iff_forall_not_mem.mpr
        intro n hmem
        rw [((hneed n).mp hmem).2] at hb
        cases hb
      have herase := sizeSum_erase p hcold
      rw [hnil,sizeSum_nil,sizeSum_append,sizeSum_append]
      omega
    | false =>
      have hcold : cold.erase (rid,lo) = cold := by
        apply List.erase_of_not_mem
        intro hmem
        rw [hi.mpr (List.mem_append_right _ hmem)] at hb
        cases hb
      have hone : (neededNodes p rid page).Perm [(rid,lo)] := by
        rw [List.perm_ext_iff_of_nodup (neededNodes_nodup ..) (by simp)]
        intro n
        rw [hneed,List.mem_singleton]
        exact and_iff_left hb
      rw [hcold,sizeSum_perm p hone,sizeSum_cons,sizeSum_nil]
      omega

/-- A cold chunk is the first victim exactly under the condition. -/
theorem Serves.evictsCold_iff (hs : Serves p rid page hot cold lo hi hot₁ cold₁ es)
    (h : PoolInv ⟨p,vm⟩ hot cold) (hr : rid ∈ p.regions) (hd : (p.region rid).layout.pageSize ∣ page)
    (hm : page < (p.region rid).layout.mappedSize) : EvictsCold p rid page ↔ 0 < p.targetSize ∧
      p.targetSize < sizeSum p (hot₁ ++ cold₁) ∧ ∃ q v, cold₁ = q ++ [v] ∧ ¬ Protected rid lo hi v := by
  rw [EvictsCold,Serves.waiting hs h.queue,Serves.bytes hs h hr hd hm]
  simp only [hs.protected_iff hd hm]
  have hsub : ∀ n ∈ cold₁, p.cold n = true := by
    intro n hn
    apply h.queue.order.coldFlag
    cases hs with
    | shared => exact hn
    | exclusive => exact List.mem_of_mem_erase hn
  refine and_congr_right (fun _ => and_congr_right (fun _ => ?_))
  constructor
  · rintro ⟨q,v,hq,hv,hb⟩
    rcases List.eq_nil_or_concat cold₁ with hnil | ⟨q',w,hw⟩
    · rw [hnil,List.append_nil] at hq
      have hhot : v ∈ hot := by rw [hq]; simp
      have hflag : p.cold v = false := h.queue.order.hotFlag v hhot
      rw [hv] at hflag
      cases hflag
    · rw [hw,List.concat_eq_append,← List.append_assoc] at hq
      obtain ⟨-,he⟩ := List.append_inj' hq rfl
      cases he
      exact ⟨q',v,by rw [hw,List.concat_eq_append],hb⟩
  · rintro ⟨q,v,rfl,hb⟩
    exact ⟨hot ++ q,v,by rw [List.append_assoc],hsub v (by simp),hb⟩

end Served

section Fault
variable {s : State} {rid : RegionId} {page : ℕ} {hot cold : List Node}

theorem Stages.trimmed_flags (st : Stages s rid page hot cold) (hq : FlagsStand st.served.pool)
    (ht : 0 < s.pool.targetSize) : FlagsStand st.trimmed.pool ↔ st.cold₂ = st.cold₁ := by
  have hx := st.evicted ht
  have hflags := evict_cold st.evict
  have h₁ := st.first.inv
  have h₂ := st.second.inv
  have hnd := h₁.queue.order.nodup
  constructor
  · intro hf
    obtain ⟨t,hcold⟩ := hx.coldPrefix
    rcases t with _ | ⟨v,t⟩
    · rw [← hcold,List.append_nil]
    · exfalso
      have hv : v ∈ st.cold₁ := by rw [← hcold]; simp
      have hlive : Live st.trimmed.pool v := by
        have hl := h₁.live (List.mem_append_right _ hv)
        exact ⟨by rw [st.second.regions]; exact hl.1,by rw [st.second.layouts v.1]; exact hl.2⟩
      have hres := hf v hlive (by rw [hflags]; exact h₁.queue.order.coldFlag v hv)
      rcases List.mem_append.mp ((h₂.queue.order.resident v).mp hres) with hm | hm
      · exact (List.nodup_append.mp hnd).2.2 v (hx.hotPrefix.subset hm) v hv rfl
      · have hnd' := (List.nodup_append.mp hnd).2.1
        rw [← hcold] at hnd'
        exact (List.nodup_append.mp hnd').2.2 v hm v (by simp) rfl
  · intro he n hl hcold
    have hl' : Live st.served.pool n :=
      ⟨st.second.regions ▸ hl.1,by have := hl.2; rwa [st.second.layouts n.1] at this⟩
    rw [hflags] at hcold
    have hmem := (h₁.queue.order.cold_iff ((h₁.queue.order.resident n).mp (hq n hl' hcold))).mp hcold
    exact (h₂.queue.order.resident n).mpr (List.mem_append_right _ (he ▸ hmem))

theorem Stages.settled_flags (st : Stages s rid page hot cold) :
    FlagsStand st.settled.pool ↔ FlagsStand st.trimmed.pool := by
  obtain ⟨ms,hrun,hd⟩ := rebalance_run st.second.inv st.rebalance
  constructor
  · intro hf n hl hcold
    by_contra hres
    obtain ⟨h1,h2⟩ := demotes_absent hrun st.second.inv hd (by simpa using hres)
    have hl' : Live st.settled.pool n :=
      ⟨by rw [st.third.regions]; exact hl.1,by rw [st.third.layouts n.1]; exact hl.2⟩
    rw [hf n hl' (h2.trans hcold)] at h1
    cases h1
  · apply run_flags hrun st.second.inv
    intro e he n hc
    obtain ⟨⟨v,e⟩,hm,rfl⟩ := List.mem_map.mp he
    obtain ⟨m,hm⟩ := hd v e hm
    rw [hm] at hc
    cases hc

/-- A fault leaves a stale flag exactly when its first victim is cold. -/
theorem Stages.flags_iff (h : PoolInv s hot cold) (hr : rid ∈ s.pool.regions)
    (st : Stages s rid page hot cold) (hd : (s.pool.region rid).layout.pageSize ∣ page)
    (hm : page < (s.pool.region rid).layout.mappedSize) (hq : FlagsStand s.pool) :
    FlagsStand (countHandled st.settled rid).pool ↔ ¬ EvictsCold s.pool rid page := by
  have hserved : FlagsStand st.served.pool := by
    obtain ⟨ms₁,ms₂,ms₃,-,hserve,-,-⟩ := st.run h
    obtain ⟨ms,hrun⟩ := MicroRun.labelled st.first.run
    have hlog := (run_history hrun ⟨hot,cold,h⟩).1
    have hes := List.append_cancel_right (hlog.symm.trans st.logged)
    apply run_flags hrun h _ hq
    intro e he n hc
    rw [hes,hc] at he
    exact st.serves.no_evict n he
  have hcount : FlagsStand (countHandled st.settled rid).pool ↔ FlagsStand st.settled.pool := by
    have hl : ∀ n, Live (countHandled st.settled rid).pool n ↔ Live st.settled.pool n := by
      intro n
      obtain ⟨x,hx⟩ := countHandled_region st.settled rid n.1
      rw [Live,Live,hx]
      rfl
    exact forall_congr' (fun n => by rw [hl n]; rfl)
  rw [hcount,Stages.settled_flags st,Serves.evictsCold_iff st.serves h hr hd hm]
  by_cases ht : 0 < s.pool.targetSize
  · rw [Stages.trimmed_flags st hserved ht,
      evicted_cold_iff (st.evicted ht) st.first.inv.queue.order.nodup]
    exact not_congr (and_iff_right ht).symm
  · refine iff_of_true ?_ (fun hc => ht hc.1)
    obtain ⟨s₂,hot₂,cold₂,e₂,-,-,u₂⟩ := evict_spec_budget st.first.inv rid st.lo st.hi
    obtain rfl := Option.some.inj (e₂.symm.trans st.evict)
    rw [(u₂ (by rw [st.first.target]; omega)).1]
    exact hserved

end Fault

section Calls

inductive Call where
  | poolCreate
  | regionCreate
  | fault (addr : ℕ)
  | regionDestroy
  | poolDestroy

/-- The steps of a process with the call that each of them is. -/
inductive Called : Process → Call → Process → Prop
  | poolCreate (pr : Process) (targetSize : ℕ) : Called pr .poolCreate (fcPoolCreate pr targetSize)
  | regionCreate (pr : Process) (k : PoolId) (sizes : List ℕ) (total : ℕ) (fill : ℕ → ℕ → UInt8)
      (base : ℕ) (hk : k ∈ pr.pools) (ha : Accepted pr.pageSize sizes total)
      (hb : Reservable pr base (pageCeil total pr.pageSize)) :
      Called pr .regionCreate (fcRegionCreate pr k sizes total ha fill base)
  | fault (pr : Process) (addr : ℕ) (ours : Bool) (pr' : Process)
      (h : faultTryResolve pr addr = some (ours,pr')) : Called pr (.fault addr) pr'
  | regionDestroy (pr : Process) (k : PoolId) (rid : RegionId) (pr' : Process) (hk : k ∈ pr.pools)
      (hr : rid ∈ (pr.pool k).regions) (h : fcRegionDestroy pr k rid = some pr') :
      Called pr .regionDestroy pr'
  | poolDestroy (pr : Process) (k : PoolId) (hk : k ∈ pr.pools) :
      Called pr .poolDestroy (fcPoolDestroy pr k)

theorem step_iff_called (pr pr' : Process) : Step pr pr' ↔ ∃ l, Called pr l pr' := by
  constructor
  · intro h
    cases h with
    | poolCreate targetSize => exact ⟨_,.poolCreate pr targetSize⟩
    | regionCreate k sizes total fill base hk ha hb =>
      exact ⟨_,.regionCreate pr k sizes total fill base hk ha hb⟩
    | fault addr ours _ he => exact ⟨_,.fault pr addr ours pr' he⟩
    | regionDestroy k rid _ hk hr he => exact ⟨_,.regionDestroy pr k rid pr' hk hr he⟩
    | poolDestroy k hk => exact ⟨_,.poolDestroy pr k hk⟩
  · rintro ⟨l,h⟩
    cases h with
    | poolCreate targetSize => exact .poolCreate pr targetSize
    | regionCreate k sizes total fill base hk ha hb =>
      exact .regionCreate pr k sizes total fill base hk ha hb
    | fault addr ours _ he => exact .fault pr addr ours pr' he
    | regionDestroy k rid _ hk hr he => exact .regionDestroy pr k rid pr' hk hr he
    | poolDestroy k hk => exact .poolDestroy pr k hk

/-- In every pool. -/
def ColdResident (pr : Process) : Prop := ∀ k ∈ pr.pools, FlagsStand (pr.pool k)

/-- The fault at `addr` is one that evicts a cold chunk. -/
def EvictsColdAt (pr : Process) (addr : ℕ) : Prop :=
  ∃ k ∈ pr.pools, ∃ rid, findRegionLocked (pr.pool k) addr = some rid ∧
    pageReadable (pr.pool k) rid (addr-((pr.pool k).region rid).base) = false ∧
    EvictsCold (pr.pool k) rid (pageFloor (addr-((pr.pool k).region rid).base)
      ((pr.pool k).region rid).layout.pageSize)

theorem withState_resident {pr : Process} {k : PoolId} {s : State} (h : ColdResident pr)
    (hs : FlagsStand s.pool) : ColdResident (withState pr k s) := by
  intro j hj
  by_cases hjk : j = k
  · subst hjk
    rw [withState_pool_self]
    exact hs
  · rw [withState_pool_of_ne pr s hjk]
    exact h j hj

theorem insert_flags {p : Pool} {rid : RegionId} {r : Region} (h : FlagsStand p) :
    FlagsStand (regionListInsert p rid r) := by
  intro n hl hcold
  by_cases hn : n.1 = rid
  · rw [show (regionListInsert p rid r).cold n = false from if_pos hn] at hcold
    cases hcold
  · rw [show (regionListInsert p rid r).cold n = p.cold n from if_neg hn] at hcold
    rw [show (regionListInsert p rid r).resident n = p.resident n from if_neg hn]
    have hlt := hl.2
    rw [insert_region_of_ne hn] at hlt
    exact h n ⟨(List.mem_cons.mp hl.1).resolve_left hn,hlt⟩ hcold

theorem removed_flags {pr pr' : Process} {k : PoolId} {rid : RegionId} (hr : Removed pr pr' k rid)
    (hnd : (pr.pool k).regions.Nodup) (h : FlagsStand (pr.pool k)) : FlagsStand (pr'.pool k) := by
  intro n hl hcold
  obtain ⟨hmem,hlt⟩ := hl
  rw [hr.regions,hnd.mem_erase_iff] at hmem
  rw [hr.region n.1 hmem.1] at hlt
  rw [hr.cold] at hcold
  rw [hr.resident,h n ⟨hmem.2,hlt⟩ hcold,Bool.true_and,bne_iff_ne]
  exact hmem.1

/-- A fault that is ours is the one the condition speaks of. -/
theorem evictsColdAt_iff {pr : Process} (h : ProcessInv pr) {k : PoolId} (hk : k ∈ pr.pools)
    {rid : RegionId} {addr : ℕ} (hfind : findRegionLocked (pr.pool k) addr = some rid)
    (hun : pageReadable (pr.pool k) rid (addr-((pr.pool k).region rid).base) = false) :
    EvictsColdAt pr addr ↔ EvictsCold (pr.pool k) rid (pageFloor (addr-((pr.pool k).region rid).base)
      ((pr.pool k).region rid).layout.pageSize) := by
  obtain ⟨hr,hin⟩ := findRegionLocked_some hfind
  constructor
  · rintro ⟨j,hj,x,hx,-,hev⟩
    rw [findRegion_live h hk hj hr hin] at hx
    split_ifs at hx with hjk
    subst hjk
    cases hx
    exact hev
  · exact fun hev => ⟨k,hk,rid,hfind,hun,hev⟩

/-- One call makes a flag stale exactly when it is such a fault. -/
theorem called_flags {pr pr' : Process} {l : Call} (h : ProcessInv pr) (hc : Called pr l pr')
    (hq : ColdResident pr) : ColdResident pr' ↔ ∀ addr, l = .fault addr → ¬ EvictsColdAt pr addr := by
  have hother : (∀ addr, l ≠ .fault addr) → ColdResident pr' →
      (ColdResident pr' ↔ ∀ addr, l = .fault addr → ¬ EvictsColdAt pr addr) :=
    fun hl hres => iff_of_true hres (fun addr he => absurd he (hl addr))
  cases hc with
  | poolCreate targetSize =>
    refine hother (fun _ => Call.noConfusion) ?_
    intro k hk
    rcases List.mem_cons.mp hk with rfl | hk
    · rw [show (fcPoolCreate pr targetSize).pool pr.nextPool = poolInit targetSize from
        Function.update_self _ _ _]
      rintro n - ⟨⟩
    · rw [show (fcPoolCreate pr targetSize).pool k = pr.pool k from
        Function.update_of_ne (Nat.ne_of_lt (h.freshPool k hk)) _ _]
      exact hq k hk
  | regionCreate k sizes total fill base hk ha hb =>
    exact hother (fun _ => Call.noConfusion)
      (withState_resident (s := ⟨_,pr.vm⟩) hq (insert_flags (hq k hk)))
  | regionDestroy k rid _ hk hr he =>
    refine hother (fun _ => Call.noConfusion) ?_
    obtain ⟨pr₁,e₁,hrem⟩ := destroy_removed h hk hr
    obtain rfl := Option.some.inj (e₁.symm.trans he)
    obtain ⟨hot,cold,hp⟩ := h.pool k hk
    intro j hj
    rw [hrem.pools] at hj
    by_cases hjk : j = k
    · subst hjk
      exact removed_flags hrem hp.queue.distinct (hq j hj)
    · rw [hrem.pool j hjk]
      exact hq j hj
  | poolDestroy k hk =>
    exact hother (fun _ => Call.noConfusion) (fun j hj => hq j (List.mem_of_mem_erase hj))
  | fault addr ours _ he =>
    have hone : (∀ addr', Call.fault addr = .fault addr' → ¬ EvictsColdAt pr addr') ↔
        ¬ EvictsColdAt pr addr :=
      ⟨fun hall => hall addr rfl,fun hno addr' ha => Call.fault.inj ha ▸ hno⟩
    rw [hone]
    rcases faultScan_cases he with ⟨rfl,rfl⟩ | ⟨rfl,k,hk,rid,s,hfind,hun,hs,rfl⟩
    · refine iff_of_true hq ?_
      rintro ⟨k,hk,rid,hfind,hun,-⟩
      obtain ⟨hr,hin⟩ := findRegionLocked_some hfind
      obtain ⟨s,hs,-⟩ := resolve_inv h hk hr hun
      have hours := (faultScan_live h hk hr hin _ (fun _ hj => hj)).2 hk hun s hs
      rw [faultTryResolve,hours] at he
      cases he
    · obtain ⟨hr,hin⟩ := findRegionLocked_some hfind
      obtain ⟨hot,cold,hp⟩ := h.pool k hk
      obtain ⟨hd,hm⟩ := page_of_address hin
      obtain ⟨st,rfl⟩ := resolve_stages hp hr hun hs
      rw [evictsColdAt_iff h hk hfind hun,← Stages.flags_iff hp hr st hd hm (hq k hk)]
      constructor
      · intro hres
        have := hres k hk
        rwa [withState_pool_self] at this
      · exact withState_resident hq

/-- Over a run the flags stand, and the debug interface tells the truth, until
a fault evicts a cold chunk. -/
theorem cold_is_resident_iff {pageSize : ℕ} {vm : PageTable} {ms : List (Process × Call)} {pr : Process}
    (hr : Run Called (start pageSize vm) ms pr) :
    (∀ v ∈ pr::ms.map Prod.fst, ColdResident v ∧ ∀ k ∈ v.pools, Truthful (v.pool k)) ↔
      ∀ v addr, (v,Call.fault addr) ∈ ms → ¬ EvictsColdAt v addr := by
  have htruth : ∀ v : Process, (ColdResident v ∧ ∀ k ∈ v.pools, Truthful (v.pool k)) ↔ ColdResident v :=
    fun v => and_iff_left_of_imp (fun h k hk => (truthful_iff _).mpr (h k hk))
  simp only [htruth]
  suffices hall : ProcessInv pr ∧ ((∀ v ∈ pr::ms.map Prod.fst, ColdResident v) ↔
      ∀ v addr, (v,Call.fault addr) ∈ ms → ¬ EvictsColdAt v addr) from hall.2
  induction hr with
  | start =>
    refine ⟨start_inv pageSize vm,iff_of_true ?_ (fun _ _ hm => absurd hm List.not_mem_nil)⟩
    intro v hv k hk
    rw [List.mem_singleton.mp hv] at hk
    cases hk
  | @move ms s s' l _ hm ih =>
    obtain ⟨hinv,hiff⟩ := ih
    refine ⟨step_inv hinv ((step_iff_called s s').mpr ⟨l,hm⟩),?_⟩
    rw [List.forall_mem_cons,List.map_cons]
    constructor
    · rintro ⟨hs',hold⟩ v addr hmem
      rcases List.mem_cons.mp hmem with he | hmem
      · obtain ⟨rfl,rfl⟩ := Prod.mk.inj he
        exact (called_flags hinv hm (hold v List.mem_cons_self)).mp hs' addr rfl
      · exact hiff.mp hold v addr hmem
    · intro hno
      have hold := hiff.mpr (fun v addr hmem => hno v addr (List.mem_cons_of_mem _ hmem))
      refine ⟨(called_flags hinv hm (hold s List.mem_cons_self)).mpr ?_,hold⟩
      rintro addr rfl
      exact hno s addr List.mem_cons_self

/-- The sequence of calls that demotes chunk 0 and then evicts it. -/
def mixedEvicted : Process := afterFault mixedFilled 24

theorem mixedEvicted_reachable : Reachable mixedEvicted := afterFault_reachable mixedFilled_reachable 24

/-- Chunk 0 is cold and not resident. -/
theorem evicted_chunk_stays_cold :
    ¬ ∀ pr, Reachable pr → ColdResident pr ∧ ∀ k ∈ pr.pools, Truthful (pr.pool k) := by
  intro hall
  have htruth := (hall mixedEvicted mixedEvicted_reachable).2 0 (by decide +kernel) 0 (by decide +kernel)
  exact htruth ⟨0,6,1,0,1⟩ (by decide +kernel) ⟨rfl,rfl⟩

def mixedRun : List (Process × Call) :=
  [(mixedFilled,.fault 24),(afterFault mixed 16,.fault 28),(mixed,.fault 16),
    (fcPoolCreate (start 4 (fun _ => .inaccessible)) 12,.regionCreate),
    (start 4 (fun _ => .inaccessible),.poolCreate)]

theorem mixedRun_run : Run Called (start 4 (fun _ => .inaccessible)) mixedRun mixedEvicted := by
  refine .move (.move (.move (.move (.move .start (.poolCreate _ 12)) ?_) ?_) ?_) ?_
  · exact .regionCreate _ 0 [6,6,4] 16 _ 16 (by decide) mixedSizes
      ⟨by decide,by decide,by simp [fcPoolCreate,start,poolInit]⟩
  · exact .fault _ 16 true _ (afterFault_resolved (by decide +kernel))
  · exact .fault _ 28 true _ (afterFault_resolved (by decide +kernel))
  · exact .fault _ 24 true _ (afterFault_resolved (by decide +kernel))

/-- One of the faults of that run is to blame. -/
theorem cold_is_resident_iff_mixed :
    ¬ ∀ v addr, (v,Call.fault addr) ∈ mixedRun → ¬ EvictsColdAt v addr := by
  rw [← cold_is_resident_iff mixedRun_run]
  intro hall
  have htruth := (hall mixedEvicted List.mem_cons_self).2 0 (by decide +kernel) 0 (by decide +kernel)
  exact htruth ⟨0,6,1,0,1⟩ (by decide +kernel) ⟨rfl,rfl⟩

end Calls

end FaultCache.ColdFlags
