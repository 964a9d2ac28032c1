import FaultCache.VmBacking

/-!
# A process and its calls on the seam

The loops of the fault path make the calls of the chunk operations they run, one
operation after the other. Over any sequence of public calls the process makes
only calls that `vm.h` allows, and what is held behind the seam is exactly what
the live regions need.
-/

set_option autoImplicit false

namespace FaultCache.VmProcess
open FaultCache.SentinelRing FaultCache.PageGeometry FaultCache.SharedPages FaultCache.VmPages
open FaultCache.PoolMachine FaultCache.PoolStaging FaultCache.PoolQueue FaultCache.PoolMemory
open FaultCache.PoolHistory FaultCache.PoolInvariant FaultCache.PoolResolve FaultCache.FaultProcess
open FaultCache.ProcessInvariant FaultCache.ProcessContract FaultCache.LabelledRuns
open FaultCache.PoolLifetime FaultCache.FaultEffects FaultCache.FillSafety FaultCache.RangeTiling
open FaultCache.ScratchContract FaultCache.VmContract FaultCache.VmTrace FaultCache.VmBacking

section Runs
variable {P : ℕ} {k : PoolId} {s s' : State} {hot cold : List Node} {m : Memory}

/-- The calls of a run of chunk operations, oldest first. -/
def runCalls (k : PoolId) (ms : List (State × Event)) : List VmCall :=
  ms.reverse.flatMap (fun m => microCalls k m.1 m.2)

theorem runCalls_cons (k : PoolId) (v : State) (e : Event) (ms : List (State × Event)) :
    runCalls k ((v,e)::ms) = runCalls k ms ++ microCalls k v e := by
  simp [runCalls]

theorem runCalls_append (k : PoolId) (ms ns : List (State × Event)) :
    runCalls k (ns ++ ms) = runCalls k ms ++ runCalls k ns := by
  simp [runCalls]

theorem runCalls_first (k : PoolId) (v : State) (e : Event) (ms : List (State × Event)) :
    runCalls k (ms ++ [(v,e)]) = microCalls k v e ++ runCalls k ms := by
  simp [runCalls]

theorem run_backs {ms : List (State × Event)} (hr : Run Micro s ms s') (h : PoolInv s hot cold)
    (hp : Paged P s.pool) (hz : BuffersSized s.pool) (hb : Backs k s m) :
    AllAllowed P m (runCalls k ms) ∧ Backs k s' (calls m (runCalls k ms)) ∧
      Kept k s.pool m (calls m (runCalls k ms)) := by
  suffices hall : (∃ hot cold, PoolInv s' hot cold) ∧ Paged P s'.pool ∧ BuffersSized s'.pool ∧
      s'.pool.regions = s.pool.regions ∧ SameLayouts s.pool s'.pool ∧ AllAllowed P m (runCalls k ms) ∧
      Backs k s' (calls m (runCalls k ms)) ∧ Kept k s.pool m (calls m (runCalls k ms)) from
    hall.2.2.2.2.2
  induction hr with
  | start => exact ⟨⟨hot,cold,h⟩,hp,hz,rfl,fun _ => rfl,trivial,hb,Kept.refl _ _ _⟩
  | @move ms v v' e hrun hm ih =>
    obtain ⟨⟨hot₁,cold₁,hv⟩,hpv,hzv,hreg,hlay,hal,hbv,hkept⟩ := ih
    obtain ⟨ht,hinv'⟩ := hm.touched hv
    obtain ⟨a₁,b₁,k₁⟩ := micro_backs hv hpv hzv hbv hm
    rw [runCalls_cons,allowed_append,calls_append]
    exact ⟨hinv',hpv.of_shapes ht.regions ht.shapes,micro_buffersSized hv hm hzv,ht.regions.trans hreg,
      fun r => (ht.layouts r).trans (hlay r),⟨hal,a₁⟩,b₁,hkept.trans k₁ hreg hlay⟩

end Runs

section Loops
variable {k : PoolId} {s s' : State} {hot cold : List Node}

theorem rebalanceLoop_calls (fuel : ℕ) (h : PoolInv s hot cold) (ht : 0 < s.pool.targetSize)
    (he : rebalanceLoop fuel s = some s') :
    ∃ ms, Run Micro s ms s' ∧ rebalanceLoopCalls fuel s = runCalls k ms := by
  induction fuel generalizing s hot cold with
  | zero => cases he
  | succ fuel ih =>
    rw [rebalanceLoop] at he
    rw [rebalanceLoopCalls]
    by_cases hgo : s.pool.residentBytes/2 < s.pool.hotBytes ∧ s.pool.midpoint ≠ s.pool.links.next .head
    · rw [if_pos hgo] at he ⊢
      cases hn : s.pool.midpoint with
      | head =>
        rw [hn] at he
        cases he
      | null =>
        rw [hn] at he
        cases he
      | node n =>
        rw [hn] at he
        have hm : Micro s (.demote n) (demote s n) := .demote ht hn
        obtain ⟨t₁,hot₁,cold₁,i₁⟩ := hm.touched h
        obtain ⟨ms,hms,hcs⟩ := ih i₁ (by rw [t₁.target]; exact ht) he
        refine ⟨ms ++ [(s,.demote n)],(Run.move .start hm).append hms,?_⟩
        rw [runCalls_first]
        simp only [hcs]
        rfl
    · rw [if_neg hgo] at he ⊢
      cases he
      exact ⟨[],.start,rfl⟩

theorem rebalance_calls (h : PoolInv s hot cold) (he : lruRebalance s = some s') :
    ∃ ms, Run Micro s ms s' ∧ lruRebalanceCalls s = runCalls k ms := by
  unfold lruRebalance at he
  unfold lruRebalanceCalls
  split_ifs at he ⊢ with ht
  · cases he
    exact ⟨[],.start,rfl⟩
  · exact rebalanceLoop_calls _ h (Nat.pos_of_ne_zero ht) he

theorem evictLoop_calls {rid : RegionId} {lo hi : ℕ} (fuel : ℕ) (h : PoolInv s hot cold)
    (ht : 0 < s.pool.targetSize) (he : evictLoop rid lo hi fuel s = some s') :
    ∃ ms, Run Micro s ms s' ∧ evictLoopCalls rid lo hi fuel s = runCalls k ms := by
  induction fuel generalizing s hot cold with
  | zero => cases he
  | succ fuel ih =>
    rw [evictLoop] at he
    rw [evictLoopCalls]
    by_cases hover : s.pool.targetSize < s.pool.residentBytes
    · rw [if_pos hover] at he ⊢
      cases hv : s.pool.links.prev .head with
      | head =>
        rw [hv] at he
        cases he
      | null =>
        rw [hv] at he
        cases he
      | node v =>
        rw [hv] at he
        simp only at he ⊢
        by_cases hprot : v.1 = rid ∧ lo ≤ v.2 ∧ v.2 ≤ hi
        · rw [if_pos hprot] at he ⊢
          cases he
          exact ⟨[],.start,rfl⟩
        · rw [if_neg hprot] at he ⊢
          obtain ⟨s₁,e₁,e₂⟩ := Option.bind_eq_some_iff.mp he
          have hres : s.pool.resident v = true := by
            rw [ring_prev_head h.queue.order.ring] at hv
            rw [h.queue.order.resident,← mem_refs,← hv]
            exact (lastRef_mem _).resolve_left (by rw [hv]; simp)
          have hm : Micro s (.evict v) s₁ := .evict ht hres e₁
          obtain ⟨t₁,hot₁,cold₁,i₁⟩ := hm.touched h
          obtain ⟨ms,hms,hcs⟩ := ih i₁ (by rw [t₁.target]; exact ht) e₂
          refine ⟨ms ++ [(s,.evict v)],(Run.move .start hm).append hms,?_⟩
          rw [runCalls_first,e₁,Option.elim_some,hcs]
          rfl
    · rw [if_neg hover] at he ⊢
      cases he
      exact ⟨[],.start,rfl⟩

theorem evict_calls {rid : RegionId} {lo hi : ℕ} (h : PoolInv s hot cold)
    (he : evictUntilWithinBudget s rid lo hi = some s') :
    ∃ ms, Run Micro s ms s' ∧ evictUntilWithinBudgetCalls s rid lo hi = runCalls k ms := by
  unfold evictUntilWithinBudget at he
  unfold evictUntilWithinBudgetCalls
  split_ifs at he ⊢ with ht
  · cases he
    exact ⟨[],.start,rfl⟩
  · exact evictLoop_calls _ h (Nat.pos_of_ne_zero ht) he

theorem fillMissing_calls {rid : RegionId} (len : ℕ) (c : ℕ) (h : PoolInv s hot cold)
    (hr : rid ∈ s.pool.regions) (hc : c+len ≤ (s.pool.region rid).layout.nchunks)
    (he : fillMissing rid len c s = some s') :
    ∃ ms, Run Micro s ms s' ∧ fillMissingCalls k rid len c s = runCalls k ms := by
  induction len generalizing s hot cold c with
  | zero =>
    cases he
    exact ⟨[],.start,rfl⟩
  | succ len ih =>
    obtain ⟨s₁,e₁,e₂⟩ := Option.bind_eq_some_iff.mp he
    rw [fillMissingCalls,e₁,Option.elim_some,fillUnlessCalls]
    unfold fillUnless at e₁
    cases hi : (s.pool.region rid).initialized c with
    | true =>
      rw [hi] at e₁
      cases e₁
      simp only [if_true,List.nil_append]
      exact ih (c+1) h hr (by omega) e₂
    | false =>
      rw [hi] at e₁
      have hl : Live s.pool (rid,c) := ⟨hr,(by omega : c < (s.pool.region rid).layout.nchunks)⟩
      have hm : Micro s (.fill (rid,c) ((s.pool.region rid).layout.chunkSize c)) s₁ := .fill hl hi e₁
      obtain ⟨t₁,hot₁,cold₁,i₁⟩ := hm.touched h
      obtain ⟨ms,hms,hcs⟩ := ih (c+1) i₁ (t₁.regions ▸ hr) (by rw [t₁.layouts rid]; omega) e₂
      refine ⟨ms ++ [(s,_)],(Run.move .start hm).append hms,?_⟩
      rw [runCalls_first,hcs]
      rfl

theorem serve_calls {rid : RegionId} {page lo hi : ℕ} (h : PoolInv s hot cold) (hr : rid ∈ s.pool.regions)
    (he : servePage s rid page = some (lo,hi,s'))
    (hun : findSharedPage (s.pool.region rid).layout page = none →
      (rid,(s.pool.region rid).layout.findChunk page) ∉ hot) :
    ∃ ms, Run Micro s ms s' ∧ servePageCalls k s rid page = runCalls k ms := by
  simp only [servePage] at he
  simp only [servePageCalls]
  cases hf : findSharedPage (s.pool.region rid).layout page with
  | some j =>
    rw [hf] at he
    simp only at he ⊢
    split_ifs at he
    obtain ⟨s₁,e₁,e₂⟩ := Option.map_eq_some_iff.mp he
    cases e₂
    have hj := ((findSharedPage_some _ _ _).mp hf).1
    have h2 := two_contributors _ hj
    have hlast := lastChunk_lt _ hj
    exact fillMissing_calls _ _ h hr (by omega) e₁
  | none =>
    rw [hf] at he
    simp only at he ⊢
    set c := (s.pool.region rid).layout.findChunk page with hc
    have hl : Live s.pool (rid,c) := ⟨hr,Layout.findChunk_lt _ _⟩
    obtain ⟨s₁,e₁,e₂⟩ := Option.map_eq_some_iff.mp he
    simp only [Prod.mk.injEq] at e₂
    obtain ⟨-,-,rfl⟩ := e₂
    cases hi : (s.pool.region rid).initialized c with
    | true =>
      rw [hi,if_pos rfl] at e₁
      have hq : (rid,c) ∈ hot ++ cold := (h.initialized_iff hl).mp hi
      have hcold : (rid,c) ∈ cold := (List.mem_append.mp hq).resolve_left (hun hf)
      have hm : Micro s (.promote (rid,c)) s₁ :=
        .promote ((h.queue.order.resident _).mpr hq) (h.queue.order.coldFlag _ hcold) e₁
      exact ⟨[(s,.promote (rid,c))],.move .start hm,by simp [runCalls,microCalls]⟩
    | false =>
      rw [hi,if_neg Bool.false_ne_true] at e₁
      have hm : Micro s (.fill (rid,c) ((s.pool.region rid).layout.chunkSize c)) s₁ := .fill hl hi e₁
      exact ⟨[(s,_)],.move .start hm,by simp [runCalls,microCalls]⟩

/-- A resolved fault makes the calls of its chunk operations. -/
theorem resolve_calls {rid : RegionId} {off : ℕ} (h : PoolInv s hot cold) (hr : rid ∈ s.pool.regions)
    (hun : pageReadable s.pool rid off = false) (he : resolveFaultLocked s rid off = some s') :
    ∃ ms s₁, Run Micro s ms s₁ ∧ s' = countHandled s₁ rid ∧ resolveFaultCalls k s rid off = runCalls k ms := by
  set page := pageFloor off (s.pool.region rid).layout.pageSize with hpage
  have hnot : findSharedPage (s.pool.region rid).layout page = none →
      (rid,(s.pool.region rid).layout.findChunk page) ∉ hot := by
    intro hf hm
    rw [(readable_iff_hot h hr (by rw [← hpage]; exact hf)).mpr hm] at hun
    cases hun
  simp only [resolveFaultLocked] at he
  rw [← hpage] at he
  obtain ⟨⟨lo,hi,s₁⟩,e₁,he⟩ := Option.bind_eq_some_iff.mp he
  simp only at he
  split_ifs at he
  obtain ⟨s₂,e₂,he⟩ := Option.bind_eq_some_iff.mp he
  obtain ⟨s₃,e₃,rfl⟩ := Option.map_eq_some_iff.mp he
  obtain ⟨ms₁,r₁,c₁⟩ := serve_calls (k := k) h hr e₁ hnot
  obtain ⟨-,hot₁,cold₁,i₁⟩ := run_history r₁ ⟨hot,cold,h⟩
  obtain ⟨ms₂,r₂,c₂⟩ := evict_calls (k := k) i₁ e₂
  obtain ⟨-,hot₂,cold₂,i₂⟩ := run_history r₂ ⟨_,_,i₁⟩
  obtain ⟨ms₃,r₃,c₃⟩ := rebalance_calls (k := k) i₂ e₃
  refine ⟨ms₃ ++ (ms₂ ++ ms₁),s₃,(r₁.append r₂).append r₃,rfl,?_⟩
  simp only [resolveFaultCalls]
  rw [← hpage,e₁,Option.elim_some,e₂,Option.elim_some,c₁,c₂,c₃,runCalls_append,runCalls_append,
    List.append_assoc]

end Loops

section Freeing
variable {P k : ℕ} {rid : RegionId} {p : Pool} {m : Memory}

/-- The memory after the staging pages `js` of a region have been given back. -/
structure Discarded (k rid : ℕ) (js : List ℕ) (m m' : Memory) : Prop where
  table : m'.table = m.table
  reserved : m'.reserved = m.reserved
  gone : ∀ j ∈ js, m'.held (.staging k rid j) = none
  held : ∀ b, (∀ j ∈ js, b ≠ .staging k rid j) → m'.held b = m.held b

theorem discard_all {js : List ℕ} (hn : js.Nodup) (hP : 0 < P)
    (h : ∀ j ∈ js, ∃ buffer, m.held (.staging k rid j) = some (heldBy buffer) ∧ buffer.size = P) :
    AllAllowed P m (js.map (fun j => .consume (.staging k rid j) (.discard 0 P))) ∧
      Discarded k rid js m (calls m (js.map (fun j => .consume (.staging k rid j) (.discard 0 P)))) := by
  induction js generalizing m with
  | nil => exact ⟨trivial,rfl,rfl,fun _ hj => absurd hj List.not_mem_nil,fun _ _ => rfl⟩
  | cons j js ih =>
    obtain ⟨hj,hjs⟩ := List.nodup_cons.mp hn
    obtain ⟨buffer,hb,hsize⟩ := h j List.mem_cons_self
    obtain ⟨hal,hcall⟩ : AllAllowed P m ([Piece.discard 0 P].map (.consume (.staging k rid j))) ∧
        calls m ([Piece.discard 0 P].map (.consume (.staging k rid j))) = m.hold (.staging k rid j) none :=
      discards_used hb (by simp)
      (by
        have hs : (heldBy buffer).size = P := hsize
        rw [hs]
        exact tiles_whole P)
      (by
        intro p hp
        obtain rfl := List.mem_singleton.mp hp
        exact ⟨dvd_zero P,dvd_refl P,hP⟩)
      (fun p hp => ⟨_,_,List.mem_singleton.mp hp⟩)
    have hne : ∀ i ∈ js, Buffer.staging k rid i ≠ .staging k rid j := by
      intro i hi hc
      cases hc
      exact hj hi
    obtain ⟨hal',hrest⟩ := ih (m := m.hold (.staging k rid j) none) hjs (fun i hi => by
      rw [hold_of_ne _ _ (hne i hi)]
      exact h i (List.mem_cons_of_mem _ hi))
    have hfirst : call m (.consume (.staging k rid j) (.discard 0 P)) = m.hold (.staging k rid j) none := hcall
    rw [List.map_cons,calls_cons,hfirst]
    refine ⟨⟨hal.1,by rw [hfirst]; exact hal'⟩,hrest.table,hrest.reserved,?_,?_⟩
    · intro i hi
      by_cases hin : i ∈ js
      · exact hrest.gone i hin
      · obtain rfl := (List.mem_cons.mp hi).resolve_right hin
        rw [hrest.held _ (fun x hx hc => by cases hc; exact hin hx)]
        exact hold_self _ _ _
    · intro b hno
      rw [hrest.held b (fun x hx => hno x (List.mem_cons_of_mem _ hx))]
      exact hold_of_ne _ _ (hno j List.mem_cons_self)

/-- The memory after the regions `rs` of a pool have been given back. -/
structure Freed (k : ℕ) (p : Pool) (rs : List RegionId) (m m' : Memory) : Prop where
  table : m'.table = rs.foldl (fun vm r => regionFree vm (p.region r)) m.table
  reserved : ∀ q, m'.reserved q = true ↔ m.reserved q = true ∧ ∀ rid ∈ rs, ¬ InRange (p.region rid) q
  gone : ∀ rid ∈ rs, ∀ j < nshared (p.region rid).layout, m'.held (.staging k rid j) = none
  held : ∀ b, (∀ rid ∈ rs, ∀ j < nshared (p.region rid).layout, b ≠ .staging k rid j) → m'.held b = m.held b

theorem mappedSize_pos (L : Layout) : 0 < L.mappedSize := by
  have h1 := L.mapped_bounds.1
  have h2 : L.chunkStart 0 < L.chunkStart 1 := L.start_succ 0 L.nchunks_pos
  have h3 := L.start_le_total (i := 1) L.nchunks_pos
  omega

/-- One region: its range and its pending pages. -/
theorem free_one (hp : (p.region rid).layout.pageSize = P ∧ P ∣ (p.region rid).base)
    (hz : StagingSized (p.region rid)) (hr : ∀ q, InRange (p.region rid) q → m.reserved q = true)
    (hs : ∀ j < nshared (p.region rid).layout,
      m.held (.staging k rid j) = pending ((p.region rid).sharedPages j)) :
    AllAllowed P m (regionFreeCalls k rid (p.region rid)) ∧
      Freed k p [rid] m (calls m (regionFreeCalls k rid (p.region rid))) := by
  obtain ⟨hl,hbase⟩ := hp
  set r := p.region rid with hreg
  set js := (List.range (nshared r.layout)).filter (fun j => (r.sharedPages j).staging.isSome) with hjs
  set m₁ := call m (.release r.base r.layout.mappedSize) with hm₁
  have hmem : ∀ j, j ∈ js ↔ j < nshared r.layout ∧ (r.sharedPages j).staging.isSome = true := by
    intro j
    rw [hjs,List.mem_filter,List.mem_range]
  have hpages : Pages P r.base r.layout.mappedSize :=
    ⟨hbase,hl ▸ r.layout.dvd_mapped,mappedSize_pos _⟩
  have hbuf : ∀ j ∈ js, ∃ buffer, m₁.held (.staging k rid j) = some (heldBy buffer) ∧ buffer.size = P := by
    intro j hj
    obtain ⟨hlt,hsome⟩ := (hmem j).mp hj
    obtain ⟨buffer,hb⟩ := Option.isSome_iff_exists.mp hsome
    refine ⟨buffer,?_,(hz j buffer hb).trans hl⟩
    change m.held (.staging k rid j) = _
    rw [hs j hlt,pending,hb]
    rfl
  obtain ⟨hal,hd⟩ := discard_all ((List.nodup_range).filter _) (hl ▸ r.layout.pageSize_pos) hbuf
  have hcs : regionFreeCalls k rid r = .release r.base r.layout.mappedSize::
      js.map (fun j => .consume (.staging k rid j) (.discard 0 P)) := by
    rw [← hl]
    rfl
  rw [hcs,calls_cons]
  refine ⟨⟨⟨hpages,hr⟩,hal⟩,?_,?_,?_,?_⟩
  · exact hd.table
  · intro q
    rw [hd.reserved]
    simp only [hm₁,call,List.mem_singleton,forall_eq]
    rw [← hreg]
    by_cases hq : r.base ≤ q ∧ q < r.base+r.layout.mappedSize
    · rw [if_pos hq]
      exact iff_of_false (by simp) (fun hc => hc.2 hq)
    · rw [if_neg hq]
      exact (and_iff_left hq).symm
  · intro x hx j hj
    obtain rfl := List.mem_singleton.mp hx
    rw [← hreg] at hj
    by_cases hin : j ∈ js
    · exact hd.gone j hin
    · rw [hd.held _ (fun i hi hc => by cases hc; exact hin hi)]
      change m.held (.staging k x j) = none
      rw [hs j hj,pending]
      cases hst : (r.sharedPages j).staging with
      | none => rfl
      | some buffer => exact absurd ((hmem j).mpr ⟨hj,by rw [hst]; rfl⟩) hin
  · intro b hno
    rw [hd.held b (fun j hj => hno rid (List.mem_singleton_self _) j ((hmem j).mp hj).1)]
    rfl

/-- Several regions, each with its own range. -/
theorem free_all (rs : List RegionId) (hn : rs.Nodup) (hp : ∀ rid ∈ rs, (p.region rid).layout.pageSize = P ∧
      P ∣ (p.region rid).base) (hz : ∀ rid ∈ rs, StagingSized (p.region rid))
    (ha : ∀ r ∈ rs, ∀ r' ∈ rs, r ≠ r' → ∀ q, InRange (p.region r) q → ¬ InRange (p.region r') q)
    (hr : ∀ rid ∈ rs, ∀ q, InRange (p.region rid) q → m.reserved q = true)
    (hs : ∀ rid ∈ rs, ∀ j < nshared (p.region rid).layout,
      m.held (.staging k rid j) = pending ((p.region rid).sharedPages j)) :
    AllAllowed P m (rs.flatMap (fun rid => regionFreeCalls k rid (p.region rid))) ∧
      Freed k p rs m (calls m (rs.flatMap (fun rid => regionFreeCalls k rid (p.region rid)))) := by
  induction rs generalizing m with
  | nil =>
    exact ⟨trivial,rfl,fun _ => by simp,fun _ hx => absurd hx List.not_mem_nil,fun _ _ => rfl⟩
  | cons rid rs ih =>
    obtain ⟨hne,hnd⟩ := List.nodup_cons.mp hn
    obtain ⟨a₁,f₁⟩ := free_one (k := k) (hp rid List.mem_cons_self) (hz rid List.mem_cons_self)
      (hr rid List.mem_cons_self) (hs rid List.mem_cons_self)
    set m₁ := calls m (regionFreeCalls k rid (p.region rid)) with hm₁
    have hother : ∀ x ∈ rs, x ≠ rid := fun x hx he => hne (he ▸ hx)
    obtain ⟨a₂,f₂⟩ := ih (m := m₁) hnd (fun x hx => hp x (List.mem_cons_of_mem _ hx))
      (fun x hx => hz x (List.mem_cons_of_mem _ hx))
      (fun x hx y hy => ha x (List.mem_cons_of_mem _ hx) y (List.mem_cons_of_mem _ hy))
      (fun x hx q hq => (f₁.reserved q).mpr ⟨hr x (List.mem_cons_of_mem _ hx) q hq,fun y hy => by
        obtain rfl := List.mem_singleton.mp hy
        exact ha x (List.mem_cons_of_mem _ hx) y List.mem_cons_self (hother x hx) q hq⟩)
      (fun x hx j hj => by
        rw [f₁.held _ (fun y hy i _ hc => by
          cases hc
          exact hother x hx (List.mem_singleton.mp hy))]
        exact hs x (List.mem_cons_of_mem _ hx) j hj)
    rw [List.flatMap_cons,allowed_append,calls_append,← hm₁]
    refine ⟨⟨a₁,a₂⟩,?_,?_,?_,?_⟩
    · rw [f₂.table,f₁.table]
      rfl
    · intro q
      rw [f₂.reserved q,f₁.reserved q,and_assoc]
      simp
    · intro x hx j hj
      rcases List.mem_cons.mp hx with rfl | hx
      · rw [f₂.held _ (fun y hy i _ hc => by
          cases hc
          exact hother x hy rfl)]
        exact f₁.gone x (List.mem_singleton_self _) j hj
      · exact f₂.gone x hx j hj
    · intro b hno
      rw [f₂.held b (fun x hx => hno x (List.mem_cons_of_mem _ hx)),
        f₁.held b (fun x hx => by
          obtain rfl := List.mem_singleton.mp hx
          exact hno x List.mem_cons_self)]

end Freeing

section Process
variable {pr pr' : Process} {m : Memory} {cs : List VmCall}

/-- The staging page that the process keeps for an entry. -/
def kept (pr : Process) (k : PoolId) (rid : RegionId) (j : ℕ) : Option Held :=
  if k ∈ pr.pools ∧ rid ∈ (pr.pool k).regions ∧ j < nshared ((pr.pool k).region rid).layout then
    pending (((pr.pool k).region rid).sharedPages j)
  else none

/-- Addresses that belong to a live region. -/
def Ours (pr : Process) (q : ℕ) : Prop :=
  ∃ k ∈ pr.pools, ∃ rid ∈ (pr.pool k).regions, InRange ((pr.pool k).region rid) q

/-- A call that keeps the lists and the places of the regions. -/
theorem ours_same {q : ℕ} (hpools : pr'.pools = pr.pools) (hr : ∀ k, (pr'.pool k).regions = (pr.pool k).regions)
    (hs : ∀ k rid, SameShape ((pr.pool k).region rid) ((pr'.pool k).region rid)) :
    Ours pr' q ↔ Ours pr q := by
  simp only [Ours,hpools,hr]
  refine exists_congr (fun k => and_congr_right (fun _ => exists_congr (fun rid => and_congr_right (fun _ => ?_))))
  exact (hs k rid).inRange q

theorem ours_replace {k : PoolId} {s : State} {q : ℕ} (hr : s.pool.regions = (pr.pool k).regions)
    (hs : ∀ rid, SameShape ((pr.pool k).region rid) (s.pool.region rid)) :
    Ours (withState pr k s) q ↔ Ours pr q := by
  have hpools : (withState pr k s).pools = pr.pools := rfl
  apply ours_same hpools
  · intro j
    by_cases hjk : j = k
    · subst hjk
      rw [withState_pool_self,hr]
    · rw [withState_pool_of_ne pr s hjk]
  · intro j rid
    by_cases hjk : j = k
    · subst hjk
      rw [withState_pool_self]
      exact hs rid
    · rw [withState_pool_of_ne pr s hjk]
      exact SameShape.refl _

theorem ours_poolCreate {targetSize q : ℕ} (hfresh : pr.nextPool ∉ pr.pools) :
    Ours (fcPoolCreate pr targetSize) q ↔ Ours pr q := by
  have hself : (fcPoolCreate pr targetSize).pool pr.nextPool = poolInit targetSize :=
    Function.update_self _ _ _
  have hne : ∀ j, j ≠ pr.nextPool → (fcPoolCreate pr targetSize).pool j = pr.pool j :=
    fun j hj => Function.update_of_ne hj _ _
  constructor
  · rintro ⟨j,hj,hrest⟩
    by_cases hjn : j = pr.nextPool
    · subst hjn
      rw [hself] at hrest
      obtain ⟨x,hx,-⟩ := hrest
      cases hx
    · rw [hne j hjn] at hrest
      exact ⟨j,(List.mem_cons.mp hj).resolve_left hjn,hrest⟩
  · rintro ⟨j,hj,hrest⟩
    refine ⟨j,List.mem_cons_of_mem _ hj,?_⟩
    rwa [hne j (fun he => hfresh (he ▸ hj))]

theorem ours_insert {k : PoolId} {rid : RegionId} {r : Region} {q : ℕ} (hk : k ∈ pr.pools)
    (hfresh : rid ∉ (pr.pool k).regions) (hpools : pr'.pools = pr.pools)
    (hself : pr'.pool k = regionListInsert (pr.pool k) rid r) (hne : ∀ j, j ≠ k → pr'.pool j = pr.pool j) :
    Ours pr' q ↔ InRange r q ∨ Ours pr q := by
  constructor
  · rintro ⟨j,hj,x,hx,hin⟩
    rw [hpools] at hj
    by_cases hjk : j = k
    · subst hjk
      rw [hself] at hx hin
      rcases List.mem_cons.mp hx with rfl | hx
      · rw [insert_region_self] at hin
        exact Or.inl hin
      · rw [regionInsert_old hfresh hx] at hin
        exact Or.inr ⟨j,hj,x,hx,hin⟩
    · rw [hne j hjk] at hx hin
      exact Or.inr ⟨j,hj,x,hx,hin⟩
  · rintro (hin | ⟨j,hj,x,hx,hin⟩)
    · refine ⟨k,hpools ▸ hk,rid,?_⟩
      rw [hself,insert_region_self]
      exact ⟨List.mem_cons_self,hin⟩
    · refine ⟨j,hpools ▸ hj,x,?_⟩
      by_cases hjk : j = k
      · subst hjk
        rw [hself,regionInsert_old hfresh hx]
        exact ⟨List.mem_cons_of_mem _ hx,hin⟩
      · rw [hne j hjk]
        exact ⟨hx,hin⟩

theorem ours_remove {k : PoolId} {rid : RegionId} {p : Pool} {q : ℕ} (h : ProcessInv pr) (hk : k ∈ pr.pools)
    (hr : rid ∈ (pr.pool k).regions) (hf : Forgets (pr.pool k) p rid) (hpools : pr'.pools = pr.pools)
    (hself : pr'.pool k = regionListRemove p rid) (hne : ∀ j, j ≠ k → pr'.pool j = pr.pool j) :
    Ours pr' q ↔ Ours pr q ∧ ¬ InRange ((pr.pool k).region rid) q := by
  obtain ⟨hot,cold,hp⟩ := h.pool k hk
  have hmem := mem_regionListRemove hf hp.queue.distinct
  have hold : ∀ x, x ≠ rid → (regionListRemove p rid).region x = (pr.pool k).region x := hf.others
  constructor
  · rintro ⟨j,hj,x,hx,hin⟩
    rw [hpools] at hj
    by_cases hjk : j = k
    · subst hjk
      rw [hself] at hx hin
      obtain ⟨hxr,hx⟩ := (hmem x).mp hx
      rw [hold x hxr] at hin
      exact ⟨⟨j,hj,x,hx,hin⟩,hp.apart x hx rid hr hxr q hin⟩
    · rw [hne j hjk] at hx hin
      exact ⟨⟨j,hj,x,hx,hin⟩,h.apart j hj k hk hjk x hx rid hr q hin⟩
  · rintro ⟨⟨j,hj,x,hx,hin⟩,hno⟩
    refine ⟨j,hpools ▸ hj,x,?_⟩
    by_cases hjk : j = k
    · subst hjk
      have hxr : x ≠ rid := by
        rintro rfl
        exact hno hin
      rw [hself,hold x hxr]
      exact ⟨(hmem x).mpr ⟨hxr,hx⟩,hin⟩
    · rw [hne j hjk]
      exact ⟨hx,hin⟩

theorem ours_erase {k : PoolId} {q : ℕ} (h : ProcessInv pr) (hk : k ∈ pr.pools)
    (hpools : pr'.pools = pr.pools.erase k) (hpool : pr'.pool = pr.pool) :
    Ours pr' q ↔ Ours pr q ∧ ∀ rid ∈ (pr.pool k).regions, ¬ InRange ((pr.pool k).region rid) q := by
  have hmem : ∀ j, j ∈ pr'.pools ↔ j ≠ k ∧ j ∈ pr.pools := by
    intro j
    rw [hpools]
    exact h.distinct.mem_erase_iff
  rw [Ours,Ours,hpool]
  constructor
  · rintro ⟨j,hj,x,hx,hin⟩
    obtain ⟨hjk,hj⟩ := (hmem j).mp hj
    exact ⟨⟨j,hj,x,hx,hin⟩,fun y hy => h.apart j hj k hk hjk x hx y hy q hin⟩
  · rintro ⟨⟨j,hj,x,hx,hin⟩,hno⟩
    have hjk : j ≠ k := by
      rintro rfl
      exact hno x hx hin
    exact ⟨j,(hmem j).mpr ⟨hjk,hj⟩,x,hx,hin⟩

/-- Behind the seam is what the live regions need and nothing else. -/
structure Backed (pr : Process) (m : Memory) : Prop where
  table : m.table = pr.vm
  reserved : ∀ q, m.reserved q = true ↔ Ours pr q
  scratch : m.held .scratch = none
  staging : ∀ k rid j, m.held (.staging k rid j) = kept pr k rid j

/-- What is known of a process between two calls. -/
structure Sound (pr : Process) : Prop where
  inv : ProcessInv pr
  sized : ∀ k ∈ pr.pools, BuffersSized (pr.pool k)

theorem reachable_sound (h : Reachable pr) : Sound pr :=
  ⟨reachable_inv h,buffersSized_lifelong.reachable h⟩

theorem paged (h : ProcessInv pr) {k : PoolId} (hk : k ∈ pr.pools) : Paged pr.pageSize (pr.pool k) :=
  fun rid hr => ⟨(h.placed k hk rid hr).pageSize,(h.placed k hk rid hr).aligned⟩

theorem Backed.pool (hb : Backed pr m) {k : PoolId} (hk : k ∈ pr.pools) :
    Backs k ⟨pr.pool k,pr.vm⟩ m := by
  refine ⟨hb.table,?_,hb.scratch,?_⟩
  · exact fun rid hr q hq => (hb.reserved q).mpr ⟨k,hk,rid,hr,hq⟩
  · intro rid hr j hj
    rw [hb.staging]
    exact if_pos ⟨hk,hr,hj⟩

theorem vmStep_step (h : VmStep pr cs pr') : Step pr pr' := by
  cases h with
  | poolCreate targetSize => exact .poolCreate pr targetSize
  | regionCreate k sizes total fill base hk ha hb =>
    exact .regionCreate pr k sizes total fill base hk ha hb
  | notOurs addr he => exact .fault pr addr false pr he
  | fault addr k rid _ hk hf he => exact .fault pr addr true pr' he
  | regionDestroy k rid _ hk hr he => exact .regionDestroy pr k rid pr' hk hr he
  | poolDestroy k hk => exact .poolDestroy pr k hk

theorem step_vmStep (h : Step pr pr') : ∃ cs, VmStep pr cs pr' := by
  cases h with
  | poolCreate targetSize => exact ⟨_,.poolCreate pr targetSize⟩
  | regionCreate k sizes total fill base hk ha hb =>
    exact ⟨_,.regionCreate pr k sizes total fill base hk ha hb⟩
  | fault addr ours _ he =>
    rcases faultScan_cases he with ⟨rfl,rfl⟩ | ⟨rfl,k,hk,rid,s,hfind,hun,hs,hpr⟩
    · exact ⟨_,.notOurs _ addr he⟩
    · exact ⟨_,.fault pr addr k rid pr' hk hfind he⟩
  | regionDestroy k rid _ hk hr he => exact ⟨_,.regionDestroy pr k rid pr' hk hr he⟩
  | poolDestroy k hk => exact ⟨_,.poolDestroy pr k hk⟩

theorem vmStep_sound (h : Sound pr) (hs : VmStep pr cs pr') : Sound pr' :=
  ⟨step_inv h.inv (vmStep_step hs),buffersSized_lifelong.step h.inv (vmStep_step hs) h.sized⟩

theorem Run.microRun {s s' : State} {ms : List (State × Event)} (hr : Run Micro s ms s') : MicroRun s s' := by
  induction hr with
  | start => exact Relation.ReflTransGen.refl
  | move _ hm ih => exact ih.trans (MicroRun.one hm)

theorem Backs.counted {k : PoolId} {s : State} (hb : Backs k s m) (rid : RegionId) :
    Backs k (countHandled s rid) m := by
  have hl : ∀ x, ((countHandled s rid).pool.region x).layout = (s.pool.region x).layout :=
    fun x => countHandled_keeps (g := Region.layout) s rid x (fun _ _ => rfl)
  have hbase : ∀ x, ((countHandled s rid).pool.region x).base = (s.pool.region x).base :=
    fun x => countHandled_keeps (g := Region.base) s rid x (fun _ _ => rfl)
  refine ⟨hb.table,fun x hx q hq => hb.reserved x hx q ?_,hb.scratch,fun x hx j hj => ?_⟩
  · rwa [InRange,hl x,hbase x] at hq
  · rw [hl x] at hj
    rw [countHandled_keeps (g := Region.sharedPages) s rid x (fun _ _ => rfl)]
    exact hb.staging x hx j hj

/-- Calls of one pool that keep its regions in their places. -/
theorem Backed.replace {k : PoolId} {s : State} {m' : Memory} (hb : Backed pr m) (hk : k ∈ pr.pools)
    (hbs : Backs k s m') (hkept : Kept k (pr.pool k) m m') (hr : s.pool.regions = (pr.pool k).regions)
    (hs : ∀ rid, SameShape ((pr.pool k).region rid) (s.pool.region rid)) : Backed (withState pr k s) m' := by
  refine ⟨hbs.table,?_,?_,?_⟩
  · intro q
    rw [hkept.reserved,hb.reserved q,ours_replace hr hs]
  · exact hbs.scratch
  · intro j rid i
    by_cases hjk : j = k
    · subst hjk
      simp only [kept,withState_pool_self]
      rw [hr,(hs rid).layout]
      by_cases hlive : rid ∈ (pr.pool j).regions ∧ i < nshared ((pr.pool j).region rid).layout
      · rw [if_pos ⟨hk,hlive⟩]
        exact hbs.staging rid (hr ▸ hlive.1) i (by rw [(hs rid).layout]; exact hlive.2)
      · rw [if_neg (fun hc => hlive hc.2),hkept.held _ (fun x hx y hy hc => by
          cases hc
          exact hlive ⟨hx,hy⟩),hb.staging]
        exact if_neg (fun hc => hlive hc.2)
    · rw [hkept.held _ (fun x _ y _ hc => by cases hc; exact hjk rfl),hb.staging]
      simp only [kept,withState_pool_of_ne pr s hjk]
      rfl

theorem fault_backed (h : Sound pr) {k : PoolId} {rid : RegionId} {addr : ℕ} (hk : k ∈ pr.pools)
    (hf : findRegionLocked (pr.pool k) addr = some rid) (he : faultTryResolve pr addr = some (true,pr'))
    (hb : Backed pr m) :
    let cs := resolveFaultCalls k ⟨pr.pool k,pr.vm⟩ rid (addr-((pr.pool k).region rid).base)
    AllAllowed pr.pageSize m cs ∧ Backed pr' (calls m cs) := by
  intro cs
  obtain ⟨hr,hin⟩ := findRegionLocked_some hf
  rcases faultScan_cases he with ⟨hc,-⟩ | ⟨-,j,hj,x,s,hfind,hun,hs,rfl⟩
  · cases hc
  rw [findRegion_live h.inv hk hj hr hin] at hfind
  split_ifs at hfind with hjk
  subst hjk
  cases hfind
  obtain ⟨hot,cold,hp⟩ := h.inv.pool j hj
  obtain ⟨ms,s₁,hrun,rfl,hcs⟩ := resolve_calls (k := j) hp hr hun hs
  obtain ⟨a₁,b₁,k₁⟩ := run_backs hrun hp (paged h.inv hj) (h.sized j hj) (hb.pool hj)
  have hframe := (Run.microRun hrun).frame ⟨hot,cold,hp⟩
  have hcsrun : cs = runCalls j ms := hcs
  rw [hcsrun]
  refine ⟨a₁,hb.replace hj (Backs.counted b₁ rid) k₁ hframe.regions (fun x => ?_)⟩
  refine (hframe.shape x).trans ⟨?_,?_,?_⟩
  · exact countHandled_keeps (g := Region.layout) s₁ rid x (fun _ _ => rfl)
  · exact countHandled_keeps (g := Region.base) s₁ rid x (fun _ _ => rfl)
  · exact countHandled_keeps (g := Region.fillChunk) s₁ rid x (fun _ _ => rfl)

theorem create_backed (h : Sound pr) {k : PoolId} {sizes : List ℕ} {total base : ℕ} {fill : ℕ → ℕ → UInt8}
    (hk : k ∈ pr.pools) (ha : Accepted pr.pageSize sizes total)
    (hr : Reservable pr base (pageCeil total pr.pageSize)) (hb : Backed pr m) :
    AllAllowed pr.pageSize m [.reserve base (pageCeil total pr.pageSize)] ∧
    Backed (fcRegionCreate pr k sizes total ha fill base)
      (calls m [.reserve base (pageCeil total pr.pageSize)]) := by
  set L := Layout.ofSizes pr.pageSize sizes total ha with hL
  have hsize : pageCeil total pr.pageSize = L.mappedSize := rfl
  have hfresh : ∀ j ∈ pr.pools, pr.nextRegion ∉ (pr.pool j).regions :=
    fun j hj hm => lt_irrefl _ (h.inv.freshRegion j hj _ hm)
  set pr' := fcRegionCreate pr k sizes total ha fill base with hpr'
  have hself : pr'.pool k = regionListInsert (pr.pool k) pr.nextRegion (regionInit L base fill) :=
    Function.update_self _ _ _
  have hne : ∀ j, j ≠ k → pr'.pool j = pr.pool j := fun j hj => Function.update_of_ne hj _ _
  refine ⟨⟨⟨⟨hr.aligned,dvd_pageCeil _ _,hsize ▸ mappedSize_pos L⟩,hr.fits,?_⟩,trivial⟩,?_,?_,hb.scratch,?_⟩
  · intro q hq
    rw [← Bool.not_eq_true,hb.reserved q]
    rintro ⟨j,hj,x,hx,hin⟩
    exact hr.vacant j hj x hx q hq hin
  · rw [calls_cons,calls_nil]
    change vmReserve m.table base (pageCeil total pr.pageSize) = _
    rw [hb.table]
    rfl
  · intro q
    have hours : Ours pr' q ↔ InRange (regionInit L base fill) q ∨ Ours pr q :=
      ours_insert hk (hfresh k hk) rfl hself hne
    rw [hours]
    change (if base ≤ q ∧ q < base+L.mappedSize then true else m.reserved q) = true ↔ _
    split_ifs with hq
    · exact iff_of_true rfl (Or.inl hq)
    · exact (hb.reserved q).trans (or_iff_right hq).symm
  · intro j x i
    change m.held (.staging j x i) = _
    rw [hb.staging]
    by_cases hjk : j = k
    · subst hjk
      simp only [kept]
      rw [hself]
      by_cases hx : x = pr.nextRegion
      · subst hx
        rw [if_neg (fun hc => hfresh j hk hc.2.1),insert_region_self]
        split_ifs
        · rfl
        · rfl
      · rw [insert_region_of_ne hx]
        refine if_congr ?_ rfl rfl
        rw [show (regionListInsert (pr.pool j) pr.nextRegion (regionInit L base fill)).regions =
          pr.nextRegion::(pr.pool j).regions from rfl,List.mem_cons,or_iff_right hx]
        rfl
    · simp only [kept,hne j hjk]
      rfl

/-- The regions that a destruction takes away. -/
theorem freed_backed {k : PoolId} {rs : List RegionId} {m' : Memory} (hb : Backed pr m)
    (hf : Freed k (pr.pool k) rs m m')
    (htable : pr'.vm = rs.foldl (fun vm r => regionFree vm ((pr.pool k).region r)) pr.vm)
    (hours : ∀ q, Ours pr' q ↔ Ours pr q ∧ ∀ rid ∈ rs, ¬ InRange ((pr.pool k).region rid) q)
    (hkept : ∀ j x i, kept pr' j x i = if j = k ∧ x ∈ rs then none else kept pr j x i) : Backed pr' m' := by
  refine ⟨by rw [hf.table,hb.table,htable],?_,?_,?_⟩
  · intro q
    rw [hf.reserved q,hb.reserved q,hours q]
  · rw [hf.held _ (fun _ _ _ _ hc => by cases hc)]
    exact hb.scratch
  · intro j x i
    rw [hkept]
    split_ifs with hx
    · obtain ⟨rfl,hx⟩ := hx
      by_cases hi : i < nshared ((pr.pool j).region x).layout
      · exact hf.gone x hx i hi
      · rw [hf.held _ (fun y _ z hz hc => by cases hc; exact hi hz),hb.staging]
        exact if_neg (fun hc => hi hc.2.2)
    · rw [hf.held _ (fun y hy z _ hc => by cases hc; exact hx ⟨rfl,hy⟩)]
      exact hb.staging j x i

theorem regionDestroy_backed (h : Sound pr) {k : PoolId} {rid : RegionId} (hk : k ∈ pr.pools)
    (hr : rid ∈ (pr.pool k).regions) (he : fcRegionDestroy pr k rid = some pr') (hb : Backed pr m) :
    AllAllowed pr.pageSize m (regionFreeCalls k rid ((pr.pool k).region rid)) ∧
    Backed pr' (calls m (regionFreeCalls k rid ((pr.pool k).region rid))) := by
  obtain ⟨hot,cold,hp⟩ := h.inv.pool k hk
  obtain ⟨p,e,hf,he',hinv'⟩ := destroy_spec h.inv hk hr
  obtain rfl := Option.some.inj (he'.symm.trans he)
  have hbk := hb.pool hk
  obtain ⟨a₁,f₁⟩ := free_one (k := k) (paged h.inv hk rid hr) (h.sized k hk rid hr) (hbk.reserved rid hr)
    (hbk.staging rid hr)
  have hmem := mem_regionListRemove hf hp.queue.distinct
  set pr' := withState pr k ⟨regionListRemove p rid,regionFree pr.vm ((pr.pool k).region rid)⟩ with hpr'
  have hself : pr'.pool k = regionListRemove p rid := withState_pool_self _ _ _
  have hne : ∀ j, j ≠ k → pr'.pool j = pr.pool j := fun j hj => withState_pool_of_ne _ _ hj
  have hold : ∀ x, x ≠ rid → (pr'.pool k).region x = (pr.pool k).region x := by
    intro x hx
    rw [hself]
    exact hf.others x hx
  have hlive : ∀ x, x ∈ (pr'.pool k).regions ↔ x ≠ rid ∧ x ∈ (pr.pool k).regions := by
    intro x
    rw [hself]
    exact hmem x
  refine ⟨a₁,freed_backed hb f₁ rfl ?_ ?_⟩
  · intro q
    simp only [List.mem_singleton,forall_eq]
    exact ours_remove h.inv hk hr hf rfl hself hne
  · intro j x i
    by_cases hjk : j = k
    · subst hjk
      by_cases hxr : x = rid
      · rw [if_pos ⟨rfl,List.mem_singleton.mpr hxr⟩]
        exact if_neg (fun hc => ((hlive x).mp hc.2.1).1 hxr)
      · rw [if_neg (fun hc => hxr (List.mem_singleton.mp hc.2))]
        simp only [kept]
        rw [hold x hxr]
        refine if_congr ?_ rfl rfl
        exact and_congr_right (fun _ => and_congr_left (fun _ => (hlive x).trans (and_iff_right hxr)))
    · rw [if_neg (fun hc => hjk hc.1)]
      simp only [kept,hne j hjk]
      rfl

theorem poolDestroy_backed (h : Sound pr) {k : PoolId} (hk : k ∈ pr.pools) (hb : Backed pr m) :
    let cs := (pr.pool k).regions.flatMap (fun rid => regionFreeCalls k rid ((pr.pool k).region rid))
    AllAllowed pr.pageSize m cs ∧ Backed (fcPoolDestroy pr k) (calls m cs) := by
  intro cs
  obtain ⟨hot,cold,hp⟩ := h.inv.pool k hk
  have hbk := hb.pool hk
  obtain ⟨a₁,f₁⟩ := free_all (pr.pool k).regions hp.queue.distinct (paged h.inv hk) (h.sized k hk) hp.apart
    hbk.reserved hbk.staging
  have hmem : ∀ j, j ∈ (fcPoolDestroy pr k).pools ↔ j ≠ k ∧ j ∈ pr.pools :=
    fun j => h.inv.distinct.mem_erase_iff
  refine ⟨a₁,freed_backed hb f₁ rfl (fun q => ours_erase h.inv hk rfl rfl) ?_⟩
  · intro j x i
    simp only [kept]
    by_cases hjk : j = k
    · subst hjk
      rw [if_neg (fun hc => ((hmem j).mp hc.1).1 rfl)]
      split_ifs with h1 h2
      · rfl
      · exact absurd ⟨rfl,h2.2.1⟩ h1
      · rfl
    · refine Eq.trans ?_ (if_neg (fun hc => hjk hc.1)).symm
      exact if_congr (and_congr_left (fun _ => (hmem j).trans (and_iff_right hjk))) rfl rfl

/-- One public call. -/
theorem vmStep_backed (h : Sound pr) (hs : VmStep pr cs pr') (hb : Backed pr m) :
    AllAllowed pr.pageSize m cs ∧ Backed pr' (calls m cs) := by
  cases hs with
  | poolCreate targetSize =>
    have hfresh : pr.nextPool ∉ pr.pools := fun hm => lt_irrefl _ (h.inv.freshPool _ hm)
    have hself : (fcPoolCreate pr targetSize).pool pr.nextPool = poolInit targetSize :=
      Function.update_self _ _ _
    have hne : ∀ j, j ≠ pr.nextPool → (fcPoolCreate pr targetSize).pool j = pr.pool j :=
      fun j hj => Function.update_of_ne hj _ _
    refine ⟨trivial,hb.table,fun q => (hb.reserved q).trans (ours_poolCreate hfresh).symm,hb.scratch,?_⟩
    · intro j x i
      refine (hb.staging j x i).trans ?_
      simp only [kept]
      by_cases hjn : j = pr.nextPool
      · subst hjn
        rw [if_neg (fun hc => hfresh hc.1),hself,if_neg (fun hc => by cases hc.2.1)]
      · rw [hne j hjn]
        refine if_congr (and_congr_left (fun _ => ?_)) rfl rfl
        exact (List.mem_cons.trans (or_iff_right hjn)).symm
  | regionCreate k sizes total fill base hk ha hr => exact create_backed h hk ha hr hb
  | notOurs addr he => exact ⟨trivial,hb⟩
  | fault addr k rid _ hk hf he => exact fault_backed h hk hf he hb
  | regionDestroy k rid _ hk hr he => exact regionDestroy_backed h hk hr he hb
  | poolDestroy k hk => exact poolDestroy_backed h hk hb

/-- No range has been reserved yet and no buffer created. -/
def untouched (vm : PageTable) : Memory := ⟨vm,fun _ => false,fun _ => none⟩

/-- The calls of a run, oldest first. -/
def vmCalls (ms : List (Process × List VmCall)) : List VmCall := ms.reverse.flatMap Prod.snd

theorem vmCalls_cons (pr : Process) (cs : List VmCall) (ms : List (Process × List VmCall)) :
    vmCalls ((pr,cs)::ms) = vmCalls ms ++ cs := by
  simp [vmCalls]

theorem start_sound (P : ℕ) (vm : PageTable) : Sound (start P vm) :=
  reachable_sound ⟨P,vm,Relation.ReflTransGen.refl⟩

theorem start_backed (P : ℕ) (vm : PageTable) : Backed (start P vm) (untouched vm) := by
  refine ⟨rfl,fun q => iff_of_false Bool.false_ne_true ?_,rfl,fun k rid j => (if_neg ?_).symm⟩
  · rintro ⟨k,hk,-⟩
    cases hk
  · rintro ⟨hk,-⟩
    cases hk

theorem vmStep_pageSize (h : VmStep pr cs pr') : pr'.pageSize = pr.pageSize := by
  cases h with
  | poolCreate => rfl
  | regionCreate => rfl
  | notOurs => rfl
  | fault addr k rid _ hk hf he =>
    rcases faultScan_cases he with ⟨hc,-⟩ | ⟨-,j,hj,x,s,hfind,hun,hs,rfl⟩
    · cases hc
    · rfl
  | regionDestroy k rid _ hk hr he =>
    obtain ⟨p,-,he⟩ := Option.map_eq_some_iff.mp he
    cases he
    rfl
  | poolDestroy => rfl

/-- Every run of serialised calls is a run with its calls on the seam. -/
theorem steps_run (h : Steps pr pr') : ∃ ms, Run VmStep pr ms pr' := by
  induction h with
  | refl => exact ⟨[],.start⟩
  | tail _ hs ih =>
    obtain ⟨ms,hms⟩ := ih
    obtain ⟨cs,hcs⟩ := step_vmStep hs
    exact ⟨_,.move hms hcs⟩

theorem run_steps {ms : List (Process × List VmCall)} (h : Run VmStep pr ms pr') : Steps pr pr' := by
  induction h with
  | start => exact Relation.ReflTransGen.refl
  | move _ hs ih => exact ih.tail (vmStep_step hs)

/-- A process that is backed stays so over any run. -/
theorem run_backed {ms : List (Process × List VmCall)} (hr : Run VmStep pr ms pr') (h : Sound pr)
    (hb : Backed pr m) :
    Sound pr' ∧ pr'.pageSize = pr.pageSize ∧ AllAllowed pr.pageSize m (vmCalls ms) ∧
      Backed pr' (calls m (vmCalls ms)) := by
  induction hr with
  | start => exact ⟨h,rfl,trivial,hb⟩
  | @move ms v v' cs hrun hs ih =>
    obtain ⟨hv,hsize,hal,hbv⟩ := ih
    obtain ⟨a₁,b₁⟩ := vmStep_backed hv hs hbv
    rw [vmCalls_cons,allowed_append,calls_append]
    exact ⟨vmStep_sound hv hs,(vmStep_pageSize hs).trans hsize,⟨hal,hsize ▸ a₁⟩,b₁⟩

/-- Over any run of public calls and faults the process asks the seam for
nothing that `vm.h` does not promise. The page table it keeps is the one these
calls leave. What is reserved then is exactly the ranges of the live regions,
and the only buffers that are held are the half-filled pages of their tables. -/
theorem process_keeps_to_seam {P : ℕ} {vm : PageTable} {ms : List (Process × List VmCall)}
    (hr : Run VmStep (start P vm) ms pr) :
    AllAllowed P (untouched vm) (vmCalls ms) ∧ Backed pr (calls (untouched vm) (vmCalls ms)) :=
  (run_backed hr (start_sound P vm) (start_backed P vm)).2.2

/-- The first two faults on `mixed`, with all that led there. -/
def mixedRun : List (Process × List VmCall) :=
  let p₀ := start 4 (fun _ => .inaccessible)
  let p₁ := fcPoolCreate p₀ 12
  [(afterFault mixed 16,resolveFaultCalls 0 ⟨(afterFault mixed 16).pool 0,(afterFault mixed 16).vm⟩ 0 12),
    (mixed,resolveFaultCalls 0 ⟨mixed.pool 0,mixed.vm⟩ 0 0),(p₁,[.reserve 16 16]),(p₀,[])]

theorem mixedRun_run : Run VmStep (start 4 (fun _ => .inaccessible)) mixedRun mixedFilled := by
  refine .move (.move (.move (.move .start ?_) ?_) ?_) ?_
  · exact .poolCreate _ 12
  · exact .regionCreate _ 0 [6,6,4] 16 _ 16 (by decide) mixedSizes
      ⟨by decide,by decide,by simp [fcPoolCreate,start,poolInit]⟩
  · exact .fault _ 16 0 0 _ (by decide) (by decide) (afterFault_resolved (by decide +kernel))
  · exact .fault _ 28 0 0 _ (by decide +kernel) (by decide +kernel) (afterFault_resolved (by decide +kernel))

theorem process_keeps_to_seam_mixed :
    AllAllowed 4 (untouched (fun _ => .inaccessible)) (vmCalls mixedRun) ∧
      Backed mixedFilled (calls (untouched (fun _ => .inaccessible)) (vmCalls mixedRun)) :=
  process_keeps_to_seam mixedRun_run

end Process

end FaultCache.VmProcess
