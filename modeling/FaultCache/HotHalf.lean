import FaultCache.FaultEffects

/-!
# The readable half of a pool

The midpoint splits the queue into a hot part, which can be read, and a cold
one, which cannot. Each fault ends with a walk of the midpoint towards the
front that leaves at most half of the resident bytes readable, or the chunk
the fault was about alone. Other calls move the midpoint too, so the walk may
start with an empty hot part or from a midpoint that an eviction has moved.
-/

set_option autoImplicit false

namespace FaultCache.HotHalf
open FaultCache.SentinelRing FaultCache.PageGeometry FaultCache.SharedPages FaultCache.VmPages
open FaultCache.PoolMachine FaultCache.PoolStaging FaultCache.PoolQueue FaultCache.PoolMemory
open FaultCache.PoolHistory FaultCache.PoolInvariant FaultCache.PoolResolve FaultCache.FaultProcess
open FaultCache.ProcessInvariant FaultCache.ProcessContract FaultCache.LabelledRuns
open FaultCache.PoolLifetime FaultCache.FaultEffects

section Latest

/-- The chunk that was filled or promoted last. -/
def latest (h : List Event) : Option Node := (h.find? refreshes).map node

theorem latest_cons {e : Event} (h : List Event) (he : refreshes e = true) :
    latest (e::h) = some (node e) := by
  rw [latest,List.find?_cons_of_pos he]
  rfl

theorem latest_append {es : List Event} (h : List Event) (hes : ∀ e ∈ es, refreshes e = false) :
    latest (es ++ h) = latest h := by
  have hnone : es.find? refreshes = none :=
    List.find?_eq_none.mpr (fun e he => by rw [hes e he]; simp)
  rw [latest,List.find?_append,hnone,Option.none_or]
  rfl

theorem EvictsTail.stale {ms : List (State × Event)} (h : EvictsTail ms) :
    ∀ e ∈ ms.map Prod.snd, refreshes e = false := by
  intro e he
  obtain ⟨⟨v,e⟩,hm,rfl⟩ := List.mem_map.mp he
  obtain ⟨n,rfl,-⟩ := h v e hm
  rfl

theorem OnlyDemotes.stale {ms : List (State × Event)} (h : OnlyDemotes ms) :
    ∀ e ∈ ms.map Prod.snd, refreshes e = false := by
  intro e he
  obtain ⟨⟨v,e⟩,hm,rfl⟩ := List.mem_map.mp he
  obtain ⟨n,rfl⟩ := h v e hm
  rfl

end Latest

section Front
variable {s : State} {rid : RegionId} {page : ℕ} {hot cold : List Node}

/-- A page that is not up has a contributor to fill. -/
theorem missing_ne_nil {k : ℕ} (h : PoolInv s hot cold) (hr : rid ∈ s.pool.regions)
    (hk : k < nshared (s.pool.region rid).layout)
    (hm : ((s.pool.region rid).sharedPages k).mapped = false) :
    missingNodes s.pool rid ((sharedPage (s.pool.region rid).layout k).lastChunk+1-
      (sharedPage (s.pool.region rid).layout k).firstChunk)
      (sharedPage (s.pool.region rid).layout k).firstChunk ≠ [] := by
  intro hnil
  have h2 := two_contributors _ hk
  have hup : ((s.pool.region rid).sharedPages k).mapped = true := by
    apply mapped_of_populated h hr hk
    intro c hc
    rw [contributors,Finset.mem_Icc] at hc
    by_contra hi
    have hmem : (rid,c) ∈ ([] : List Node) := by
      rw [← hnil,mem_missingNodes]
      exact ⟨rfl,hc.1,by omega,by simpa using hi⟩
    cases hmem
  rw [hm] at hup
  cases hup

/-- Serving an unreadable page ends with a fill or promotion of a chunk behind
it, which is then the front of the queue. -/
theorem Serves.front {off lo hi : ℕ} {hot₁ cold₁ : List Node} {es : List Event}
    (hs : Serves s.pool rid (pageFloor off (s.pool.region rid).layout.pageSize) hot cold lo hi hot₁ cold₁ es)
    (h : PoolInv s hot cold) (hr : rid ∈ s.pool.regions) (hun : pageReadable s.pool rid off = false) :
    ∃ e rest hot', es = e::rest ∧ refreshes e = true ∧ hot₁ = node e::hot' ∧
      Protected rid lo hi (node e) := by
  cases hs with
  | @shared k _ _ hf hlo hhi =>
    subst hlo hhi
    rw [readable_shared hf] at hun
    obtain ⟨hk,-⟩ := (findSharedPage_some _ _ _).mp hf
    have h2 := two_contributors _ hk
    obtain ⟨n,ns,hns⟩ := List.exists_cons_of_ne_nil (missing_ne_nil h hr hk hun)
    have hmem : n ∈ missingNodes s.pool rid ((sharedPage (s.pool.region rid).layout k).lastChunk+1-
      (sharedPage (s.pool.region rid).layout k).firstChunk)
      (sharedPage (s.pool.region rid).layout k).firstChunk := by rw [hns]; exact List.mem_cons_self
    rw [mem_missingNodes] at hmem
    rw [hns]
    exact ⟨.fill n (lruNodeSize s.pool n),_,ns ++ hot,rfl,rfl,rfl,hmem.1,hmem.2.1,by
      have := hmem.2.2.1
      simp only [node]
      omega⟩
  | exclusive hf hc hn =>
    refine ⟨_,[],hot,rfl,?_,?_,?_⟩
    · split_ifs <;> rfl
    · split_ifs <;> rfl
    · split_ifs <;> exact ⟨rfl,le_refl _,le_refl _⟩

/-- What the last two stages leave, in a bounded pool and in an unbounded one. -/
theorem Stages.rebalanced (st : Stages s rid page hot cold) :
    (0 < s.pool.targetSize → Rebalanced st.trimmed.pool
      (sizeSum st.trimmed.pool (st.hot₂ ++ st.cold₂)/2) st.hot₂ st.cold₂ st.hot₃ st.cold₃) ∧
    (s.pool.targetSize = 0 → st.hot₃ = st.hot₁ ∧ st.cold₃ = st.cold₁) := by
  have ht₁ := st.first.target
  have ht₂ := st.second.target.trans ht₁
  obtain ⟨s₂,hot₂,cold₂,e₂,r₂,-,u₂⟩ := evict_spec_budget st.first.inv rid st.lo st.hi
  obtain rfl := Option.some.inj (e₂.symm.trans st.evict)
  obtain ⟨rfl,rfl⟩ := r₂.inv.queue.unique st.second.inv.queue
  obtain ⟨s₃,hot₃,cold₃,e₃,r₃,x₃,u₃⟩ := rebalance_spec st.second.inv
  obtain rfl := Option.some.inj (e₃.symm.trans st.rebalance)
  obtain ⟨h1,h2⟩ := r₃.inv.queue.unique st.third.inv.queue
  rw [← h1,← h2]
  refine ⟨fun ht => x₃ (by omega),fun h0 => ?_⟩
  obtain ⟨-,g1,g2⟩ := u₂ (by omega)
  obtain ⟨-,g3,g4⟩ := u₃ (by omega)
  exact ⟨g3.trans g1,g4.trans g2⟩

/-- Neither eviction nor the walk of the midpoint takes the front away. -/
theorem Stages.front (st : Stages s rid page hot cold) {n : Node} {hot' : List Node}
    (hn : st.hot₁ = n::hot') (hp : Protected rid st.lo st.hi n) : ∃ rest, st.hot₃ = n::rest := by
  obtain ⟨hb,hu⟩ := Stages.rebalanced st
  by_cases h0 : s.pool.targetSize = 0
  · exact ⟨hot',(hu h0).1.trans hn⟩
  · have hx := st.evicted (by omega)
    rw [hn] at hx
    obtain ⟨h₁,hh,-⟩ := evicted_hot_front hx hp
    have hfront := (hb (by omega)).front
    rw [hh,List.head?_cons] at hfront
    obtain ⟨rest,hrest⟩ := List.head?_eq_some_iff.mp hfront
    exact ⟨rest,hrest⟩

end Front

/-- At most half of what is resident can be read, or only the front chunk. -/
structure Halved (p : Pool) : Prop where
  bytes : p.hotBytes = sizeSum p (hotNodes p)
  half : p.hotBytes ≤ p.residentBytes/2 ∨ ∃ n, hotNodes p = [n] ∧ (lruList p).head? = some n

theorem halved_of_stages {s : State} {rid : RegionId} {page : ℕ} {hot cold : List Node}
    (st : Stages s rid page hot cold) (ht : 0 < s.pool.targetSize) {n : Node} {rest : List Node}
    (hn : st.hot₃ = n::rest) : Halved st.settled.pool := by
  have hq := st.third.inv.queue
  have hr := (Stages.rebalanced st).1 ht
  have hhot := hq.hotNodes_eq
  refine ⟨by rw [hhot]; exact hq.order.hotBytes,?_⟩
  rw [hhot,hq.lruList_eq,hq.order.hotBytes,hq.account.bytes,hr.whole,st.third.layouts.sizeSum,
    st.third.layouts.sizeSum]
  refine hr.stop.imp id (fun hlen => ⟨n,?_,?_⟩)
  · rw [hn] at hlen ⊢
    rw [List.eq_nil_of_length_eq_zero (show rest.length = 0 by simpa using hlen)]
  · rw [← hr.whole,hn]
    rfl

/-- The counters of the region are no part of the queue. -/
theorem countHandled_queue {s : State} {hot cold : List Node} (h : PoolInv s hot cold) (rid : RegionId) :
    lruList (countHandled s rid).pool = lruList s.pool ∧
      hotNodes (countHandled s rid).pool = hotNodes s.pool := by
  have h' := (countHandled_inv h rid).queue
  exact ⟨h'.lruList_eq.trans h.queue.lruList_eq.symm,h'.hotNodes_eq.trans h.queue.hotNodes_eq.symm⟩

theorem countHandled_halved {s : State} {hot cold : List Node} (h : PoolInv s hot cold) (rid : RegionId)
    (hh : Halved s.pool) : Halved (countHandled s rid).pool := by
  obtain ⟨h1,h2⟩ := countHandled_queue h rid
  have hL : SameLayouts s.pool (countHandled s rid).pool := by
    intro r
    obtain ⟨x,hx⟩ := countHandled_region s rid r
    rw [hx]
  refine ⟨?_,?_⟩
  · rw [h2,hL.sizeSum]
    exact hh.bytes
  · rw [h1,h2]
    exact hh.half

section Walk
variable {s : State} {hot cold : List Node}

/-- A demotion takes a hot chunk off the byte count it is part of. -/
theorem demote_counted {s' : State} {n : Node} (h : PoolInv s hot cold) (hm : Micro s (.demote n) s') :
    s.pool.midpoint = .node n ∧ n ∈ hotNodes s.pool ∧ lruNodeSize s.pool n ≤ s.pool.hotBytes := by
  cases hm with
  | demote ht hmid =>
    have hmem : n ∈ hot := by
      rw [h.queue.order.midpoint] at hmid
      rw [← mem_refs,← hmid]
      exact (lastRef_mem hot).resolve_left (by rw [hmid]; simp)
    refine ⟨hmid,by rw [h.queue.hotNodes_eq]; exact hmem,?_⟩
    rw [h.queue.order.hotBytes,← sizeSum_erase _ hmem]
    omega

/-- The walk ends from every state of the fault path, at a node of the queue,
and never takes more off the byte count than is in it. -/
theorem rebalance_walk (h : PoolInv s hot cold) : ∃ s' ms, lruRebalance s = some s' ∧
    Run Micro s ms s' ∧ ∀ v e, (v,e) ∈ ms → ∃ n, e = .demote n ∧ v.pool.midpoint = .node n ∧
      n ∈ hotNodes v.pool ∧ lruNodeSize v.pool n ≤ v.pool.hotBytes := by
  obtain ⟨s',hot',cold',e,-,-⟩ := rebalance_spec h
  obtain ⟨ms,hrun,hall⟩ := rebalance_run h e
  have hinv := (run_keeps (fun _ => True) (fun _ _ _ _ => trivial) hrun ⟨hot,cold,h⟩ trivial
    (fun _ _ => trivial)).2
  refine ⟨s',ms,e,hrun,?_⟩
  intro v e hm
  obtain ⟨n,rfl⟩ := hall v e hm
  obtain ⟨v',hstep⟩ := hrun.made hm
  obtain ⟨-,hot₁,cold₁,hv⟩ := hinv _ hm
  exact ⟨n,rfl,demote_counted hv hstep⟩

end Walk

/-- A chunk with a set flag has been demoted at some time. -/
def DemotedOnce (p : Pool) : Prop := ∀ n, p.cold n = true → .demote n ∈ p.history

theorem micro_demotedOnce {s s' : State} {e : Event} {hot cold : List Node} (h : PoolInv s hot cold)
    (hm : Micro s e s') (hq : DemotedOnce s.pool) : DemotedOnce s'.pool := by
  have ht := (hm.touched h).1
  intro n hn
  rw [ht.history]
  by_cases hne : n = node e
  · subst hne
    cases hm with
    | fill hl hi he =>
      obtain ⟨s₁,e₁,-,i₁⟩ := fill_spec h hl hi
      obtain rfl := Option.some.inj (e₁.symm.trans he)
      rw [node,i₁.queue.order.hotFlag _ List.mem_cons_self] at hn
      cases hn
    | promote hr hc he =>
      have hcold := (h.queue.order.cold_iff ((h.queue.order.resident _).mp hr)).mp hc
      obtain ⟨e₁,-,i₁⟩ := promote_spec h hcold
      obtain rfl := Option.some.inj (e₁.symm.trans he)
      rw [node,i₁.queue.order.hotFlag _ List.mem_cons_self] at hn
      cases hn
    | demote => exact List.mem_cons_self
    | evict hpos hr he =>
      obtain ⟨e₁,-,-⟩ := evict_spec h ((h.queue.order.resident _).mp hr) hpos
      obtain rfl := Option.some.inj (e₁.symm.trans he)
      exact List.mem_cons_of_mem _ (hq _ hn)
  · rw [ht.cold n hne] at hn
    exact List.mem_cons_of_mem _ (hq n hn)

theorem demotedOnce_lifelong : Lifelong DemotedOnce where
  init := by
    rintro targetSize n ⟨⟩
  micro := fun h hm hq => micro_demotedOnce h hm hq
  count := fun _ hq => hq
  insert := by
    intro p vm hot cold x P sizes total ha base fill hp hx hh hq n hn
    by_cases hnx : n.1 = x
    · rw [show (regionListInsert p x _).cold n = false from if_pos hnx] at hn
      cases hn
    · rw [show (regionListInsert p x _).cold n = p.cold n from if_neg hnx] at hn
      exact hq n hn
  forget := by
    intro p p' hot cold n hp hf hq
    obtain ⟨q,hq',hfg,-⟩ := forget_filter hp n
    obtain rfl := Option.some.inj (hq'.symm.trans hf)
    intro m hm
    rw [hfg.cold] at hm
    rw [hfg.history]
    exact hq m hm
  remove := fun _ hq => hq

section Process
variable {pr : Process}

/-- The pool that resolved a fault, after it. -/
theorem resolved_half (h : ProcessInv pr) {addr : ℕ} {pr' : Process}
    (hf : faultTryResolve pr addr = some (true,pr')) :
    ∃ k ∈ pr.pools, ∃ rid, findRegionLocked (pr.pool k) addr = some rid ∧
      (∀ j, j ≠ k → pr'.pool j = pr.pool j) ∧
      (0 < (pr.pool k).targetSize → Halved (pr'.pool k)) ∧
      ∃ n, latest (pr'.pool k).history = some n ∧ n ∈ hotNodes (pr'.pool k) ∧
        (lruList (pr'.pool k)).head? = some n := by
  rcases faultScan_cases hf with ⟨hc,-⟩ | ⟨-,k,hk,rid,s,hfind,hun,hs,rfl⟩
  · cases hc
  obtain ⟨hot,cold,hp⟩ := h.pool k hk
  obtain ⟨hr,-⟩ := findRegionLocked_some hfind
  obtain ⟨st,rfl⟩ := resolve_stages hp hr hun hs
  obtain ⟨e,rest,hot',hes,he,hfront,hprot⟩ := Serves.front st.serves hp hr hun
  obtain ⟨rest₃,hhot₃⟩ := Stages.front st hfront hprot
  obtain ⟨ms₁,ms₂,ms₃,hrun,hserve,hevict,hdemote⟩ := st.run hp
  have hhist := (run_history hrun ⟨hot,cold,hp⟩).1
  have hq := st.third.inv.queue
  obtain ⟨hlist,hnodes⟩ := countHandled_queue st.third.inv rid
  refine ⟨k,hk,rid,hfind,fun j hj => withState_pool_of_ne pr _ hj,?_,node e,?_,?_,?_⟩
  · intro ht
    rw [withState_pool_self]
    exact countHandled_halved st.third.inv rid (halved_of_stages st ht hhot₃)
  · rw [withState_pool_self]
    change latest st.settled.pool.history = _
    rw [hhist,List.map_append,List.map_append,List.append_assoc,List.append_assoc,
      latest_append _ (OnlyDemotes.stale hdemote),latest_append _ (EvictsTail.stale hevict),hserve,hes]
    exact latest_cons _ he
  · rw [withState_pool_self,hnodes,hq.hotNodes_eq,hhot₃]
    exact List.mem_cons_self
  · rw [withState_pool_self,hlist,hq.lruList_eq,hhot₃]
    rfl

/-- A resolved fault leaves at most half of a bounded pool readable, or the
front chunk alone, and the chunk it brought to the front among it. The walk of
the midpoint ends wherever the fault path starts it, and an unbounded pool
hides nothing. -/
theorem resolved_fault_keeps_half (h : Reachable pr) :
    (∀ addr pr', faultTryResolve pr addr = some (true,pr') →
      ∃ k ∈ pr.pools, ∃ rid, findRegionLocked (pr.pool k) addr = some rid ∧
        (∀ j, j ≠ k → pr'.pool j = pr.pool j) ∧
        (0 < (pr.pool k).targetSize → Halved (pr'.pool k)) ∧
        ∃ n, latest (pr'.pool k).history = some n ∧ n ∈ hotNodes (pr'.pool k) ∧
          (lruList (pr'.pool k)).head? = some n) ∧
    (∀ k ∈ pr.pools, ∀ s, MicroRun ⟨pr.pool k,pr.vm⟩ s →
      ∃ s' ms, lruRebalance s = some s' ∧ Run Micro s ms s' ∧
        ∀ v e, (v,e) ∈ ms → ∃ n, e = .demote n ∧ v.pool.midpoint = .node n ∧
          n ∈ hotNodes v.pool ∧ lruNodeSize v.pool n ≤ v.pool.hotBytes) ∧
    (∀ k ∈ pr.pools, (pr.pool k).targetSize = 0 →
      ∀ n, .demote n ∉ (pr.pool k).history ∧ (pr.pool k).cold n = false) := by
  have hinv := reachable_inv h
  refine ⟨fun addr pr' => resolved_half hinv,?_,?_⟩
  · intro k hk s hrun
    obtain ⟨-,hot,cold,hs⟩ := hrun.induct (motive := fun _ => True) (hinv.pool k hk) trivial
      (fun _ _ _ _ _ _ _ => trivial)
    exact rebalance_walk hs
  · intro k hk h0 n
    obtain ⟨hot,cold,hp⟩ := hinv.pool k hk
    have hnever := (hp.unbounded h0 n).2
    refine ⟨hnever,?_⟩
    by_contra hc
    exact hnever (demotedOnce_lifelong.reachable h k hk n (by simpa using hc))

/-- Two chunks are resident after two faults, and only the second is readable. -/
theorem resolved_fault_keeps_half_mixed :
    Halved (mixedFilled.pool 0) ∧ hotNodes (mixedFilled.pool 0) = [(0,2)] := by
  obtain ⟨k,hk,-,-,-,hhalf,-⟩ := (resolved_fault_keeps_half (afterFault_reachable mixed_reachable 16)).1
    28 mixedFilled (afterFault_resolved (by decide +kernel))
  have hpools : (afterFault mixed 16).pools = [0] := by decide +kernel
  obtain rfl : k = 0 := by simpa [hpools] using hk
  exact ⟨hhalf (by decide +kernel),by decide +kernel⟩

end Process

end FaultCache.HotHalf
