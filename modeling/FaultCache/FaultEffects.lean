import FaultCache.PoolLifetime

/-!
# What one resolved fault does

A resolved fault fills or promotes the chunks of the faulting page, evicts from
the cold end and demotes past the midpoint, in this order. From the three
stages follow what the caller finds at the faulting address afterwards, which
`fill_chunk` calls were made, and when the pool is left over its budget.
-/

set_option autoImplicit false

namespace FaultCache.FaultEffects
open FaultCache.SentinelRing FaultCache.PageGeometry FaultCache.SharedPages FaultCache.VmPages
open FaultCache.PoolMachine FaultCache.PoolStaging FaultCache.PoolQueue FaultCache.PoolMemory
open FaultCache.PoolHistory FaultCache.PoolInvariant FaultCache.PoolResolve FaultCache.FaultProcess
open FaultCache.ProcessInvariant FaultCache.ProcessContract FaultCache.BudgetPrefix
open FaultCache.LabelledRuns FaultCache.PoolLifetime

/-- How serving a page changes the queue and the history: the chunks from `lo`
to `hi` are the ones behind the page. -/
inductive Serves (p : Pool) (rid : RegionId) (page : ℕ) (hot cold : List Node) :
    ℕ → ℕ → List Node → List Node → List Event → Prop
  | shared {k lo hi : ℕ} (hf : findSharedPage (p.region rid).layout page = some k)
      (hlo : lo = (sharedPage (p.region rid).layout k).firstChunk)
      (hhi : hi = (sharedPage (p.region rid).layout k).lastChunk) :
      Serves p rid page hot cold lo hi (missingNodes p rid (hi+1-lo) lo ++ hot) cold
        (fillEvents p (missingNodes p rid (hi+1-lo) lo))
  | exclusive {c : ℕ} (hf : findSharedPage (p.region rid).layout page = none)
      (hc : c = (p.region rid).layout.findChunk page) (hn : (rid,c) ∉ hot) :
      Serves p rid page hot cold c c ((rid,c)::hot) (cold.erase (rid,c))
        [if (p.region rid).initialized c then .promote (rid,c)
          else .fill (rid,c) (lruNodeSize p (rid,c))]

theorem Serves.no_evict {p : Pool} {rid : RegionId} {page lo hi : ℕ} {hot cold hot₁ cold₁ : List Node}
    {es : List Event} (h : Serves p rid page hot cold lo hi hot₁ cold₁ es) (n : Node) : .evict n ∉ es := by
  cases h with
  | shared => simp [fillEvents]
  | exclusive =>
    split_ifs
    · simp
    · simp

section Loops
variable {s s' : State} {hot cold : List Node}

/-- The labels of a run that only evicts, always at the tail of the queue. -/
def EvictsTail (ms : List (State × Event)) : Prop :=
  ∀ v e, (v,e) ∈ ms → ∃ n, e = .evict n ∧ v.pool.links.prev .head = .node n

def OnlyDemotes (ms : List (State × Event)) : Prop := ∀ v e, (v,e) ∈ ms → ∃ n, e = .demote n

theorem EvictsTail.no_fill {ms : List (State × Event)} (h : EvictsTail ms) {n : Node} {size : ℕ} :
    .fill n size ∉ ms.map Prod.snd := by
  rintro hm
  obtain ⟨⟨v,e⟩,hv,rfl⟩ := List.mem_map.mp hm
  obtain ⟨m,he,-⟩ := h v _ hv
  cases he

theorem OnlyDemotes.no_fill {ms : List (State × Event)} (h : OnlyDemotes ms) {n : Node} {size : ℕ} :
    .fill n size ∉ ms.map Prod.snd := by
  rintro hm
  obtain ⟨⟨v,e⟩,hv,rfl⟩ := List.mem_map.mp hm
  obtain ⟨m,he⟩ := h v _ hv
  cases he

theorem evictLoop_run {rid : RegionId} {lo hi : ℕ} (fuel : ℕ) (h : PoolInv s hot cold)
    (ht : 0 < s.pool.targetSize) (he : evictLoop rid lo hi fuel s = some s') :
    ∃ ms, Run Micro s ms s' ∧ EvictsTail ms := by
  induction fuel generalizing s hot cold with
  | zero => cases he
  | succ fuel ih =>
    rw [evictLoop] at he
    split_ifs at he with hover
    · split at he
      · next v hv =>
        split_ifs at he with hprot
        · cases he
          exact ⟨[],.start,fun _ _ hm => absurd hm List.not_mem_nil⟩
        · obtain ⟨s₁,e₁,e₂⟩ := Option.bind_eq_some_iff.mp he
          have hres : s.pool.resident v = true := by
            rw [ring_prev_head h.queue.order.ring] at hv
            rw [h.queue.order.resident,← mem_refs,← hv]
            exact (lastRef_mem _).resolve_left (by rw [hv]; simp)
          have hm : Micro s (.evict v) s₁ := .evict ht hres e₁
          obtain ⟨t₁,hot₁,cold₁,i₁⟩ := hm.touched h
          obtain ⟨ms,hms,hall⟩ := ih i₁ (by rw [t₁.target]; exact ht) e₂
          refine ⟨ms ++ [(s,.evict v)],(Run.move .start hm).append hms,?_⟩
          intro w e hw
          rcases List.mem_append.mp hw with hw | hw
          · exact hall w e hw
          · cases List.mem_singleton.mp hw
            exact ⟨v,rfl,hv⟩
      · cases he
    · cases he
      exact ⟨[],.start,fun _ _ hm => absurd hm List.not_mem_nil⟩

theorem evict_run {rid : RegionId} {lo hi : ℕ} (h : PoolInv s hot cold)
    (he : evictUntilWithinBudget s rid lo hi = some s') : ∃ ms, Run Micro s ms s' ∧ EvictsTail ms := by
  unfold evictUntilWithinBudget at he
  split_ifs at he with ht
  · cases he
    exact ⟨[],.start,fun _ _ hm => absurd hm List.not_mem_nil⟩
  · exact evictLoop_run _ h (Nat.pos_of_ne_zero ht) he

theorem rebalanceLoop_run (fuel : ℕ) (h : PoolInv s hot cold) (ht : 0 < s.pool.targetSize)
    (he : rebalanceLoop fuel s = some s') : ∃ ms, Run Micro s ms s' ∧ OnlyDemotes ms := by
  induction fuel generalizing s hot cold with
  | zero => cases he
  | succ fuel ih =>
    rw [rebalanceLoop] at he
    split_ifs at he with hgo
    · split at he
      · next n hn =>
        have hm : Micro s (.demote n) (demote s n) := .demote ht hn
        obtain ⟨t₁,hot₁,cold₁,i₁⟩ := hm.touched h
        obtain ⟨ms,hms,hall⟩ := ih i₁ (by rw [t₁.target]; exact ht) he
        refine ⟨ms ++ [(s,.demote n)],(Run.move .start hm).append hms,?_⟩
        intro w e hw
        rcases List.mem_append.mp hw with hw | hw
        · exact hall w e hw
        · cases List.mem_singleton.mp hw
          exact ⟨n,rfl⟩
      · cases he
    · cases he
      exact ⟨[],.start,fun _ _ hm => absurd hm List.not_mem_nil⟩

theorem rebalance_run (h : PoolInv s hot cold) (he : lruRebalance s = some s') :
    ∃ ms, Run Micro s ms s' ∧ OnlyDemotes ms := by
  unfold lruRebalance at he
  split_ifs at he with ht
  · cases he
    exact ⟨[],.start,fun _ _ hm => absurd hm List.not_mem_nil⟩
  · exact rebalanceLoop_run _ h (Nat.pos_of_ne_zero ht) he

end Loops

/-- The three stages of a resolved fault, with the queue after each of them. -/
structure Stages (s : State) (rid : RegionId) (page : ℕ) (hot cold : List Node) where
  lo : ℕ
  hi : ℕ
  served : State
  trimmed : State
  settled : State
  events : List Event
  hot₁ : List Node
  cold₁ : List Node
  hot₂ : List Node
  cold₂ : List Node
  hot₃ : List Node
  cold₃ : List Node
  serves : Serves s.pool rid page hot cold lo hi hot₁ cold₁ events
  logged : served.pool.history = events ++ s.pool.history
  first : Reaches s served hot₁ cold₁
  evict : evictUntilWithinBudget served rid lo hi = some trimmed
  second : Reaches served trimmed hot₂ cold₂
  rebalance : lruRebalance trimmed = some settled
  third : Reaches trimmed settled hot₃ cold₃
  evicted : 0 < s.pool.targetSize → Evicted s.pool (Protected rid lo hi) hot₁ cold₁ hot₂ cold₂
  whole : 0 < s.pool.targetSize → hot₃ ++ cold₃ = hot₂ ++ cold₂

/-- Every resolved fault goes through them. -/
theorem resolve_stages {s s' : State} {hot cold : List Node} {rid : RegionId} {off : ℕ}
    (h : PoolInv s hot cold) (hr : rid ∈ s.pool.regions) (hun : pageReadable s.pool rid off = false)
    (hs : resolveFaultLocked s rid off = some s') :
    ∃ st : Stages s rid (pageFloor off (s.pool.region rid).layout.pageSize) hot cold,
      s' = countHandled st.settled rid := by
  set page := pageFloor off (s.pool.region rid).layout.pageSize with hpage
  have hserve : ∃ lo hi s₁ hot₁ cold₁ es, servePage s rid page = some (lo,hi,s₁) ∧
      Serves s.pool rid page hot cold lo hi hot₁ cold₁ es ∧
      s₁.pool.history = es ++ s.pool.history ∧ Reaches s s₁ hot₁ cold₁ := by
    cases hf : findSharedPage (s.pool.region rid).layout page with
    | some k =>
      rw [readable_shared (k := k) (by rw [← hpage]; exact hf)] at hun
      obtain ⟨lo,hi,s₁,hlo,hhi,e₁,r₁,h₁,-⟩ := serve_shared h hr hf hun
      exact ⟨lo,hi,s₁,_,_,_,e₁,.shared hf hlo hhi,h₁,r₁⟩
    | none =>
      have hnot : (rid,(s.pool.region rid).layout.findChunk page) ∉ hot := by
        intro hm
        rw [(readable_iff_hot h hr (by rw [← hpage]; exact hf)).mpr hm] at hun
        cases hun
      obtain ⟨s₁,e₁,r₁,h₁⟩ := serve_exclusive h hr hf hnot
      exact ⟨_,_,s₁,_,_,_,e₁,.exclusive hf rfl hnot,h₁,r₁⟩
  obtain ⟨lo,hi,s₁,hot₁,cold₁,es,e₁,hserves,hhist,r₁⟩ := hserve
  obtain ⟨s₂,hot₂,cold₂,e₂,r₂,x₂,-⟩ := evict_spec_budget r₁.inv rid lo hi
  obtain ⟨s₃,hot₃,cold₃,e₃,r₃,x₃,-⟩ := rebalance_spec r₂.inv
  refine ⟨⟨lo,hi,s₁,s₂,s₃,es,hot₁,cold₁,hot₂,cold₂,hot₃,cold₃,hserves,hhist,r₁,e₂,r₂,e₃,r₃,?_,?_⟩,?_⟩
  · intro ht
    obtain ⟨x1,x2,x3,x4,x5,x6⟩ := x₂ (by rw [r₁.target]; exact ht)
    simp only [r₁.layouts.sizeSum,r₁.target] at x5 x6
    exact ⟨x1,x2,x3,x4,x5,x6⟩
  · exact fun ht => (x₃ (by rw [r₂.target,r₁.target]; exact ht)).whole
  · simp only [resolveFaultLocked] at hs
    rw [← hpage,e₁,Option.bind_some] at hs
    split_ifs at hs
    rw [e₂,Option.bind_some,e₃] at hs
    exact (Option.some.inj hs).symm

/-- The stages as one run: what serving the page recorded, evictions at the
tail, demotions. -/
theorem Stages.run {s : State} {rid : RegionId} {page : ℕ} {hot cold : List Node}
    (h : PoolInv s hot cold) (st : Stages s rid page hot cold) :
    ∃ ms₁ ms₂ ms₃, Run Micro s (ms₃ ++ (ms₂ ++ ms₁)) st.settled ∧ ms₁.map Prod.snd = st.events ∧
      EvictsTail ms₂ ∧ OnlyDemotes ms₃ := by
  obtain ⟨ms₁,r₁⟩ := MicroRun.labelled st.first.run
  obtain ⟨ms₂,r₂,h₂⟩ := evict_run st.first.inv st.evict
  obtain ⟨ms₃,r₃,h₃⟩ := rebalance_run st.second.inv st.rebalance
  refine ⟨ms₁,ms₂,ms₃,(r₁.append r₂).append r₃,?_,h₂,h₃⟩
  exact List.append_cancel_right ((run_history r₁ ⟨hot,cold,h⟩).1.symm.trans st.logged)

/-- Chunk `n` has at least one byte in the page. -/
def Behind (p : Pool) (rid : RegionId) (page : ℕ) (n : Node) : Prop :=
  n.1 = rid ∧ n.2 < (p.region rid).layout.nchunks ∧ (p.region rid).layout.Touches n.2 page

instance (p : Pool) (rid : RegionId) (page : ℕ) (n : Node) : Decidable (Behind p rid page n) :=
  inferInstanceAs (Decidable (_ ∧ _))

/-- The protected range is the set of chunks behind the page. -/
theorem Serves.protected_iff {p : Pool} {rid : RegionId} {page lo hi : ℕ}
    {hot cold hot₁ cold₁ : List Node} {es : List Event}
    (h : Serves p rid page hot cold lo hi hot₁ cold₁ es) (hd : (p.region rid).layout.pageSize ∣ page)
    (hm : page < (p.region rid).layout.mappedSize) (n : Node) :
    Protected rid lo hi n ↔ Behind p rid page n := by
  cases h with
  | shared hf hlo hhi =>
    obtain ⟨hk,hp⟩ := (findSharedPage_some _ _ _).mp hf
    have hlast := lastChunk_lt _ hk
    constructor
    · rintro ⟨h1,h2,h3⟩
      have hlt : n.2 < (p.region rid).layout.nchunks := by omega
      refine ⟨h1,hlt,?_⟩
      rw [← hp,← contributors_iff _ hk hlt]
      omega
    · rintro ⟨h1,h2,h3⟩
      rw [← hp,← contributors_iff _ hk h2] at h3
      exact ⟨h1,by omega,by omega⟩
  | exclusive hf hc hn =>
    have hlt := (p.region rid).layout.findChunk_lt page
    constructor
    · rintro ⟨h1,h2,h3⟩
      refine ⟨h1,by omega,?_⟩
      rw [touches_exclusive _ hd hm hf (by omega)]
      omega
    · rintro ⟨h1,h2,h3⟩
      rw [touches_exclusive _ hd hm hf h2] at h3
      exact ⟨h1,by omega,by omega⟩

section Budget
variable {p : Pool} {hit : Node → Prop} {new queue hot cold hot' cold' : List Node}

/-- What is left reaches at least through every chunk that eviction may not touch. -/
theorem evicted_through (h : Evicted p hit hot cold hot' cold') (hnd : (hot ++ cold).Nodup)
    {front back : List Node} {n : Node} (hback : hot ++ cold = front ++ [n] ++ back) (hn : hit n) :
    front ++ [n] <+: hot' ++ cold' := by
  have hpre := h.isPrefix
  have hmem : n ∈ hot' ++ cold' := h.kept n (by rw [hback]; simp) hn
  by_cases hlen : (hot' ++ cold').length ≤ front.length
  · exfalso
    have hshort : hot' ++ cold' <+: front := by
      refine List.prefix_of_prefix_length_le hpre ?_ hlen
      rw [hback,List.append_assoc]
      exact List.prefix_append _ _
    rw [hback,List.append_assoc,List.nodup_append] at hnd
    exact hnd.2.2 n (hshort.subset hmem) n (by simp) rfl
  · refine List.prefix_of_prefix_length_le ?_ hpre (by simp at hlen ⊢; omega)
    rw [hback]
    exact List.prefix_append _ _

/-- Eviction stops at the first chunk it may not touch, so what decides is how
much lies in front of the last such chunk. -/
theorem evicted_budget_iff (h : Evicted p hit hot cold hot' cold') (hq : hot ++ cold = new ++ queue)
    (hnd : (new ++ queue).Nodup) (hnew : ∀ n ∈ new, hit n) :
    (sizeSum p (hot' ++ cold') ≤ p.targetSize ∨ ∀ n ∈ hot' ++ cold', hit n) ↔
      ∀ front n back, queue = front ++ n::back → hit n →
        sizeSum p (new ++ front ++ [n]) ≤ p.targetSize ∨ ∀ m ∈ front, hit m := by
  have hpre : hot' ++ cold' <+: new ++ queue := hq ▸ h.isPrefix
  constructor
  · intro hdone front n back hback hn
    have hthrough : new ++ front ++ [n] <+: hot' ++ cold' :=
      evicted_through h (hq ▸ hnd) (show _ = _ ++ back by rw [hq,hback]; simp) hn
    refine hdone.imp ?_ ?_
    · exact fun hle => le_trans (weight_prefix_le (lruNodeSize p) hthrough) hle
    · exact fun hall m hm => hall m (hthrough.subset (by simp [hm]))
  · intro hcond
    by_cases hfit : sizeSum p (hot' ++ cold') ≤ p.targetSize
    · exact Or.inl hfit
    right
    obtain ⟨q,n,hqn,hn⟩ := h.stop.resolve_left hfit
    by_cases hlen : (hot' ++ cold').length ≤ new.length
    · intro m hm
      exact hnew m ((List.prefix_of_prefix_length_le hpre (List.prefix_append _ _) hlen).subset hm)
    -- The chunk it stopped at was queued before: all of `new` is in front of it.
    · obtain ⟨z,hz⟩ := List.prefix_of_prefix_length_le (List.prefix_append new queue) hpre (by omega)
      rcases List.eq_nil_or_concat z with rfl | ⟨front,m,rfl⟩
      · exfalso
        apply hlen
        rw [← hz]
        simp
      · rw [List.concat_eq_append,← List.append_assoc] at hz
        obtain ⟨-,hmn⟩ := List.append_inj' (hz.trans hqn) rfl
        cases hmn
        obtain ⟨back,hback⟩ := hpre
        rw [← hz,List.append_assoc,List.append_assoc] at hback
        have hqueue := List.append_cancel_left hback
        have hc := hcond front n back (by rw [← hqueue]; simp) hn
        rw [hz] at hc
        intro m hm
        rw [← hz,List.mem_append,List.mem_append] at hm
        rcases hm with (hm | hm) | hm
        · exact hnew m hm
        · exact hc.resolve_left hfit m hm
        · rw [List.mem_singleton] at hm
          subst hm
          exact hn

/-- The chunks behind the page that its fault has to fill. -/
def neededNodes (p : Pool) (rid : RegionId) (page : ℕ) : List Node :=
  ((List.range (p.region rid).layout.nchunks).filter (fun c =>
    (p.region rid).layout.Touches c page ∧ (p.region rid).initialized c = false)).map (fun c => (rid,c))

theorem mem_neededNodes {rid : RegionId} {page : ℕ} {n : Node} : n ∈ neededNodes p rid page ↔
    Behind p rid page n ∧ (p.region rid).initialized n.2 = false := by
  simp only [neededNodes,List.mem_map,List.mem_filter,List.mem_range,decide_eq_true_eq]
  constructor
  · rintro ⟨c,⟨h1,h2,h3⟩,rfl⟩
    exact ⟨⟨rfl,h1,h2⟩,h3⟩
  · rintro ⟨⟨h1,h2,h3⟩,h4⟩
    exact ⟨n.2,⟨h2,h3,h4⟩,Prod.ext h1.symm rfl⟩

theorem neededNodes_nodup (p : Pool) (rid : RegionId) (page : ℕ) : (neededNodes p rid page).Nodup :=
  (List.nodup_range.filter _).map (fun _ _ h => (Prod.mk.inj h).2)

/-- The fill loop of a shared page meets exactly the chunks it needs. -/
theorem missing_perm_needed {rid : RegionId} {page k : ℕ}
    (hf : findSharedPage (p.region rid).layout page = some k) :
    (missingNodes p rid ((sharedPage (p.region rid).layout k).lastChunk+1-
      (sharedPage (p.region rid).layout k).firstChunk) (sharedPage (p.region rid).layout k).firstChunk).Perm
      (neededNodes p rid page) := by
  obtain ⟨hk,hp⟩ := (findSharedPage_some _ _ _).mp hf
  have h2 := two_contributors _ hk
  have hlast := lastChunk_lt _ hk
  rw [List.perm_ext_iff_of_nodup (missingNodes_nodup ..) (neededNodes_nodup ..)]
  intro n
  rw [mem_missingNodes,mem_neededNodes]
  constructor
  · rintro ⟨h1,h2,h3,h4⟩
    have hlt : n.2 < (p.region rid).layout.nchunks := by omega
    refine ⟨⟨h1,hlt,?_⟩,h4⟩
    rw [← hp,← contributors_iff _ hk hlt]
    omega
  · rintro ⟨⟨h1,h2,h3⟩,h4⟩
    rw [← hp,← contributors_iff _ hk h2] at h3
    exact ⟨h1,by omega,by omega,h4⟩

theorem mem_fillEvents {ns : List Node} {n : Node} {size : ℕ} :
    .fill n size ∈ fillEvents p ns ↔ n ∈ ns ∧ size = lruNodeSize p n := by
  simp only [fillEvents,List.mem_map,Event.fill.injEq]
  constructor
  · rintro ⟨m,hm,rfl,rfl⟩
    exact ⟨hm,rfl⟩
  · rintro ⟨hm,rfl⟩
    exact ⟨n,hm,rfl,rfl⟩

theorem fillEvents_nodup {ns : List Node} (h : ns.Nodup) : (fillEvents p ns).Nodup :=
  h.map (fun _ _ he => (Event.fill.inj he).1)

/-- Serving a page fills what the page needs, once and in full. -/
theorem Serves.count_fill {rid : RegionId} {page lo hi : ℕ} {hot₁ cold₁ : List Node} {es : List Event}
    (h : Serves p rid page hot cold lo hi hot₁ cold₁ es) (hd : (p.region rid).layout.pageSize ∣ page)
    (hm : page < (p.region rid).layout.mappedSize) (n : Node) (size : ℕ) :
    es.count (.fill n size) = if (Behind p rid page n ∧ (p.region rid).initialized n.2 = false) ∧
      size = lruNodeSize p n then 1 else 0 := by
  have hprot := h.protected_iff hd hm n
  cases h with
  | shared hf hlo hhi =>
    subst hlo hhi
    rw [(fillEvents_nodup (missingNodes_nodup ..)).count]
    apply if_congr _ rfl rfl
    rw [mem_fillEvents,(missing_perm_needed hf).mem_iff,mem_neededNodes]
  | exclusive hf hc hn =>
    rw [List.count_singleton]
    apply if_congr _ rfl rfl
    rw [← hprot,beq_iff_eq]
    constructor
    · intro he
      split_ifs at he with hi
      obtain ⟨rfl,rfl⟩ := Event.fill.inj he
      exact ⟨⟨⟨rfl,le_refl _,le_refl _⟩,by simpa using hi⟩,rfl⟩
    · rintro ⟨⟨⟨h1,h2,h3⟩,h4⟩,rfl⟩
      obtain rfl : n = (rid,lo) := Prod.ext h1 (le_antisymm h3 h2)
      rw [if_neg (by rw [h4]; simp)]

/-- Eviction gets past the chunks it may not touch: the page belongs to one
chunk, or each queued chunk behind the page has only such chunks in front of
it, or fits into the budget together with what is in front of it and what the
fault has to fill. -/
def Reclaims (p : Pool) (rid : RegionId) (page : ℕ) : Prop :=
  findSharedPage (p.region rid).layout page = none ∨
  ∀ front n back, lruList p = front ++ n::back → Behind p rid page n →
    sizeSum p (neededNodes p rid page ++ front ++ [n]) ≤ p.targetSize ∨
      ∀ m ∈ front, Behind p rid page m

theorem Stages.budget_iff {s : State} {rid : RegionId} {page : ℕ} {hot cold : List Node}
    (h : PoolInv s hot cold) (st : Stages s rid page hot cold) (ht : 0 < s.pool.targetSize)
    (hd : (s.pool.region rid).layout.pageSize ∣ page)
    (hm : page < (s.pool.region rid).layout.mappedSize) :
    (sizeSum s.pool (st.hot₃ ++ st.cold₃) ≤ s.pool.targetSize ∨
      ∀ n ∈ st.hot₃ ++ st.cold₃, Behind s.pool rid page n) ↔ Reclaims s.pool rid page := by
  obtain ⟨lo,hi,s₁,s₂,s₃,es,hot₁,cold₁,hot₂,cold₂,hot₃,cold₃,hserves,-,r₁,-,-,-,-,hev,hwhole⟩ := st
  have hx := hev ht
  have hnd := r₁.inv.queue.order.nodup
  have hprot := hserves.protected_iff hd hm
  simp only [hwhole ht,← hprot]
  cases hserves with
  | shared hf hlo hhi =>
    subst hlo hhi
    have hperm := missing_perm_needed hf
    rw [List.append_assoc] at hnd
    rw [evicted_budget_iff hx (List.append_assoc _ _ _) hnd ?_]
    · simp only [Reclaims,hf,reduceCtorEq,false_or,h.queue.lruList_eq,← hprot]
      have hsum : ∀ ns, sizeSum s.pool (missingNodes s.pool rid _ _ ++ ns) =
          sizeSum s.pool (neededNodes s.pool rid page ++ ns) := fun ns => by
        rw [sizeSum_append,sizeSum_append,sizeSum_perm s.pool hperm]
      simp only [List.append_assoc,hsum]
    · intro n hn
      rw [hprot]
      exact (mem_neededNodes.mp (hperm.subset hn)).1
  | exclusive hf hc hn =>
    refine iff_of_true ?_ (Or.inl hf)
    rw [evicted_budget_iff hx (show _ = [(rid,lo)] ++ (hot ++ cold.erase (rid,lo)) from rfl) hnd ?_]
    · -- No other chunk is protected.
      rintro front n back hback ⟨h1,h2,h3⟩
      exfalso
      obtain rfl := (Prod.ext h1 (le_antisymm h3 h2) : n = (rid,lo))
      rw [List.cons_append] at hnd
      exact (List.nodup_cons.mp hnd).1 (by rw [hback]; simp)
    · intro n hn
      rw [List.mem_singleton.mp hn]
      exact ⟨rfl,le_refl _,le_refl _⟩

end Budget

section Process
variable {pr pr' : Process} {k : PoolId} {rid : RegionId} {addr : ℕ}

/-- A fault that counts as resolved was resolved in the region of its address. -/
theorem resolved_in_region (h : ProcessInv pr) (hk : k ∈ pr.pools) (hr : rid ∈ (pr.pool k).regions)
    (hin : InRange ((pr.pool k).region rid) addr) (hf : faultTryResolve pr addr = some (true,pr')) :
    pageReadable (pr.pool k) rid (addr-((pr.pool k).region rid).base) = false ∧
    ∃ s, resolveFaultLocked ⟨pr.pool k,pr.vm⟩ rid (addr-((pr.pool k).region rid).base) = some s ∧
      pr' = withState pr k s := by
  rcases faultScan_cases hf with ⟨hc,-⟩ | ⟨-,j,hj,x,s,hfind,hun,hs,rfl⟩
  · cases hc
  · rw [findRegion_live h hk hj hr hin] at hfind
    split_ifs at hfind with hjk
    subst hjk
    cases hfind
    exact ⟨hun,s,hs,rfl⟩

/-- The page of an address of a region. -/
theorem page_of_address {r : Region} (hin : InRange r addr) :
    r.layout.pageSize ∣ pageFloor (addr-r.base) r.layout.pageSize ∧
      pageFloor (addr-r.base) r.layout.pageSize < r.layout.mappedSize := by
  have hle := pageFloor_le (addr-r.base) r.layout.pageSize
  obtain ⟨h1,h2⟩ := hin
  exact ⟨dvd_pageFloor _ _,by omega⟩

/-- The page of an address can be read, and what serves it is in place. -/
structure Accessible (pr : Process) (k : PoolId) (rid : RegionId) (addr : ℕ) : Prop where
  readable : pageReadable (pr.pool k) rid (addr-((pr.pool k).region rid).base) = true
  shown : (pr.vm (((pr.pool k).region rid).base+pageFloor (addr-((pr.pool k).region rid).base)
    ((pr.pool k).region rid).layout.pageSize)).isReadable = true
  shared : ∀ j, findSharedPage ((pr.pool k).region rid).layout (pageFloor
      (addr-((pr.pool k).region rid).base) ((pr.pool k).region rid).layout.pageSize) = some j →
    (((pr.pool k).region rid).sharedPages j).mapped = true
  exclusive : ∀ c, findSharedPage ((pr.pool k).region rid).layout (pageFloor
      (addr-((pr.pool k).region rid).base) ((pr.pool k).region rid).layout.pageSize) = none →
    c = ((pr.pool k).region rid).layout.findChunk (pageFloor
      (addr-((pr.pool k).region rid).base) ((pr.pool k).region rid).layout.pageSize) →
    ((pr.pool k).region rid).initialized c = true ∧ (pr.pool k).resident (rid,c) = true ∧
      (pr.pool k).cold (rid,c) = false

theorem pageReadable_floor (p : Pool) (rid : RegionId) (off : ℕ) :
    pageReadable p rid (pageFloor off (p.region rid).layout.pageSize) = pageReadable p rid off := by
  simp only [pageReadable,pageFloor_aligned (dvd_pageFloor off (p.region rid).layout.pageSize)]

theorem accessible_of_readable (h : ProcessInv pr) (hk : k ∈ pr.pools) (hr : rid ∈ (pr.pool k).regions)
    (hin : InRange ((pr.pool k).region rid) addr)
    (hread : pageReadable (pr.pool k) rid (addr-((pr.pool k).region rid).base) = true) :
    Accessible pr k rid addr := by
  obtain ⟨hot,cold,hp⟩ := h.pool k hk
  obtain ⟨hd,hm⟩ := page_of_address hin
  refine ⟨hread,?_,?_,?_⟩
  · rw [(page_shown hp hr hd hm).1,pageReadable_floor]
    exact hread
  · intro j hj
    rw [← readable_shared hj]
    exact hread
  · rintro c hf rfl
    have hhot := (readable_iff_hot hp hr hf).mp hread
    have hq := List.mem_append_left cold hhot
    exact ⟨hp.queued hq,(hp.queue.order.resident _).mpr hq,hp.queue.order.hotFlag _ hhot⟩

/-- A resolved fault leaves its region and the pool's target in place and its
page readable. -/
theorem resolved_readable (h : ProcessInv pr) (hk : k ∈ pr.pools) (hr : rid ∈ (pr.pool k).regions)
    (hin : InRange ((pr.pool k).region rid) addr) (hf : faultTryResolve pr addr = some (true,pr')) :
    k ∈ pr'.pools ∧ rid ∈ (pr'.pool k).regions ∧
      SameShape ((pr.pool k).region rid) ((pr'.pool k).region rid) ∧
      (pr'.pool k).targetSize = (pr.pool k).targetSize ∧
      pageReadable (pr'.pool k) rid (addr-((pr'.pool k).region rid).base) = true := by
  have hshape := (fault_survives h hf hk hr).shape
  obtain ⟨hun,s,hs,rfl⟩ := resolved_in_region h hk hr hin hf
  obtain ⟨hot,cold,hp⟩ := h.pool k hk
  obtain ⟨s₁,hot',cold',hs₁,hreach,hup,-⟩ := resolve_spec hp hr hun
  obtain rfl := Option.some.inj (hs₁.symm.trans hs)
  refine ⟨hk,?_,hshape,?_,?_⟩
  · rw [withState_pool_self]
    exact hreach.regions ▸ hr
  · rw [withState_pool_self]
    exact hreach.target
  · rw [hshape.base,withState_pool_self]
    obtain ⟨x,hx⟩ := countHandled_region s₁ rid rid
    rw [← hup]
    simp only [pageReadable,hx]
    rfl

/-- An address outside the live regions is not ours. -/
theorem outside_not_ours (h : ProcessInv pr) (hout : ∀ k ∈ pr.pools, ∀ rid ∈ (pr.pool k).regions,
    ¬ InRange ((pr.pool k).region rid) addr) : faultTryResolve pr addr = some (false,pr) := by
  obtain ⟨ours,pr',hf,-⟩ := fault_spec h addr
  rcases faultScan_cases hf with ⟨rfl,rfl⟩ | ⟨-,j,hj,x,s,hfind,-⟩
  · exact hf
  · obtain ⟨hx,hin⟩ := findRegionLocked_some hfind
    exact absurd hin (hout j hj x hx)

/-- A fault that is resolved leaves the page of its address readable, whatever
it evicted and demoted, and a second one there changes nothing. Addresses
outside the live regions are not ours. -/
theorem resolved_fault_leaves_page_readable (h : Reachable pr) (addr : ℕ) :
    (∀ k ∈ pr.pools, ∀ rid ∈ (pr.pool k).regions, InRange ((pr.pool k).region rid) addr →
      ∀ pr', faultTryResolve pr addr = some (true,pr') →
        Accessible pr' k rid addr ∧ faultTryResolve pr' addr = some (false,pr')) ∧
    ((∀ k ∈ pr.pools, ∀ rid ∈ (pr.pool k).regions, ¬ InRange ((pr.pool k).region rid) addr) →
      faultTryResolve pr addr = some (false,pr)) := by
  have hinv := reachable_inv h
  constructor
  · intro k hk rid hr hin pr' hf
    have hinv' := step_inv hinv (Step.fault pr addr true pr' hf)
    obtain ⟨hk',hr',hshape,-,hread⟩ := resolved_readable hinv hk hr hin hf
    have hin' := (hshape.inRange addr).mpr hin
    exact ⟨accessible_of_readable hinv' hk' hr' hin' hread,
      (faultScan_live hinv' hk' hr' hin' pr'.pools (fun _ hj => hj)).1 (Or.inr hread)⟩
  · exact outside_not_ours hinv

theorem resolved_fault_leaves_page_readable_sample :
    (Accessible sampleFaulted 0 0 20 ∧ faultTryResolve sampleFaulted 20 = some (false,sampleFaulted)) ∧
    faultTryResolve sample 100 = some (false,sample) :=
  ⟨(resolved_fault_leaves_page_readable sample_reachable 20).1 0 (by decide) 0 (by decide)
      ⟨by decide,by decide⟩ _ sample_fault,
    (resolved_fault_leaves_page_readable sample_reachable 100).2 (by decide)⟩

/-- The calls of a fault on a page that cannot be read. -/
theorem resolved_fills (h : ProcessInv pr) (hk : k ∈ pr.pools) (hr : rid ∈ (pr.pool k).regions)
    (hin : InRange ((pr.pool k).region rid) addr)
    (hun : pageReadable (pr.pool k) rid (addr-((pr.pool k).region rid).base) = false) :
    ∃ pr' es, faultTryResolve pr addr = some (true,pr') ∧
      (pr'.pool k).history = es ++ (pr.pool k).history ∧ (∀ j, j ≠ k → pr'.pool j = pr.pool j) ∧
      ∀ n size, es.count (.fill n size) = if (Behind (pr.pool k) rid
          (pageFloor (addr-((pr.pool k).region rid).base) ((pr.pool k).region rid).layout.pageSize) n ∧
          ((pr.pool k).region rid).initialized n.2 = false) ∧ size = lruNodeSize (pr.pool k) n
        then 1 else 0 := by
  obtain ⟨hot,cold,hp⟩ := h.pool k hk
  obtain ⟨s₁,-,-,hs,-⟩ := resolve_spec hp hr hun
  obtain ⟨st,hst⟩ := resolve_stages hp hr hun hs
  rw [hst] at hs
  obtain ⟨ms₁,ms₂,ms₃,hrun,hserve,hevict,hdemote⟩ := st.run hp
  obtain ⟨hd,hm⟩ := page_of_address hin
  refine ⟨_,(ms₃++(ms₂++ms₁)).map Prod.snd,
    (faultScan_live h hk hr hin pr.pools (fun _ hj => hj)).2 hk hun _ hs,?_,
    fun j hj => withState_pool_of_ne pr _ hj,?_⟩
  · rw [withState_pool_self]
    exact (run_history hrun ⟨hot,cold,hp⟩).1
  · intro n size
    rw [List.map_append,List.map_append,List.count_append,List.count_append,
      List.count_eq_zero.mpr hdemote.no_fill,List.count_eq_zero.mpr hevict.no_fill,hserve,
      st.serves.count_fill hd hm,Nat.zero_add,Nat.zero_add]

/-- A fault on a page that cannot be read fills the chunks with a byte in that
page that are not populated, each of them once and with its full size, and no
other chunk. Where the page belongs to one chunk, that is at most this chunk. -/
theorem fault_fills_missing_chunks (h : Reachable pr) (hk : k ∈ pr.pools)
    (hr : rid ∈ (pr.pool k).regions) (hin : InRange ((pr.pool k).region rid) addr)
    (hun : pageReadable (pr.pool k) rid (addr-((pr.pool k).region rid).base) = false) :
    let r := (pr.pool k).region rid
    let page := pageFloor (addr-r.base) r.layout.pageSize
    ∃ pr' es P sizes total, ∃ ha : Accepted P sizes total,
      r.layout = Layout.ofSizes P sizes total ha ∧
      faultTryResolve pr addr = some (true,pr') ∧
      (pr'.pool k).history = es ++ (pr.pool k).history ∧
      (∀ j, j ≠ k → pr'.pool j = pr.pool j) ∧
      (∀ n size, es.count (.fill n size) = if n.1 = rid ∧ r.layout.Touches n.2 page ∧
        r.initialized n.2 = false ∧ sizes[n.2]? = some size then 1 else 0) ∧
      ∀ c, (∀ d < r.layout.nchunks, r.layout.Touches d page → d = c) →
        ∀ n size, .fill n size ∈ es → n = (rid,c) ∧ r.initialized c = false := by
  intro r page
  obtain ⟨pr',es,hf,hhist,hothers,hfill⟩ := resolved_fills (reachable_inv h) hk hr hin hun
  obtain ⟨P,sizes,total,ha,hlay⟩ := laidOut_lifelong.reachable h k hk rid hr
  have hcount : ∀ n size, es.count (.fill n size) =
      if n.1 = rid ∧ r.layout.Touches n.2 page ∧ r.initialized n.2 = false ∧ sizes[n.2]? = some size
        then 1 else 0 := by
    intro n size
    rw [hfill]
    apply if_congr _ rfl rfl
    rw [Layout.ofSizes_entry ha,← hlay]
    constructor
    · rintro ⟨⟨⟨rfl,h2,h3⟩,h4⟩,h5⟩
      exact ⟨rfl,h3,h4,h2,h5⟩
    · rintro ⟨rfl,h3,h4,h2,h5⟩
      exact ⟨⟨⟨rfl,h2,h3⟩,h4⟩,h5⟩
  refine ⟨pr',es,P,sizes,total,ha,hlay,hf,hhist,hothers,hcount,?_⟩
  intro c hone n size hmem
  have hpos := List.count_pos_iff.mpr hmem
  rw [hcount] at hpos
  split_ifs at hpos with hc
  · obtain ⟨h1,h2,h3,h4⟩ := hc
    have hlt : n.2 < r.layout.nchunks := by
      rw [hlay]
      exact ((Layout.ofSizes_entry ha _ _).mp h4).1
    have he := hone n.2 hlt h2
    exact ⟨Prod.ext h1 he,he ▸ h3⟩
  · omega

/-- The sample's first fault fills both chunks of the shared page. -/
theorem fault_fills_missing_chunks_sample : ∃ pr' es, faultTryResolve sample 20 = some (true,pr') ∧
    (pr'.pool 0).history = es ++ (sample.pool 0).history ∧
    (∀ n size, .fill n size ∈ es → n.1 = 0) := by
  obtain ⟨pr',es,P,sizes,total,ha,-,hf,hh,-,hcount,-⟩ := fault_fills_missing_chunks (k := 0)
    sample_reachable (by decide) (show 0 ∈ (sample.pool 0).regions by decide)
    (show InRange ((sample.pool 0).region 0) 20 by decide) (by decide)
  refine ⟨pr',es,hf,hh,?_⟩
  intro n size hm
  have hpos := List.count_pos_iff.mpr hm
  rw [hcount] at hpos
  by_contra hne
  rw [if_neg (fun hc => hne hc.1)] at hpos
  omega

/-- A resolved fault leaves a bounded pool within its target, or with nothing
but the chunks of the faulting page, exactly when eviction gets past the
protected chunks. -/
theorem budget_met_iff_reclaims (h : Reachable pr) (hk : k ∈ pr.pools)
    (hr : rid ∈ (pr.pool k).regions) (ht : 0 < (pr.pool k).targetSize)
    (hin : InRange ((pr.pool k).region rid) addr) (hf : faultTryResolve pr addr = some (true,pr')) :
    ((pr'.pool k).residentBytes ≤ (pr'.pool k).targetSize ∨
      ∀ n, (pr'.pool k).resident n = true → Behind (pr'.pool k) rid
        (pageFloor (addr-((pr.pool k).region rid).base) ((pr.pool k).region rid).layout.pageSize) n) ↔
    Reclaims (pr.pool k) rid
      (pageFloor (addr-((pr.pool k).region rid).base) ((pr.pool k).region rid).layout.pageSize) := by
  have hinv := reachable_inv h
  obtain ⟨hot,cold,hp⟩ := hinv.pool k hk
  obtain ⟨hun,s,hs,rfl⟩ := resolved_in_region hinv hk hr hin hf
  obtain ⟨st,rfl⟩ := resolve_stages hp hr hun hs
  obtain ⟨hd,hm⟩ := page_of_address hin
  rw [← st.budget_iff hp ht hd hm,withState_pool_self]
  have hreach := (st.first.trans st.second).trans st.third
  have hq := hreach.inv.queue
  have hbytes : (countHandled st.settled rid).pool.residentBytes =
      sizeSum (pr.pool k) (st.hot₃ ++ st.cold₃) :=
    hq.account.bytes.trans (hreach.layouts.sizeSum _)
  have hlay : ((countHandled st.settled rid).pool.region rid).layout = ((pr.pool k).region rid).layout := by
    obtain ⟨x,hx⟩ := countHandled_region st.settled rid rid
    rw [hx]
    exact hreach.layouts rid
  have htarget : (countHandled st.settled rid).pool.targetSize = (pr.pool k).targetSize := hreach.target
  have hres : ∀ n, (countHandled st.settled rid).pool.resident n = true ↔ n ∈ st.hot₃ ++ st.cold₃ :=
    hq.order.resident
  rw [hbytes,htarget]
  simp only [Behind,hlay,hres]

/-- The sample's first fault finds an empty queue. -/
theorem budget_met_iff_reclaims_sample : Reclaims (sample.pool 0) 0 4 ∧
    (((sampleFaulted.pool 0).residentBytes ≤ (sampleFaulted.pool 0).targetSize ∨
      ∀ n, (sampleFaulted.pool 0).resident n = true → Behind (sampleFaulted.pool 0) 0 4 n) ↔
    Reclaims (sample.pool 0) 0 4) := by
  refine ⟨Or.inr ?_,budget_met_iff_reclaims sample_reachable (k := 0) (by decide)
    (show 0 ∈ (sample.pool 0).regions by decide) (by decide) ⟨by decide,by decide⟩ sample_fault⟩
  intro front n back hq
  have hempty : lruList (sample.pool 0) = [] := by decide
  rw [hempty] at hq
  cases front <;> cases hq

theorem mixedSizes : Accepted 4 [6,6,4] 16 :=
  ⟨by decide,by decide,by decide,by decide,by decide,by decide⟩

/-- Chunks 0 and 1 share the page at offset 4; the pool has room for twelve
bytes. -/
def mixed : Process :=
  fcRegionCreate (fcPoolCreate (start 4 (fun _ => .inaccessible)) 12) 0 [6,6,4] 16 mixedSizes
    (fun c i => (16*c+i+1).toUInt8) 16

/-- The process after the fault at an address. -/
def afterFault (pr : Process) (addr : ℕ) : Process := ((faultTryResolve pr addr).getD (false,pr)).2

theorem afterFault_reachable (h : Reachable pr) (addr : ℕ) : Reachable (afterFault pr addr) := by
  obtain ⟨ours,pr',he,-⟩ := fault_spec (reachable_inv h) addr
  rw [afterFault,he]
  exact reachable_steps h (Relation.ReflTransGen.single (Step.fault _ addr ours _ he))

theorem afterFault_resolved (h : (faultTryResolve pr addr).map Prod.fst = some true) :
    faultTryResolve pr addr = some (true,afterFault pr addr) := by
  obtain ⟨⟨ours,pr'⟩,he,rfl⟩ := Option.map_eq_some_iff.mp h
  rw [afterFault,he]
  rfl

theorem mixed_reachable : Reachable mixed := by
  refine ⟨4,fun _ => .inaccessible,?_⟩
  refine Relation.ReflTransGen.tail (Relation.ReflTransGen.single (Step.poolCreate _ 12)) ?_
  exact Step.regionCreate _ 0 [6,6,4] 16 _ 16 (by decide) mixedSizes
    ⟨by decide,by decide,by simp [fcPoolCreate,start,poolInit]⟩

/-- Chunk 0 has been filled, and then chunk 2. -/
def mixedFilled : Process := afterFault (afterFault mixed 16) 28

theorem mixedFilled_reachable : Reachable mixedFilled :=
  afterFault_reachable (afterFault_reachable mixed_reachable 16) 28

/-- The fault on the shared page fills chunk 1. The oldest chunk is now chunk 0,
which is protected, so chunk 2 stays and the pool is left with sixteen bytes. -/
theorem protected_tail_blocks_eviction :
    ¬ ∀ pr k rid addr pr', Reachable pr → k ∈ pr.pools → rid ∈ (pr.pool k).regions →
      0 < (pr.pool k).targetSize → InRange ((pr.pool k).region rid) addr →
      faultTryResolve pr addr = some (true,pr') →
      (pr'.pool k).residentBytes ≤ (pr'.pool k).targetSize ∨
      ∀ n, (pr'.pool k).resident n = true → Behind (pr'.pool k) rid
        (pageFloor (addr-((pr.pool k).region rid).base) ((pr.pool k).region rid).layout.pageSize) n := by
  intro hall
  have hbad := hall mixedFilled 0 0 20 _ mixedFilled_reachable (by decide +kernel)
    (by decide +kernel) (by decide +kernel) ⟨by decide +kernel,by decide +kernel⟩
    (afterFault_resolved (by decide +kernel))
  rcases hbad with hle | hbehind
  · revert hle
    decide +kernel
  · have htouch := (hbehind (0,2) (by decide +kernel)).2.2
    revert htouch
    decide +kernel

end Process

section Recency
variable {pr pr' : Process}

/-- No resident chunk of the pool has an older stamp, and a hot one is only
oldest when nothing is cold. -/
structure Oldest (p : Pool) (n : Node) : Prop where
  resident : p.resident n = true
  stamp : ∀ m, p.resident m = true → m ≠ n → stamp n p.history < stamp m p.history
  coldFirst : p.cold n = false → ∀ m, p.resident m = true → p.cold m = false

theorem oldest_at_tail {s : State} {hot cold : List Node} {n : Node} (h : PoolInv s hot cold)
    (hs : Stamped s.pool) (hn : s.pool.links.prev .head = .node n) : Oldest s.pool n := by
  have hring := h.queue.order.ring
  rw [ring_prev_head hring] at hn
  rcases List.eq_nil_or_concat (hot ++ cold) with hnil | ⟨q,v,hq⟩
  · rw [hnil] at hn
    cases hn
  rw [List.concat_eq_append] at hq
  rw [hq,lastRef_concat] at hn
  cases hn
  have hmem : ∀ m, s.pool.resident m = true → m ∈ q ++ [n] := fun m hm => hq ▸ (h.queue.order.resident m).mp hm
  have hself : n ∈ hot ++ cold := by rw [hq]; simp
  refine ⟨(h.queue.order.resident n).mpr hself,?_,?_⟩
  · intro m hm hne
    have hnew := hs _ hring
    rw [hq] at hnew
    have hmq : m ∈ q := by simpa [hne] using hmem m hm
    exact (List.pairwise_append.mp hnew).2.2 m hmq n (by simp)
  · intro hhot m hm
    have hnil : cold = [] := by
      rcases List.eq_nil_or_concat cold with hnil | ⟨cs,c,rfl⟩
      · exact hnil
      · rw [List.concat_eq_append,← List.append_assoc] at hq
        obtain ⟨-,he⟩ := List.append_inj' hq rfl
        cases he
        rw [h.queue.order.coldFlag n (by simp)] at hhot
        cases hhot
    rw [h.queue.order.resident,hnil,List.append_nil] at hm
    exact h.queue.order.hotFlag m hm

/-- The queue lists the resident chunks in the order of their latest fill or
promotion, and every chunk that a fault evicts is the oldest of its pool at that
moment. -/
theorem queue_is_recency_order (h : Reachable pr) :
    (∀ k ∈ pr.pools,
      (∀ n, n ∈ lruList (pr.pool k) ↔ (pr.pool k).resident n = true) ∧
      (∀ rid ∈ (pr.pool k).regions, ∀ c < ((pr.pool k).region rid).layout.nchunks,
        ((rid,c) ∈ lruList (pr.pool k) ↔ ((pr.pool k).region rid).initialized c = true)) ∧
      (pr.pool k).links.prev .head = lastRef (lruList (pr.pool k)) ∧
      (lruList (pr.pool k)).Pairwise
        (fun m n => stamp n (pr.pool k).history < stamp m (pr.pool k).history)) ∧
    ∀ addr pr', faultTryResolve pr addr = some (true,pr') →
      ∃ k ∈ pr.pools, ∃ rid ms s, pr' = withState pr k (countHandled s rid) ∧
        Run Micro ⟨pr.pool k,pr.vm⟩ ms s ∧
        (pr'.pool k).history = ms.map Prod.snd ++ (pr.pool k).history ∧
        ∀ v n, (v,Event.evict n) ∈ ms → Oldest v.pool n := by
  have hinv := reachable_inv h
  constructor
  · intro k hk
    obtain ⟨hot,cold,hp⟩ := hinv.pool k hk
    rw [hp.queue.lruList_eq]
    refine ⟨fun n => (hp.queue.order.resident n).symm,?_,?_,?_⟩
    · exact fun rid hr c hc => (hp.initialized_iff ⟨hr,hc⟩).symm
    · exact ring_prev_head hp.queue.order.ring
    · exact stamped_lifelong.reachable h k hk _ hp.queue.order.ring
  · intro addr pr' hf
    rcases faultScan_cases hf with ⟨hc,-⟩ | ⟨-,k,hk,rid,s,hfind,hun,hs,rfl⟩
    · cases hc
    obtain ⟨hot,cold,hp⟩ := hinv.pool k hk
    obtain ⟨st,rfl⟩ := resolve_stages hp (findRegionLocked_some hfind).1 hun hs
    obtain ⟨ms₁,ms₂,ms₃,hrun,hserve,hevict,hdemote⟩ := st.run hp
    refine ⟨k,hk,rid,_,st.settled,rfl,hrun,?_,?_⟩
    · rw [withState_pool_self]
      exact (run_history hrun ⟨hot,cold,hp⟩).1
    · intro v n hm
      obtain ⟨hstamp,hot',cold',hv⟩ :=
        (stamped_lifelong.along hrun ⟨hot,cold,hp⟩ (stamped_lifelong.reachable h k hk)).2 _ hm
      apply oldest_at_tail hv hstamp
      rcases List.mem_append.mp hm with hm | hm
      · obtain ⟨m,hc⟩ := hdemote v _ hm
        cases hc
      rcases List.mem_append.mp hm with hm | hm
      · obtain ⟨m,he,htail⟩ := hevict v _ hm
        cases he
        exact htail
      · exact absurd (hserve ▸ List.mem_map_of_mem (f := Prod.snd) hm) (st.serves.no_evict n)

theorem queue_is_recency_order_mixed : lruList (mixedFilled.pool 0) = [(0,2),(0,0)] ∧
    stamp (0,0) (mixedFilled.pool 0).history < stamp (0,2) (mixedFilled.pool 0).history := by
  have hq : lruList (mixedFilled.pool 0) = [(0,2),(0,0)] := by decide +kernel
  obtain ⟨-,-,-,hp⟩ := (queue_is_recency_order mixedFilled_reachable).1 0 (by decide +kernel)
  rw [hq,List.pairwise_cons] at hp
  exact ⟨hq,hp.1 (0,0) (by simp)⟩

end Recency

end FaultCache.FaultEffects
