import FaultCache.ColdFlags

/-!
# The readers of debug.h

A region counts its fills and its faults for tests to look at. The counters wrap
and are kept beside the queue, in other records than the resident totals. In
every reachable process each reader tells what the pool's history and its queue
say, so that they never contradict one another.
-/

set_option autoImplicit false

namespace FaultCache.DebugCounters
open FaultCache.SentinelRing FaultCache.PageGeometry FaultCache.PoolMachine FaultCache.PoolStaging
open FaultCache.PoolQueue FaultCache.PoolMemory FaultCache.PoolHistory FaultCache.PoolInvariant
open FaultCache.PoolResolve FaultCache.FaultProcess FaultCache.ProcessInvariant FaultCache.ProcessContract
open FaultCache.PoolLifetime FaultCache.ColdFlags

/-- `struct fc_region_debug_stats`. -/
structure DebugStats where
  nchunks : ℕ
  chunksResolved : UInt32
  faultsHandled : UInt32
  deriving DecidableEq, Repr

def fcRegionDebugStats (p : Pool) (rid : RegionId) : DebugStats :=
  let r := p.region rid
  ⟨r.layout.nchunks,r.chunksResolved,r.faultsHandled⟩

/-- `struct fc_region_debug_lru_stats`. -/
structure LruStats where
  residentBytes : ℕ
  residentChunks : ℕ
  faultEventsTotal : UInt64
  deriving DecidableEq, Repr

def fcRegionDebugLruStats (p : Pool) (rid : RegionId) : LruStats :=
  let r := p.region rid
  ⟨r.residentBytes,r.residentChunks,r.faultEventsTotal⟩

/-- `struct fc_pool_debug_lru_entry`. -/
structure PoolLruEntry where
  region : RegionId
  chunk : ℕ
  size : ℕ
  faultsTotal : UInt64
  deriving DecidableEq, Repr, Inhabited

def poolLruEntry (p : Pool) (n : Node) : PoolLruEntry :=
  ⟨n.1,n.2,lruNodeSize p n,(p.region n.1).chunkFaultsTotal n.2⟩

/-- The walk over the queue. An entry is only stored while there is room. -/
def queueEntries (p : Pool) (maxEntries : ℕ) : List Node → UInt32 → List PoolLruEntry →
    List PoolLruEntry × UInt32
  | [], total, out => (out,total)
  | n::ns, total, out =>
    let total := total+1
    queueEntries p maxEntries ns total
      (if total.toNat ≤ maxEntries then out.set (total.toNat-1) (poolLruEntry p n) else out)

/-- What the caller's array holds afterwards, and the count. -/
def fcPoolDebugLruQueue (p : Pool) (outEntries : List PoolLruEntry) (maxEntries : ℕ) :
    List PoolLruEntry × UInt32 :=
  queueEntries p maxEntries (lruList p) 0 outEntries

section Queue
variable {p : Pool} {maxEntries : ℕ}

theorem queueEntries_length (ns : List Node) (total : UInt32) (out : List PoolLruEntry) :
    (queueEntries p maxEntries ns total out).1.length = out.length := by
  induction ns generalizing total out with
  | nil => rfl
  | cons n ns ih =>
    rw [queueEntries,ih]
    split_ifs
    · rw [List.length_set]
    · rfl

/-- A queue that can be counted is counted, and fills the array from where the
walk stands. -/
theorem queueEntries_spec (ns : List Node) (total : UInt32) (out : List PoolLruEntry)
    (hfit : total.toNat+ns.length < 2^32) (hlen : out.length = maxEntries) :
    (queueEntries p maxEntries ns total out).2.toNat = total.toNat+ns.length ∧
    ∀ i < maxEntries, (queueEntries p maxEntries ns total out).1[i]? =
      if total.toNat ≤ i ∧ i < total.toNat+ns.length then (ns[i-total.toNat]?).map (poolLruEntry p)
      else out[i]? := by
  induction ns generalizing total out with
  | nil =>
    refine ⟨rfl,fun i _ => ?_⟩
    rw [if_neg (by simp)]
    rfl
  | cons n ns ih =>
    rw [List.length_cons] at hfit
    have htotal : (total+1).toNat = total.toNat+1 := by
      rw [UInt32.toNat_add]
      exact Nat.mod_eq_of_lt (by simp; omega)
    rw [queueEntries]
    obtain ⟨hcount,hout⟩ := ih (total+1) (if (total+1).toNat ≤ maxEntries then
        out.set ((total+1).toNat-1) (poolLruEntry p n) else out) (by omega) (by
      split_ifs
      · rw [List.length_set,hlen]
      · exact hlen)
    refine ⟨by rw [hcount,List.length_cons]; omega,fun i hi => ?_⟩
    rw [hout i hi,htotal,Nat.add_sub_cancel,List.length_cons]
    by_cases hat : i = total.toNat
    · subst hat
      rw [if_neg (by omega),if_pos (by omega),if_pos (by omega),List.getElem?_set_self (by omega),
        Nat.sub_self]
      rfl
    · have hset : (if total.toNat+1 ≤ maxEntries then out.set total.toNat (poolLruEntry p n)
          else out)[i]? = out[i]? := by
        split_ifs
        · rw [List.getElem?_set_ne (by omega)]
        · rfl
      rw [hset]
      by_cases hin : total.toNat+1 ≤ i ∧ i < total.toNat+1+ns.length
      · rw [if_pos hin,if_pos (by omega),show i-total.toNat = i-(total.toNat+1)+1 by omega,
          List.getElem?_cons_succ]
      · rw [if_neg hin,if_neg (by omega)]

/-- What the reader leaves of a queue that can be counted. -/
theorem queue_read (out : List PoolLruEntry) (hfit : (lruList p).length < 2^32) :
    (fcPoolDebugLruQueue p out out.length).2.toNat = (lruList p).length ∧
    ∀ i < out.length, (fcPoolDebugLruQueue p out out.length).1[i]? =
      if i < (lruList p).length then ((lruList p)[i]?).map (poolLruEntry p) else out[i]? := by
  obtain ⟨h1,h2⟩ := queueEntries_spec (p := p) (lruList p) 0 out
    (by rw [UInt32.toNat_zero,Nat.zero_add]; exact hfit) rfl
  rw [UInt32.toNat_zero,Nat.zero_add] at h1
  refine ⟨h1,fun i hi => ?_⟩
  rw [fcPoolDebugLruQueue,h2 i hi]
  simp

end Queue

section Counters

/-- The fills and promotions of a chunk. -/
def faults (n : Node) (h : List Event) : ℕ := h.countP (fun e => node e = n ∧ refreshes e = true)

/-- The fills of all chunks of a region. -/
def regionFills (rid : RegionId) (h : List Event) : ℕ :=
  h.countP (fun e => (node e).1 = rid ∧ sets e = some true)

theorem faults_cons (n : Node) (e : Event) (h : List Event) :
    faults n (e::h) = faults n h+if node e = n ∧ refreshes e = true then 1 else 0 := by
  simp [faults,List.countP_cons]

theorem regionFills_cons (rid : RegionId) (e : Event) (h : List Event) :
    regionFills rid (e::h) = regionFills rid h+if (node e).1 = rid ∧ sets e = some true then 1 else 0 := by
  simp [regionFills,List.countP_cons]

/-- The counters of a region over one operation. -/
structure Counts (e : Event) (rid : RegionId) (r r' : Region) : Prop where
  chunk : ∀ c, r'.chunkFaultsTotal c =
    r.chunkFaultsTotal c+if node e = (rid,c) ∧ refreshes e = true then 1 else 0
  resolved : r'.chunksResolved = r.chunksResolved+if (node e).1 = rid ∧ sets e = some true then 1 else 0

theorem Counts.of_same {e : Event} {rid : RegionId} {r r' : Region}
    (hc : r'.chunkFaultsTotal = r.chunkFaultsTotal) (hr : r'.chunksResolved = r.chunksResolved)
    (he : refreshes e = true → (node e).1 ≠ rid) : Counts e rid r r' where
  chunk := by
    intro c
    rw [hc,if_neg (fun h => he h.2 (congrArg Prod.fst h.1)),UInt64.add_zero]
  resolved := by
    rw [hr,if_neg (fun h => ?_),UInt32.add_zero]
    cases e with
    | fill => exact he rfl h.1
    | promote => cases h.2
    | demote => cases h.2
    | evict => cases h.2

theorem fillAccount_counts {p q : Pool} {n : Node} (h : fillAccount p n = some q) :
    (q.region n.1).chunkFaultsTotal = (countFault (p.region n.1) n.2).chunkFaultsTotal ∧
      (q.region n.1).chunksResolved = (p.region n.1).chunksResolved+1 := by
  obtain ⟨p₁,he,rfl⟩ := Option.map_eq_some_iff.mp h
  have hqueued : ∀ {β : Type} {g : Region → β}, (∀ r size, g (addChunk r size) = g r) →
      g (p₁.region n.1) = g (countFault (p.region n.1) n.2) := by
    intro β g hg
    have hself := congrArg g (update_region_self p n.1 (fun r => countFault r n.2))
    unfold enqueue lruInsertMru at he
    split_ifs at he
    · cases he
      exact hself
    · obtain ⟨_,hins,rfl⟩ := Option.map_eq_some_iff.mp he
      cases hins
      exact (update_keeps (f := fun r => addChunk r _) _ n.1 (fun r => hg r _) n.1).trans hself
  have hupdate := update_region_self p₁ n.1 (fun r => { r with chunksResolved := r.chunksResolved+1 })
  constructor
  · rw [hupdate]
    exact hqueued (g := Region.chunkFaultsTotal) (fun _ _ => rfl)
  · rw [hupdate]
    exact congrArg (·+1) (hqueued (g := Region.chunksResolved) (fun _ _ => rfl))

theorem fill_counts {s s' : State} {hot cold : List Node} {rid : RegionId} {c : ℕ}
    (h : PoolInv s hot cold) (hl : Live s.pool (rid,c)) (hf : fillChunkLocked s rid c = some s') :
    (s'.pool.region rid).chunkFaultsTotal = (countFault (s.pool.region rid) c).chunkFaultsTotal ∧
      (s'.pool.region rid).chunksResolved = (s.pool.region rid).chunksResolved+1 := by
  obtain ⟨r₁,vm₁,e₁,-,-,f₁,-⟩ := fill_stage (h.region rid hl.1) hl.2
  simp only [fillChunkLocked] at hf
  rw [e₁,Option.bind_some] at hf
  obtain ⟨p,hp,rfl⟩ := Option.map_eq_some_iff.mp hf
  obtain ⟨h1,h2⟩ := fillAccount_counts hp
  have hself := update_region_self s.pool rid (fun _ => r₁)
  have hcounts : r₁.chunkFaultsTotal = (s.pool.region rid).chunkFaultsTotal := by rw [f₁.region]
  have hresolved : r₁.chunksResolved = (s.pool.region rid).chunksResolved := by rw [f₁.region]
  constructor
  · refine h1.trans ((congrArg (fun r => (countFault r c).chunkFaultsTotal) hself).trans ?_)
    simp only [countFault,hcounts]
  · refine h2.trans ((congrArg (fun r : Region => r.chunksResolved+1) hself).trans ?_)
    simp only [hresolved]

/-- What one operation counts. -/
theorem micro_counts {s s' : State} {e : Event} {hot cold : List Node} (h : PoolInv s hot cold)
    (hm : Micro s e s') (rid : RegionId) : Counts e rid (s.pool.region rid) (s'.pool.region rid) := by
  by_cases hne : (node e).1 = rid
  · subst hne
    cases hm with
    | @fill _ x d hl hi hf =>
      obtain ⟨h1,h2⟩ := fill_counts h hl hf
      refine ⟨fun c => ?_,?_⟩
      · rw [show (s'.pool.region (node (.fill (x,d) _)).1).chunkFaultsTotal = _ from h1]
        by_cases hc : d = c
        · subst hc
          simp [countFault,node,refreshes]
        · simp [countFault,node,refreshes,hc,Function.update_of_ne (Ne.symm hc)]
      · rw [show (s'.pool.region (node (.fill (x,d) _)).1).chunksResolved = _ from h2]
        simp [node,sets]
    | @promote _ n hr hc hf =>
      have hq := (h.queue.order.resident _).mp hr
      obtain ⟨e₁,-⟩ := promote_queue h.queue ((h.queue.order.cold_iff hq).mp hc)
      obtain rfl := Option.some.inj (e₁.symm.trans hf)
      have hself : (promoted s n).pool.region n.1 = countFault (s.pool.region n.1) n.2 :=
        update_region_self _ n.1 (fun r => countFault r n.2)
      refine ⟨fun c => ?_,?_⟩
      · rw [show (promoted s n).pool.region (node (.promote n)).1 = _ from hself]
        by_cases hc : n.2 = c
        · subst hc
          simp [countFault,node,refreshes]
        · have hpair : n ≠ (n.1,c) := fun he => hc (congrArg Prod.snd he)
          simp [countFault,node,refreshes,hpair,Function.update_of_ne (Ne.symm hc)]
      · rw [show (promoted s n).pool.region (node (.promote n)).1 = _ from hself]
        simp [countFault,node,sets]
    | demote ht hmid => exact .of_same rfl rfl (fun hr => by cases hr)
    | @evict _ n ht hr hf =>
      obtain ⟨e₁,-⟩ := evict_spec h ((h.queue.order.resident _).mp hr) ht
      obtain rfl := Option.some.inj (e₁.symm.trans hf)
      refine .of_same ?_ ?_ (fun hr => by cases hr)
      · exact update_keeps (g := Region.chunkFaultsTotal) (f := fun r => dropChunk r n.2 _) _ n.1
          (fun r => rfl) n.1
      · exact update_keeps (g := Region.chunksResolved) (f := fun r => dropChunk r n.2 _) _ n.1
          (fun r => rfl) n.1
  · have hsame := (hm.touched h).1.others rid (Ne.symm hne)
    exact .of_same (by rw [hsame]) (by rw [hsame]) (fun _ => hne)

/-- The counters of the live regions are those of the history. -/
def Counted (p : Pool) : Prop := ∀ rid ∈ p.regions,
  (∀ c, (p.region rid).chunkFaultsTotal c = UInt64.ofNat (faults (rid,c) p.history)) ∧
    (p.region rid).chunksResolved = UInt32.ofNat (regionFills rid p.history)

theorem Counted.of_same {p p' : Pool} (h : Counted p) (hr : ∀ rid ∈ p'.regions, rid ∈ p.regions)
    (hc : ∀ rid ∈ p'.regions, (p'.region rid).chunkFaultsTotal = (p.region rid).chunkFaultsTotal)
    (hf : ∀ rid ∈ p'.regions, (p'.region rid).chunksResolved = (p.region rid).chunksResolved)
    (hh : p'.history = p.history) : Counted p' := by
  intro rid hm
  rw [hc rid hm,hf rid hm,hh]
  exact h rid (hr rid hm)

theorem counted_lifelong : Lifelong Counted where
  init := fun _ _ hr => absurd hr List.not_mem_nil
  micro := by
    intro s s' e hot cold hp hm hq rid hr
    have ht := (hm.touched hp).1
    obtain ⟨h1,h2⟩ := hq rid (ht.regions ▸ hr)
    obtain ⟨hc,hf⟩ := micro_counts hp hm rid
    rw [ht.history]
    refine ⟨fun c => ?_,?_⟩
    · rw [hc,h1,faults_cons]
      split_ifs <;> simp
    · rw [hf,h2,regionFills_cons]
      split_ifs <;> simp
  count := by
    intro s x hq
    refine hq.of_same (fun _ hr => hr) (fun rid _ => ?_) (fun rid _ => ?_) rfl
    · exact countHandled_keeps (g := Region.chunkFaultsTotal) s x rid (fun _ _ => rfl)
    · exact countHandled_keeps (g := Region.chunksResolved) s x rid (fun _ _ => rfl)
  insert := by
    intro p vm hot cold x P sizes total ha base fill hp hx hh hq rid hr
    rcases mem_regionListInsert hr with rfl | hr
    · rw [insert_region_self]
      have hnone : ∀ e ∈ p.history, (node e).1 ≠ rid := hh
      have hz : ∀ c, faults (rid,c) p.history = 0 := by
        intro c
        rw [faults,List.countP_eq_zero]
        intro e he hc
        exact hnone e he (congrArg Prod.fst (of_decide_eq_true hc).1)
      have hz' : regionFills rid p.history = 0 := by
        rw [regionFills,List.countP_eq_zero]
        exact fun e he hc => hnone e he (of_decide_eq_true hc).1
      refine ⟨fun c => ?_,?_⟩
      · rw [show (regionListInsert p rid _).history = p.history from rfl,hz]
        rfl
      · rw [show (regionListInsert p rid _).history = p.history from rfl,hz']
        rfl
    · rw [regionInsert_old hx hr]
      exact hq rid hr
  forget := by
    intro p p' hot cold n hp hf hq
    obtain ⟨h1,h2,h3⟩ := forget_region hf
    exact hq.of_same (fun rid hr => h1 ▸ hr)
      (fun rid _ => h3 (g := Region.chunkFaultsTotal) (fun _ _ _ => rfl) rid)
      (fun rid _ => h3 (g := Region.chunksResolved) (fun _ _ _ => rfl) rid) h2
  remove := by
    intro p x hq
    exact hq.of_same (fun rid hr => List.mem_of_mem_erase hr) (fun _ _ => rfl) (fun _ _ => rfl) rfl

end Counters

section Readers
variable {pr : Process} {k : PoolId} {p : Pool} {rid : RegionId}

/-- The chunks that the history reports as resident. -/
def residentEntries (p : Pool) (rid : RegionId) : List LruEntry :=
  (fcRegionDebugLruHistory p rid).filter (fun entry => entry.resident = 1)

/-- The chunks of the region in the queue, in the order of the region. -/
theorem resident_perm {hot cold : List Node} (h : Queue p hot cold) (hr : rid ∈ p.regions) :
    (((List.range (p.region rid).layout.nchunks).filter (fun c => p.resident (rid,c))).map
      (fun c => (rid,c))).Perm (ofRegion rid (hot ++ cold)) := by
  have hinj : Function.Injective (fun c : ℕ => ((rid,c) : Node)) := fun c d he => congrArg Prod.snd he
  refine (List.perm_ext_iff_of_nodup (List.Nodup.map hinj (List.Nodup.filter _ List.nodup_range))
    (List.Nodup.filter _ h.order.nodup)).mpr ?_
  rintro ⟨r,c⟩
  simp only [List.mem_map,List.mem_filter,List.mem_range,Prod.mk.injEq,decide_eq_true_eq]
  constructor
  · rintro ⟨d,⟨-,hres⟩,rfl,rfl⟩
    exact ⟨(h.order.resident _).mp hres,rfl⟩
  · rintro ⟨hm,rfl⟩
    exact ⟨c,⟨(h.account.live _ hm).2,(h.order.resident _).mpr hm⟩,rfl,rfl⟩

/-- The history and the queue report the same chunks. -/
theorem resident_entry_iff {hot cold : List Node} (h : Queue p hot cold) {entry : LruEntry}
    (hentry : entry ∈ fcRegionDebugLruHistory p rid) : entry.resident = 1 ↔
      ∃ n ∈ lruList p, poolLruEntry p n = ⟨rid,entry.chunk,entry.size,entry.faultsTotal⟩ := by
  obtain ⟨c,hc,rfl⟩ := List.mem_map.mp hentry
  rw [h.lruList_eq]
  constructor
  · intro hres
    have hres' : p.resident (rid,c) = true := by
      by_contra hno
      simp [hno] at hres
    exact ⟨(rid,c),(h.order.resident _).mp hres',rfl⟩
  · rintro ⟨⟨r,d⟩,hm,he⟩
    obtain ⟨rfl,rfl⟩ := PoolLruEntry.mk.inj he |>.imp_right And.left
    simp [(h.order.resident _).mpr hm]

theorem residentEntries_eq (p : Pool) (rid : RegionId) : (residentEntries p rid).map (fun entry => (entry.chunk,entry.size)) =
    ((List.range (p.region rid).layout.nchunks).filter (fun c => p.resident (rid,c))).map
      (fun c => (c,(p.region rid).layout.chunkSize c)) := by
  rw [residentEntries,fcRegionDebugLruHistory,List.filter_map,List.map_map]
  congr 1
  apply List.filter_congr
  intro c _
  by_cases hres : p.resident (rid,c) = true
  · simp [hres]
  · simp [hres]

theorem sumTo_foldl (f : ℕ → UInt64) (n : ℕ) :
    ((List.range n).map f).foldl (·+·) 0 = sumTo f n := by
  induction n with
  | zero => rfl
  | succ n ih => rw [List.range_succ,List.map_append,List.foldl_append,ih,sumTo]; rfl

/-- The queue has the resident chunks, from the most recent on, with the sizes
and the counts that the histories of their regions have; the totals of a region
are the sums over its history; the counters tell how often its chunks have been
filled and promoted since it was created. -/
theorem debug_readers_agree (h : Reachable pr) (hk : k ∈ pr.pools) :
    (∀ out : List PoolLruEntry, (lruList (pr.pool k)).length < 2^32 →
      (fcPoolDebugLruQueue (pr.pool k) out out.length).2.toNat = (lruList (pr.pool k)).length ∧
      ∀ i < out.length, (fcPoolDebugLruQueue (pr.pool k) out out.length).1[i]? =
        if i < (lruList (pr.pool k)).length then ((lruList (pr.pool k))[i]?).map (poolLruEntry (pr.pool k))
        else out[i]?) ∧
    ∀ rid ∈ (pr.pool k).regions,
      (∀ entry ∈ fcRegionDebugLruHistory (pr.pool k) rid,
        entry.faultsTotal = UInt64.ofNat (faults (rid,entry.chunk) (pr.pool k).history) ∧
        (entry.resident = 1 ↔ ∃ n ∈ lruList (pr.pool k),
          poolLruEntry (pr.pool k) n = ⟨rid,entry.chunk,entry.size,entry.faultsTotal⟩)) ∧
      (fcRegionDebugStats (pr.pool k) rid).nchunks = (fcRegionDebugLruHistory (pr.pool k) rid).length ∧
      (fcRegionDebugStats (pr.pool k) rid).chunksResolved =
        UInt32.ofNat (regionFills rid (pr.pool k).history) ∧
      (fcRegionDebugLruStats (pr.pool k) rid).residentBytes =
        ((residentEntries (pr.pool k) rid).map LruEntry.size).sum ∧
      (fcRegionDebugLruStats (pr.pool k) rid).residentChunks = (residentEntries (pr.pool k) rid).length ∧
      (fcRegionDebugLruStats (pr.pool k) rid).faultEventsTotal =
        ((fcRegionDebugLruHistory (pr.pool k) rid).map LruEntry.faultsTotal).foldl (·+·) 0 := by
  obtain ⟨hot,cold,hp⟩ := (reachable_inv h).pool k hk
  have hqueue : Queue (pr.pool k) hot cold := hp.queue
  have hcounted := counted_lifelong.reachable h k hk
  refine ⟨fun out hfit => queue_read out hfit,fun rid hr => ?_⟩
  have hperm := resident_perm hqueue hr
  have hentries := residentEntries_eq (pr.pool k) rid
  refine ⟨?_,?_,(hcounted rid hr).2,?_,?_,?_⟩
  · intro entry hentry
    obtain ⟨c,hc,rfl⟩ := List.mem_map.mp hentry
    exact ⟨(hcounted rid hr).1 c,resident_entry_iff hqueue hentry⟩
  · rw [fcRegionDebugLruHistory,List.length_map,List.length_range]
    rfl
  · change ((pr.pool k).region rid).residentBytes = _
    have hsizes := congrArg (List.map Prod.snd) hentries
    rw [List.map_map,List.map_map] at hsizes
    rw [hqueue.account.regionBytes rid hr,sizeSum,← (hperm.map (lruNodeSize (pr.pool k))).sum_eq,List.map_map]
    exact congrArg List.sum hsizes.symm
  · change ((pr.pool k).region rid).residentChunks = _
    have hlength := congrArg List.length hentries
    rw [List.length_map,List.length_map] at hlength
    rw [hqueue.account.regionChunks rid hr,← hperm.length_eq,List.length_map,hlength]
  · change ((pr.pool k).region rid).faultEventsTotal = _
    rw [(hp.region rid hr).faults,faultSum,← sumTo_foldl,fcRegionDebugLruHistory,List.map_map]
    rfl

/-- One fault on a shared page fills both chunks. A probe with room for one
entry counts two. -/
theorem debug_readers_agree_sample :
    (fcPoolDebugLruQueue (sampleFaulted.pool 0) [default] 1).2.toNat = 2 ∧
    (fcPoolDebugLruQueue (sampleFaulted.pool 0) [default] 1).1[0]? = some ⟨0,1,4,1⟩ ∧
    (fcRegionDebugStats (sampleFaulted.pool 0) 0).chunksResolved = UInt32.ofNat 2 := by
  obtain ⟨hqueue,hregions⟩ := debug_readers_agree sampleFaulted_reachable (k := 0) (by decide)
  have hlist : lruList (sampleFaulted.pool 0) = [(0,1),(0,0)] := by decide +kernel
  obtain ⟨hcount,hout⟩ := hqueue [default] (by rw [hlist]; decide)
  obtain ⟨-,-,hresolved,-⟩ := hregions 0 (by decide)
  refine ⟨hcount.trans (by rw [hlist]; rfl),(hout 0 (by decide)).trans ?_,hresolved⟩
  rw [hlist]
  decide +kernel

end Readers

end FaultCache.DebugCounters
