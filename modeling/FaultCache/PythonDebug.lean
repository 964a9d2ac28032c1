import FaultCache.PythonLifetimes
import FaultCache.DebugCounters

/-!
# The queue as Python sees it

`Pool._debug_lru_queue` asks for the length of the queue, makes room for it and
asks again, and turns the handles of the entries back into `Region` objects.
Other threads may fault in between, so the second answer may be another one. The
objects are always found; the room may be too small.
-/

set_option autoImplicit false

namespace FaultCache.PythonDebug
open FaultCache.PoolMachine FaultCache.PoolQueue FaultCache.PoolInvariant FaultCache.FaultProcess
open FaultCache.ProcessInvariant FaultCache.ColdFlags FaultCache.DebugCounters
open FaultCache.PythonSlices FaultCache.PythonObjects FaultCache.PythonHandles
open FaultCache.PythonLifetimes

inductive DebugError where
  | valueError
  | keyError
  | indexError
  deriving DecidableEq, Repr

/-- `_PoolLruEntry`. -/
structure QueueRow where
  region : RegionRef
  chunk : ℕ
  size : ℕ
  faultsTotal : UInt64
  deriving DecidableEq, Repr

/-- `region_by_ptr`, of which a later entry replaces an earlier one. -/
def regionByPtr (s : Heap) (order : List RegionRef) (ptr : RegionId) : Option RegionRef :=
  order.reverse.find? (fun r => (s.region r).region.map Prod.snd = some ptr)

/-- Entry `i` of the second answer as a row. -/
def queueRow (s : Heap) (order : List RegionRef) (entries : List PoolLruEntry) (i : ℕ) :
    Except DebugError QueueRow :=
  match entries[i]? with
  | none => .error .indexError
  | some entry =>
    match regionByPtr s order entry.region with
    | none => .error .keyError
    | some r => .ok ⟨r,entry.chunk,entry.size,entry.faultsTotal⟩

/-- `Pool._debug_lru_queue`, with the order in which the set lists its regions
and the process at the time of the second call. -/
def debugLruQueue (s : Heap) (p : PoolRef) (order : List RegionRef) (later : Process) :
    Except DebugError (List QueueRow) :=
  match (s.pool p).handle with
  | none => .error .valueError
  | some k =>
    let count := (fcPoolDebugLruQueue (s.process.pool k) [default] 1).2
    let room := List.replicate (max 1 count.toNat) default
    let answer := fcPoolDebugLruQueue (later.pool k) room room.length
    (List.range answer.2.toNat).mapM (queueRow s order answer.1)

/-- Any number of faults, at any addresses. -/
def Faults : Process → Process → Prop :=
  Relation.ReflTransGen (fun pr pr' => ∃ addr ours, faultTryResolve pr addr = some (ours,pr'))

/-- A row tells about a chunk in the queue. -/
structure Shows (s : Heap) (k : PoolId) (p : Pool) (row : QueueRow) (n : Node) : Prop where
  region : (s.region row.region).region = some (k,n.1)
  chunk : row.chunk = n.2
  size : row.size = lruNodeSize p n
  faults : row.faultsTotal = (p.region n.1).chunkFaultsTotal n.2

section Lookup
variable {s : Heap} {p : PoolRef} {k : PoolId} {order : List RegionRef}

/-- Faults neither create nor destroy anything. -/
theorem faults_stay {pr pr' : Process} (hi : ProcessInv pr) (hf : Faults pr pr') :
    ProcessInv pr' ∧ livePools pr' = livePools pr ∧ liveRegions pr' = liveRegions pr := by
  induction hf with
  | refl => exact ⟨hi,rfl,rfl⟩
  | tail _ hf ih =>
    obtain ⟨hi₁,hp₁,hl₁⟩ := ih
    obtain ⟨addr,ours,hf⟩ := hf
    obtain ⟨hp,hl⟩ := fault_stays hi₁ hf
    exact ⟨step_inv hi₁ (.fault _ addr ours _ hf),hp.trans hp₁,hl.trans hl₁⟩

/-- The region of an entry is in the pool's set. -/
theorem regionByPtr_live (hb : Bound s) (hk : (s.pool p).handle = some k)
    (ho : Lists order (s.pool p).regions) {rid : RegionId} (hl : (k,rid) ∈ liveRegions s.process) :
    ∃ r, regionByPtr s order rid = some r ∧ (s.region r).region = some (k,rid) := by
  have hmem : ∀ {r}, r ∈ order ↔ r ∈ (s.pool p).regions := by
    intro r
    rw [← ho.2,List.mem_toFinset]
  obtain ⟨r₀,hr₀⟩ := (hb.regions.live (k,rid)).mp hl
  have hpool₀ := hb.pools.injective (hb.owner hr₀) hk
  cases hfind : regionByPtr s order rid with
  | none =>
    have hno := List.find?_eq_none.mp hfind r₀
      (List.mem_reverse.mpr (hmem.mpr (hpool₀ ▸ hb.listed hr₀)))
    simp [hr₀] at hno
  | some r =>
    refine ⟨r,rfl,?_⟩
    have hr := hmem.mp (List.mem_reverse.mp (List.mem_of_find?_eq_some hfind))
    obtain ⟨hopen,hpool⟩ := hb.member.mp hr
    obtain ⟨⟨k',rid'⟩,hrr⟩ := Option.ne_none_iff_exists'.mp hopen
    have hrid : rid' = rid := by simpa [hrr] using List.find?_some hfind
    have howner := hb.owner hrr
    rw [hpool,hk] at howner
    obtain rfl : k = k' := Option.some.inj howner
    rw [hrr,hrid]

theorem mapM_error {α β ε : Type*} {f : α → Except ε β} {g : α → β} {e : ε} (xs : List α) (x : α)
    (ys : List α) (hok : ∀ y ∈ xs, f y = .ok (g y)) (he : f x = .error e) :
    (xs ++ x::ys).mapM f = .error e := by
  induction xs with
  | nil =>
    rw [List.nil_append,List.mapM_cons,he]
    rfl
  | cons y xs ih =>
    rw [List.cons_append,List.mapM_cons,hok y List.mem_cons_self,
      ih (fun z hz => hok z (List.mem_cons_of_mem _ hz))]
    rfl

end Lookup

section Outcome
variable {s : Heap} {p : PoolRef} {k : PoolId} {order : List RegionRef} {later : Process}

/-- The row of a chunk. -/
def rowOf (s : Heap) (order : List RegionRef) (p : Pool) (n : Node) : QueueRow :=
  ⟨(regionByPtr s order n.1).getD 0,n.2,lruNodeSize p n,(p.region n.1).chunkFaultsTotal n.2⟩

theorem rowOf_shows (hb : Bound s) (hk : (s.pool p).handle = some k) (ho : Lists order (s.pool p).regions)
    {q : Pool} {n : Node} (hl : (k,n.1) ∈ liveRegions s.process) : Shows s k q (rowOf s order q n) n := by
  obtain ⟨r,hfind,hr⟩ := regionByPtr_live hb hk ho hl
  exact ⟨by rw [rowOf,hfind]; exact hr,rfl,rfl,rfl⟩

theorem queueRow_ok (hb : Bound s) (hk : (s.pool p).handle = some k) (ho : Lists order (s.pool p).regions)
    {entries : List PoolLruEntry} {q : Pool} {n : Node} {i : ℕ} (hl : (k,n.1) ∈ liveRegions s.process)
    (he : entries[i]? = some (poolLruEntry q n)) : queueRow s order entries i = .ok (rowOf s order q n) := by
  obtain ⟨r,hfind,-⟩ := regionByPtr_live hb hk ho hl
  simp only [queueRow,he,poolLruEntry,hfind,rowOf,Option.getD_some]

/-- With nothing but faults between its two calls, `_debug_lru_queue` finds every
region. It returns the queue as the second call saw it, from the most recent
chunk on, exactly where that has not outgrown the room; else it runs over the
end of its array. -/
theorem debug_queue_outcome (h : Reachable s) (hk : (s.pool p).handle = some k)
    (ho : Lists order (s.pool p).regions) (hf : Faults s.process later)
    (hfit : (lruList (s.process.pool k)).length < 2^32) (hfit' : (lruList (later.pool k)).length < 2^32) :
    if (lruList (later.pool k)).length ≤ max 1 (lruList (s.process.pool k)).length then
      ∃ rows, debugLruQueue s p order later = .ok rows ∧
        List.Forall₂ (Shows s k (later.pool k)) rows (lruList (later.pool k))
    else debugLruQueue s p order later = .error .indexError := by
  have hb := reachable_bound h
  obtain ⟨hi,hpools,hregions⟩ := faults_stay hb.inv hf
  have hkl : k ∈ livePools later := by
    rw [hpools]
    exact hb.pools.mem hk
  obtain ⟨hot,cold,hp⟩ := hi.pool k hkl
  have hlive : ∀ n ∈ lruList (later.pool k), (k,n.1) ∈ liveRegions s.process := by
    intro n hn
    rw [hp.queue.lruList_eq] at hn
    rw [← hregions]
    exact ⟨hkl,(hp.queue.account.live n hn).1⟩
  set q := lruList (later.pool k) with hq
  set room : List PoolLruEntry := List.replicate (max 1 (lruList (s.process.pool k)).length) default with hroom
  obtain ⟨hcount,hentries⟩ := queue_read room hfit'
  set answer := fcPoolDebugLruQueue (later.pool k) room room.length with hanswer
  have hlen : room.length = max 1 (lruList (s.process.pool k)).length := List.length_replicate
  have hcall : debugLruQueue s p order later = (List.range q.length).mapM (queueRow s order answer.1) := by
    have hprobe := (queue_read (p := s.process.pool k) [default] hfit).1
    simp only [List.length_singleton] at hprobe
    simp only [debugLruQueue,hk,hprobe]
    rw [← hroom,← hanswer,hcount]
  have hrow : ∀ i (hq : i < q.length), i < room.length →
      queueRow s order answer.1 i = .ok (rowOf s order (later.pool k) (q.get ⟨i,hq⟩)) := by
    intro i hiq hir
    refine queueRow_ok hb hk ho (hlive _ (List.get_mem _ _)) ?_
    rw [hentries i hir,if_pos hiq,List.getElem?_eq_getElem hiq]
    rfl
  have hget : ∀ i, i < q.length → i < room.length →
      queueRow s order answer.1 i = .ok (rowOf s order (later.pool k) (q.getD i default)) := by
    intro i hiq hir
    rw [hrow i hiq hir,List.getD_eq_getElem _ _ hiq,List.get_eq_getElem]
  rw [hcall]
  split_ifs with hfits
  · refine ⟨q.map (rowOf s order (later.pool k)),?_,?_⟩
    · rw [mapM_ok (g := fun i => rowOf s order (later.pool k) (q.getD i default))]
      · congr 1
        refine List.ext_getElem (by simp) (fun i h1 h2 => ?_)
        have hiq : i < q.length := by simpa using h2
        rw [List.getElem_map,List.getElem_map,List.getElem_range,List.getD_eq_getElem _ _ hiq]
      · intro i hi
        have hiq := List.mem_range.mp hi
        exact hget i hiq (by omega)
    · rw [List.forall₂_map_left_iff,List.forall₂_same]
      exact fun n hn => rowOf_shows hb hk ho (hlive n hn)
  · -- the first entry past the array ends it
    have hsplit : List.range q.length = List.range room.length ++ room.length::
        (List.range (q.length-room.length-1)).map (fun i => room.length+(i+1)) := by
      have hsum : q.length = room.length+(q.length-room.length-1+1) := by omega
      conv_lhs => rw [hsum,List.range_add,List.range_succ_eq_map,List.map_cons,List.map_map]
      rfl
    rw [hsplit]
    apply mapM_error (g := fun i => rowOf s order (later.pool k) (q.getD i default))
    · intro i hi
      have hir := List.mem_range.mp hi
      exact hget i (by omega) hir
    · have hnone : answer.1[room.length]? = none := by
        rw [List.getElem?_eq_none_iff,hanswer,fcPoolDebugLruQueue,queueEntries_length]
      simp only [queueRow,hnone]

/-- The sample after a read has faulted. -/
def sampleRead : Heap := { sampleViewed with process := ProcessContract.sampleFaulted }

theorem sampleRead_reachable : Reachable sampleRead := by
  obtain ⟨pageSize,vm,hr⟩ := sampleViewed_reachable
  exact ⟨pageSize,vm,hr.tail (.access sampleViewed 20 true _ ProcessContract.sample_fault)⟩

/-- The fault brings two chunks in. A probe before it leaves room for one. -/
theorem debug_queue_outcome_sample :
    debugLruQueue sampleViewed 0 [0] ProcessContract.sampleFaulted = .error .indexError ∧
    ∃ rows, debugLruQueue sampleRead 0 [0] ProcessContract.sampleFaulted = .ok rows ∧
      List.Forall₂ (Shows sampleRead 0 (ProcessContract.sampleFaulted.pool 0)) rows [(0,1),(0,0)] := by
  have hlist : lruList (ProcessContract.sampleFaulted.pool 0) = [(0,1),(0,0)] := by decide +kernel
  have hempty : lruList (sampleViewed.process.pool 0) = [] := by decide +kernel
  have ho : Lists [0] (sampleViewed.pool 0).regions := ⟨by decide,by decide⟩
  have hgrown := debug_queue_outcome (p := 0) (k := 0) sampleViewed_reachable rfl ho
    (.single ⟨20,true,ProcessContract.sample_fault⟩) (by rw [hempty]; decide) (by rw [hlist]; decide)
  have hsame := debug_queue_outcome (p := 0) (k := 0) sampleRead_reachable rfl ho .refl
    (by rw [show sampleRead.process = ProcessContract.sampleFaulted from rfl,hlist]; decide)
    (by rw [show sampleRead.process = ProcessContract.sampleFaulted from rfl,hlist]; decide)
  rw [hlist,hempty,if_neg (by decide)] at hgrown
  rw [show sampleRead.process = ProcessContract.sampleFaulted from rfl,hlist,if_pos (by decide)] at hsame
  exact ⟨hgrown,hsame⟩

end Outcome

end FaultCache.PythonDebug
