import FaultCache.PoolMachine
import Mathlib.Algebra.BigOperators.Group.List.Lemmas
import Mathlib.Algebra.Order.BigOperators.Group.List
import Mathlib.Data.List.Perm.Subperm
import Mathlib.Data.List.Range

/-!
# The recency queue and its redundant counters

The queue is a ring of hot nodes followed by cold nodes, with the midpoint at
the last hot node. Every insertion, unlinking and midpoint step patches the
midpoint, the flags and the byte counts incrementally in `size_t`; the sums
stay below `2^64` because live regions occupy disjoint address ranges.
-/

set_option autoImplicit false

namespace FaultCache.PoolQueue
open FaultCache.SentinelRing FaultCache.PageGeometry FaultCache.PoolMachine

theorem sizeAdd_eq {a b : ℕ} (h : a+b < 2^64) : sizeAdd a b = a+b := by
  unfold sizeAdd
  exact Nat.mod_eq_of_lt h

theorem countUp_eq {a : ℕ} (h : a+1 < 2^32) : countUp a = a+1 := by
  unfold countUp
  exact Nat.mod_eq_of_lt h

theorem countDown_eq {a : ℕ} (h : 0 < a) (ha : a < 2^32) : countDown a = a-1 := by
  unfold countDown
  rw [show a+(2^32-1) = a-1+2^32 by omega,Nat.add_mod_right,Nat.mod_eq_of_lt (by omega)]

theorem sizeSub_eq {a b : ℕ} (h : b ≤ a) (ha : a < 2^64) : sizeSub a b = a-b := by
  unfold sizeSub
  rw [show a+(2^64-b) = a-b+2^64 by omega,Nat.add_mod_right,Nat.mod_eq_of_lt (by omega)]

section Fields
variable (p : Pool) (rid : RegionId) (f : Region → Region) (n : Node)

@[simp] theorem update_targetSize : (p.update rid f).targetSize = p.targetSize := rfl
@[simp] theorem update_residentBytes : (p.update rid f).residentBytes = p.residentBytes := rfl
@[simp] theorem update_links : (p.update rid f).links = p.links := rfl
@[simp] theorem update_resident : (p.update rid f).resident = p.resident := rfl
@[simp] theorem update_cold : (p.update rid f).cold = p.cold := rfl
@[simp] theorem update_midpoint : (p.update rid f).midpoint = p.midpoint := rfl
@[simp] theorem update_hotBytes : (p.update rid f).hotBytes = p.hotBytes := rfl
@[simp] theorem update_regions : (p.update rid f).regions = p.regions := rfl
@[simp] theorem update_history : (p.update rid f).history = p.history := rfl
@[simp] theorem update_region_self : (p.update rid f).region rid = f (p.region rid) := by
  simp [Pool.update]

theorem update_region_of_ne {r : RegionId} (h : r ≠ rid) : (p.update rid f).region r = p.region r := by
  simp [Pool.update,Function.update_of_ne h]

/-- What an update of one region leaves as it is in that region is left as it
is in all of them. -/
theorem update_keeps {β : Type} {g : Region → β} (h : ∀ r, g (f r) = g r) (x : RegionId) :
    g ((p.update rid f).region x) = g (p.region x) := by
  by_cases hx : x = rid
  · subst hx
    rw [update_region_self,h]
  · rw [update_region_of_ne _ _ _ hx]

@[simp] theorem unlinked_region : (unlinked p n).region = p.region := rfl
@[simp] theorem unlinked_regions : (unlinked p n).regions = p.regions := rfl
@[simp] theorem unlinked_cold : (unlinked p n).cold = p.cold := rfl
@[simp] theorem inserted_region : (inserted p n).region = p.region := rfl
@[simp] theorem inserted_regions : (inserted p n).regions = p.regions := rfl

end Fields

/-- What every node needs of its region: that its layout stays. -/
def SameLayouts (p q : Pool) : Prop := ∀ r, (q.region r).layout = (p.region r).layout

theorem same_layouts_update {p : Pool} {rid : RegionId} {f : Region → Region}
    (h : (f (p.region rid)).layout = (p.region rid).layout) : SameLayouts p (p.update rid f) := by
  intro r
  by_cases hr : r = rid
  · subst hr
    rw [update_region_self]
    exact h
  · rw [update_region_of_ne p rid f hr]

theorem SameLayouts.nodeSize {p q : Pool} (h : SameLayouts p q) (n : Node) :
    lruNodeSize q n = lruNodeSize p n := by
  simp only [lruNodeSize,h n.1]

def sizeSum (p : Pool) (ns : List Node) : ℕ := (ns.map (lruNodeSize p)).sum

theorem SameLayouts.sizeSum {p q : Pool} (h : SameLayouts p q) (ns : List Node) :
    sizeSum q ns = sizeSum p ns := by
  simp only [PoolQueue.sizeSum]
  congr 1
  exact List.map_congr_left (fun n _ => h.nodeSize n)

@[simp] theorem sizeSum_nil (p : Pool) : sizeSum p [] = 0 := rfl

@[simp] theorem sizeSum_cons (p : Pool) (n : Node) (ns : List Node) :
    sizeSum p (n::ns) = lruNodeSize p n+sizeSum p ns := by
  simp [sizeSum]

@[simp] theorem sizeSum_append (p : Pool) (ms ns : List Node) :
    sizeSum p (ms ++ ns) = sizeSum p ms+sizeSum p ns := by
  simp [sizeSum]

theorem sizeSum_erase (p : Pool) {n : Node} {ns : List Node} (h : n ∈ ns) :
    sizeSum p (ns.erase n)+lruNodeSize p n = sizeSum p ns := by
  have := (List.perm_cons_erase h).map (lruNodeSize p)
  rw [sizeSum,sizeSum,this.sum_eq,List.map_cons,List.sum_cons]
  omega

def Live (p : Pool) (n : Node) : Prop :=
  n.1 ∈ p.regions ∧ n.2 < (p.region n.1).layout.nchunks

def regionNodes (p : Pool) (r : RegionId) : List Node :=
  (List.range (p.region r).layout.nchunks).map (fun c => (r,c))

def allNodes (p : Pool) : List Node := p.regions.flatMap (regionNodes p)

theorem mem_regionNodes {p : Pool} {r : RegionId} {n : Node} :
    n ∈ regionNodes p r ↔ n.1 = r ∧ n.2 < (p.region r).layout.nchunks := by
  simp only [regionNodes,List.mem_map,List.mem_range]
  constructor
  · rintro ⟨c,hc,rfl⟩
    exact ⟨rfl,hc⟩
  · rintro ⟨rfl,hc⟩
    exact ⟨n.2,hc,rfl⟩

theorem mem_allNodes {p : Pool} {n : Node} : n ∈ allNodes p ↔ Live p n := by
  simp only [allNodes,List.mem_flatMap,mem_regionNodes,Live]
  constructor
  · rintro ⟨r,hr,rfl,hc⟩
    exact ⟨hr,hc⟩
  · rintro ⟨hr,hc⟩
    exact ⟨n.1,hr,rfl,hc⟩

/-- The chunk sizes of a region telescope to its total size. -/
theorem region_sum (p : Pool) (r : RegionId) (m : ℕ) (hm : m ≤ (p.region r).layout.nchunks) :
    sizeSum p ((List.range m).map (fun c => (r,c))) = (p.region r).layout.chunkStart m := by
  induction m with
  | zero => simp [(p.region r).layout.start_zero]
  | succ m ih =>
    have h := (p.region r).layout.start_succ m (by omega)
    rw [List.range_succ,List.map_append,sizeSum_append,ih (by omega)]
    simp only [List.map_cons,List.map_nil,sizeSum_cons,sizeSum_nil,lruNodeSize,Layout.chunkSize]
    omega

theorem regionNodes_sum (p : Pool) (r : RegionId) :
    sizeSum p (regionNodes p r) = (p.region r).layout.totalSize := by
  rw [regionNodes,region_sum p r _ (le_refl _),Layout.start_last]

def totalBytes (p : Pool) : ℕ := (p.regions.map (fun r => (p.region r).layout.totalSize)).sum

theorem allNodes_sum (p : Pool) : sizeSum p (allNodes p) = totalBytes p := by
  unfold allNodes totalBytes
  induction p.regions with
  | nil => rfl
  | cons r rs ih => rw [List.flatMap_cons,sizeSum_append,ih,regionNodes_sum,List.map_cons,List.sum_cons]

theorem allNodes_length (p : Pool) : (allNodes p).length+1 = lruFuel p := by
  simp [allNodes,lruFuel,List.length_flatMap,regionNodes]

theorem sum_le_of_subset (p : Pool) {ms ns : List Node} (hn : ms.Nodup) (h : ms ⊆ ns) :
    sizeSum p ms ≤ sizeSum p ns := by
  obtain ⟨ks,hp,hs⟩ := List.subperm_of_subset hn h
  have h1 : (ms.map (lruNodeSize p)).sum = (ks.map (lruNodeSize p)).sum :=
    ((hp.map (lruNodeSize p)).sum_eq).symm
  have h2 : (ks.map (lruNodeSize p)).sum ≤ (ns.map (lruNodeSize p)).sum :=
    (hs.map (lruNodeSize p)).sum_le_sum (by simp)
  simp only [sizeSum]
  omega

/-- Any set of live nodes weighs no more than the live regions. -/
theorem live_sum_le (p : Pool) {ns : List Node} (hn : ns.Nodup) (h : ∀ n ∈ ns, Live p n) :
    sizeSum p ns ≤ totalBytes p := by
  rw [← allNodes_sum]
  exact sum_le_of_subset p hn (fun n hm => mem_allNodes.mpr (h n hm))

theorem live_length_lt (p : Pool) {ns : List Node} (hn : ns.Nodup) (h : ∀ n ∈ ns, Live p n) :
    ns.length < lruFuel p := by
  have := (List.subperm_of_subset hn (fun n hm => mem_allNodes.mpr (h n hm))).length_le
  rw [← allNodes_length]
  omega

/-- The list structure: ring, midpoint, flags and hot byte count. -/
structure Order (p : Pool) (hot cold : List Node) : Prop where
  ring : Ring p.links (hot ++ cold)
  midpoint : p.midpoint = lastRef hot
  hotFlag : ∀ n ∈ hot, p.cold n = false
  coldFlag : ∀ n ∈ cold, p.cold n = true
  resident : ∀ n, p.resident n = true ↔ n ∈ hot ++ cold
  hotBytes : p.hotBytes = sizeSum p hot

def ofRegion (r : RegionId) (q : List Node) : List Node := q.filter (fun n => n.1 = r)

/-- The per-pool and per-region totals over the queue. -/
structure Account (p : Pool) (q : List Node) : Prop where
  live : ∀ n ∈ q, Live p n
  initialized : ∀ r ∈ p.regions, ∀ c < (p.region r).layout.nchunks,
    ((p.region r).initialized c = true ↔ (r,c) ∈ q)
  bytes : p.residentBytes = sizeSum p q
  regionBytes : ∀ r ∈ p.regions, (p.region r).residentBytes = sizeSum p (ofRegion r q)
  regionChunks : ∀ r ∈ p.regions, (p.region r).residentChunks = (ofRegion r q).length

theorem Order.nodup {p : Pool} {hot cold : List Node} (h : Order p hot cold) :
    (hot ++ cold).Nodup := h.ring.nodup

theorem Order.disjoint {p : Pool} {hot cold : List Node} (h : Order p hot cold) {n : Node}
    (h1 : n ∈ hot) (h2 : n ∈ cold) : False :=
  (List.nodup_append.mp h.nodup).2.2 n h1 n h2 rfl

theorem Order.cold_iff {p : Pool} {hot cold : List Node} (h : Order p hot cold) {n : Node}
    (hn : n ∈ hot ++ cold) : p.cold n = true ↔ n ∈ cold := by
  constructor
  · intro hc
    rcases List.mem_append.mp hn with hh | hh
    · rw [h.hotFlag n hh] at hc; cases hc
    · exact hh
  · exact h.coldFlag n

/-- A pool that agrees on the queue's own words has the same queue. -/
theorem Order.transport {p q : Pool} {hot cold : List Node} (h : Order p hot cold)
    (hl : SameLayouts p q) (h1 : q.links = p.links) (h2 : q.midpoint = p.midpoint)
    (h3 : q.cold = p.cold) (h4 : q.resident = p.resident) (h5 : q.hotBytes = p.hotBytes) :
    Order q hot cold := by
  refine ⟨?_,?_,?_,?_,?_,?_⟩
  · rw [h1]; exact h.ring
  · rw [h2]; exact h.midpoint
  · rw [h3]; exact h.hotFlag
  · rw [h3]; exact h.coldFlag
  · rw [h4]; exact h.resident
  · rw [h5,hl.sizeSum]; exact h.hotBytes

theorem lastRef_erase {l : Links Node} {hot cold : List Node} {n : Node}
    (h : Ring l (hot ++ cold)) (hn : n ∈ hot ++ cold) :
    (if lastRef hot = .node n then l.prev (.node n) else lastRef hot) = lastRef (hot.erase n) := by
  obtain ⟨hh,-,hd⟩ := List.nodup_append.mp h.nodup
  rcases List.eq_nil_or_concat hot with rfl | ⟨hs,m,rfl⟩
  · simp
  · rw [List.concat_eq_append] at *
    rw [lastRef_concat]
    by_cases hm : m = n
    · subst hm
      rw [if_pos rfl]
      have hr : Ring l (hs ++ m::cold) := by simpa using h
      have hms : m ∉ hs := by
        intro hc
        exact (List.nodup_append.mp hh).2.2 m hc m (by simp) rfl
      rw [(ring_prev_node hr).1,List.erase_append_right _ hms]
      simp
    · rw [if_neg (by simpa using hm)]
      by_cases hin : n ∈ hs
      · rw [List.erase_append_left _ hin,lastRef_concat]
      · rw [List.erase_append_right _ hin,List.erase_of_not_mem (by simpa using fun hc => hm hc.symm),
          lastRef_concat]

theorem erase_append_of_nodup {hot cold : List Node} {n : Node} (h : (hot ++ cold).Nodup) :
    (hot ++ cold).erase n = hot.erase n ++ cold.erase n := by
  by_cases hn : n ∈ hot
  · have hc : n ∉ cold := fun hc => (List.nodup_append.mp h).2.2 n hn n hc rfl
    rw [List.erase_append_left _ hn,List.erase_of_not_mem hc]
  · rw [List.erase_append_right _ hn,List.erase_of_not_mem hn]

/-- Unlinking patches midpoint and hot bytes to those of the shorter queue. -/
theorem unlink_order {p : Pool} {hot cold : List Node} {n : Node} (h : Order p hot cold)
    (hn : n ∈ hot ++ cold) (hb : sizeSum p (hot ++ cold) < 2^64) :
    lruUnlink p n = some (unlinked p n) ∧ Order (unlinked p n) (hot.erase n) (cold.erase n) := by
  have hsplit := erase_append_of_nodup (n := n) h.nodup
  rw [sizeSum_append] at hb
  refine ⟨by rw [lruUnlink,if_pos ((h.resident n).mpr hn)],?_,?_,?_,?_,?_,?_⟩
  · rw [← hsplit]
    exact ring_unlink h.ring hn
  · simp only [unlinked,h.midpoint]
    exact lastRef_erase h.ring hn
  · exact fun m hm => h.hotFlag m (List.mem_of_mem_erase hm)
  · exact fun m hm => h.coldFlag m (List.mem_of_mem_erase hm)
  · intro m
    rw [← hsplit,h.nodup.mem_erase_iff]
    simp only [unlinked]
    by_cases hm : m = n
    · subst hm; simp
    · rw [Function.update_of_ne hm,h.resident]
      simp [hm]
  · change (if p.cold n then p.hotBytes else sizeSub p.hotBytes (lruNodeSize p n)) =
      sizeSum p (hot.erase n)
    rcases List.mem_append.mp hn with hh | hc
    · have := sizeSum_erase p hh
      rw [h.hotFlag n hh,h.hotBytes,sizeSub_eq (by omega) (by omega)]
      simp only [Bool.false_eq_true,if_false]
      omega
    · rw [h.coldFlag n hc,if_pos rfl,h.hotBytes,List.erase_of_not_mem (fun hh => h.disjoint hh hc)]

theorem insert_order {p : Pool} {hot cold : List Node} {n : Node} (h : Order p hot cold)
    (hn : n ∉ hot ++ cold) (hb : sizeSum p (n::(hot ++ cold)) < 2^64) :
    lruInsertMru p n = some (inserted p n) ∧ Order (inserted p n) (n::hot) cold := by
  have hres : p.resident n = false := by
    cases hr : p.resident n with
    | false => rfl
    | true => exact absurd ((h.resident n).mp hr) hn
  rw [sizeSum_cons,sizeSum_append] at hb
  refine ⟨by rw [lruInsertMru,hres]; rfl,?_,?_,?_,?_,?_,?_⟩
  · exact ring_insert h.ring hn
  · simp only [inserted,h.midpoint]
    cases hot with
    | nil => simp [lastRef]
    | cons m ms => simp [lastRef_eq_head,lastRef_cons n (m::ms) (by simp)]
  · intro m hm
    simp only [inserted]
    by_cases hmn : m = n
    · subst hmn; simp
    · rw [Function.update_of_ne hmn]
      exact h.hotFlag m ((List.mem_cons.mp hm).resolve_left hmn)
  · intro m hm
    have hmn : m ≠ n := by rintro rfl; exact hn (List.mem_append_right _ hm)
    simp only [inserted,Function.update_of_ne hmn]
    exact h.coldFlag m hm
  · intro m
    simp only [inserted,List.cons_append,List.mem_cons]
    by_cases hmn : m = n
    · subst hmn; simp
    · rw [Function.update_of_ne hmn,h.resident]
      simp [hmn]
  · change sizeAdd p.hotBytes (lruNodeSize p n) = sizeSum p (n::hot)
    rw [h.hotBytes,sizeAdd_eq (by omega),sizeSum_cons]
    omega

/-- One step of the midpoint walk moves the last hot node to the cold half. -/
theorem demote_order {s : State} {hot cold : List Node} {n : Node}
    (h : Order s.pool (hot ++ [n]) cold) (hb : sizeSum s.pool (hot ++ [n]) < 2^64) :
    Order (demote s n).pool hot (n::cold) := by
  have hr : Ring s.pool.links (hot ++ n::cold) := by simpa using h.ring
  have hnh : n ∉ hot := by
    intro hc
    exact (List.nodup_append.mp hr.nodup).2.2 n hc n (by simp) rfl
  have hnc : n ∉ cold := fun hc => h.disjoint (by simp) hc
  rw [sizeSum_append,sizeSum_cons,sizeSum_nil] at hb
  refine ⟨hr,(ring_prev_node hr).1,?_,?_,?_,?_⟩
  · intro m hm
    have hmn : m ≠ n := by rintro rfl; exact hnh hm
    simp only [demote,Function.update_of_ne hmn]
    exact h.hotFlag m (by simp [hm])
  · intro m hm
    simp only [demote]
    by_cases hmn : m = n
    · subst hmn; simp
    · rw [Function.update_of_ne hmn]
      exact h.coldFlag m ((List.mem_cons.mp hm).resolve_left hmn)
  · intro m
    rw [show (demote s n).pool.resident = s.pool.resident from rfl,h.resident]
    simp
  · change sizeSub s.pool.hotBytes (lruNodeSize s.pool n) = sizeSum s.pool hot
    rw [h.hotBytes,sizeSum_append,sizeSum_cons,sizeSum_nil,sizeSub_eq (by omega) (by omega)]
    omega

/-- The queue as a walk from `lru_head.next` meets it. -/
def lruList (p : Pool) : List Node := walk p.links (lruFuel p) (p.links.next .head)

/-- A queue whose totals are exact and cannot wrap. -/
structure Queue (p : Pool) (hot cold : List Node) : Prop where
  order : Order p hot cold
  account : Account p (hot ++ cold)
  distinct : p.regions.Nodup
  fits : totalBytes p < 2^64

theorem Queue.sum_lt {p : Pool} {hot cold : List Node} (h : Queue p hot cold) :
    sizeSum p (hot ++ cold) < 2^64 :=
  lt_of_le_of_lt (live_sum_le p h.order.nodup h.account.live) h.fits

theorem Queue.length_lt {p : Pool} {hot cold : List Node} (h : Queue p hot cold) :
    (hot ++ cold).length < lruFuel p := live_length_lt p h.order.nodup h.account.live

theorem Queue.lruList_eq {p : Pool} {hot cold : List Node} (h : Queue p hot cold) :
    lruList p = hot ++ cold := walk_ring h.order.ring (Nat.le_of_lt h.length_lt)

/-- The readable part of the queue, in its order. -/
def hotNodes (p : Pool) : List Node := (lruList p).filter (fun n => !p.cold n)

theorem Queue.hotNodes_eq {p : Pool} {hot cold : List Node} (h : Queue p hot cold) :
    hotNodes p = hot := by
  have hhot : hot.filter (fun n => !p.cold n) = hot :=
    List.filter_eq_self.mpr (fun n hn => by simp [h.order.hotFlag n hn])
  have hcold : cold.filter (fun n => !p.cold n) = [] :=
    List.filter_eq_nil_iff.mpr (fun n hn => by simp [h.order.coldFlag n hn])
  rw [hotNodes,h.lruList_eq,List.filter_append,hhot,hcold,List.append_nil]

theorem Queue.unique {p : Pool} {hot cold hot' cold' : List Node} (h : Queue p hot cold)
    (h' : Queue p hot' cold') : hot = hot' ∧ cold = cold' := by
  obtain rfl : hot = hot' := h.hotNodes_eq.symm.trans h'.hotNodes_eq
  exact ⟨rfl,List.append_cancel_left (h.lruList_eq.symm.trans h'.lruList_eq)⟩

theorem Queue.sum_cons_lt {p : Pool} {hot cold : List Node} {n : Node} (h : Queue p hot cold)
    (hn : n ∉ hot ++ cold) (hl : Live p n) : sizeSum p (n::(hot ++ cold)) < 2^64 := by
  refine lt_of_le_of_lt (live_sum_le p (List.nodup_cons.mpr ⟨hn,h.order.nodup⟩) ?_) h.fits
  intro m hm
  rcases List.mem_cons.mp hm with rfl | hm
  · exact hl
  · exact h.account.live m hm

theorem ofRegion_erase {q : List Node} {n : Node} (h : q.Nodup) (r : RegionId) :
    ofRegion r (q.erase n) = (ofRegion r q).erase n := by
  rw [ofRegion,ofRegion,h.erase_eq_filter,(h.filter _).erase_eq_filter,List.filter_filter,
    List.filter_filter]
  congr 1
  funext m
  exact Bool.and_comm _ _

theorem ofRegion_erase_of_ne {q : List Node} {n : Node} (h : q.Nodup) {r : RegionId} (hr : r ≠ n.1) :
    ofRegion r (q.erase n) = ofRegion r q := by
  rw [ofRegion_erase h,List.erase_of_not_mem]
  intro hc
  have hn : n.1 = r := by simpa using (List.mem_filter.mp hc).2
  exact hr hn.symm

theorem mem_ofRegion_self {q : List Node} {n : Node} (h : n ∈ q) : n ∈ ofRegion n.1 q :=
  List.mem_filter.mpr ⟨h,by simp⟩

theorem ofRegion_length_le {p : Pool} {q : List Node} (hq : q.Nodup) (hl : ∀ n ∈ q, Live p n)
    (r : RegionId) : (ofRegion r q).length ≤ (p.region r).layout.nchunks := by
  have hsub : ofRegion r q ⊆ regionNodes p r := by
    intro n hn
    obtain ⟨h1,h2⟩ := List.mem_filter.mp hn
    have hr : n.1 = r := by simpa using h2
    exact mem_regionNodes.mpr ⟨hr,hr ▸ (hl n h1).2⟩
  have := (List.subperm_of_subset (hq.filter _) hsub).length_le
  simpa [regionNodes,ofRegion] using this

theorem ofRegion_sum_le (p : Pool) (r : RegionId) (q : List Node) :
    sizeSum p (ofRegion r q) ≤ sizeSum p q := by
  have := (List.filter_sublist (l := q) (p := fun n => decide (n.1 = r))).map (lruNodeSize p)
  exact this.sum_le_sum (by simp)

@[simp] theorem forgotten_regions (p : Pool) (n : Node) (size : ℕ) :
    (forgotten p n size).regions = p.regions := rfl

theorem forgotten_layouts (p : Pool) (n : Node) (size : ℕ) : SameLayouts p (forgotten p n size) :=
  same_layouts_update (p := p) (f := fun r => dropChunk r n.2 size) rfl

theorem forgotten_region_self (p : Pool) (n : Node) (size : ℕ) :
    (forgotten p n size).region n.1 = dropChunk (p.region n.1) n.2 size :=
  update_region_self p n.1 (fun r => dropChunk r n.2 size)

theorem forgotten_region_of_ne (p : Pool) (n : Node) (size : ℕ) {r : RegionId} (h : r ≠ n.1) :
    (forgotten p n size).region r = p.region r :=
  update_region_of_ne p n.1 (fun r => dropChunk r n.2 size) h

/-- Dropping a queued chunk takes its bytes off every total. -/
theorem forget_account {p : Pool} {q : List Node} {n : Node} (h : Account p q) (hq : q.Nodup)
    (hn : n ∈ q) (hb : sizeSum p q < 2^64) :
    Account (forgotten p n (lruNodeSize p n)) (q.erase n) := by
  have hL := forgotten_layouts p n (lruNodeSize p n)
  have hsum := sizeSum_erase p hn
  refine ⟨?_,?_,?_,?_,?_⟩
  · intro m hm
    have := h.live m (List.mem_of_mem_erase hm)
    exact ⟨this.1,by rw [hL m.1]; exact this.2⟩
  · intro r hr c hc
    rw [hL r] at hc
    rw [hq.mem_erase_iff]
    by_cases hrn : r = n.1
    · subst hrn
      rw [forgotten_region_self]
      by_cases hcn : c = n.2
      · subst hcn
        simp [dropChunk]
      · have hne : (n.1,c) ≠ n := fun he => hcn (congrArg Prod.snd he)
        simp only [dropChunk,Function.update_of_ne hcn,h.initialized _ hr c hc]
        exact ⟨fun hm => ⟨hne,hm⟩,fun hm => hm.2⟩
    · have hne : (r,c) ≠ n := fun he => hrn (congrArg Prod.fst he)
      rw [forgotten_region_of_ne _ _ _ hrn,h.initialized r hr c hc]
      exact ⟨fun hm => ⟨hne,hm⟩,fun hm => hm.2⟩
  · rw [hL.sizeSum]
    change sizeSub p.residentBytes (lruNodeSize p n) = _
    rw [h.bytes,sizeSub_eq (by omega) hb]
    omega
  · intro r hr
    rw [hL.sizeSum]
    by_cases hrn : r = n.1
    · subst hrn
      have h1 := sizeSum_erase p (mem_ofRegion_self hn)
      have h2 := ofRegion_sum_le p n.1 q
      rw [forgotten_region_self,ofRegion_erase hq]
      simp only [dropChunk,h.regionBytes _ hr]
      rw [sizeSub_eq (by omega) (by omega)]
      omega
    · rw [forgotten_region_of_ne _ _ _ hrn,ofRegion_erase_of_ne hq hrn]
      exact h.regionBytes r hr
  · intro r hr
    by_cases hrn : r = n.1
    · subst hrn
      have h1 := List.length_pos_of_mem (mem_ofRegion_self hn)
      have h2 := ofRegion_length_le hq h.live n.1
      have h3 := (p.region n.1).layout.nchunks_lt
      rw [forgotten_region_self,ofRegion_erase hq,List.length_erase_of_mem (mem_ofRegion_self hn)]
      simp only [dropChunk,h.regionChunks _ hr]
      exact countDown_eq h1 (by omega)
    · rw [forgotten_region_of_ne _ _ _ hrn,ofRegion_erase_of_ne hq hrn]
      exact h.regionChunks r hr

theorem Account.transport {p p' : Pool} {q : List Node} (h : Account p q) (hl : SameLayouts p p')
    (h1 : p'.regions = p.regions) (h2 : p'.residentBytes = p.residentBytes)
    (h3 : ∀ r ∈ p.regions, (p'.region r).initialized = (p.region r).initialized)
    (h4 : ∀ r ∈ p.regions, (p'.region r).residentBytes = (p.region r).residentBytes)
    (h5 : ∀ r ∈ p.regions, (p'.region r).residentChunks = (p.region r).residentChunks) :
    Account p' q := by
  refine ⟨?_,?_,?_,?_,?_⟩
  · intro n hn
    have := h.live n hn
    exact ⟨by rw [h1]; exact this.1,by rw [hl n.1]; exact this.2⟩
  · intro r hr c hc
    rw [h1] at hr
    rw [hl r] at hc
    rw [h3 r hr]
    exact h.initialized r hr c hc
  · rw [h2,hl.sizeSum]; exact h.bytes
  · intro r hr
    rw [h1] at hr
    rw [h4 r hr,hl.sizeSum]
    exact h.regionBytes r hr
  · intro r hr
    rw [h1] at hr
    rw [h5 r hr]
    exact h.regionChunks r hr

theorem totalBytes_congr {p p' : Pool} (hl : SameLayouts p p') (h1 : p'.regions = p.regions) :
    totalBytes p' = totalBytes p := by
  unfold totalBytes
  rw [h1]
  congr 1
  exact List.map_congr_left (fun r _ => by rw [hl r])

/-- Eviction and destruction of a queued chunk. -/
theorem forget_queue {p : Pool} {hot cold : List Node} {n : Node} (h : Queue p hot cold)
    (hn : n ∈ hot ++ cold) :
    lruForgetChunk p n = some (forgotten (unlinked p n) n (lruNodeSize p n)) ∧
      Queue (forgotten (unlinked p n) n (lruNodeSize p n)) (hot.erase n) (cold.erase n) := by
  obtain ⟨he,ho⟩ := unlink_order h.order hn h.sum_lt
  have hL := forgotten_layouts (unlinked p n) n (lruNodeSize p n)
  have hacc : Account (unlinked p n) (hot ++ cold) :=
    h.account.transport (fun _ => rfl) rfl rfl (fun _ _ => rfl) (fun _ _ => rfl) (fun _ _ => rfl)
  refine ⟨?_,⟨ho.transport hL rfl rfl rfl rfl rfl,?_,h.distinct,?_⟩⟩
  · rw [lruForgetChunk,if_pos ((h.order.resident n).mpr hn),he]
    rfl
  · rw [← erase_append_of_nodup h.order.nodup]
    exact forget_account hacc h.order.nodup hn h.sum_lt
  · rw [totalBytes_congr hL rfl]
    exact h.fits

/-- A chunk that is not queued is left alone. -/
theorem forget_absent {p : Pool} {hot cold : List Node} {n : Node} (h : Queue p hot cold)
    (hn : n ∉ hot ++ cold) : lruForgetChunk p n = some p := by
  rw [lruForgetChunk,if_neg]
  exact fun hr => hn ((h.order.resident n).mp hr)

theorem demote_queue {s : State} {hot cold : List Node} {n : Node}
    (h : Queue s.pool (hot ++ [n]) cold) : Queue (demote s n).pool hot (n::cold) := by
  have hb := h.sum_lt
  rw [sizeSum_append] at hb
  refine ⟨demote_order h.order (by omega),?_,h.distinct,h.fits⟩
  have : Account (demote s n).pool (hot ++ [n] ++ cold) :=
    h.account.transport (fun _ => rfl) rfl rfl (fun _ _ => rfl) (fun _ _ => rfl) (fun _ _ => rfl)
  simpa using this

theorem sizeSum_perm (p : Pool) {ms ns : List Node} (h : ms.Perm ns) : sizeSum p ms = sizeSum p ns :=
  (h.map (lruNodeSize p)).sum_eq

/-- The totals do not depend on the order of the queue. -/
theorem Account.perm {p : Pool} {q q' : List Node} (h : Account p q) (hp : q.Perm q') :
    Account p q' where
  live := fun n hn => h.live n (hp.mem_iff.mpr hn)
  initialized := fun r hr c hc => (h.initialized r hr c hc).trans hp.mem_iff
  bytes := h.bytes.trans (sizeSum_perm p hp)
  regionBytes := fun r hr => (h.regionBytes r hr).trans (sizeSum_perm p (hp.filter _))
  regionChunks := fun r hr => (h.regionChunks r hr).trans (hp.filter _).length_eq

/-- Entering a chunk adds its bytes to every total. -/
theorem insert_account {p p' : Pool} {q : List Node} {n : Node} (h : Account p q) (hq : q.Nodup)
    (hn : n ∉ q) (hl : Live p n) (hb : sizeSum p (n::q) < 2^64) (hL : SameLayouts p p')
    (h1 : p'.regions = p.regions)
    (h2 : p'.residentBytes = sizeAdd p.residentBytes (lruNodeSize p n))
    (h3 : ∀ r, r ≠ n.1 → p'.region r = p.region r)
    (h4 : (p'.region n.1).initialized = Function.update (p.region n.1).initialized n.2 true)
    (h5 : (p'.region n.1).residentBytes = sizeAdd (p.region n.1).residentBytes (lruNodeSize p n))
    (h6 : (p'.region n.1).residentChunks = countUp (p.region n.1).residentChunks) :
    Account p' (n::q) := by
  have hother : ∀ r, r ≠ n.1 → ofRegion r (n::q) = ofRegion r q := by
    intro r hr
    rw [ofRegion,List.filter_cons_of_neg (by simpa using fun h => hr h.symm)]
    rfl
  have hself : ofRegion n.1 (n::q) = n::ofRegion n.1 q := by
    rw [ofRegion,List.filter_cons_of_pos (by simp)]
    rfl
  have hlive : ∀ m ∈ n::q, Live p m := by
    intro m hm
    rcases List.mem_cons.mp hm with rfl | hm
    · exact hl
    · exact h.live m hm
  rw [sizeSum_cons] at hb
  refine ⟨?_,?_,?_,?_,?_⟩
  · intro m hm
    have := hlive m hm
    exact ⟨by rw [h1]; exact this.1,by rw [hL m.1]; exact this.2⟩
  · intro r hr c hc
    rw [h1] at hr
    rw [hL r] at hc
    by_cases hrn : r = n.1
    · subst hrn
      rw [h4]
      by_cases hcn : c = n.2
      · subst hcn; simp
      · have hne : (n.1,c) ≠ n := fun he => hcn (congrArg Prod.snd he)
        rw [Function.update_of_ne hcn,h.initialized _ hr c hc]
        simp [hne]
    · have hne : (r,c) ≠ n := fun he => hrn (congrArg Prod.fst he)
      rw [h3 r hrn,h.initialized r hr c hc]
      simp [hne]
  · rw [hL.sizeSum,h2,h.bytes,sizeAdd_eq (by omega),sizeSum_cons]
    omega
  · intro r hr
    rw [h1] at hr
    rw [hL.sizeSum]
    by_cases hrn : r = n.1
    · subst hrn
      have := ofRegion_sum_le p n.1 q
      rw [h5,h.regionBytes _ hr,hself,sizeAdd_eq (by omega),sizeSum_cons]
      omega
    · rw [h3 r hrn,hother r hrn]
      exact h.regionBytes r hr
  · intro r hr
    rw [h1] at hr
    by_cases hrn : r = n.1
    · subst hrn
      have h7 := ofRegion_length_le (List.nodup_cons.mpr ⟨hn,hq⟩) hlive n.1
      have h8 := (p.region n.1).layout.nchunks_lt
      rw [hself,List.length_cons] at h7
      rw [h6,h.regionChunks _ hr,hself,countUp_eq (by omega),List.length_cons]
    · rw [h3 r hrn,hother r hrn]
      exact h.regionChunks r hr

/-- The pool after the counting half of a fill. -/
def filledPool (p : Pool) (n : Node) : Pool :=
  (accounted (inserted (p.update n.1 (fun r => countFault r n.2)) n) n (lruNodeSize p n)).update n.1
    (fun r => { r with chunksResolved := r.chunksResolved+1 })

theorem filledPool_region_self (p : Pool) (n : Node) :
    (filledPool p n).region n.1 =
      { addChunk (countFault (p.region n.1) n.2) (lruNodeSize p n) with
        chunksResolved := (p.region n.1).chunksResolved+1 } := by
  simp [filledPool,accounted,Pool.update,inserted,addChunk,countFault]

theorem filledPool_region_of_ne (p : Pool) (n : Node) {r : RegionId} (h : r ≠ n.1) :
    (filledPool p n).region r = p.region r := by
  simp [filledPool,accounted,Pool.update,inserted,h]

theorem filledPool_layouts (p : Pool) (n : Node) : SameLayouts p (filledPool p n) := by
  intro r
  by_cases hr : r = n.1
  · subst hr
    rw [filledPool_region_self]
    rfl
  · rw [filledPool_region_of_ne p n hr]

/-- The counting half of a fill. `p'` is `p` with the chunk marked populated
and its slices handed over, which no total reads. -/
theorem fill_queue {p p' : Pool} {hot cold : List Node} {n : Node} (h : Queue p hot cold)
    (hn : n ∉ hot ++ cold) (hl : Live p n) (ho : Order p' hot cold) (hL : SameLayouts p p')
    (h1 : p'.regions = p.regions) (h2 : p'.residentBytes = p.residentBytes)
    (h3 : ∀ r, r ≠ n.1 → p'.region r = p.region r)
    (h4 : (p'.region n.1).initialized = Function.update (p.region n.1).initialized n.2 true)
    (h5 : (p'.region n.1).residentBytes = (p.region n.1).residentBytes)
    (h6 : (p'.region n.1).residentChunks = (p.region n.1).residentChunks) :
    fillAccount p' n = some (filledPool p' n) ∧ Queue (filledPool p' n) (n::hot) cold := by
  have hsum := h.sum_cons_lt hn hl
  have hL' : SameLayouts p (filledPool p' n) := fun r => (filledPool_layouts p' n r).trans (hL r)
  set q := p'.update n.1 (fun r => countFault r n.2) with hq
  have hLq : SameLayouts p' q := same_layouts_update rfl
  have hoq : Order q hot cold := ho.transport hLq rfl rfl rfl rfl rfl
  obtain ⟨hi,hoi⟩ := insert_order hoq hn (by rw [hLq.sizeSum,hL.sizeSum]; exact hsum)
  have hres : q.resident n = false := by
    cases hr : q.resident n with
    | false => rfl
    | true => exact absurd ((hoq.resident n).mp hr) hn
  refine ⟨?_,?_,?_,?_,?_⟩
  · rw [fillAccount,enqueue,hres]
    simp only [Bool.false_eq_true,if_false]
    rw [hi]
    rfl
  · refine hoi.transport (fun r => ?_) rfl rfl rfl rfl rfl
    rw [inserted_region,hLq r]
    exact filledPool_layouts p' n r
  · apply insert_account h.account h.order.nodup hn hl hsum hL' h1
    · change sizeAdd p'.residentBytes (lruNodeSize p' n) = _
      rw [h2,hL.nodeSize]
    · exact fun r hr => (filledPool_region_of_ne p' n hr).trans (h3 r hr)
    · rw [filledPool_region_self]
      exact h4
    · rw [filledPool_region_self]
      change sizeAdd (p'.region n.1).residentBytes (lruNodeSize p' n) = _
      rw [h5,hL.nodeSize]
    · rw [filledPool_region_self]
      change countUp (p'.region n.1).residentChunks = _
      rw [h6]
  · change p'.regions.Nodup
    rw [h1]
    exact h.distinct
  · rw [totalBytes_congr hL' h1]
    exact h.fits

/-- The state after a promotion. -/
def promoted (s : State) (n : Node) : State :=
  ⟨{ (inserted (unlinked s.pool n) n).update n.1 (fun r => countFault r n.2) with
      history := .promote n::s.pool.history },chunkSetReadable s.pool s.vm n true⟩

theorem promote_queue {s : State} {hot cold : List Node} {n : Node} (h : Queue s.pool hot cold)
    (hn : n ∈ cold) :
    promoteChunk s n.1 n.2 = some (promoted s n) ∧
      Queue (promoted s n).pool (n::hot) (cold.erase n) := by
  have hm : n ∈ hot ++ cold := List.mem_append_right _ hn
  have hhot : hot.erase n = hot := List.erase_of_not_mem (fun hh => h.order.disjoint hh hn)
  obtain ⟨hu,hou⟩ := unlink_order h.order hm h.sum_lt
  rw [hhot] at hou
  have hperm : (hot ++ cold).Perm (n::(hot ++ cold.erase n)) :=
    ((List.perm_cons_erase hn).append_left hot).trans List.perm_middle
  have hfresh : n ∉ hot ++ cold.erase n := (List.nodup_cons.mp (hperm.nodup_iff.mp h.order.nodup)).1
  obtain ⟨hi,hoi⟩ := insert_order hou hfresh (by
    change sizeSum s.pool _ < _
    rw [← sizeSum_perm s.pool hperm]
    exact h.sum_lt)
  have hL : SameLayouts (inserted (unlinked s.pool n) n) (promoted s n).pool :=
    same_layouts_update (f := fun r => countFault r n.2) rfl
  have hregion : ∀ r, ((promoted s n).pool.region r).initialized = (s.pool.region r).initialized ∧
      ((promoted s n).pool.region r).residentBytes = (s.pool.region r).residentBytes ∧
      ((promoted s n).pool.region r).residentChunks = (s.pool.region r).residentChunks := by
    intro r
    by_cases hr : r = n.1
    · subst hr
      simp [promoted,countFault]
    · simp [promoted,update_region_of_ne _ _ _ hr]
  refine ⟨?_,hoi.transport hL rfl rfl rfl rfl rfl,?_,h.distinct,?_⟩
  · rw [promoteChunk,lruPromote,if_pos (h.order.coldFlag n hn),hu]
    simp only [Option.bind_some]
    rw [hi]
    rfl
  · apply (h.account.perm hperm).transport hL rfl rfl
    · exact fun r _ => (hregion r).1
    · exact fun r _ => (hregion r).2.1
    · exact fun r _ => (hregion r).2.2
  · rw [totalBytes_congr (p := s.pool) hL rfl]
    exact h.fits

end FaultCache.PoolQueue
