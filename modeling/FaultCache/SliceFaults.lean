import FaultCache.RegionSlices
import FaultCache.FaultThreads
import FaultCache.FaultEffects

/-!
# What a slice of a region faults in

The native read loads every byte of its range, and each load of a page that
cannot be read faults the chunks behind the page in. A slice with a step reads
a whole span, so a chunk between two selected bytes is filled as well.
-/

set_option autoImplicit false

namespace FaultCache.SliceFaults
open FaultCache.PythonSlices FaultCache.RegionSlices FaultCache.PageGeometry FaultCache.SharedPages
open FaultCache.VmPages FaultCache.PoolMachine FaultCache.PoolStaging FaultCache.PoolQueue
open FaultCache.PoolMemory FaultCache.PoolHistory FaultCache.PoolInvariant FaultCache.PoolResolve
open FaultCache.FaultProcess FaultCache.ProcessInvariant FaultCache.ProcessContract
open FaultCache.PoolLifetime FaultCache.FaultThreads FaultCache.FaultEffects

/-- The loads of one `memcpy`, in whatever order it takes them. A load that
faults is taken again once the fault is resolved. -/
inductive Loads : Process → List ℕ → Process → Prop
  | done (pr : Process) : Loads pr [] pr
  | load {pr pr' : Process} {addr : ℕ} {addrs : List ℕ} (h : readable pr addr = true)
      (rest : Loads pr addrs pr') : Loads pr (addr::addrs) pr'
  | fault {pr pr₁ pr' : Process} {addr : ℕ} {addrs : List ℕ} (h : readable pr addr = false)
      (hf : faultTryResolve pr addr = some (true,pr₁)) (rest : Loads pr₁ (addr::addrs) pr') :
      Loads pr (addr::addrs) pr'

section Process
variable {pr pr' : Process} {k : PoolId} {rid : RegionId} {addr : ℕ}

/-- Nothing leaves an unbounded pool, so a chunk is populated once it has been
filled. -/
theorem initialized_iff_filled (h : ProcessInv pr) (hk : k ∈ pr.pools)
    (h0 : (pr.pool k).targetSize = 0) {n : Node} (hn : Live (pr.pool k) n) :
    ((pr.pool k).region n.1).initialized n.2 = true ↔ 0 < fills n (pr.pool k).history := by
  obtain ⟨hot,cold,hp⟩ := h.pool k hk
  rw [fills_eq_evicts_add (hp.alternates n),evicts_eq_zero (hp.unbounded h0 n).1,Nat.zero_add,
    hp.populated n hn]
  cases ((pr.pool k).region n.1).initialized n.2 <;> simp

/-- In an unbounded pool every chunk of a page that can be read is populated. -/
theorem readable_populated (h : Reachable pr) (hk : k ∈ pr.pools) (hr : rid ∈ (pr.pool k).regions)
    (h0 : (pr.pool k).targetSize = 0) (hin : InRange ((pr.pool k).region rid) addr)
    (hread : pageReadable (pr.pool k) rid (addr-((pr.pool k).region rid).base) = true) {n : Node}
    (hn : Behind (pr.pool k) rid (pageFloor (addr-((pr.pool k).region rid).base)
      ((pr.pool k).region rid).layout.pageSize) n) :
    ((pr.pool k).region n.1).initialized n.2 = true := by
  have hinv := reachable_inv h
  obtain ⟨hot,cold,hp⟩ := hinv.pool k hk
  obtain ⟨hd,hm⟩ := page_of_address hin
  obtain ⟨rid',c⟩ := n
  obtain ⟨rfl,hc,ht⟩ := hn
  simp only at hc ht ⊢
  cases hf : findSharedPage ((pr.pool k).region rid').layout (pageFloor
      (addr-((pr.pool k).region rid').base) ((pr.pool k).region rid').layout.pageSize) with
  | none =>
    rw [touches_exclusive _ hd hm hf hc] at ht
    have hex := (accessible_of_readable hinv hk hr hin hread).exclusive c hf ht
    exact hex.1
  | some j =>
    obtain ⟨hj,hpage⟩ := (findSharedPage_some _ _ _).mp hf
    rw [← hpage,← contributors_iff _ hj hc] at ht
    have hcon : c ∈ contributors ((pr.pool k).region rid').layout j := Finset.mem_Icc.mpr ht
    have hmap := (accessible_of_readable hinv hk hr hin hread).shared j hf
    rw [((hp.region rid' hr).staged j hj).mapped] at hmap
    have hstaged : ((pr.pool k).region rid').chunkStaged c = true := hmap c hcon
    rw [stagedOnce_lifelong.reachable h k hk rid' hr j hj c hcon,decide_eq_true_eq] at hstaged
    exact (initialized_iff_filled hinv hk h0 (n := (rid',c)) ⟨hr,hc⟩).mpr hstaged

/-- The loads fill the chunks that have a byte in one of the loaded pages and
were not populated, and nothing else. -/
structure Filled (pr pr' : Process) (k : PoolId) (rid : RegionId) (addrs : List ℕ) (es : List Event) :
    Prop where
  reachable : Reachable pr'
  logged : (pr'.pool k).history = es ++ (pr.pool k).history
  others : ∀ j, j ≠ k → pr'.pool j = pr.pool j
  fills : ∀ n size, .fill n size ∈ es ↔ size = lruNodeSize (pr.pool k) n ∧
    ((pr.pool k).region n.1).initialized n.2 = false ∧ ∃ addr ∈ addrs, Behind (pr.pool k) rid
      (pageFloor (addr-((pr.pool k).region rid).base) ((pr.pool k).region rid).layout.pageSize) n

theorem fills_append_pos (n : Node) (es h : List Event) :
    0 < fills n (es ++ h) ↔ (∃ size, .fill n size ∈ es) ∨ 0 < fills n h := by
  rw [fills,List.countP_append,← fills,← fills,Nat.add_pos_iff_pos_or_pos]
  apply or_congr_left
  rw [fills,List.countP_pos_iff]
  constructor
  · rintro ⟨e,he,hp⟩
    obtain ⟨hn,hs⟩ := of_decide_eq_true hp
    cases e with
    | fill m size => exact ⟨size,by rwa [← hn]⟩
    | evict m => exact absurd hs (by simp [sets])
    | promote m => exact absurd hs (by simp [sets])
    | demote m => exact absurd hs (by simp [sets])
  · rintro ⟨size,he⟩
    exact ⟨_,he,decide_eq_true ⟨rfl,rfl⟩⟩

/-- One fault, as one load. -/
theorem fault_filled (h : Reachable pr) (hk : k ∈ pr.pools) (hr : rid ∈ (pr.pool k).regions)
    (hin : InRange ((pr.pool k).region rid) addr)
    (hun : pageReadable (pr.pool k) rid (addr-((pr.pool k).region rid).base) = false)
    (hf : faultTryResolve pr addr = some (true,pr')) : ∃ es, Filled pr pr' k rid [addr] es := by
  obtain ⟨pr₁,es,hf₁,hlog,hothers,hcount⟩ := resolved_fills (reachable_inv h) hk hr hin hun
  obtain ⟨-,rfl⟩ := Prod.mk.inj (Option.some.inj (hf₁.symm.trans hf))
  refine ⟨es,reachable_steps h (Relation.ReflTransGen.single (Step.fault _ addr true _ hf)),hlog,
    hothers,?_⟩
  intro n size
  rw [← List.count_pos_iff,hcount]
  constructor
  · intro hpos
    split_ifs at hpos with hc
    · obtain ⟨⟨hb,hi⟩,hs⟩ := hc
      exact ⟨hs,hb.1 ▸ hi,addr,List.mem_singleton_self _,hb⟩
    · omega
  · rintro ⟨hs,hi,a,ha,hb⟩
    obtain rfl := List.mem_singleton.mp ha
    rw [if_pos ⟨⟨hb,hb.1 ▸ hi⟩,hs⟩]
    exact Nat.one_pos

/-- The place of the region, which no load changes. -/
structure Placed (pr : Process) (k : PoolId) (rid : RegionId) (L : Layout) (base : ℕ) : Prop where
  pool : k ∈ pr.pools
  region : rid ∈ (pr.pool k).regions
  layout : ((pr.pool k).region rid).layout = L
  base : ((pr.pool k).region rid).base = base
  unbounded : (pr.pool k).targetSize = 0

theorem resolved_placed {L : Layout} {base : ℕ} (h : ProcessInv pr) (hp : Placed pr k rid L base)
    (hin : InRange ((pr.pool k).region rid) addr) (hf : faultTryResolve pr addr = some (true,pr')) :
    Placed pr' k rid L base ∧
      pageReadable (pr'.pool k) rid (addr-((pr'.pool k).region rid).base) = true := by
  obtain ⟨hk,hr,hshape,ht,hread⟩ := resolved_readable h hp.pool hp.region hin hf
  exact ⟨⟨hk,hr,hshape.layout.trans hp.layout,hshape.base.trans hp.base,ht.trans hp.unbounded⟩,hread⟩

/-- A chunk of the region is populated after the loads if it was before, or if
they filled it. -/
theorem Filled.initialized {L : Layout} {base c : ℕ} {addrs : List ℕ} {es : List Event}
    (h : Filled pr pr' k rid addrs es) (hpr : Reachable pr) (hp : Placed pr k rid L base)
    (hp' : Placed pr' k rid L base) (hc : c < L.nchunks) :
    ((pr'.pool k).region rid).initialized c = true ↔
      (∃ size, .fill (rid,c) size ∈ es) ∨ ((pr.pool k).region rid).initialized c = true := by
  rw [initialized_iff_filled (n := (rid,c)) (reachable_inv h.reachable) hp'.pool hp'.unbounded
    ⟨hp'.region,hp'.layout ▸ hc⟩,h.logged,fills_append_pos]
  apply or_congr_right
  rw [initialized_iff_filled (n := (rid,c)) (reachable_inv hpr) hp.pool hp.unbounded
    ⟨hp.region,hp.layout ▸ hc⟩]

/-- A fault, and then the loads from the same address on. -/
theorem Filled.trans {pr₁ : Process} {L : Layout} {base : ℕ} {addrs : List ℕ} {es₁ es₂ : List Event}
    (h₁ : Filled pr pr₁ k rid [addr] es₁) (h₂ : Filled pr₁ pr' k rid (addr::addrs) es₂)
    (hpr : Reachable pr) (hp : Placed pr k rid L base) (hp₁ : Placed pr₁ k rid L base) :
    Filled pr pr' k rid (addr::addrs) (es₂ ++ es₁) := by
  refine ⟨h₂.reachable,?_,fun j hj => (h₂.others j hj).trans (h₁.others j hj),?_⟩
  · rw [h₂.logged,h₁.logged,List.append_assoc]
  have hbehind : ∀ page n, Behind (pr₁.pool k) rid page n ↔ Behind (pr.pool k) rid page n := by
    intro page n
    simp only [Behind,hp₁.layout,hp.layout]
  have hsize : ∀ n : Node, n.1 = rid → lruNodeSize (pr₁.pool k) n = lruNodeSize (pr.pool k) n := by
    rintro n rfl
    simp only [lruNodeSize,hp₁.layout,hp.layout]
  have hinit : ∀ c < L.nchunks, ((pr₁.pool k).region rid).initialized c = true ↔
      (∃ size, .fill (rid,c) size ∈ es₁) ∨ ((pr.pool k).region rid).initialized c = true :=
    fun c hc => h₁.initialized hpr hp hp₁ hc
  rintro ⟨x,c⟩ size
  rw [List.mem_append,h₂.fills,hp₁.base,hp₁.layout,hp.base,hp.layout]
  simp only [hbehind]
  constructor
  · rintro (⟨hs,hi,a,ha,hb⟩ | he)
    · obtain ⟨rfl,hc,-⟩ := id hb
      rw [hp.layout] at hc
      refine ⟨hs.trans (hsize _ rfl),?_,a,ha,hb⟩
      rw [← Bool.not_eq_true,hinit c hc,not_or] at hi
      exact Bool.not_eq_true _ |>.mp hi.2
    · obtain ⟨hs,hi,a,ha,hb⟩ := (h₁.fills _ _).mp he
      rw [hp.base,hp.layout] at hb
      exact ⟨hs,hi,a,List.mem_cons.mpr (Or.inl (List.mem_singleton.mp ha)),hb⟩
  · rintro ⟨hs,hi,a,ha,hb⟩
    obtain ⟨rfl,hc,-⟩ := id hb
    rw [hp.layout] at hc
    -- either the first fault filled the chunk, or it is still missing afterwards
    cases hi₁ : ((pr₁.pool k).region x).initialized c with
    | false => exact Or.inl ⟨hs.trans (hsize _ rfl).symm,rfl,a,ha,hb⟩
    | true =>
      rcases (hinit c hc).mp hi₁ with ⟨size',he⟩ | hold
      · obtain ⟨hs',-⟩ := (h₁.fills _ _).mp he
        rw [hs,← hs']
        exact Or.inr he
      · exact absurd hold (by rw [show ((pr.pool k).region x).initialized c = false from hi]; decide)

/-- What the loads of a list of addresses of the region fill. -/
theorem loads_filled {L : Layout} {base : ℕ} {addrs : List ℕ} (hl : Loads pr addrs pr')
    (h : Reachable pr) (hp : Placed pr k rid L base)
    (hin : ∀ addr ∈ addrs, base ≤ addr ∧ addr < base+L.mappedSize) :
    ∃ es, Filled pr pr' k rid addrs es := by
  induction hl with
  | done pr =>
    refine ⟨[],h,rfl,fun _ _ => rfl,fun n size => ?_⟩
    simp
  | @load pr pr' addr addrs hread rest ih =>
    have hrange : InRange ((pr.pool k).region rid) addr := by
      rw [InRange,hp.base,hp.layout]
      exact hin addr List.mem_cons_self
    rw [readable_eq (reachable_inv h) hp.pool hp.region hrange] at hread
    obtain ⟨es,hf⟩ := ih h hp (fun a ha => hin a (List.mem_cons_of_mem _ ha))
    refine ⟨es,hf.reachable,hf.logged,hf.others,fun n size => ?_⟩
    rw [hf.fills]
    refine and_congr_right fun _ => and_congr_right fun hi => ?_
    constructor
    · rintro ⟨a,ha,hb⟩
      exact ⟨a,List.mem_cons_of_mem _ ha,hb⟩
    · rintro ⟨a,ha,hb⟩
      rcases List.mem_cons.mp ha with rfl | ha
      · have := readable_populated h hp.pool hp.region hp.unbounded hrange hread hb
        rw [hi] at this
        cases this
      · exact ⟨a,ha,hb⟩
  | @fault pr pr₁ pr' addr addrs hun hf rest ih =>
    have hrange : InRange ((pr.pool k).region rid) addr := by
      rw [InRange,hp.base,hp.layout]
      exact hin addr List.mem_cons_self
    rw [readable_eq (reachable_inv h) hp.pool hp.region hrange] at hun
    obtain ⟨hp₁,-⟩ := resolved_placed (reachable_inv h) hp hrange hf
    obtain ⟨es₁,h₁⟩ := fault_filled h hp.pool hp.region hrange hun hf
    obtain ⟨es₂,h₂⟩ := ih h₁.reachable hp₁ hin
    exact ⟨_,h₁.trans h₂ h hp hp₁⟩

/-- Every load completes, after at most one fault. -/
theorem loads_complete {L : Layout} {base : ℕ} (addrs : List ℕ) (h : Reachable pr)
    (hp : Placed pr k rid L base) (hin : ∀ addr ∈ addrs, base ≤ addr ∧ addr < base+L.mappedSize) :
    ∃ pr', Loads pr addrs pr' := by
  induction addrs generalizing pr with
  | nil => exact ⟨pr,.done pr⟩
  | cons addr addrs ih =>
    have hinv := reachable_inv h
    have hrest : ∀ a ∈ addrs, base ≤ a ∧ a < base+L.mappedSize :=
      fun a ha => hin a (List.mem_cons_of_mem _ ha)
    have hrange : ∀ {q : Process}, Placed q k rid L base → InRange ((q.pool k).region rid) addr := by
      intro q hq
      rw [InRange,hq.base,hq.layout]
      exact hin addr List.mem_cons_self
    cases hread : readable pr addr with
    | true =>
      obtain ⟨pr',hl⟩ := ih h hp hrest
      exact ⟨pr',.load hread hl⟩
    | false =>
      have hun := hread
      rw [readable_eq hinv hp.pool hp.region (hrange hp)] at hun
      obtain ⟨pr₁,es,hf,-⟩ := resolved_fills hinv hp.pool hp.region (hrange hp) hun
      obtain ⟨hp₁,hread₁⟩ := resolved_placed hinv hp (hrange hp) hf
      have h₁ := reachable_steps h (Relation.ReflTransGen.single (Step.fault _ addr true _ hf))
      obtain ⟨pr',hl⟩ := ih h₁ hp₁ hrest
      refine ⟨pr',.fault hread hf (.load ?_ hl)⟩
      rw [readable_eq (reachable_inv h₁) hp₁.pool hp₁.region (hrange hp₁)]
      exact hread₁

end Process

/-- The indices that a slice selects. -/
def selected (s : Slice) (n : ℕ) : List ℤ :=
  match s.indices n with
  | .ok (start,stop,step) => pyRange start stop step
  | .error _ => []

/-- Index `i` lies between the first index of a slice and its bound. -/
def Spanned (s : Slice) (n : ℕ) (i : ℤ) : Prop :=
  match s.indices n with
  | .ok (start,stop,step) => if 0 < step then start ≤ i ∧ i < stop else stop < i ∧ i ≤ start
  | .error _ => False

/-- The addresses that a list of native reads loads. -/
def Copies (rds : List NativeRead) (addrs : List ℕ) : Prop :=
  ∀ addr : ℕ, addr ∈ addrs ↔ ∃ rd ∈ rds, rd.addr ≤ addr ∧ (addr : ℤ) < rd.addr+rd.length

section Slice
variable {s : Slice} {n : ℕ} {start stop step : ℤ}

theorem selected_ok (h : s.indices n = .ok (start,stop,step)) :
    selected s n = pyRange start stop step := by
  rw [selected,h]

theorem spanned_ok (h : s.indices n = .ok (start,stop,step)) (i : ℤ) : Spanned s n i ↔
    if 0 < step then start ≤ i ∧ i < stop else stop < i ∧ i ≤ start := by
  rw [Spanned,h]

theorem spanned_lt {i : ℕ} (hi : Spanned s n i) : i < n := by
  rcases indices_cases s n with he | ⟨start,stop,step,he⟩
  · rw [Spanned,he] at hi
    exact hi.elim
  · have hr := indices_reduced he
    rw [spanned_ok he] at hi
    rcases lt_or_gt_of_ne hr.nonzero with hneg | hpos
    · have := hr.backward hneg
      rw [if_neg (by omega)] at hi
      omega
    · have := hr.forward hpos
      rw [if_pos hpos] at hi
      omega

/-- The native read of a slice loads the bytes of its span. -/
theorem copies_spanned (mem : ℤ → UInt8) {base : ℕ} {addrs : List ℕ} (hs : s.step ≠ some 0)
    (hc : Copies (getItem mem ⟨some base,n⟩ (.slice s)).2 addrs) (addr : ℕ) :
    addr ∈ addrs ↔ ∃ i < n, addr = base+i ∧ Spanned s n i := by
  rcases indices_cases s n with he | ⟨start,stop,step,he⟩
  · exact absurd ((indices_error_iff s n).mp he) hs
  obtain ⟨lo,hi,hspan,hreads,-⟩ := getItem_slice mem base he
  obtain ⟨h1,h2⟩ := span_inside (indices_reduced he) hspan
  have hiff : ∀ i : ℤ, Spanned s n i ↔ lo ≤ i ∧ i < hi := by
    intro i
    rw [spanned_ok he,hspan.lo,hspan.hi]
    split_ifs <;> omega
  rw [hc addr,hreads]
  simp only [List.mem_singleton,exists_eq_left,hiff]
  constructor
  · rintro ⟨g1,g2⟩
    exact ⟨addr-base,by omega,by omega,by omega,by omega⟩
  · rintro ⟨i,hi,rfl,g1,g2⟩
    omega

/-- A page with a byte of the span has a selected byte too, where the step is at
most a page and the bound comes right after the last selected byte. -/
theorem page_selected {P i : ℕ} (hP : 0 < P) (h : s.indices n = .ok (start,stop,step))
    (hstep : |step| ≤ P)
    (hlast : (if 0 < step then stop-1 else stop+1) ∈ selected s n) (hi : Spanned s n i) :
    ∃ j : ℕ, (j : ℤ) ∈ selected s n ∧ pageFloor j P = pageFloor i P := by
  have hr := indices_reduced h
  rw [selected_ok h] at hlast ⊢
  rw [spanned_ok h] at hi
  obtain ⟨m,hm⟩ := ((mem_pyRange hr.nonzero _).mp hlast).1
  obtain ⟨k,hk,k',hk',h1,h2,h3⟩ := progression_brackets start step i m (by
    rw [← hm]
    split_ifs at hi ⊢ <;> omega)
  rw [hm] at hlast
  have hj := pyRange_earlier hr.nonzero hk hlast
  have hj' := pyRange_earlier hr.nonzero hk' hlast
  have hpos := (hr.inside hj).1
  have hpos' := (hr.inside hj').1
  have hfl := pageFloor_le i P
  have hlt := lt_pageFloor_add hP i
  have hdvd := dvd_pageFloor i P
  -- the index before `i` is in its page, or the one after it is
  by_cases hin : (pageFloor i P : ℤ) ≤ start+k*step
  · refine ⟨(start+k*step).toNat,by rwa [Int.toNat_of_nonneg hpos],?_⟩
    exact pageFloor_eq hP hdvd (by omega) (by omega)
  · refine ⟨(start+k'*step).toNat,by rwa [Int.toNat_of_nonneg hpos'],?_⟩
    exact pageFloor_eq hP hdvd (by omega) (by omega)

end Slice

section Region
variable {pr pr' : Process} {k : PoolId} {rid : RegionId} {s : Slice}

/-- Index `i` of the region has a byte of chunk `n` in its page. -/
def SharesPage (p : Pool) (rid : RegionId) (i : ℕ) (n : Node) : Prop :=
  Behind p rid (pageFloor i (p.region rid).layout.pageSize) n

/-- Whatever was filled shares a page with a selected byte. -/
def FillsOnlySelected (pr pr' : Process) (k : PoolId) (rid : RegionId) (s : Slice) : Prop :=
  ∀ j es, (pr'.pool j).history = es ++ (pr.pool j).history → ∀ n size, .fill n size ∈ es →
    j = k ∧ ∃ i : ℕ, (i : ℤ) ∈ selected s ((pr.pool k).region rid).layout.totalSize ∧
      SharesPage (pr.pool k) rid i n

/-- A missing chunk with a byte in a page of the span has one in the page of a
selected byte. -/
def MissingSelected (p : Pool) (rid : RegionId) (s : Slice) : Prop :=
  ∀ c, (p.region rid).initialized c = false → ∀ i : ℕ,
    Spanned s (p.region rid).layout.totalSize i → SharesPage p rid i (rid,c) →
    ∃ j : ℕ, (j : ℤ) ∈ selected s (p.region rid).layout.totalSize ∧ SharesPage p rid j (rid,c)

/-- Steps of at most a page are harmless in themselves, whatever the chunks are. -/
theorem dense_missing_selected {p : Pool} {start stop step : ℤ}
    (h : s.indices (p.region rid).layout.totalSize = .ok (start,stop,step))
    (hstep : |step| ≤ (p.region rid).layout.pageSize)
    (hlast : (if 0 < step then stop-1 else stop+1) ∈ selected s (p.region rid).layout.totalSize) :
    MissingSelected p rid s := by
  intro c _ i hi hb
  obtain ⟨j,hj,hpage⟩ := page_selected (p.region rid).layout.pageSize_pos h hstep hlast hi
  refine ⟨j,hj,?_⟩
  rw [SharesPage,hpage]
  exact hb

theorem spanned_addresses (mem : ℤ → UInt8) {addrs : List ℕ} (hs : s.step ≠ some 0)
    (hc : Copies (getItem mem ⟨some ((pr.pool k).region rid).base,
      ((pr.pool k).region rid).layout.totalSize⟩ (.slice s)).2 addrs) :
    (∀ addr ∈ addrs, ((pr.pool k).region rid).base ≤ addr ∧
      addr < ((pr.pool k).region rid).base+((pr.pool k).region rid).layout.mappedSize) ∧
    ∀ n, (∃ addr ∈ addrs, Behind (pr.pool k) rid (pageFloor (addr-((pr.pool k).region rid).base)
      ((pr.pool k).region rid).layout.pageSize) n) ↔
      ∃ i : ℕ, Spanned s ((pr.pool k).region rid).layout.totalSize i ∧ SharesPage (pr.pool k) rid i n := by
  have hmem := copies_spanned mem hs hc
  have htotal := ((pr.pool k).region rid).layout.mapped_bounds.1
  constructor
  · intro addr ha
    obtain ⟨i,hi,rfl,-⟩ := (hmem addr).mp ha
    omega
  · intro n
    constructor
    · rintro ⟨addr,ha,hb⟩
      obtain ⟨i,hi,rfl,hspan⟩ := (hmem addr).mp ha
      rw [Nat.add_sub_cancel_left] at hb
      exact ⟨i,hspan,hb⟩
    · rintro ⟨i,hspan,hb⟩
      refine ⟨((pr.pool k).region rid).base+i,(hmem _).mpr ⟨i,spanned_lt hspan,rfl,hspan⟩,?_⟩
      rw [Nat.add_sub_cancel_left]
      exact hb

/-- A slice of a region of an unbounded pool fills chunks of selected bytes
only, exactly when no missing chunk meets the pages of the span anywhere else. -/
theorem slice_fills_selected_iff (h : Reachable pr) (hk : k ∈ pr.pools)
    (hr : rid ∈ (pr.pool k).regions) (h0 : (pr.pool k).targetSize = 0) (hs : s.step ≠ some 0)
    (mem : ℤ → UInt8) (addrs : List ℕ)
    (hc : Copies (getItem mem ⟨some ((pr.pool k).region rid).base,
      ((pr.pool k).region rid).layout.totalSize⟩ (.slice s)).2 addrs) :
    (∃ pr', Loads pr addrs pr') ∧ ∀ pr', Loads pr addrs pr' →
      (FillsOnlySelected pr pr' k rid s ↔ MissingSelected (pr.pool k) rid s) := by
  have hp : Placed pr k rid ((pr.pool k).region rid).layout ((pr.pool k).region rid).base :=
    ⟨hk,hr,rfl,rfl,h0⟩
  obtain ⟨hin,hspan⟩ := spanned_addresses mem hs hc
  refine ⟨loads_complete addrs h hp hin,?_⟩
  intro pr' hl
  obtain ⟨es,hf⟩ := loads_filled hl h hp hin
  constructor
  · intro honly c hi i hsp hb
    have he := (hf.fills (rid,c) _).mpr ⟨rfl,hi,(hspan _).mpr ⟨i,hsp,hb⟩⟩
    exact (honly k es hf.logged _ _ he).2
  · intro hmiss j es' hlog n size he
    by_cases hj : j = k
    · subst hj
      obtain rfl := List.append_cancel_right (hlog.symm.trans hf.logged)
      obtain ⟨-,hi,hb⟩ := (hf.fills n size).mp he
      obtain ⟨i,hsp,hb⟩ := (hspan n).mp hb
      obtain ⟨x,c⟩ := n
      obtain rfl : x = rid := hb.1
      exact ⟨rfl,hmiss c hi i hsp hb⟩
    · rw [hf.others j hj,List.self_eq_append_left] at hlog
      subst hlog
      cases he

theorem stridedSizes : Accepted 4 [4,4,4] 12 :=
  ⟨by decide,by decide,by decide,by decide,by decide,by decide⟩

/-- Three chunks of one page each, in a pool without a bound. -/
def strided : Process :=
  fcRegionCreate (fcPoolCreate (start 4 (fun _ => .inaccessible)) 0) 0 [4,4,4] 12 stridedSizes
    (fun c i => (16*c+i+1).toUInt8) 16

theorem strided_reachable : Reachable strided := by
  refine ⟨4,fun _ => .inaccessible,?_⟩
  refine Relation.ReflTransGen.tail (Relation.ReflTransGen.single (Step.poolCreate _ 0)) ?_
  exact Step.regionCreate _ 0 [4,4,4] 12 _ 16 (by decide) stridedSizes
    ⟨by decide,by decide,by simp [fcPoolCreate,start,poolInit]⟩

/-- The addresses of the span from the first byte on. -/
def stridedAddrs : List ℕ := (List.range 12).map (16+·)

theorem strided_copies (s : Slice) (hs : (getItem (fun _ => 0) ⟨some 16,12⟩ (.slice s)).2 = [⟨16,12⟩]) :
    Copies (getItem (fun _ => 0) ⟨some 16,12⟩ (.slice s)).2 stridedAddrs := by
  intro addr
  rw [hs]
  simp only [stridedAddrs,List.mem_map,List.mem_range,List.mem_singleton,exists_eq_left]
  constructor
  · rintro ⟨i,hi,rfl⟩
    omega
  · rintro ⟨h1,h2⟩
    exact ⟨addr-16,by omega,by omega⟩

theorem slice_fills_selected_iff_strided :
    (∃ pr', Loads strided stridedAddrs pr') ∧ ∀ pr', Loads strided stridedAddrs pr' →
      (FillsOnlySelected strided pr' 0 0 ⟨none,none,some 3⟩ ↔
        MissingSelected (strided.pool 0) 0 ⟨none,none,some 3⟩) :=
  slice_fills_selected_iff strided_reachable (by decide) (show 0 ∈ (strided.pool 0).regions by decide)
    rfl (by decide) (fun _ => 0) stridedAddrs (strided_copies _ (by decide))

/-- A slice that selects the first byte of chunks 0 and 2 reads chunk 1 too. -/
theorem strided_slice_fills_between :
    Reachable strided ∧ (strided.pool 0).targetSize = 0 ∧
    Copies (getItem (fun _ => 0) ⟨some 16,12⟩ (.slice ⟨some 0,some 12,some 8⟩)).2 stridedAddrs ∧
    (∃ pr', Loads strided stridedAddrs pr') ∧
    ∀ pr', Loads strided stridedAddrs pr' →
      ¬ FillsOnlySelected strided pr' 0 0 ⟨some 0,some 12,some 8⟩ := by
  have hp : Placed strided 0 0 ((strided.pool 0).region 0).layout 16 :=
    ⟨by decide,by decide,rfl,rfl,rfl⟩
  have hin : ∀ addr ∈ stridedAddrs, 16 ≤ addr ∧
      addr < 16+((strided.pool 0).region 0).layout.mappedSize := by decide
  refine ⟨strided_reachable,rfl,strided_copies _ (by decide),
    loads_complete stridedAddrs strided_reachable hp hin,?_⟩
  intro pr' hl honly
  obtain ⟨es,hf⟩ := loads_filled hl strided_reachable hp hin
  have he := (hf.fills (0,1) _).mpr ⟨rfl,rfl,20,by decide,by decide⟩
  obtain ⟨-,i,hi,hb⟩ := honly 0 es hf.logged _ _ he
  have hsel : ∀ i ∈ selected ⟨some 0,some 12,some 8⟩ 12, i = 0 ∨ i = 8 := by decide
  have hfar : ¬ SharesPage (strided.pool 0) 0 0 (0,1) ∧ ¬ SharesPage (strided.pool 0) 0 8 (0,1) := by
    unfold SharesPage
    decide
  rcases hsel i hi with h | h
  · obtain rfl : i = 0 := by omega
    exact hfar.1 hb
  · obtain rfl : i = 8 := by omega
    exact hfar.2 hb

end Region

end FaultCache.SliceFaults
