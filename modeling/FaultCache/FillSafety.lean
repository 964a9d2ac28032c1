import FaultCache.FillTrace
import FaultCache.PoolLifetime

/-!
# A fill keeps to its buffers

Staging buffers are one page long in every state that a pool passes through.
With that, whatever a fill writes or copies lies inside the buffers involved,
the shared pages it asks for are in the table, and the scratch buffer is used up
as `vm.h` asks: the exclusive pages are published and nothing is left.
-/

set_option autoImplicit false

namespace FaultCache.FillSafety
open FaultCache.PageGeometry FaultCache.SharedPages FaultCache.VmPages FaultCache.PoolMachine
open FaultCache.PoolStaging FaultCache.PoolQueue FaultCache.PoolMemory FaultCache.PoolHistory
open FaultCache.PoolInvariant FaultCache.PoolResolve FaultCache.FaultProcess FaultCache.ProcessInvariant
open FaultCache.ProcessContract FaultCache.PoolLifetime FaultCache.RangeTiling
open FaultCache.ScratchContract FaultCache.FillTrace

section Sizes
variable {r : Region} {vm : PageTable} {c k : ℕ} {scratch : Scratch} {spanLo : ℕ} {m : Region × PageTable}

/-- A staging buffer has room for its page. -/
def StagingSized (r : Region) : Prop :=
  ∀ k buffer, (r.sharedPages k).staging = some buffer → buffer.size = r.layout.pageSize

theorem StagingSized.of_same {r' : Region} (h : StagingSized r) (hl : r'.layout = r.layout)
    (hs : r'.sharedPages = r.sharedPages) : StagingSized r' := by
  intro k buffer hb
  rw [hs] at hb
  rw [hl]
  exact h k buffer hb

theorem stagingBuffer_size (h : StagingSized r) (k : ℕ) :
    (stagingBuffer r k).size = r.layout.pageSize := by
  unfold stagingBuffer
  cases hb : (r.sharedPages k).staging with
  | none => rfl
  | some buffer => exact h k buffer hb

theorem contributed_sized {page : SharedPage} (h : StagingSized r)
    (hp : ∀ buffer, page.staging = some buffer → buffer.size = r.layout.pageSize) :
    StagingSized (contributed r k c page) := by
  intro j buffer hb
  change (Function.update r.sharedPages k page j).staging = some buffer at hb
  by_cases hjk : j = k
  · subst hjk
    rw [Function.update_self] at hb
    exact hp buffer hb
  · rw [Function.update_of_ne hjk] at hb
    exact h j buffer hb

theorem stage_sized {sp : Option ℕ} (h : StagingSized r)
    (hs : PoolMachine.stageIntoSharedPage r vm sp c scratch spanLo = some m) : StagingSized m.1 := by
  cases sp with
  | none => cases hs
  | some k =>
    cases hm : (r.sharedPages k).mapped with
    | true => simp [PoolMachine.stageIntoSharedPage,hm] at hs
    | false =>
      rw [stage_eq hm] at hs
      split_ifs at hs
      · cases hs
        exact contributed_sized h (fun _ hb => by cases hb)
      · cases hs
        apply contributed_sized h
        intro buffer hb
        cases hb
        exact stagingBuffer_size h k

theorem when_sized {flag : Bool} {sp : Option ℕ} (h : StagingSized r)
    (hs : PoolMachine.stageWhen flag r vm sp c scratch spanLo = some m) : StagingSized m.1 := by
  cases flag with
  | false =>
    cases hs
    exact h
  | true => exact stage_sized h hs

theorem shared_sized (h : StagingSized r) (hs : PoolMachine.stageShared r vm c scratch = some m) :
    StagingSized m.1 := by
  unfold PoolMachine.stageShared at hs
  split_ifs at hs
  · cases hs
    exact h
  · obtain ⟨m₁,h₁,h₂⟩ := Option.bind_eq_some_iff.mp hs
    exact when_sized (when_sized h h₁) h₂

theorem fill_sized {s s' : State} {rid : RegionId} (h : StagingSized (s.pool.region rid))
    (hf : PoolMachine.fillChunkLocked s rid c = some s') : StagingSized (s'.pool.region rid) := by
  simp only [PoolMachine.fillChunkLocked] at hf
  obtain ⟨m,hm,hrest⟩ := Option.bind_eq_some_iff.mp hf
  obtain ⟨p,hp,rfl⟩ := Option.map_eq_some_iff.mp hrest
  have hbegun : StagingSized (begun (s.pool.region rid) c) := h.of_same rfl rfl
  have hstaged : StagingSized m.1 := shared_sized hbegun hm
  apply hstaged.of_same
  · rw [fillAccount_keeps (g := Region.layout) (fun _ _ => rfl) (fun _ _ => rfl) (fun _ => rfl) hp]
    simp
  · rw [fillAccount_keeps (g := Region.sharedPages) (fun _ _ => rfl) (fun _ _ => rfl) (fun _ => rfl) hp]
    simp

def BuffersSized (p : Pool) : Prop := ∀ rid ∈ p.regions, StagingSized (p.region rid)

theorem BuffersSized.of_same {p p' : Pool} (h : BuffersSized p) (hr : ∀ rid ∈ p'.regions, rid ∈ p.regions)
    (hl : SameLayouts p p') (hs : ∀ rid, (p'.region rid).sharedPages = (p.region rid).sharedPages) :
    BuffersSized p' := fun rid hm => (h rid (hr rid hm)).of_same (hl rid) (hs rid)

theorem micro_buffersSized {s s' : State} {e : Event} {hot cold : List Node} (h : PoolInv s hot cold)
    (hm : Micro s e s') (hq : BuffersSized s.pool) : BuffersSized s'.pool := by
  have ht := (hm.touched h).1
  by_cases he : sets e = some true
  · cases hm with
    | @fill _ x d hl hi hf =>
      intro rid hr
      rw [ht.regions] at hr
      by_cases hx : rid = x
      · subst hx
        exact fill_sized (hq rid hr) hf
      · rw [ht.others rid hx]
        exact hq rid hr
    | promote => cases he
    | demote => cases he
    | evict => cases he
  · exact hq.of_same (fun rid hr => ht.regions ▸ hr) ht.layouts
      (Micro.keeps (g := Region.sharedPages) (fun _ _ => rfl) (fun _ _ _ => rfl) hm h he)

theorem buffersSized_lifelong : Lifelong BuffersSized where
  init := fun _ _ hr => absurd hr List.not_mem_nil
  micro := micro_buffersSized
  count := fun x hq => hq.of_same (fun _ hr => hr)
    (fun rid => countHandled_keeps (g := Region.layout) _ x rid (fun _ _ => rfl))
    (fun rid => countHandled_keeps (g := Region.sharedPages) _ x rid (fun _ _ => rfl))
  insert := by
    intro p vm hot cold x P sizes total ha base fill hp hx hh hq rid hr
    rcases mem_regionListInsert hr with rfl | hr
    · rw [insert_region_self]
      intro k buffer hb
      cases hb
    · rw [regionInsert_old hx hr]
      exact hq rid hr
  forget := by
    intro p p' hot cold n hp hf hq
    obtain ⟨h1,-,h3⟩ := forget_region hf
    exact hq.of_same (fun rid hr => h1 ▸ hr) (h3 (g := Region.layout) (fun _ _ _ => rfl))
      (h3 (g := Region.sharedPages) (fun _ _ _ => rfl))
  remove := fun x hq => hq.of_same (fun _ hr => List.mem_of_mem_erase hr) (fun _ => rfl) (fun _ => rfl)

end Sizes

section Pieces
variable (L : Layout) (base : ℕ) {c : ℕ}

theorem spanLen_bounds (hc : c < L.nchunks) : 0 < spanLen L c ∧ spanLen L c < 2^64 := by
  obtain ⟨s1,s2,s3,s4⟩ := span_bounds L hc
  have hfits := mapped_lt L
  unfold spanLen
  omega

theorem fillDst_inside (hc : c < L.nchunks) : (fillDst L c).Inside := by
  obtain ⟨s1,s2,s3,s4⟩ := span_bounds L hc
  simp only [Access.Inside,fillDst,spanLen,Layout.chunkSize]
  omega

/-- The pieces are the exclusive pages and what is left on either side. -/
theorem fillPieces_spans (hc : c < L.nchunks) : (PoolMachine.fillPieces L base c).map span =
    if L.exclLo c < L.exclHi c then
      let a := L.exclLo c-boundaryPage L c
      let b := L.exclHi c-boundaryPage L c
      ⟨a,b-a⟩::((if 0 < a then [⟨0,a⟩] else []) ++ if b < spanLen L c then [⟨b,spanLen L c-b⟩] else [])
    else [⟨0,spanLen L c⟩] := by
  obtain ⟨s1,s2,s3,s4⟩ := span_bounds L hc
  obtain ⟨e1,e2⟩ := excl_bounds L hc
  have hle := excl_le L c
  have hfront : 0 < L.exclLo c-boundaryPage L c ↔ boundaryPage L c < L.exclLo c := by omega
  have hback : L.exclHi c-boundaryPage L c < spanLen L c ↔
      L.exclHi c < pageCeil (L.chunkStart (c+1)) L.pageSize := by
    unfold spanLen
    omega
  have hmid : L.exclHi c-boundaryPage L c-(L.exclLo c-boundaryPage L c) = L.exclHi c-L.exclLo c := by omega
  have hrest : spanLen L c-(L.exclHi c-boundaryPage L c) =
      pageCeil (L.chunkStart (c+1)) L.pageSize-L.exclHi c := by
    unfold spanLen
    omega
  simp only [hfront,hback,hmid,hrest]
  simp only [spanLen,boundaryPage,PoolMachine.fillPieces]
  split_ifs <;> simp [span, *]

/-- A fill uses up its scratch buffer as `vm.h` asks. -/
theorem fillPieces_consume (hc : c < L.nchunks) :
    Consumes (spanLen L c) (PoolMachine.fillPieces L base c) := by
  obtain ⟨e1,e2⟩ := excl_bounds L hc
  have hpos := (spanLen_bounds L hc).1
  have hle := excl_le L c
  have hspans := fillPieces_spans L base hc
  constructor
  · rw [hspans]
    split_ifs
    · apply tiles_around
      · omega
      · unfold spanLen
        omega
    · exact tiles_whole _
  · intro p hp
    have hmem : span p ∈ (PoolMachine.fillPieces L base c).map span := List.mem_map_of_mem hp
    rw [hspans] at hmem
    split_ifs at hmem with hne
    · exact around_nonempty (by omega) _ hmem
    · rw [List.mem_singleton.mp hmem]
      exact hpos

theorem publish_mem {off len target : ℕ} : .publish off len target ∈ PoolMachine.fillPieces L base c ↔
    L.exclLo c < L.exclHi c ∧ off = L.exclLo c-boundaryPage L c ∧ len = L.exclHi c-L.exclLo c ∧
      target = base+L.exclLo c := by
  simp only [PoolMachine.fillPieces,boundaryPage]
  split_ifs with h <;> simp [h]

/-- Published bytes keep their place in the region. -/
theorem publish_placed (hc : c < L.nchunks) {off len target : ℕ}
    (h : .publish off len target ∈ PoolMachine.fillPieces L base c) :
    target = base+(boundaryPage L c+off) := by
  have hlo := (excl_bounds L hc).1
  obtain ⟨-,rfl,-,rfl⟩ := (publish_mem L base).mp h
  omega

theorem publish_exclusive (q : ℕ) : (∃ off len target,
    .publish off len target ∈ PoolMachine.fillPieces L base c ∧ target ≤ q ∧ q < target+len) ↔
      base+L.exclLo c ≤ q ∧ q < base+L.exclHi c := by
  simp only [publish_mem]
  constructor
  · rintro ⟨off,len,target,⟨hne,rfl,rfl,rfl⟩,h1,h2⟩
    exact ⟨h1,by omega⟩
  · rintro ⟨h1,h2⟩
    exact ⟨_,_,_,⟨by omega,rfl,rfl,rfl⟩,h1,by omega⟩

end Pieces

section Staging
variable {L : Layout} {base c k : ℕ} {r : Region} {vm : PageTable} {scratch : Scratch} {op : Op}

/-- What the buffers and the table ask of each operation of a fill of chunk `c`.
Staging buffers hold one page, and a page that is installed takes all of its
buffer. -/
def OpSafe (L : Layout) (base c : ℕ) : Op → Prop
  | .fillChunk dst => dst = fillDst L c ∧ dst.Inside
  | .findSharedPage page found => ∃ k < nshared L, found = some k ∧ (sharedPage L k).pageOff = page
  | .memcpy k dst src => k < nshared L ∧ dst.size = L.pageSize ∧ dst.Inside ∧
      src.size = spanLen L c ∧ src.Inside
  | .install k size piece => k < nshared L ∧ size = L.pageSize ∧ Consumes size [piece] ∧
      piece = .publish 0 L.pageSize (base+(sharedPage L k).pageOff)
  | .seal => True
  | .consume piece => piece ∈ PoolMachine.fillPieces L base c

def looked : Op → Option ℕ
  | .findSharedPage page _ => some page
  | _ => none

def staged : Op → Option ℕ
  | .memcpy k _ _ => some k
  | _ => none

def consumed : Op → Option Piece
  | .consume piece => some piece
  | _ => none

/-- Before the scratch buffer is sealed. -/
def Early (op : Op) : Prop := op ≠ .seal ∧ consumed op = none

theorem stageOps_safe (h : StagingSized r) (hk : k < nshared r.layout) (hc : c < r.layout.nchunks)
    (ht : r.layout.Touches c (sharedPage r.layout k).pageOff) (hs : scratch.size = spanLen r.layout c)
    (hop : op ∈ stageOps r k c scratch) : OpSafe r.layout r.base c op ∧ Early op := by
  have hsize := stagingBuffer_size h k
  rcases List.mem_cons.mp hop with rfl | hop
  · obtain ⟨g1,g2,g3,g4,g5,-⟩ := slice_bounds r.layout hk hc ht
    obtain ⟨s1,s2,s3,s4⟩ := span_bounds r.layout hc
    refine ⟨⟨hk,hsize,?_,hs,?_⟩,by simp,rfl⟩
    · simp only [Access.Inside,hsize]
      omega
    · simp only [Access.Inside,hs,spanLen]
      omega
  · split_ifs at hop with hlast
    · obtain rfl := List.mem_singleton.mp hop
      refine ⟨⟨hk,hsize,⟨?_,?_⟩,rfl⟩,by simp,rfl⟩
      · rw [hsize]
        exact tiles_whole _
      · intro p hp
        obtain rfl := List.mem_singleton.mp hp
        exact r.layout.pageSize_pos
    · cases hop

theorem stageOps_staged : (stageOps r k c scratch).filterMap staged = [k] := by
  simp only [stageOps]
  split_ifs <;> rfl

theorem stageOps_looked : (stageOps r k c scratch).filterMap looked = [] := by
  simp only [stageOps]
  split_ifs <;> rfl

/-- A conditional contribution looks up one page, which is in the table, and
stages into it. -/
theorem whenOps_safe (flag : Bool) (b : ℕ) (h : StagingSized r) (hc : c < r.layout.nchunks)
    (hs : scratch.size = spanLen r.layout c)
    (hu : flag = true → Unaligned r.layout b ∧ r.layout.Touches c (boundaryPage r.layout b)) :
    (∀ op ∈ whenOps flag r (boundaryPage r.layout b) c scratch, OpSafe r.layout r.base c op ∧ Early op) ∧
    (whenOps flag r (boundaryPage r.layout b) c scratch).filterMap looked =
      (if flag then [boundaryPage r.layout b] else []) ∧
    ∀ k < nshared r.layout, ((whenOps flag r (boundaryPage r.layout b) c scratch).filterMap staged).count k =
      if flag = true ∧ (sharedPage r.layout k).pageOff = boundaryPage r.layout b then 1 else 0 := by
  cases flag with
  | false => exact ⟨fun op hop => (by cases hop),rfl,fun _ _ => (by simp [whenOps])⟩
  | true =>
    obtain ⟨hb,ht⟩ := hu rfl
    obtain ⟨k,hk⟩ := findSharedPage_boundary r.layout hb
    obtain ⟨hkn,hko⟩ := (findSharedPage_some r.layout _ k).mp hk
    have hops : whenOps true r (boundaryPage r.layout b) c scratch =
        .findSharedPage (boundaryPage r.layout b) (some k)::stageOps r k c scratch := by
      simp [whenOps,hk]
    rw [hops]
    refine ⟨?_,?_,?_⟩
    · intro op hop
      rcases List.mem_cons.mp hop with rfl | hop
      · exact ⟨⟨k,hkn,rfl,hko⟩,by simp,rfl⟩
      · exact stageOps_safe h hkn hc (hko ▸ ht) hs hop
    · simp [looked,stageOps_looked]
    · intro j hj
      simp only [List.filterMap_cons,staged,stageOps_staged,List.count_singleton]
      have hiff : (sharedPage r.layout j).pageOff = boundaryPage r.layout b ↔ k = j :=
        ⟨fun he => shared_injective r.layout hkn hj (hko.trans he.symm),fun he => he ▸ hko⟩
      simp [hiff]

/-- The pages that `has_head` and `has_tail` stand for. -/
def stagePages (L : Layout) (c : ℕ) : List ℕ :=
  (if hasHead L c then [boundaryPage L c] else []) ++ if stagesTail L c then [boundaryPage L (c+1)] else []

/-- A shared page of a chunk is staged from one of its ends. -/
theorem ends_count (hk : k < nshared L) (hc : c < L.nchunks) :
    (if hasHead L c = true ∧ (sharedPage L k).pageOff = boundaryPage L c then 1 else 0)+
      (if stagesTail L c = true ∧ (sharedPage L k).pageOff = boundaryPage L (c+1) then 1 else 0) =
    if c ∈ contributors L k then 1 else 0 := by
  have hside : c ∈ contributors L k ↔ hasHead L c = true ∧ (sharedPage L k).pageOff = boundaryPage L c ∨
      stagesTail L c = true ∧ (sharedPage L k).pageOff = boundaryPage L (c+1) := by
    constructor
    · exact contributor_side L hk hc
    · rw [mem_contributors L hk hc]
      rintro (⟨hh,he⟩ | ⟨ht,he⟩)
      · exact he ▸ (head_touches L hc hh).2
      · exact he ▸ (tail_touches L hc ht).2
  have hone : hasHead L c = true ∧ (sharedPage L k).pageOff = boundaryPage L c →
      ¬ (stagesTail L c = true ∧ (sharedPage L k).pageOff = boundaryPage L (c+1)) := by
    rintro ⟨hh,he⟩ ⟨ht,he'⟩
    exact stagesTail_apart L ht hh (he'.symm.trans he)
  simp only [hside]
  by_cases hhead : hasHead L c = true ∧ (sharedPage L k).pageOff = boundaryPage L c
  · rw [if_pos hhead,if_neg (hone hhead),if_pos (Or.inl hhead)]
  · rw [if_neg hhead]
    simp [hhead]

/-- The staging half of a fill with its record. -/
theorem shared_safe {ops : List Op} {m : Region × PageTable} (h : StagingSized r) (hc : c < r.layout.nchunks)
    (hs : scratch.size = spanLen r.layout c) (hm : FillTrace.stageShared r vm c scratch = some (ops,m)) :
    (∀ op ∈ ops, OpSafe r.layout r.base c op ∧ Early op) ∧
    ops.filterMap looked = (if r.chunkStaged c then [] else stagePages r.layout c) ∧
    ∀ k < nshared r.layout, (ops.filterMap staged).count k =
      if r.chunkStaged c = false ∧ c ∈ contributors r.layout k then 1 else 0 := by
  cases hst : r.chunkStaged c with
  | true =>
    simp only [FillTrace.stageShared,hst,if_true] at hm
    cases hm
    exact ⟨fun op hop => (by cases hop),rfl,fun _ _ => (by simp)⟩
  | false =>
    rw [shared_traced hc hst] at hm
    obtain ⟨m₁,h₁,hm⟩ := Option.bind_eq_some_iff.mp hm
    obtain ⟨m₂,h₂,hm⟩ := Option.map_eq_some_iff.mp hm
    cases hm
    have hl : m₁.1.layout = r.layout := by rw [when_fields h₁]
    have hb : m₁.1.base = r.base := by rw [when_fields h₁]
    obtain ⟨a1,a2,a3⟩ := whenOps_safe (hasHead r.layout c) c h hc hs (head_touches r.layout hc)
    have htail := whenOps_safe (stagesTail r.layout c) (c+1) (when_sized h h₁) (hl ▸ hc)
      (hs.trans (by rw [hl])) (by rw [hl]; exact tail_touches r.layout hc)
    rw [hl,hb] at htail
    obtain ⟨b1,b2,b3⟩ := htail
    refine ⟨?_,?_,?_⟩
    · intro op hop
      rcases List.mem_append.mp hop with hop | hop
      · exact a1 op hop
      · exact b1 op hop
    · rw [List.filterMap_append,a2,b2]
      rfl
    · intro k hk
      rw [List.filterMap_append,List.count_append,a3 k hk,b3 k hk,ends_count hk hc]
      simp

end Staging

/-- What one fill of a chunk does to its buffers and its shared pages. -/
structure FillSafe (s : State) (rid : RegionId) (c : ℕ) (ops : List Op) : Prop where
  safe : ∀ op ∈ ops, OpSafe (s.pool.region rid).layout (s.pool.region rid).base c op
  looked : ops.filterMap looked =
    if fills (rid,c) s.pool.history = 0 then stagePages (s.pool.region rid).layout c else []
  staged : ∀ k < nshared (s.pool.region rid).layout, (ops.filterMap staged).count k =
    if fills (rid,c) s.pool.history = 0 ∧ c ∈ contributors (s.pool.region rid).layout k then 1 else 0
  sealed : ∃ early, (∀ op ∈ early, Early op) ∧ ops = early ++ .seal::(ops.filterMap consumed).map .consume
  consumes : Consumes (spanLen (s.pool.region rid).layout c) (ops.filterMap consumed)
  released : ∀ ps qs, ops.filterMap consumed = ps ++ qs →
    useViews (scratchView (spanLen (s.pool.region rid).layout c)) ps =
      some ⟨spanLen (s.pool.region rid).layout c,total (ps.map span),decide (qs ≠ [])⟩
  placed : ∀ off len target, .publish off len target ∈ ops.filterMap consumed →
    target = (s.pool.region rid).base+(boundaryPage (s.pool.region rid).layout c+off)
  published : ∀ q, (∃ off len target, .publish off len target ∈ ops.filterMap consumed ∧
    target ≤ q ∧ q < target+len) ↔ InExclusive (s.pool.region rid) c q

section Runs
variable {s s' : State} {rid : RegionId} {c : ℕ} {ops : List Op}

/-- A chunk that stages at all has done so exactly in its first fill. -/
theorem first_fill (h : StagedOnce s.pool) (hl : Live s.pool (rid,c)) :
    (if (s.pool.region rid).chunkStaged c then [] else stagePages (s.pool.region rid).layout c) =
      (if fills (rid,c) s.pool.history = 0 then stagePages (s.pool.region rid).layout c else []) ∧
    ∀ k < nshared (s.pool.region rid).layout, c ∈ contributors (s.pool.region rid).layout k →
      ((s.pool.region rid).chunkStaged c = false ↔ fills (rid,c) s.pool.history = 0) := by
  have hflag : ∀ k < nshared (s.pool.region rid).layout, c ∈ contributors (s.pool.region rid).layout k →
      ((s.pool.region rid).chunkStaged c = false ↔ fills (rid,c) s.pool.history = 0) := by
    intro k hk hck
    rw [h rid hl.1 k hk c hck,decide_eq_false_iff_not,Nat.not_lt,Nat.le_zero]
  refine ⟨?_,hflag⟩
  have hpage : ∀ b, Unaligned (s.pool.region rid).layout b →
      (s.pool.region rid).layout.Touches c (boundaryPage (s.pool.region rid).layout b) →
      ((s.pool.region rid).chunkStaged c = false ↔ fills (rid,c) s.pool.history = 0) := by
    intro b hb ht
    obtain ⟨k,hk⟩ := findSharedPage_boundary _ hb
    obtain ⟨hkn,hko⟩ := (findSharedPage_some _ _ k).mp hk
    exact hflag k hkn ((mem_contributors _ hkn hl.2).mpr (hko ▸ ht))
  by_cases hnone : stagePages (s.pool.region rid).layout c = []
  · rw [hnone,ite_self,ite_self]
  · have hiff : (s.pool.region rid).chunkStaged c = false ↔ fills (rid,c) s.pool.history = 0 := by
      cases hh : hasHead (s.pool.region rid).layout c with
      | true => exact hpage c (head_touches _ hl.2 hh).1 (head_touches _ hl.2 hh).2
      | false =>
        cases ht : stagesTail (s.pool.region rid).layout c with
        | true => exact hpage (c+1) (tail_touches _ hl.2 ht).1 (tail_touches _ hl.2 ht).2
        | false => exact absurd (by simp [stagePages,hh,ht]) hnone
    cases hst : (s.pool.region rid).chunkStaged c with
    | false => rw [if_neg Bool.false_ne_true,if_pos (hiff.mp hst)]
    | true => rw [if_pos rfl,if_neg (fun h0 => by rw [hiff.mpr h0] at hst; cases hst)]

/-- The record of a fill, around that of its staging. -/
def fillRecord (r : Region) (c : ℕ) (staging : List Op) : List Op :=
  .fillChunk (fillDst r.layout c)::staging ++ .seal::(PoolMachine.fillPieces r.layout r.base c).map .consume

theorem fill_record (hc : c < (s.pool.region rid).layout.nchunks)
    (hf : FillTrace.fillChunkLocked s rid c = some (ops,s')) :
    ∃ staging m, FillTrace.stageShared (begun (s.pool.region rid) c) s.vm c
        (fillScratch (s.pool.region rid) c) = some (staging,m) ∧
      ops = fillRecord (s.pool.region rid) c staging := by
  rw [fill_traced hc] at hf
  obtain ⟨⟨staging,m⟩,hm,hrest⟩ := Option.bind_eq_some_iff.mp hf
  obtain ⟨p,-,he⟩ := Option.map_eq_some_iff.mp hrest
  cases he
  exact ⟨staging,m,hm,rfl⟩

section Record
variable {r : Region} {staging : List Op}

/-- What is not recorded around the staging is recorded in it. -/
theorem fillRecord_filterMap {β : Type} {g : Op → Option β} (hfill : ∀ dst, g (.fillChunk dst) = none)
    (hseal : g .seal = none) (hconsume : ∀ piece, g (.consume piece) = none) :
    (fillRecord r c staging).filterMap g = staging.filterMap g := by
  have hpieces : ((PoolMachine.fillPieces r.layout r.base c).map Op.consume).filterMap g = [] := by
    rw [List.filterMap_map]
    exact List.filterMap_eq_nil_iff.mpr (fun piece _ => hconsume piece)
  rw [fillRecord,List.filterMap_append,List.filterMap_cons_none (hfill _),List.filterMap_cons_none hseal,
    hpieces,List.append_nil]

theorem fillRecord_early (h : ∀ op ∈ staging, Early op) :
    ∀ op ∈ Op.fillChunk (fillDst r.layout c)::staging, Early op := by
  intro op hop
  rcases List.mem_cons.mp hop with rfl | hop
  · exact ⟨by simp,rfl⟩
  · exact h op hop

theorem fillRecord_consumed (h : ∀ op ∈ staging, Early op) :
    (fillRecord r c staging).filterMap consumed = PoolMachine.fillPieces r.layout r.base c := by
  have hnone : (Op.fillChunk (fillDst r.layout c)::staging).filterMap consumed = [] :=
    List.filterMap_eq_nil_iff.mpr (fun op hop => (fillRecord_early h op hop).2)
  rw [fillRecord,List.filterMap_append,hnone,List.nil_append,List.filterMap_cons]
  simp only [consumed,List.filterMap_map]
  exact List.filterMap_some

theorem fillRecord_safe (hc : c < r.layout.nchunks)
    (h : ∀ op ∈ staging, OpSafe r.layout r.base c op) :
    ∀ op ∈ fillRecord r c staging, OpSafe r.layout r.base c op := by
  intro op hop
  rcases List.mem_append.mp hop with hop | hop
  · rcases List.mem_cons.mp hop with rfl | hop
    · exact ⟨rfl,fillDst_inside _ hc⟩
    · exact h op hop
  · rcases List.mem_cons.mp hop with rfl | hop
    · trivial
    · obtain ⟨piece,hpiece,rfl⟩ := List.mem_map.mp hop
      exact hpiece

end Record

theorem fill_safe (hsize : BuffersSized s.pool) (hst : StagedOnce s.pool) (hl : Live s.pool (rid,c))
    (hf : FillTrace.fillChunkLocked s rid c = some (ops,s')) : FillSafe s rid c ops := by
  have hc : c < (s.pool.region rid).layout.nchunks := hl.2
  obtain ⟨staging,m,hm,rfl⟩ := fill_record hc hf
  have hbegun : StagingSized (begun (s.pool.region rid) c) := (hsize rid hl.1).of_same rfl rfl
  obtain ⟨hsafe,hlook,hcount⟩ := shared_safe hbegun hc rfl hm
  obtain ⟨hfirst,hflag⟩ := first_fill hst hl
  have hearly : ∀ op ∈ staging, Early op := fun op hop => (hsafe op hop).2
  have hpieces := fillRecord_consumed (r := s.pool.region rid) (c := c) hearly
  have hconsumes := fillPieces_consume (s.pool.region rid).layout (s.pool.region rid).base hc
  obtain ⟨hpos,hlt⟩ := spanLen_bounds (s.pool.region rid).layout hc
  constructor
  case safe => exact fillRecord_safe hc (fun op hop => (hsafe op hop).1)
  case looked =>
    rw [fillRecord_filterMap (fun _ => rfl) rfl (fun _ => rfl)]
    exact hlook.trans hfirst
  case staged =>
    intro k hk
    rw [fillRecord_filterMap (fun _ => rfl) rfl (fun _ => rfl),hcount k hk]
    by_cases hck : c ∈ contributors (s.pool.region rid).layout k
    · exact if_congr (and_congr (hflag k hk hck) Iff.rfl) rfl rfl
    · rw [if_neg (fun h => hck h.2),if_neg (fun h => hck h.2)]
  case sealed =>
    rw [hpieces]
    exact ⟨_,fillRecord_early hearly,rfl⟩
  case consumes =>
    rw [hpieces]
    exact hconsumes
  case released =>
    intro ps qs he
    rw [hpieces] at he
    rw [he] at hconsumes
    exact hconsumes.released hpos hlt
  case placed =>
    intro off len target hmem
    rw [hpieces] at hmem
    exact publish_placed _ _ hc hmem
  case published =>
    intro q
    rw [hpieces]
    exact publish_exclusive _ _ q

/-- Whenever the fault path fills a chunk, the fill returns and keeps to its
buffers: it is the fill of the pool, with nothing out of bounds, each shared
page of the chunk staged once in its life, and the scratch buffer used up. -/
theorem fill_keeps_to_buffers {pr : Process} (h : Reachable pr) {k : PoolId} (hk : k ∈ pr.pools)
    (hs : MicroRun ⟨pr.pool k,pr.vm⟩ s) (hl : Live s.pool (rid,c))
    (hi : (s.pool.region rid).initialized c = false) :
    ∃ ops s', FillTrace.fillChunkLocked s rid c = some (ops,s') ∧
      PoolMachine.fillChunkLocked s rid c = some s' ∧ FillSafe s rid c ops := by
  obtain ⟨hot,cold,hp⟩ := (reachable_inv h).pool k hk
  obtain ⟨ms,hrun⟩ := MicroRun.labelled hs
  obtain ⟨⟨hsize,hot',cold',hinv⟩,-⟩ :=
    buffersSized_lifelong.along hrun ⟨hot,cold,hp⟩ (buffersSized_lifelong.reachable h k hk)
  have hst := stagedOnce_lifelong.run hs ⟨hot,cold,hp⟩ (stagedOnce_lifelong.reachable h k hk)
  obtain ⟨s₁,he,-⟩ := fill_spec hinv hl hi
  have herased := fill_erased s rid hl.2
  rw [he] at herased
  obtain ⟨⟨ops,s₂⟩,hf,rfl⟩ := Option.map_eq_some_iff.mp herased
  exact ⟨ops,s₂,hf,he,fill_safe hsize hst hl hf⟩

/-- The first fill of the sample's chunk 0, whose last two bytes are on a shared
page. -/
theorem fill_keeps_to_buffers_sample :
    let ops := [.fillChunk ⟨8,0,6⟩,.findSharedPage 4 (some 0),.memcpy 0 ⟨4,0,2⟩ ⟨8,4,2⟩,.seal,
      .consume (.publish 0 4 16),.consume (.discard 4 4)]
    ∃ s', FillTrace.fillChunkLocked ⟨sample.pool 0,sample.vm⟩ 0 0 = some (ops,s') ∧
      FillSafe ⟨sample.pool 0,sample.vm⟩ 0 0 ops := by
  intro ops
  have hops : (FillTrace.fillChunkLocked ⟨sample.pool 0,sample.vm⟩ 0 0).map Prod.fst = some ops := by
    decide +kernel
  have hlive : Live (sample.pool 0) (0,0) := ⟨by decide,by decide⟩
  obtain ⟨ops',s',hf,-,hsafe⟩ := fill_keeps_to_buffers sample_reachable
    (show 0 ∈ sample.pools by decide) Relation.ReflTransGen.refl hlive rfl
  rw [hf] at hops
  obtain rfl : ops' = ops := Option.some.inj hops
  exact ⟨s',hf,hsafe⟩

end Runs

end FaultCache.FillSafety
