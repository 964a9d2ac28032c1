import FaultCache.LabelledRuns
import FaultCache.ProcessContract

/-!
# Properties of a pool over its lifetime

A pool starts empty, takes in regions, runs the four chunk operations while
faults are resolved, and forgets the chunks of regions that are destroyed. What
survives each of these holds in every reachable process. Two invariants of this
kind tie the pool to its history: which chunks have ever been filled decides
what is staged, and the order of fills and promotions is the order of the queue.
-/

set_option autoImplicit false

namespace FaultCache.PoolLifetime
open FaultCache.SentinelRing FaultCache.PageGeometry FaultCache.SharedPages FaultCache.VmPages
open FaultCache.PoolMachine FaultCache.PoolStaging FaultCache.PoolQueue FaultCache.PoolMemory
open FaultCache.PoolHistory FaultCache.PoolInvariant FaultCache.PoolResolve FaultCache.FaultProcess
open FaultCache.ProcessInvariant FaultCache.ProcessContract FaultCache.LabelledRuns

theorem MicroRun.labelled {s s' : State} (h : MicroRun s s') : ∃ ms, Run Micro s ms s' := by
  induction h with
  | refl => exact ⟨[],.start⟩
  | tail _ he ih =>
    obtain ⟨ms,hms⟩ := ih
    obtain ⟨e,he⟩ := he
    exact ⟨_,.move hms he⟩

/-- A run records its labels. -/
theorem run_history {s s' : State} {ms : List (State × Event)} (hr : Run Micro s ms s')
    (hi : ∃ hot cold, PoolInv s hot cold) :
    s'.pool.history = ms.map Prod.snd ++ s.pool.history ∧ ∃ hot cold, PoolInv s' hot cold := by
  induction hr with
  | start => exact ⟨rfl,hi⟩
  | move _ hm ih =>
    obtain ⟨hh,hot,cold,hinv⟩ := ih
    obtain ⟨ht,hinv'⟩ := hm.touched hinv
    refine ⟨?_,hinv'⟩
    rw [ht.history,hh]
    rfl

/-- What every operation that meets the guard preserves holds in every state of
a run of such operations. -/
theorem run_keeps {Q : State → Prop} (Guard : Event → Prop)
    (hkeep : ∀ {v v' e hot cold}, PoolInv v hot cold → Micro v e v' → Guard e → Q v → Q v')
    {s s' : State} {ms : List (State × Event)} (hr : Run Micro s ms s')
    (hi : ∃ hot cold, PoolInv s hot cold) (hq : Q s) (hg : ∀ m ∈ ms, Guard m.2) :
    (Q s' ∧ ∃ hot cold, PoolInv s' hot cold) ∧ ∀ m ∈ ms, Q m.1 ∧ ∃ hot cold, PoolInv m.1 hot cold := by
  let Good : State → Prop := fun v => Q v ∧ ∃ hot cold, PoolInv v hot cold
  have hstep : ∀ {v v' e}, Good v → Micro v e v' → Guard e → Good v' := by
    rintro v v' e ⟨hv,hot,cold,hinv⟩ hm he
    exact ⟨hkeep hinv hm he hv,(hm.touched hinv).2⟩
  exact Run.guarded (fun _ e => Guard e) (show Good s from ⟨hq,hi⟩) hstep hr hg

/-- A property that every event in the life of a pool preserves. -/
structure Lifelong (Q : Pool → Prop) : Prop where
  init : ∀ targetSize, Q (poolInit targetSize)
  micro : ∀ {s s' e hot cold}, PoolInv s hot cold → Micro s e s' → Q s.pool → Q s'.pool
  count : ∀ {s} rid, Q s.pool → Q (countHandled s rid).pool
  insert : ∀ {p vm hot cold rid P sizes total} (ha : Accepted P sizes total) (base fill),
    PoolInv ⟨p,vm⟩ hot cold → rid ∉ p.regions → (∀ e ∈ p.history, (node e).1 ≠ rid) → Q p →
      Q (regionListInsert p rid (regionInit (Layout.ofSizes P sizes total ha) base fill))
  forget : ∀ {p p' hot cold n}, Queue p hot cold → lruForgetChunk p n = some p' → Q p → Q p'
  remove : ∀ {p} rid, Q p → Q (regionListRemove p rid)

namespace Lifelong
variable {Q : Pool → Prop}

/-- It holds in every state that a run of calls passes through. -/
theorem along {s s' : State} {ms : List (State × Event)} (h : Lifelong Q) (hr : Run Micro s ms s')
    (hi : ∃ hot cold, PoolInv s hot cold) (hq : Q s.pool) :
    (Q s'.pool ∧ ∃ hot cold, PoolInv s' hot cold) ∧
      ∀ m ∈ ms, Q m.1.pool ∧ ∃ hot cold, PoolInv m.1 hot cold := by
  have hkeep : ∀ {v v' e hot cold}, PoolInv v hot cold → Micro v e v' → True → Q v.pool → Q v'.pool :=
    fun hinv hm _ hv => h.micro hinv hm hv
  exact run_keeps (fun _ => True) hkeep hr hi hq (fun _ _ => trivial)

theorem run {s s' : State} (h : Lifelong Q) (hr : MicroRun s s') (hi : ∃ hot cold, PoolInv s hot cold)
    (hq : Q s.pool) : Q s'.pool := by
  obtain ⟨ms,hms⟩ := MicroRun.labelled hr
  exact (h.along hms hi hq).1.1

theorem forgetAll (h : Lifelong Q) {rid : RegionId} (len c : ℕ) {p p' : Pool} {hot cold : List Node}
    (hp : Queue p hot cold) (hf : forgetChunks rid len c p = some p') (hq : Q p) : Q p' := by
  induction len generalizing c p hot cold with
  | zero =>
    cases hf
    exact hq
  | succ len ih =>
    obtain ⟨p₁,e₁,e₂⟩ := Option.bind_eq_some_iff.mp hf
    have hq₁ := h.forget hp e₁ hq
    by_cases hn : (rid,c) ∈ hot ++ cold
    · obtain ⟨e,hnext⟩ := forget_queue hp hn
      obtain rfl := Option.some.inj (e.symm.trans e₁)
      exact ih (c+1) hnext e₂ hq₁
    · obtain rfl := Option.some.inj ((forget_absent hp hn).symm.trans e₁)
      exact ih (c+1) hp e₂ hq₁

theorem step {pr pr' : Process} (h : Lifelong Q) (hi : ProcessInv pr) (hs : Step pr pr')
    (hq : ∀ k ∈ pr.pools, Q (pr.pool k)) : ∀ k ∈ pr'.pools, Q (pr'.pool k) := by
  have hone : ∀ {j : PoolId} {s : State}, Q s.pool → (∀ k ∈ pr.pools, Q ((withState pr j s).pool k)) := by
    intro j s hs k hk
    by_cases hkj : k = j
    · subst hkj
      rw [withState_pool_self]
      exact hs
    · rw [withState_pool_of_ne pr s hkj]
      exact hq k hk
  cases hs with
  | poolCreate target =>
    intro k hk
    rcases List.mem_cons.mp hk with rfl | hk
    · rw [show (fcPoolCreate pr target).pool pr.nextPool = poolInit target from Function.update_self _ _ _]
      exact h.init target
    · rw [show (fcPoolCreate pr target).pool k = pr.pool k from
        Function.update_of_ne (Nat.ne_of_lt (hi.freshPool k hk)) _ _]
      exact hq k hk
  | regionCreate j sizes total fill base hj ha hb =>
    obtain ⟨hot,cold,hp⟩ := hi.pool j hj
    refine hone (s := ⟨_,pr.vm⟩) (h.insert ha base fill hp ?_ ?_ (hq j hj))
    · exact fun hm => Nat.lt_irrefl _ (hi.freshRegion j hj _ hm)
    · exact fun e he hc => Nat.lt_irrefl _ (hc ▸ hi.freshEvent j hj e he)
  | fault addr ours _ he =>
    rcases faultScan_cases he with ⟨-,rfl⟩ | ⟨-,j,hj,x,s,hfind,hun,hs,rfl⟩
    · exact hq
    · obtain ⟨hot,cold,hp⟩ := hi.pool j hj
      obtain ⟨s₁,hot',cold',hs₁,hreach,-⟩ := resolve_spec hp (findRegionLocked_some hfind).1 hun
      obtain rfl := Option.some.inj (hs₁.symm.trans hs)
      exact hone (h.count x (h.run hreach.run ⟨hot,cold,hp⟩ (hq j hj)))
  | regionDestroy j x _ hj hx he =>
    obtain ⟨p,hp,rfl⟩ := Option.map_eq_some_iff.mp he
    obtain ⟨hot,cold,hinv⟩ := hi.pool j hj
    exact hone (s := ⟨regionListRemove p x,_⟩) (h.remove x (h.forgetAll _ 0 hinv.queue hp (hq j hj)))
  | poolDestroy j hj => exact fun k hk => hq k (List.mem_of_mem_erase hk)

/-- It holds of every pool of every reachable process. -/
theorem reachable {pr : Process} (h : Lifelong Q) (hr : Reachable pr) : ∀ k ∈ pr.pools, Q (pr.pool k) := by
  obtain ⟨pageSize,vm,hs⟩ := hr
  suffices hall : ProcessInv pr ∧ ∀ k ∈ pr.pools, Q (pr.pool k) from hall.2
  induction hs with
  | refl => exact ⟨start_inv pageSize vm,fun k hk => absurd hk List.not_mem_nil⟩
  | tail _ hstep ih => exact ⟨step_inv ih.1 hstep,h.step ih.1 hstep ih.2⟩

end Lifelong

theorem countHandled_keeps {β : Type} {g : Region → β} (s : State) (rid x : RegionId)
    (h : ∀ r y, g { r with faultsHandled := y } = g r) :
    g ((countHandled s rid).pool.region x) = g (s.pool.region x) :=
  update_keeps (f := fun r => { r with faultsHandled := r.faultsHandled+1 }) s.pool rid (fun r => h r _) x

/-- Forgetting a chunk changes its flag and the resident counters of its region. -/
theorem forget_region {p p' : Pool} {n : Node} (hf : lruForgetChunk p n = some p') :
    p'.regions = p.regions ∧ p'.history = p.history ∧
    ∀ {β : Type} {g : Region → β}, (∀ r c size, g (dropChunk r c size) = g r) →
      ∀ rid, g (p'.region rid) = g (p.region rid) := by
  unfold lruForgetChunk at hf
  split_ifs at hf with hr
  · obtain ⟨q,hq,rfl⟩ := Option.map_eq_some_iff.mp hf
    rw [lruUnlink,if_pos hr] at hq
    cases hq
    exact ⟨rfl,rfl,fun hg rid => update_keeps (f := fun r => dropChunk r n.2 _) _ n.1 (fun r => hg r _ _) rid⟩
  · cases hf
    exact ⟨rfl,rfl,fun _ _ => rfl⟩

/-- Every live region keeps the layout of the sizes it was created with. -/
def LaidOut (p : Pool) : Prop := ∀ rid ∈ p.regions, ∃ P sizes total, ∃ ha : Accepted P sizes total,
  (p.region rid).layout = Layout.ofSizes P sizes total ha

theorem LaidOut.of_same {p p' : Pool} (h : LaidOut p) (hr : ∀ rid ∈ p'.regions, rid ∈ p.regions)
    (hl : SameLayouts p p') : LaidOut p' := by
  intro rid hm
  rw [hl rid]
  exact h rid (hr rid hm)

theorem laidOut_lifelong : Lifelong LaidOut where
  init := fun _ _ hr => absurd hr List.not_mem_nil
  micro := by
    intro s s' e hot cold hp hm hq
    have ht := (hm.touched hp).1
    exact hq.of_same (fun rid hr => ht.regions ▸ hr) ht.layouts
  count := fun x hq => hq.of_same (fun _ hr => hr)
    (fun rid => countHandled_keeps (g := Region.layout) _ x rid (fun _ _ => rfl))
  insert := by
    intro p vm hot cold x P sizes total ha base fill hp hx hh hq rid hr
    rcases mem_regionListInsert hr with rfl | hr
    · rw [insert_region_self]
      exact ⟨P,sizes,total,ha,rfl⟩
    · rw [regionInsert_old hx hr]
      exact hq rid hr
  forget := by
    intro p p' hot cold n hp hf hq
    obtain ⟨h1,-,h3⟩ := forget_region hf
    exact hq.of_same (fun rid hr => h1 ▸ hr) (h3 (g := Region.layout) (fun _ _ _ => rfl))
  remove := fun x hq => hq.of_same (fun _ hr => List.mem_of_mem_erase hr) (fun _ => rfl)

section Staging

/-- Outside of fills only the counters and the chunk flags of a region change. -/
theorem Micro.keeps {β : Type} {g : Region → β} (hcount : ∀ r c, g (countFault r c) = g r)
    (hdrop : ∀ r c size, g (dropChunk r c size) = g r) {s s' : State} {e : Event} {hot cold : List Node}
    (hm : Micro s e s') (h : PoolInv s hot cold) (he : sets e ≠ some true) (rid : RegionId) :
    g (s'.pool.region rid) = g (s.pool.region rid) := by
  cases hm with
  | fill hl hi hf => exact absurd rfl he
  | @promote _ n hr hc hf =>
    have hq := (h.queue.order.resident _).mp hr
    obtain ⟨e₁,-⟩ := promote_queue h.queue ((h.queue.order.cold_iff hq).mp hc)
    obtain rfl := Option.some.inj (e₁.symm.trans hf)
    exact update_keeps (f := fun r => countFault r n.2) _ n.1 (fun r => hcount r _) rid
  | demote ht hmid => rfl
  | @evict _ n ht hr hf =>
    obtain ⟨e₁,-⟩ := evict_spec h ((h.queue.order.resident _).mp hr) ht
    obtain rfl := Option.some.inj (e₁.symm.trans hf)
    exact update_keeps (f := fun r => dropChunk r n.2 _) _ n.1 (fun r => hdrop r _ _) rid

/-- A chunk with a slice of a shared page counts as staged once it has been
filled. Region identifiers are not reused, so the history of a chunk begins
with its region. -/
def StagedOnce (p : Pool) : Prop :=
  ∀ rid ∈ p.regions, ∀ k < nshared (p.region rid).layout, ∀ c ∈ contributors (p.region rid).layout k,
    (p.region rid).chunkStaged c = decide (0 < fills (rid,c) p.history)

theorem StagedOnce.of_same {p p' : Pool} (h : StagedOnce p) (hr : ∀ rid ∈ p'.regions, rid ∈ p.regions)
    (hl : ∀ rid ∈ p'.regions, (p'.region rid).layout = (p.region rid).layout)
    (hs : ∀ rid ∈ p'.regions, (p'.region rid).chunkStaged = (p.region rid).chunkStaged)
    (hf : ∀ n, fills n p'.history = fills n p.history) : StagedOnce p' := by
  intro rid hm k hk c hc
  rw [hl rid hm] at hk hc
  rw [hs rid hm,hf]
  exact h rid (hr rid hm) k hk c hc

theorem fills_absent {n : Node} {h : List Event} (hn : ∀ e ∈ h, node e ≠ n) : fills n h = 0 := by
  rw [fills,List.countP_eq_zero]
  intro e he hc
  simp only [decide_eq_true_eq] at hc
  exact hn e he hc.1

theorem micro_stagedOnce {s s' : State} {e : Event} {hot cold : List Node} (h : PoolInv s hot cold)
    (hm : Micro s e s') (hq : StagedOnce s.pool) : StagedOnce s'.pool := by
  have ht := (hm.touched h).1
  by_cases he : sets e = some true
  · cases hm with
    | @fill _ x d hl hi hf =>
      have hstaged := fill_staged h hl hf
      intro rid hr k hk c hc
      rw [ht.layouts rid] at hk hc
      rw [ht.regions] at hr
      rw [ht.history,fills_cons]
      by_cases hx : rid = x
      · subst hx
        by_cases hd : c = d
        · subst hd
          simp [hstaged.2 k hk hc,node,sets]
        · rw [hstaged.1 c hd,hq rid hr k hk c hc]
          simp [node,Ne.symm hd]
      · rw [ht.others rid hx,hq rid hr k hk c hc]
        simp [node,Ne.symm hx]
    | promote => cases he
    | demote => cases he
    | evict => cases he
  · refine hq.of_same (fun rid hr => ht.regions ▸ hr) (fun rid _ => ht.layouts rid)
      (fun rid _ => Micro.keeps (g := Region.chunkStaged) (fun _ _ => rfl) (fun _ _ _ => rfl) hm h he rid)
      (fun n => ?_)
    rw [ht.history,fills_cons,if_neg (fun hc => he hc.2),Nat.add_zero]

theorem stagedOnce_lifelong : Lifelong StagedOnce where
  init := fun _ _ hr => absurd hr List.not_mem_nil
  micro := micro_stagedOnce
  count := by
    intro s x hq
    refine hq.of_same (fun _ hr => hr) (fun rid _ => ?_) (fun rid _ => ?_) (fun _ => rfl)
    · exact countHandled_keeps (g := Region.layout) s x rid (fun _ _ => rfl)
    · exact countHandled_keeps (g := Region.chunkStaged) s x rid (fun _ _ => rfl)
  insert := by
    intro p vm hot cold x P sizes total ha base fill hp hx hh hq rid hr k hk c hc
    rcases mem_regionListInsert hr with rfl | hr
    · rw [insert_region_self]
      have hz : fills (rid,c) p.history = 0 := fills_absent (fun e he hc => hh e he (congrArg Prod.fst hc))
      exact (decide_eq_false (by rw [show (regionListInsert p rid _).history = p.history from rfl,hz]; omega)).symm
    · rw [regionInsert_old hx hr] at hk hc ⊢
      exact hq rid hr k hk c hc
  forget := by
    intro p p' hot cold n hp hf hq
    obtain ⟨h1,h2,h3⟩ := forget_region hf
    exact hq.of_same (fun rid hr => h1 ▸ hr) (fun rid _ => h3 (g := Region.layout) (fun _ _ _ => rfl) rid)
      (fun rid _ => h3 (g := Region.chunkStaged) (fun _ _ _ => rfl) rid) (fun _ => by rw [h2])
  remove := by
    intro p x hq
    exact hq.of_same (fun rid hr => List.mem_of_mem_erase hr) (fun _ _ => rfl) (fun _ _ => rfl) (fun _ => rfl)

/-- The count on a shared page is the number of its chunks that have been filled
since the region was created, it is mapped once that is all of them, and until
then its buffer holds their slices and is zero elsewhere. -/
theorem shared_page_counts_filled_chunks {pr : Process} {k : PoolId} {rid : RegionId} {j : ℕ}
    (h : Reachable pr) (hk : k ∈ pr.pools) (hr : rid ∈ (pr.pool k).regions)
    (hj : j < nshared ((pr.pool k).region rid).layout) :
    let p := pr.pool k
    let r := p.region rid
    let sp := r.sharedPages j
    let span := sharedPage r.layout j
    let filled := (Finset.Icc span.firstChunk span.lastChunk).filter (fun c => 0 < fills (rid,c) p.history)
    sp.staged = filled.card ∧
    (sp.mapped = true ↔ filled.card = span.lastChunk-span.firstChunk+1) ∧
    (sp.staging.isSome = true ↔ 0 < sp.staged ∧ sp.mapped = false) ∧
    ∀ scratch, sp.staging = some scratch → ∀ i < r.layout.pageSize,
      (∀ c ∈ filled, r.layout.Covers c (span.pageOff+i) →
        scratch.bytes i = r.fillChunk c (span.pageOff+i-r.layout.chunkStart c)) ∧
      ((∀ c ∈ filled, ¬ r.layout.Covers c (span.pageOff+i)) → scratch.bytes i = 0) := by
  intro p r sp span filled
  obtain ⟨hot,cold,hp⟩ := (reachable_inv h).pool k hk
  have hst : PageStaged r j (fun c => decide (0 < fills (rid,c) p.history)) :=
    ((hp.region rid hr).staged j hj).congr hj
      (fun c hc => (stagedOnce_lifelong.reachable h k hk rid hr j hj c hc).symm)
  have hcard : sp.staged = filled.card := by
    rw [hst.staged]
    simp only [decide_eq_true_eq]
    rfl
  refine ⟨hcard,?_,?_,?_⟩
  · rw [hst.mapped,← contributors_card r.layout hj,← full_iff,← hst.staged,hcard]
  · have hnone := hst.staging
    have hempty : (∀ c ∈ contributors r.layout j, decide (0 < fills (rid,c) p.history) = false) ↔
        sp.staged = 0 := by
      rw [hcard,Finset.card_eq_zero,Finset.filter_eq_empty_iff]
      simp only [decide_eq_false_iff_not]
      rfl
    rw [hempty] at hnone
    rw [Option.isSome_iff_ne_none,ne_eq,hnone,not_or,Bool.not_eq_true,Nat.pos_iff_ne_zero]
  · intro scratch hs i hi
    have hb := hst.bytes scratch hs i hi
    constructor
    · intro c hc hcov
      obtain ⟨hcon,hfill⟩ := Finset.mem_filter.mp hc
      have hlt := contributor_lt r.layout hj hcon
      have htot : span.pageOff+i < r.layout.totalSize :=
        lt_of_lt_of_le hcov.2 (r.layout.start_le_total hlt)
      rw [hb,r.layout.findChunk_eq hlt hcov,if_pos (decide_eq_true hfill),content,if_pos htot,
        r.layout.findChunk_eq hlt hcov]
    · intro hnot
      rw [hb]
      by_cases htot : span.pageOff+i < r.layout.totalSize
      · rw [if_neg]
        intro hfill
        exact hnot _ (Finset.mem_filter.mpr ⟨covering_contributes r.layout hj hi,of_decide_eq_true hfill⟩)
          (r.layout.findChunk_covers htot)
      -- Past the end of the last chunk there is only padding.
      · rw [content,if_neg htot,ite_self]

/-- After the sample's fault both chunks of its shared page have been filled. -/
theorem shared_page_counts_filled_chunks_sample :
    (((sampleFaulted.pool 0).region 0).sharedPages 0).staged = 2 ∧
    ((((sampleFaulted.pool 0).region 0).sharedPages 0).mapped = true ↔
      ((Finset.Icc 0 1).filter (fun c => 0 < fills (0,c) (sampleFaulted.pool 0).history)).card = 2) := by
  have h := shared_page_counts_filled_chunks (k := 0) (j := 0) sampleFaulted_reachable
    (by decide) (show 0 ∈ (sampleFaulted.pool 0).regions by decide) (by decide)
  exact ⟨by decide,h.2.1⟩

end Staging

section Recency

/-- Fills and promotions are the events that bring a chunk to the front. -/
def refreshes : Event → Bool
  | .fill _ _ => true
  | .promote _ => true
  | .demote _ => false
  | .evict _ => false

/-- The position in the history of a chunk's latest fill or promotion. -/
def stamp (n : Node) : List Event → ℕ
  | [] => 0
  | e::h => if node e = n ∧ refreshes e = true then h.length+1 else stamp n h

theorem stamp_le_length (n : Node) (h : List Event) : stamp n h ≤ h.length := by
  induction h with
  | nil => exact le_refl _
  | cons e h ih =>
    rw [stamp,List.length_cons]
    split_ifs
    · exact le_refl _
    · omega

theorem stamp_cons_of_ne {n : Node} {e : Event} {h : List Event} (hn : node e ≠ n) :
    stamp n (e::h) = stamp n h := if_neg (fun hc => hn hc.1)

theorem stamp_cons_stale {n : Node} {e : Event} {h : List Event} (he : refreshes e = false) :
    stamp n (e::h) = stamp n h := if_neg (fun hc => by rw [he] at hc; cases hc.2)

/-- Strictly newer stamps towards the front. -/
def NewestFirst (h : List Event) (q : List Node) : Prop :=
  q.Pairwise (fun m n => stamp n h < stamp m h)

theorem NewestFirst.nodup {h : List Event} {q : List Node} (hq : NewestFirst h q) : q.Nodup := by
  apply List.Pairwise.imp _ hq
  rintro m n hlt rfl
  exact Nat.lt_irrefl _ hlt

/-- A chunk that is brought to the front carries the newest stamp. -/
theorem NewestFirst.refresh {h : List Event} {q : List Node} {e : Event} (hq : NewestFirst h q)
    (he : refreshes e = true) : NewestFirst (e::h) (node e::q.erase (node e)) := by
  have hne : ∀ m ∈ q.erase (node e), node e ≠ m := by
    rintro m hm rfl
    exact hq.nodup.not_mem_erase hm
  rw [NewestFirst,List.pairwise_cons]
  constructor
  · intro m hm
    have hle := stamp_le_length m h
    rw [stamp_cons_of_ne (hne m hm),stamp,if_pos ⟨rfl,he⟩]
    omega
  · refine (List.Pairwise.sublist List.erase_sublist hq).imp_of_mem ?_
    intro m n hm hn hlt
    rw [stamp_cons_of_ne (hne m hm),stamp_cons_of_ne (hne n hn)]
    exact hlt

/-- Each operation keeps the queue and the stamps in step. -/
theorem NewestFirst.requeued {h : List Event} {q : List Node} (hq : NewestFirst h q) (e : Event) :
    NewestFirst (e::h) (requeued e q) := by
  have hstale : refreshes e = false → NewestFirst (e::h) q := fun he => by
    unfold NewestFirst
    simp only [stamp_cons_stale he]
    exact hq
  cases e with
  | fill n size => exact hq.refresh (e := .fill n size) rfl
  | promote n => exact hq.refresh (e := .promote n) rfl
  | demote n => exact hstale rfl
  | evict n => exact List.Pairwise.sublist List.erase_sublist (hstale rfl)

def Stamped (p : Pool) : Prop := ∀ q, Ring p.links q → NewestFirst p.history q

theorem Stamped.of_ring {p : Pool} {q : List Node} (hr : Ring p.links q) (hq : NewestFirst p.history q) :
    Stamped p := fun _ hr' => ring_unique hr hr' ▸ hq

theorem stamped_lifelong : Lifelong Stamped where
  init := fun targetSize => .of_ring ring_empty List.Pairwise.nil
  micro := by
    intro s s' e hot cold hp hm hq
    obtain ⟨ht,hot',cold',hp',hqueue⟩ := hm.spec hp
    apply Stamped.of_ring hp'.queue.order.ring
    rw [hqueue,ht.history]
    exact (hq _ hp.queue.order.ring).requeued e
  count := fun _ hq => hq
  insert := by
    intro p vm hot cold x P sizes total ha base fill hp hx hh hq
    exact .of_ring (insert_order_fresh hp.queue hx).ring (hq _ hp.queue.order.ring)
  forget := by
    intro p p' hot cold n hp hf hq
    by_cases hn : n ∈ hot ++ cold
    · obtain ⟨e₁,hp'⟩ := forget_queue hp hn
      obtain rfl := Option.some.inj (e₁.symm.trans hf)
      apply Stamped.of_ring hp'.order.ring
      rw [← erase_append_of_nodup hp.order.nodup]
      exact List.Pairwise.sublist List.erase_sublist (hq _ hp.order.ring)
    · obtain rfl := Option.some.inj ((forget_absent hp hn).symm.trans hf)
      exact hq
  remove := fun _ hq => hq

end Recency

end FaultCache.PoolLifetime
