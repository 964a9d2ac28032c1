import FaultCache.PoolInvariant
import FaultCache.SplitRecency
import Mathlib.Logic.Relation

/-!
# Resolving one fault

Serving the page, evicting and rebalancing are sequences of the four chunk
operations. Each loop is described by what it leaves of the queue: eviction a
prefix of it, rebalancing a prefix of its hot half.
-/

set_option autoImplicit false

namespace FaultCache.PoolResolve
open FaultCache.SentinelRing FaultCache.PageGeometry FaultCache.SharedPages FaultCache.VmPages
open FaultCache.PoolMachine FaultCache.PoolStaging FaultCache.PoolQueue FaultCache.PoolMemory
open FaultCache.PoolHistory FaultCache.PoolInvariant FaultCache.BudgetPrefix FaultCache.SplitRecency

/-- The calls the fault path makes, with the guards it makes them under. -/
inductive Micro : State → Event → State → Prop
  | fill {s s' : State} {rid : RegionId} {c : ℕ} (hl : Live s.pool (rid,c))
      (hi : (s.pool.region rid).initialized c = false) (h : fillChunkLocked s rid c = some s') :
      Micro s (.fill (rid,c) ((s.pool.region rid).layout.chunkSize c)) s'
  | promote {s s' : State} {n : Node} (hr : s.pool.resident n = true) (hc : s.pool.cold n = true)
      (h : promoteChunk s n.1 n.2 = some s') : Micro s (.promote n) s'
  | demote {s : State} {n : Node} (ht : 0 < s.pool.targetSize) (hm : s.pool.midpoint = .node n) :
      Micro s (.demote n) (demote s n)
  | evict {s s' : State} {n : Node} (ht : 0 < s.pool.targetSize) (hr : s.pool.resident n = true)
      (h : lruEvictChunk s n = some s') : Micro s (.evict n) s'

def MicroRun : State → State → Prop := Relation.ReflTransGen (fun s s' => ∃ e, Micro s e s')

/-- The queue after an operation: fills and promotions put their chunk at the
front, and a demotion only moves the midpoint. -/
def requeued : Event → List Node → List Node
  | .fill n _, q => n::q.erase n
  | .promote n, q => n::q.erase n
  | .demote _, q => q
  | .evict n, q => q.erase n

/-- Every call keeps the invariant, stays within its frame and moves its chunk
only. -/
theorem Micro.spec {s s' : State} {e : Event} {hot cold : List Node} (hm : Micro s e s')
    (h : PoolInv s hot cold) : Touched s e s' ∧
    ∃ hot' cold', PoolInv s' hot' cold' ∧ hot' ++ cold' = requeued e (hot ++ cold) := by
  cases hm with
  | fill hl hi he =>
    obtain ⟨s₁,e₁,t₁,i₁⟩ := fill_spec h hl hi
    obtain rfl : s₁ = s' := Option.some.inj (e₁.symm.trans he)
    refine ⟨t₁,_,_,i₁,?_⟩
    have hn := mt (h.initialized_iff hl).mpr (by simp [hi])
    rw [requeued,List.erase_of_not_mem hn]
    rfl
  | promote hr hc he =>
    have hq := (h.queue.order.resident _).mp hr
    have hn := (h.queue.order.cold_iff hq).mp hc
    obtain ⟨e₁,t₁,i₁⟩ := promote_spec h hn
    obtain rfl := Option.some.inj (e₁.symm.trans he)
    refine ⟨t₁,_,_,i₁,?_⟩
    rw [requeued,List.erase_append_right _ (fun hh => h.queue.order.disjoint hh hn)]
    rfl
  | demote ht hmid =>
    rw [h.queue.order.midpoint] at hmid
    rcases List.eq_nil_or_concat hot with rfl | ⟨hs,m,rfl⟩
    · cases hmid
    · rw [List.concat_eq_append] at *
      rw [lastRef_concat] at hmid
      cases hmid
      obtain ⟨t₁,i₁⟩ := demote_spec h ht
      exact ⟨t₁,_,_,i₁,by simp [requeued]⟩
  | evict ht hr he =>
    obtain ⟨e₁,t₁,i₁⟩ := evict_spec h ((h.queue.order.resident _).mp hr) ht
    obtain rfl := Option.some.inj (e₁.symm.trans he)
    exact ⟨t₁,_,_,i₁,(erase_append_of_nodup h.queue.order.nodup).symm⟩

theorem Micro.touched {s s' : State} {e : Event} {hot cold : List Node} (hm : Micro s e s')
    (h : PoolInv s hot cold) : Touched s e s' ∧ ∃ hot' cold', PoolInv s' hot' cold' := by
  obtain ⟨t₁,hot',cold',i₁,-⟩ := hm.spec h
  exact ⟨t₁,hot',cold',i₁⟩

theorem MicroRun.trans {s s' s₂ : State} (h : MicroRun s s') (h₂ : MicroRun s' s₂) : MicroRun s s₂ :=
  Relation.ReflTransGen.trans h h₂

theorem MicroRun.one {s s' : State} {e : Event} (h : Micro s e s') : MicroRun s s' :=
  Relation.ReflTransGen.single ⟨e,h⟩

/-- Induction over a run of calls that starts in a good state. -/
theorem MicroRun.induct {s s' : State} {motive : State → Prop} (hr : MicroRun s s')
    (hi : ∃ hot cold, PoolInv s hot cold) (h0 : motive s)
    (hstep : ∀ s₁ e s₂, (∃ hot cold, PoolInv s₁ hot cold) → Touched s₁ e s₂ →
      (∃ hot cold, PoolInv s₂ hot cold) → motive s₁ → motive s₂) :
    motive s' ∧ ∃ hot cold, PoolInv s' hot cold := by
  induction hr with
  | refl => exact ⟨h0,hi⟩
  | tail _ he ih =>
    obtain ⟨hm,hot,cold,hinv⟩ := ih
    obtain ⟨e,he⟩ := he
    obtain ⟨ht,hinv'⟩ := he.touched hinv
    exact ⟨hstep _ e _ ⟨hot,cold,hinv⟩ ht hinv' hm,hinv'⟩

/-- What eviction leaves of the queue: a prefix, cut from the cold end first,
that keeps the protected chunks and every prefix within the budget. It stops
within the budget or at a protected chunk. -/
structure Evicted (p : Pool) (hit : Node → Prop) (hot cold hot' cold' : List Node) : Prop where
  hotPrefix : hot' <+: hot
  coldPrefix : cold' <+: cold
  coldFirst : cold' = [] ∨ hot' = hot
  kept : ∀ n ∈ hot ++ cold, hit n → n ∈ hot' ++ cold'
  stop : sizeSum p (hot' ++ cold') ≤ p.targetSize ∨ ∃ q n, hot' ++ cold' = q ++ [n] ∧ hit n
  longest : ∀ q, q <+: hot ++ cold → sizeSum p q ≤ p.targetSize → q <+: hot' ++ cold'

theorem Evicted.isPrefix {p : Pool} {hit : Node → Prop} {hot cold hot' cold' : List Node}
    (h : Evicted p hit hot cold hot' cold') : hot' ++ cold' <+: hot ++ cold := by
  rcases h.coldFirst with rfl | rfl
  · rw [List.append_nil]
    exact h.hotPrefix.trans (List.prefix_append _ _)
  · exact (List.prefix_append_right_inj _).mpr h.coldPrefix

/-- One more victim `v` at the back. -/
theorem Evicted.step {p : Pool} {hit : Node → Prop} {hot cold hot₁ cold₁ hot' cold' : List Node}
    {v : Node} (h : Evicted p hit hot₁ cold₁ hot' cold')
    (hq : hot ++ cold = hot₁ ++ cold₁ ++ [v]) (hh : hot₁ <+: hot) (hc : cold₁ <+: cold)
    (hf : cold₁ = [] ∨ hot₁ = hot) (hv : ¬ hit v) (hb : p.targetSize < sizeSum p (hot ++ cold)) :
    Evicted p hit hot cold hot' cold' where
  hotPrefix := h.hotPrefix.trans hh
  coldPrefix := h.coldPrefix.trans hc
  coldFirst := by
    rcases h.coldFirst with hc' | hh'
    · exact Or.inl hc'
    · rcases hf with rfl | rfl
      · exact Or.inl (List.prefix_nil.mp h.coldPrefix)
      · exact Or.inr hh'
  kept := by
    intro n hn hhit
    apply h.kept n _ hhit
    rw [hq,List.mem_append] at hn
    rcases hn with hn | hn
    · exact hn
    · rw [List.mem_singleton] at hn
      subst hn
      exact absurd hhit hv
  stop := h.stop
  longest := by
    intro q hp hw
    refine h.longest q (prefix_of_concat (hq ▸ hp) ?_) hw
    rintro rfl
    rw [hq] at hb
    omega

theorem erase_concat {q : List Node} {v : Node} (h : (q ++ [v]).Nodup) : (q ++ [v]).erase v = q := by
  have hv : v ∉ q := fun hm => (List.nodup_append.mp h).2.2 v hm v (by simp) rfl
  rw [List.erase_append_right _ hv]
  simp

/-- The last queued node, taken off whichever half it is in. -/
theorem back_split {hot cold q : List Node} {v : Node} (h : (hot ++ cold).Nodup)
    (hq : hot ++ cold = q ++ [v]) :
    hot ++ cold = hot.erase v ++ cold.erase v ++ [v] ∧ hot.erase v <+: hot ∧ cold.erase v <+: cold ∧
      (cold.erase v = [] ∨ hot.erase v = hot) := by
  rcases List.eq_nil_or_concat cold with rfl | ⟨cs,m,rfl⟩
  · rw [List.append_nil] at *
    subst hq
    rw [erase_concat h]
    exact ⟨by simp,List.prefix_append _ _,by simp,Or.inl (by simp)⟩
  · rw [List.concat_eq_append] at *
    rw [← List.append_assoc] at hq
    obtain ⟨-,hm⟩ := List.append_inj' hq rfl
    cases hm
    have hvh : v ∉ hot := fun hm => (List.nodup_append.mp h).2.2 v hm v (by simp) rfl
    rw [erase_concat (List.nodup_append.mp h).2.1,List.erase_of_not_mem hvh]
    exact ⟨by simp,List.prefix_refl _,List.prefix_append _ _,Or.inr rfl⟩

theorem evicted_refl {p : Pool} {hit : Node → Prop} {hot cold : List Node}
    (h : sizeSum p (hot ++ cold) ≤ p.targetSize ∨ ∃ q n, hot ++ cold = q ++ [n] ∧ hit n) :
    Evicted p hit hot cold hot cold :=
  ⟨List.prefix_refl _,List.prefix_refl _,Or.inr rfl,fun _ hn _ => hn,h,fun _ hq _ => hq⟩

def Protected (rid : RegionId) (lo hi : ℕ) (n : Node) : Prop := n.1 = rid ∧ lo ≤ n.2 ∧ n.2 ≤ hi

/-- What holds of a state and of the state a loop leaves. -/
structure Reaches (s s' : State) (hot' cold' : List Node) : Prop where
  run : MicroRun s s'
  inv : PoolInv s' hot' cold'
  layouts : SameLayouts s.pool s'.pool
  target : s'.pool.targetSize = s.pool.targetSize
  regions : s'.pool.regions = s.pool.regions

theorem Reaches.refl {s : State} {hot cold : List Node} (h : PoolInv s hot cold) :
    Reaches s s hot cold :=
  ⟨Relation.ReflTransGen.refl,h,fun _ => rfl,rfl,rfl⟩

theorem Reaches.trans {s s' s₂ : State} {hot' cold' hot₂ cold₂ : List Node}
    (h : Reaches s s' hot' cold') (h₂ : Reaches s' s₂ hot₂ cold₂) : Reaches s s₂ hot₂ cold₂ :=
  ⟨h.run.trans h₂.run,h₂.inv,fun r => (h₂.layouts r).trans (h.layouts r),h₂.target.trans h.target,
    h₂.regions.trans h.regions⟩

theorem Touched.reaches {s s' : State} {e : Event} {hot' cold' : List Node} (ht : Touched s e s')
    (hm : Micro s e s') (hi : PoolInv s' hot' cold') : Reaches s s' hot' cold' :=
  ⟨MicroRun.one hm,hi,ht.layouts,ht.target,ht.regions⟩

/-- Victims come off the back until the pool fits. Fuel for one step per
queued node is enough, and the victim is never the sentinel. -/
theorem evict_loop_spec (rid : RegionId) (lo hi : ℕ) (fuel : ℕ) :
    ∀ (s : State) (hot cold : List Node), PoolInv s hot cold → 0 < s.pool.targetSize →
      (hot ++ cold).length < fuel →
      ∃ s' hot' cold', evictLoop rid lo hi fuel s = some s' ∧ Reaches s s' hot' cold' ∧
        Evicted s.pool (Protected rid lo hi) hot cold hot' cold' := by
  induction fuel with
  | zero => intro s hot cold _ _ hf; omega
  | succ fuel ih =>
    intro s hot cold h ht hf
    have hbytes := h.queue.account.bytes
    rw [evictLoop]
    by_cases hover : s.pool.targetSize < s.pool.residentBytes
    · rw [if_pos hover]
      rcases List.eq_nil_or_concat (hot ++ cold) with hnil | ⟨q,v,hq⟩
      · rw [hnil,sizeSum_nil] at hbytes
        omega
      · rw [List.concat_eq_append] at hq
        have hprev : s.pool.links.prev .head = .node v := by
          rw [ring_prev_head h.queue.order.ring,hq,lastRef_concat]
        simp only [hprev]
        by_cases hprot : v.1 = rid ∧ lo ≤ v.2 ∧ v.2 ≤ hi
        · rw [if_pos hprot]
          exact ⟨s,hot,cold,rfl,Reaches.refl h,evicted_refl (Or.inr ⟨q,v,hq,hprot⟩)⟩
        · rw [if_neg hprot]
          have hv : v ∈ hot ++ cold := by rw [hq]; simp
          obtain ⟨e₁,t₁,i₁⟩ := evict_spec h hv ht
          obtain ⟨b1,b2,b3,b4⟩ := back_split h.queue.order.nodup hq
          have hm : Micro s (.evict v) (evicted s v) :=
            .evict ht ((h.queue.order.resident v).mpr hv) e₁
          obtain ⟨s',hot',cold',e₂,r₂,x₂⟩ := ih (evicted s v) _ _ i₁ (by rw [t₁.target]; exact ht)
            (by rw [b1,List.length_append] at hf; simp at hf ⊢; omega)
          refine ⟨s',hot',cold',?_,(Touched.reaches t₁ hm i₁).trans r₂,?_⟩
          · rw [e₁]
            exact e₂
          · have hx : Evicted s.pool (Protected rid lo hi) (hot.erase v) (cold.erase v) hot' cold' := by
              obtain ⟨x1,x2,x3,x4,x5,x6⟩ := x₂
              simp only [t₁.layouts.sizeSum,t₁.target] at x5 x6
              exact ⟨x1,x2,x3,x4,x5,x6⟩
            exact hx.step b1 b2 b3 b4 hprot (by rw [← hbytes]; exact hover)
    · rw [if_neg hover]
      exact ⟨s,hot,cold,rfl,Reaches.refl h,evicted_refl (Or.inl (by omega))⟩

/-- What rebalancing leaves of the hot half: a prefix with the front node, at
most half the resident bytes or the front node alone. -/
structure Rebalanced (p : Pool) (half : ℕ) (hot cold hot' cold' : List Node) : Prop where
  whole : hot' ++ cold' = hot ++ cold
  hotPrefix : hot' <+: hot
  front : hot'.head? = hot.head?
  stop : sizeSum p hot' ≤ half ∨ hot'.length ≤ 1
  longest : ∀ q, q <+: hot → sizeSum p q ≤ half → q <+: hot'

theorem rebalanced_refl {p : Pool} {half : ℕ} {hot cold : List Node}
    (h : sizeSum p hot ≤ half ∨ hot.length ≤ 1) : Rebalanced p half hot cold hot cold :=
  ⟨rfl,List.prefix_refl _,rfl,h,fun _ hq _ => hq⟩

theorem midpoint_ne_first {s : State} {hot cold : List Node} {m n : Node}
    (h : PoolInv s (m::hot ++ [n]) cold) : s.pool.midpoint ≠ s.pool.links.next .head := by
  have hnd := h.queue.order.nodup
  rw [h.queue.order.midpoint,ring_next_head h.queue.order.ring,lastRef_concat]
  intro he
  have hmn : n = m := Ref.node.inj he
  subst hmn
  simp at hnd

theorem rebalance_loop_spec (fuel : ℕ) :
    ∀ (s : State) (hot cold : List Node), PoolInv s hot cold → 0 < s.pool.targetSize →
      hot.length < fuel →
      ∃ s' hot' cold', rebalanceLoop fuel s = some s' ∧ Reaches s s' hot' cold' ∧
        Rebalanced s.pool (sizeSum s.pool (hot ++ cold)/2) hot cold hot' cold' := by
  induction fuel with
  | zero => intro s hot cold _ _ hf; omega
  | succ fuel ih =>
    intro s hot cold h ht hf
    have hbytes := h.queue.account.bytes
    have hhot := h.queue.order.hotBytes
    rw [rebalanceLoop]
    rcases List.eq_nil_or_concat hot with rfl | ⟨hs,n,rfl⟩
    · rw [sizeSum_nil] at hhot
      rw [if_neg (by omega)]
      exact ⟨s,[],cold,rfl,Reaches.refl h,rebalanced_refl (Or.inr (by simp))⟩
    · rw [List.concat_eq_append] at *
      have hmid : s.pool.midpoint = .node n := by rw [h.queue.order.midpoint,lastRef_concat]
      by_cases hgo : s.pool.residentBytes/2 < s.pool.hotBytes ∧ s.pool.midpoint ≠ s.pool.links.next .head
      · rw [if_pos hgo]
        simp only [hmid]
        obtain ⟨t₁,i₁⟩ := demote_spec h ht
        have hm : Micro s (.demote n) (demote s n) := .demote ht hmid
        obtain ⟨s',hot',cold',e₂,r₂,x₂⟩ := ih (demote s n) _ _ i₁ (by rw [t₁.target]; exact ht)
          (by simp at hf; omega)
        refine ⟨s',hot',cold',e₂,(Touched.reaches t₁ hm i₁).trans r₂,?_⟩
        have hwhole : hs ++ n::cold = hs ++ [n] ++ cold := by simp
        obtain ⟨x1,x2,x3,x4,x5⟩ := x₂
        simp only [t₁.layouts.sizeSum] at x4 x5
        rw [hwhole] at x1 x4 x5
        refine ⟨x1,x2.trans (List.prefix_append _ _),?_,x4,?_⟩
        · rw [x3]
          cases hs with
          | nil =>
            exfalso
            apply hgo.2
            rw [hmid,ring_next_head h.queue.order.ring]
            rfl
          | cons m ms => rfl
        · intro q hq hw
          refine x5 q (prefix_of_concat hq ?_) hw
          rintro rfl
          have := hgo.1
          omega
      · rw [if_neg hgo]
        refine ⟨s,_,cold,rfl,Reaches.refl h,rebalanced_refl ?_⟩
        rw [not_and_or] at hgo
        rcases hgo with hle | hfirst
        · left
          omega
        · right
          cases hs with
          | nil => simp
          | cons m ms => exact absurd (midpoint_ne_first h) hfirst

/-- Eviction as a whole. An unbounded pool keeps everything. -/
theorem evict_spec_budget {s : State} {hot cold : List Node} (h : PoolInv s hot cold)
    (rid : RegionId) (lo hi : ℕ) :
    ∃ s' hot' cold', evictUntilWithinBudget s rid lo hi = some s' ∧ Reaches s s' hot' cold' ∧
      (0 < s.pool.targetSize → Evicted s.pool (Protected rid lo hi) hot cold hot' cold') ∧
      (s.pool.targetSize = 0 → s' = s ∧ hot' = hot ∧ cold' = cold) := by
  unfold evictUntilWithinBudget
  by_cases h0 : s.pool.targetSize = 0
  · rw [if_pos h0]
    exact ⟨s,hot,cold,rfl,Reaches.refl h,by omega,fun _ => ⟨rfl,rfl,rfl⟩⟩
  · rw [if_neg h0]
    obtain ⟨s',hot',cold',e,r,x⟩ := evict_loop_spec rid lo hi _ s hot cold h (by omega) h.queue.length_lt
    exact ⟨s',hot',cold',e,r,fun _ => x,fun hz => absurd hz h0⟩

theorem rebalance_spec {s : State} {hot cold : List Node} (h : PoolInv s hot cold) :
    ∃ s' hot' cold', lruRebalance s = some s' ∧ Reaches s s' hot' cold' ∧
      (0 < s.pool.targetSize → Rebalanced s.pool (sizeSum s.pool (hot ++ cold)/2) hot cold hot' cold') ∧
      (s.pool.targetSize = 0 → s' = s ∧ hot' = hot ∧ cold' = cold) := by
  unfold lruRebalance
  by_cases h0 : s.pool.targetSize = 0
  · rw [if_pos h0]
    exact ⟨s,hot,cold,rfl,Reaches.refl h,by omega,fun _ => ⟨rfl,rfl,rfl⟩⟩
  · rw [if_neg h0]
    have hf := h.queue.length_lt
    rw [List.length_append] at hf
    obtain ⟨s',hot',cold',e,r,x⟩ := rebalance_loop_spec (lruFuel s.pool) s hot cold h (by omega) (by omega)
    exact ⟨s',hot',cold',e,r,fun _ => x,fun hz => absurd hz h0⟩

/-- What any run of calls leaves alone. Pages change only inside the pool's
own regions, and a published shared page not at all. -/
structure RunFrame (s s' : State) : Prop where
  regions : s'.pool.regions = s.pool.regions
  target : s'.pool.targetSize = s.pool.targetSize
  shape : ∀ r, SameShape (s.pool.region r) (s'.pool.region r)
  pages : ∀ q, s'.vm q ≠ s.vm q → ∃ r ∈ s.pool.regions, InRange (s.pool.region r) q
  history : ∀ e ∈ s'.pool.history, e ∈ s.pool.history ∨ (node e).1 ∈ s.pool.regions
  published : ∀ r k, ((s.pool.region r).sharedPages k).mapped = true →
    (s'.pool.region r).sharedPages k = (s.pool.region r).sharedPages k
  shown : ∀ r ∈ s.pool.regions, ∀ k < nshared (s.pool.region r).layout,
    ((s.pool.region r).sharedPages k).mapped = true →
    s'.vm ((s.pool.region r).base+(sharedPage (s.pool.region r).layout k).pageOff) =
      s.vm ((s.pool.region r).base+(sharedPage (s.pool.region r).layout k).pageOff)

theorem RunFrame.refl (s : State) : RunFrame s s :=
  ⟨rfl,rfl,fun _ => SameShape.refl _,fun _ h => absurd rfl h,fun _ => Or.inl,fun _ _ _ => rfl,
    fun _ _ _ _ _ => rfl⟩

theorem RunFrame.trans {s s' s₂ : State} (h : RunFrame s s') (h₂ : RunFrame s' s₂) :
    RunFrame s s₂ where
  regions := h₂.regions.trans h.regions
  target := h₂.target.trans h.target
  shape := fun r => (h.shape r).trans (h₂.shape r)
  pages := by
    intro q hq
    by_cases hq₁ : s'.vm q = s.vm q
    · rw [← hq₁] at hq
      obtain ⟨r,hr,hin⟩ := h₂.pages q hq
      exact ⟨r,h.regions ▸ hr,((h.shape r).inRange q).mp hin⟩
    · exact h.pages q hq₁
  history := by
    intro e he
    rcases h₂.history e he with h3 | h3
    · exact h.history e h3
    · exact Or.inr (h.regions ▸ h3)
  published := by
    intro r k hm
    rw [h₂.published r k (by rw [h.published r k hm]; exact hm),h.published r k hm]
  shown := by
    intro r hr k hk hm
    have hs := h₂.shown r (h.regions ▸ hr) k (by rw [(h.shape r).layout]; exact hk)
      (by rw [h.published r k hm]; exact hm)
    rw [(h.shape r).layout,(h.shape r).base] at hs
    rw [hs,h.shown r hr k hk hm]

/-- No call on any chunk reaches a published shared page. -/
theorem Touched.shown {s s' : State} {e : Event} {hot cold : List Node} (ht : Touched s e s')
    (h : PoolInv s hot cold) {r : RegionId} (hr : r ∈ s.pool.regions) {k : ℕ}
    (hk : k < nshared (s.pool.region r).layout)
    (hm : ((s.pool.region r).sharedPages k).mapped = true) :
    s'.vm ((s.pool.region r).base+(sharedPage (s.pool.region r).layout k).pageOff) =
      s.vm ((s.pool.region r).base+(sharedPage (s.pool.region r).layout k).pageOff) := by
  by_contra hne
  by_cases hre : r = (node e).1
  · subst hre
    rcases ht.pages _ hne with hx | ⟨-,j,hj,hmj,hx⟩
    · exact shared_not_exclusive hk ht.live.2 hx
    · have hjk : j = k := by
        apply shared_injective _ hj hk
        obtain ⟨h1,h2⟩ := hx
        exact aligned_eq (shared_aligned _ hj) (shared_aligned _ hk) (by omega) (by omega)
      subst hjk
      rw [hm] at hmj
      cases hmj
  · have hin : InRange (s.pool.region r)
        ((s.pool.region r).base+(sharedPage (s.pool.region r).layout k).pageOff) :=
      shared_inRange hk ⟨le_refl _,by have := (s.pool.region r).layout.pageSize_pos; omega⟩
    exact h.apart r hr _ ht.live.1 hre _ hin (ht.inRange hne)

theorem Touched.frame {s s' : State} {e : Event} {hot cold : List Node} (ht : Touched s e s')
    (h : PoolInv s hot cold) : RunFrame s s' where
  regions := ht.regions
  target := ht.target
  shape := ht.shapes
  pages := fun _ hq => ⟨_,ht.live.1,ht.inRange hq⟩
  history := by
    intro e' he'
    rw [ht.history] at he'
    rcases List.mem_cons.mp he' with rfl | he'
    · exact Or.inr ht.live.1
    · exact Or.inl he'
  published := by
    intro r k hm
    by_cases hre : r = (node e).1
    · subst hre
      exact ht.published k hm
    · rw [ht.others r hre]
  shown := fun _ hr _ hk hm => Touched.shown ht h hr hk hm

theorem MicroRun.frame {s s' : State} (hr : MicroRun s s') (hi : ∃ hot cold, PoolInv s hot cold) :
    RunFrame s s' := by
  refine (hr.induct (motive := fun s₁ => RunFrame s s₁) hi (RunFrame.refl s) ?_).1
  rintro s₁ e s₂ ⟨hot,cold,hinv⟩ ht - hf
  exact hf.trans (Touched.frame ht hinv)

theorem filled_mono {s s' : State} {n : Node} {size : ℕ} (ht : Touched s (.fill n size) s') {m : Node}
    (hm : (s.pool.region m.1).initialized m.2 = true) :
    (s'.pool.region m.1).initialized m.2 = true := by
  by_cases hmn : m = n
  · subst hmn
    exact ht.after
  · rw [ht.initialized m hmn]
    exact hm

/-- The chunks the fill loop is about to fill, in the order the queue will have
them. -/
def missingNodes (p : Pool) (rid : RegionId) : ℕ → ℕ → List Node
  | 0, _ => []
  | len+1, c => missingNodes p rid len (c+1) ++ if (p.region rid).initialized c then [] else [(rid,c)]

theorem mem_missingNodes {p : Pool} {rid : RegionId} {n : Node} (len c : ℕ) :
    n ∈ missingNodes p rid len c ↔
      n.1 = rid ∧ c ≤ n.2 ∧ n.2 < c+len ∧ (p.region rid).initialized n.2 = false := by
  induction len generalizing c with
  | zero =>
    simp only [missingNodes,List.not_mem_nil,false_iff]
    omega
  | succ len ih =>
    rw [missingNodes,List.mem_append,ih]
    by_cases hc : n = (rid,c)
    · subst hc
      cases hi : (p.region rid).initialized c with
      | true => simp
      | false => simp
    · have hne : n.1 = rid → n.2 ≠ c := fun h1 h2 => hc (Prod.ext h1 h2)
      have htail : n ∉ (if (p.region rid).initialized c then [] else [(rid,c)] : List Node) := by
        split_ifs
        · simp
        · simpa using hc
      constructor
      · rintro (⟨h1,h2,h3,h4⟩ | hm)
        · exact ⟨h1,by omega,by omega,h4⟩
        · exact absurd hm htail
      · rintro ⟨h1,h2,h3,h4⟩
        have := hne h1
        exact Or.inl ⟨h1,by omega,by omega,h4⟩

theorem missingNodes_nodup (p : Pool) (rid : RegionId) (len c : ℕ) : (missingNodes p rid len c).Nodup := by
  induction len generalizing c with
  | zero => exact List.nodup_nil
  | succ len ih =>
    rw [missingNodes]
    split_ifs
    · rw [List.append_nil]
      exact ih (c+1)
    · rw [List.nodup_append]
      refine ⟨ih (c+1),List.nodup_singleton _,?_⟩
      rintro m hm n hn rfl
      rw [List.mem_singleton] at hn
      subst hn
      have := ((mem_missingNodes len (c+1)).mp hm).2.1
      simp only at this
      omega

theorem missingNodes_congr {p p' : Pool} {rid : RegionId} (len c : ℕ)
    (h : ∀ d, c ≤ d → (p'.region rid).initialized d = (p.region rid).initialized d) :
    missingNodes p' rid len c = missingNodes p rid len c := by
  induction len generalizing c with
  | zero => rfl
  | succ len ih => rw [missingNodes,missingNodes,ih (c+1) (fun d hd => h d (by omega)),h c (le_refl c)]

/-- The `fill_chunk` calls for a list of chunks. -/
def fillEvents (p : Pool) (ns : List Node) : List Event := ns.map (fun n => .fill n (lruNodeSize p n))

theorem fillEvents_congr {p p' : Pool} (h : SameLayouts p p') (ns : List Node) :
    fillEvents p' ns = fillEvents p ns :=
  List.map_congr_left (fun n _ => by rw [h.nodeSize n])

/-- The fill loop puts what was missing in front of the queue and leaves every
chunk it passes populated. -/
theorem fill_missing_spec (rid : RegionId) (len : ℕ) :
    ∀ (c : ℕ) (s : State) (hot cold : List Node), PoolInv s hot cold → rid ∈ s.pool.regions →
      c+len ≤ (s.pool.region rid).layout.nchunks →
      ∃ s', fillMissing rid len c s = some s' ∧
        Reaches s s' (missingNodes s.pool rid len c ++ hot) cold ∧
        s'.pool.history = fillEvents s.pool (missingNodes s.pool rid len c) ++ s.pool.history ∧
        (∀ m : Node, (s.pool.region m.1).initialized m.2 = true →
          (s'.pool.region m.1).initialized m.2 = true) ∧
        ∀ d, c ≤ d → d < c+len → (s'.pool.region rid).initialized d = true := by
  induction len with
  | zero => exact fun c s hot cold h _ _ => ⟨s,rfl,Reaches.refl h,rfl,fun _ => id,by omega⟩
  | succ len ih =>
    intro c s hot cold h hr hlen
    have hl : Live s.pool (rid,c) := ⟨hr,by simp only; omega⟩
    have hone : ∃ s₁, fillUnless s rid c = some s₁ ∧
        Reaches s s₁ ((if (s.pool.region rid).initialized c then [] else [(rid,c)]) ++ hot) cold ∧
        s₁.pool.history = fillEvents s.pool (if (s.pool.region rid).initialized c then []
          else [(rid,c)]) ++ s.pool.history ∧
        (∀ m : Node, (s.pool.region m.1).initialized m.2 = true →
          (s₁.pool.region m.1).initialized m.2 = true) ∧
        (∀ d, d ≠ c → (s₁.pool.region rid).initialized d = (s.pool.region rid).initialized d) ∧
        (s₁.pool.region rid).initialized c = true := by
      unfold fillUnless
      cases hi : (s.pool.region rid).initialized c with
      | true =>
        simp only [if_true]
        exact ⟨s,rfl,Reaches.refl h,rfl,fun _ => id,fun _ _ => rfl,hi⟩
      | false =>
        obtain ⟨s₁,e₁,t₁,i₁⟩ := fill_spec h hl hi
        simp only [Bool.false_eq_true,if_false]
        exact ⟨s₁,e₁,Touched.reaches t₁ (.fill hl hi e₁) i₁,t₁.history,fun m => filled_mono t₁,
          fun d hd => t₁.flags d hd,t₁.after⟩
    obtain ⟨s₁,e₁,r₁,h₁,m₁,f₁,c₁⟩ := hone
    have hnodes : missingNodes s₁.pool rid len (c+1) = missingNodes s.pool rid len (c+1) :=
      missingNodes_congr len (c+1) (fun d hd => f₁ d (by omega))
    obtain ⟨s₂,e₂,r₂,h₂,m₂,c₂⟩ := ih (c+1) s₁ _ cold r₁.inv (by rw [r₁.regions]; exact hr)
      (by rw [r₁.layouts rid]; omega)
    rw [hnodes] at r₂ h₂
    refine ⟨s₂,?_,?_,?_,fun m hm => m₂ m (m₁ m hm),?_⟩
    · rw [fillMissing,e₁]
      exact e₂
    · rw [missingNodes,List.append_assoc]
      exact r₁.trans r₂
    · rw [h₂,h₁,fillEvents_congr r₁.layouts,missingNodes]
      simp only [fillEvents,List.map_append,List.append_assoc]
    · intro d h1 h2
      by_cases hd : d = c
      · subst hd
        exact m₂ (rid,d) c₁
      · exact c₂ d (by omega) (by omega)

/-- With every contributor populated the page is up. -/
theorem mapped_of_populated {s : State} {hot cold : List Node} {rid : RegionId} {k : ℕ}
    (h : PoolInv s hot cold) (hr : rid ∈ s.pool.regions)
    (hk : k < nshared (s.pool.region rid).layout)
    (hi : ∀ c ∈ contributors (s.pool.region rid).layout k, (s.pool.region rid).initialized c = true) :
    ((s.pool.region rid).sharedPages k).mapped = true := by
  rw [((h.region rid hr).staged k hk).mapped]
  exact fun c hc => (h.region rid hr).contributed c (contributor_lt _ hk hc) (hi c hc) k hk hc

theorem readable_shared {p : Pool} {rid : RegionId} {off k : ℕ}
    (hf : findSharedPage (p.region rid).layout (pageFloor off (p.region rid).layout.pageSize) = some k) :
    pageReadable p rid off = ((p.region rid).sharedPages k).mapped := by
  simp only [pageReadable,hf]

theorem readable_exclusive {p : Pool} {rid : RegionId} {off : ℕ}
    (hf : findSharedPage (p.region rid).layout (pageFloor off (p.region rid).layout.pageSize) = none) :
    pageReadable p rid off =
      ((p.region rid).initialized ((p.region rid).layout.findChunk
        (pageFloor off (p.region rid).layout.pageSize)) &&
      !p.cold (rid,(p.region rid).layout.findChunk (pageFloor off (p.region rid).layout.pageSize))) := by
  simp only [pageReadable,hf]

/-- An exclusive page is readable exactly when its chunk is in the hot half. -/
theorem readable_iff_hot {s : State} {hot cold : List Node} {rid : RegionId} {off : ℕ}
    (h : PoolInv s hot cold) (hr : rid ∈ s.pool.regions)
    (hf : findSharedPage (s.pool.region rid).layout
      (pageFloor off (s.pool.region rid).layout.pageSize) = none) :
    pageReadable s.pool rid off = true ↔ (rid,(s.pool.region rid).layout.findChunk
      (pageFloor off (s.pool.region rid).layout.pageSize)) ∈ hot := by
  rw [readable_exclusive hf]
  set n : Node := (rid,(s.pool.region rid).layout.findChunk
    (pageFloor off (s.pool.region rid).layout.pageSize)) with hn
  have hl : Live s.pool n := ⟨hr,Layout.findChunk_lt _ _⟩
  have hi := h.initialized_iff hl
  constructor
  · intro hb
    rw [Bool.and_eq_true,Bool.not_eq_true'] at hb
    rcases List.mem_append.mp (hi.mp hb.1) with hh | hc
    · exact hh
    · have := h.queue.order.coldFlag n hc
      rw [hb.2] at this
      cases this
  · intro hh
    rw [Bool.and_eq_true,Bool.not_eq_true']
    exact ⟨hi.mpr (List.mem_append_left _ hh),h.queue.order.hotFlag n hh⟩

/-- The missing contributors of an unpublished page end up at the front. -/
theorem serve_shared {s : State} {hot cold : List Node} {rid : RegionId} {page k : ℕ}
    (h : PoolInv s hot cold) (hr : rid ∈ s.pool.regions)
    (hf : findSharedPage (s.pool.region rid).layout page = some k)
    (hm : ((s.pool.region rid).sharedPages k).mapped = false) :
    ∃ lo hi s', lo = (sharedPage (s.pool.region rid).layout k).firstChunk ∧
      hi = (sharedPage (s.pool.region rid).layout k).lastChunk ∧
      servePage s rid page = some (lo,hi,s') ∧
      Reaches s s' (missingNodes s.pool rid (hi+1-lo) lo ++ hot) cold ∧
      s'.pool.history = fillEvents s.pool (missingNodes s.pool rid (hi+1-lo) lo) ++ s.pool.history ∧
      ((s'.pool.region rid).sharedPages k).mapped = true := by
  obtain ⟨hk,-⟩ := (findSharedPage_some _ _ _).mp hf
  have h2 := two_contributors _ hk
  have hlast := lastChunk_lt _ hk
  set lo := (sharedPage (s.pool.region rid).layout k).firstChunk with hlo
  set hi := (sharedPage (s.pool.region rid).layout k).lastChunk with hhi
  obtain ⟨s',e,r,hist,-,c⟩ := fill_missing_spec rid (hi+1-lo) lo s hot cold h hr (by omega)
  refine ⟨lo,hi,s',rfl,rfl,?_,r,hist,?_⟩
  · simp only [servePage,hf,hm,Bool.false_eq_true,if_false]
    rw [← hlo,← hhi,e]
    rfl
  · have hl := r.layouts rid
    apply mapped_of_populated r.inv (by rw [r.regions]; exact hr) (by rw [hl]; exact hk)
    intro d hd
    rw [hl,contributors,Finset.mem_Icc] at hd
    exact c d hd.1 (by omega)

/-- The chunk of an unreadable exclusive page ends up at the front. -/
theorem serve_exclusive {s : State} {hot cold : List Node} {rid : RegionId} {page : ℕ}
    (h : PoolInv s hot cold) (hr : rid ∈ s.pool.regions)
    (hf : findSharedPage (s.pool.region rid).layout page = none)
    (hn : (rid,(s.pool.region rid).layout.findChunk page) ∉ hot) :
    ∃ s', servePage s rid page = some ((s.pool.region rid).layout.findChunk page,
        (s.pool.region rid).layout.findChunk page,s') ∧
      Reaches s s' ((rid,(s.pool.region rid).layout.findChunk page)::hot)
        (cold.erase (rid,(s.pool.region rid).layout.findChunk page)) ∧
      s'.pool.history = (if (s.pool.region rid).initialized ((s.pool.region rid).layout.findChunk page)
        then .promote (rid,(s.pool.region rid).layout.findChunk page)
        else .fill (rid,(s.pool.region rid).layout.findChunk page) ((s.pool.region rid).layout.chunkSize
          ((s.pool.region rid).layout.findChunk page)))::s.pool.history := by
  set c := (s.pool.region rid).layout.findChunk page with hc
  have hl : Live s.pool (rid,c) := ⟨hr,Layout.findChunk_lt _ _⟩
  have hi := h.initialized_iff hl
  simp only [servePage,hf]
  rw [← hc]
  cases hb : (s.pool.region rid).initialized c with
  | true =>
    have hcold : (rid,c) ∈ cold := (List.mem_append.mp (hi.mp hb)).resolve_left hn
    obtain ⟨e₁,t₁,i₁⟩ := promote_spec h hcold
    refine ⟨promoted s (rid,c),?_,Touched.reaches t₁ (.promote ?_ ?_ e₁) i₁,t₁.history⟩
    · rw [if_pos rfl,e₁]
      rfl
    · exact (h.queue.order.resident _).mpr (List.mem_append_right _ hcold)
    · exact h.queue.order.coldFlag _ hcold
  | false =>
    obtain ⟨s',e₁,t₁,i₁⟩ := fill_spec h hl hb
    have hcold : cold.erase (rid,c) = cold := by
      apply List.erase_of_not_mem
      intro hm
      have := h.queued (List.mem_append_right _ hm)
      rw [hb] at this
      cases this
    rw [hcold]
    refine ⟨s',?_,Touched.reaches t₁ (.fill hl hb e₁) i₁,t₁.history⟩
    rw [if_neg (by simp),e₁]
    rfl

theorem countHandled_region (s : State) (rid r : RegionId) :
    ∃ x, (countHandled s rid).pool.region r = { s.pool.region r with faultsHandled := x } := by
  by_cases hr : r = rid
  · subst hr
    exact ⟨_,update_region_self s.pool r (fun r => { r with faultsHandled := r.faultsHandled+1 })⟩
  · exact ⟨_,update_region_of_ne s.pool rid (fun r => { r with faultsHandled := r.faultsHandled+1 }) hr⟩

theorem countHandled_inv {s : State} {hot cold : List Node} (h : PoolInv s hot cold)
    (rid : RegionId) : PoolInv (countHandled s rid) hot cold := by
  have hfields := countHandled_region s rid
  have hL : SameLayouts s.pool (countHandled s rid).pool := by
    intro r
    obtain ⟨x,hx⟩ := hfields r
    rw [hx]
  have hq := h.queue
  refine ⟨⟨hq.order.transport hL rfl rfl rfl rfl rfl,hq.account.transport hL rfl rfl ?_ ?_ ?_,hq.distinct,
    by rw [totalBytes_congr hL rfl]; exact hq.fits⟩,?_,?_,h.alternates,?_,h.unbounded⟩
  · intro r _
    obtain ⟨x,hx⟩ := hfields r
    rw [hx]
  · intro r _
    obtain ⟨x,hx⟩ := hfields r
    rw [hx]
  · intro r _
    obtain ⟨x,hx⟩ := hfields r
    rw [hx]
  · intro r hr
    obtain ⟨x,hx⟩ := hfields r
    have hi := h.region r hr
    rw [hx]
    exact ⟨staged_frame hi.staged ⟨rfl,rfl,rfl⟩ rfl,hi.contributed,
      shared_frame hi.shared ⟨rfl,rfl,rfl⟩ rfl (fun _ _ => rfl),
      fun c hc off hp hoff => (PageHolds.congr ⟨rfl,rfl,rfl⟩).mpr (hi.exclusive c hc off hp hoff),
      hi.faults⟩
  · intro r hr r' hr' hne q
    obtain ⟨x,hx⟩ := hfields r
    obtain ⟨x',hx'⟩ := hfields r'
    rw [hx,hx']
    exact h.apart r hr r' hr' hne q
  · intro n hn
    obtain ⟨x,hx⟩ := hfields n.1
    rw [hx]
    exact h.populated n ⟨hn.1,by have := hn.2; rwa [hL n.1] at this⟩

theorem prefix_cons_elim {n : Node} {q xs : List Node} (h : q <+: n::xs) (hn : n ∈ q) :
    ∃ ys, q = n::ys ∧ ys <+: xs := by
  cases q with
  | nil => cases hn
  | cons m ys =>
    obtain ⟨rfl,hp⟩ := List.cons_prefix_cons.mp h
    exact ⟨ys,rfl,hp⟩

/-- Eviction that protects only the front node. -/
theorem evicted_front {p : Pool} {hit : Node → Prop} {n : Node} {hot cold hot' cold' : List Node}
    (hx : Evicted p hit (n::hot) cold hot' cold') (hnd : (n::hot ++ cold).Nodup) (hn : hit n)
    (honly : ∀ m ∈ hot ++ cold, ¬ hit m) (hpos : ∀ m ∈ hot ++ cold, 0 < lruNodeSize p m) :
    hot' ++ cold' = n::takeWithin (lruNodeSize p) (p.targetSize-lruNodeSize p n) (hot ++ cold) := by
  have hmem : n ∈ hot' ++ cold' := hx.kept n (by simp) hn
  obtain ⟨ys,hys,hp⟩ := prefix_cons_elim hx.isPrefix hmem
  rw [hys]
  congr 1
  by_cases hfit : sizeSum p (hot' ++ cold') ≤ p.targetSize
  · rw [hys,sizeSum_cons] at hfit
    refine eq_takeWithin _ hp (by simp only [weight]; simp only [sizeSum] at hfit; omega) ?_
    intro zs hz hw
    have hlong := hx.longest (n::zs) (List.cons_prefix_cons.mpr ⟨rfl,hz⟩) (by
      rw [sizeSum_cons]
      simp only [weight] at hw
      simp only [sizeSum] at hfit ⊢
      omega)
    rw [hys] at hlong
    exact (List.cons_prefix_cons.mp hlong).2
  · -- Stopped at a protected node, which can only be the front one.
    obtain ⟨q,m,hq,hm⟩ := hx.stop.resolve_left hfit
    have hmn : m = n := by
      by_contra hne
      have hin : m ∈ n::hot ++ cold := hx.isPrefix.subset (by rw [hq]; simp)
      rw [List.cons_append,List.mem_cons] at hin
      exact honly m (hin.resolve_left hne) hm
    subst hmn
    have hnil : ys = [] := by
      rw [hys] at hq
      cases q with
      | nil =>
        rw [List.nil_append,List.cons.injEq] at hq
        exact hq.2
      | cons x xs =>
        rw [List.cons_append,List.cons.injEq] at hq
        have hsub : m ∈ hot ++ cold := hp.subset (by rw [hq.2]; simp)
        exact absurd hsub (List.nodup_cons.mp hnd).1
    subst hnil
    rw [hys,sizeSum_cons,sizeSum_nil] at hfit
    rw [show p.targetSize-lruNodeSize p m = 0 by omega,takeWithin_zero _ hpos]

theorem evicted_hot_front {p : Pool} {hit : Node → Prop} {n : Node} {hot cold hot' cold' : List Node}
    (hx : Evicted p hit (n::hot) cold hot' cold') (hn : hit n) :
    ∃ h₁, hot' = n::h₁ ∧ h₁ <+: hot := by
  apply prefix_cons_elim hx.hotPrefix
  have hmem : n ∈ hot' ++ cold' := hx.kept n (by simp) hn
  rcases hx.coldFirst with hc | hh
  · rwa [hc,List.append_nil] at hmem
  · rw [hh]
    simp

theorem settled {p : Pool} {hit : Node → Prop} {n : Node} {hot cold hot₁ cold₁ hot₂ cold₂ : List Node}
    (hx : Evicted p hit (n::hot) cold hot₁ cold₁)
    (hr : Rebalanced p (sizeSum p (hot₁ ++ cold₁)/2) hot₁ cold₁ hot₂ cold₂)
    (hnd : (n::hot ++ cold).Nodup) (hn : hit n) (honly : ∀ m ∈ hot ++ cold, ¬ hit m)
    (hpos : ∀ m ∈ n::hot ++ cold, 0 < lruNodeSize p m) :
    hot₂ ++ cold₂ = n::takeWithin (lruNodeSize p) (p.targetSize-lruNodeSize p n) (hot ++ cold) ∧
      hot₂ = n::takeWithin (lruNodeSize p) (sizeSum p (hot₂ ++ cold₂)/2-lruNodeSize p n) hot := by
  have hpos' : ∀ m ∈ hot ++ cold, 0 < lruNodeSize p m := fun m hm => hpos m (List.mem_cons_of_mem _ hm)
  have hq := evicted_front hx hnd hn honly hpos'
  refine ⟨hr.whole.trans hq,?_⟩
  rw [hr.whole]
  obtain ⟨h₁,rfl,hp₁⟩ := evicted_hot_front hx hn
  have hfront : n ∈ hot₂ := List.mem_of_mem_head? (by rw [hr.front]; rfl)
  obtain ⟨h₂,rfl,hp₂⟩ := prefix_cons_elim hr.hotPrefix hfront
  congr 1
  have hself := hpos n (by simp)
  set half := sizeSum p (n::h₁ ++ cold₁)/2 with hhalf
  by_cases hfit : sizeSum p (n::h₂) ≤ half
  · have hw : sizeSum p (n::h₂) = lruNodeSize p n+weight (lruNodeSize p) h₂ := sizeSum_cons p n h₂
    refine eq_takeWithin _ (hp₂.trans hp₁) (by omega) ?_
    intro zs hz hwz
    have hT : sizeSum p (n::h₁ ++ cold₁) ≤ p.targetSize := by
      by_contra hover
      have hle := takeWithin_weight_le (lruNodeSize p) (p.targetSize-lruNodeSize p n) (hot ++ cold)
      have hsum : sizeSum p (n::h₁ ++ cold₁) = lruNodeSize p n+weight (lruNodeSize p)
          (takeWithin (lruNodeSize p) (p.targetSize-lruNodeSize p n) (hot ++ cold)) := by
        rw [hq]
        exact sizeSum_cons p n _
      omega
    have hzn : sizeSum p (n::zs) = lruNodeSize p n+weight (lruNodeSize p) zs := sizeSum_cons p n zs
    have hin : n::zs <+: n::h₁ := by
      rcases hx.coldFirst with hc | hh
      · have := hx.longest (n::zs)
          ((List.cons_prefix_cons.mpr ⟨rfl,hz⟩).trans (List.prefix_append _ _)) (by omega)
        rwa [hc,List.append_nil] at this
      · rw [hh]
        exact List.cons_prefix_cons.mpr ⟨rfl,hz⟩
    exact (List.cons_prefix_cons.mp (hr.longest (n::zs) hin (by omega))).2
  · -- The front node alone is more than half.
    have hlen := hr.stop.resolve_left hfit
    obtain rfl : h₂ = [] := List.eq_nil_of_length_eq_zero (by simp at hlen; simpa using hlen)
    rw [sizeSum_cons,sizeSum_nil] at hfit
    rw [show half-lruNodeSize p n = 0 by omega,
      takeWithin_zero _ (fun m hm => hpos' m (List.mem_append_left _ hm))]

/-- Eviction and rebalancing in sequence. -/
theorem trim_spec {s : State} {hot cold : List Node} (h : PoolInv s hot cold) (rid : RegionId)
    (lo hi : ℕ) :
    ∃ s₂ s₃ hot₂ cold₂ hot₃ cold₃, evictUntilWithinBudget s rid lo hi = some s₂ ∧
      lruRebalance s₂ = some s₃ ∧ Reaches s s₃ hot₃ cold₃ ∧
      (0 < s.pool.targetSize → Evicted s.pool (Protected rid lo hi) hot cold hot₂ cold₂ ∧
        Rebalanced s.pool (sizeSum s.pool (hot₂ ++ cold₂)/2) hot₂ cold₂ hot₃ cold₃) ∧
      (s.pool.targetSize = 0 → hot₃ = hot ∧ cold₃ = cold) := by
  obtain ⟨s₂,hot₂,cold₂,e₂,r₂,x₂,u₂⟩ := evict_spec_budget h rid lo hi
  obtain ⟨s₃,hot₃,cold₃,e₃,r₃,x₃,u₃⟩ := rebalance_spec r₂.inv
  refine ⟨s₂,s₃,hot₂,cold₂,hot₃,cold₃,e₂,e₃,r₂.trans r₃,?_,?_⟩
  · intro ht
    obtain ⟨y1,y2,y3,y4,y5⟩ := x₃ (by rw [r₂.target]; exact ht)
    simp only [r₂.layouts.sizeSum] at y4 y5
    exact ⟨x₂ ht,y1,y2,y3,y4,y5⟩
  · intro h0
    obtain ⟨-,rfl,rfl⟩ := u₂ h0
    exact (u₃ (r₂.target.trans h0)).2

theorem resolve_steps {s s₁ s₂ s₃ : State} {rid : RegionId} {off lo hi : ℕ}
    (e₁ : servePage s rid (pageFloor off (s.pool.region rid).layout.pageSize) = some (lo,hi,s₁))
    (hread : pageReadable s₁.pool rid (pageFloor off (s.pool.region rid).layout.pageSize) = true)
    (e₂ : evictUntilWithinBudget s₁ rid lo hi = some s₂) (e₃ : lruRebalance s₂ = some s₃) :
    resolveFaultLocked s rid off = some (countHandled s₃ rid) := by
  simp only [resolveFaultLocked]
  rw [e₁,Option.bind_some,if_pos hread,e₂,Option.bind_some,e₃]
  rfl

theorem resolve_shared {s : State} {hot cold : List Node} {rid : RegionId} {off k : ℕ}
    (h : PoolInv s hot cold) (hr : rid ∈ s.pool.regions) (hun : pageReadable s.pool rid off = false)
    (hf : findSharedPage (s.pool.region rid).layout
      (pageFloor off (s.pool.region rid).layout.pageSize) = some k) :
    ∃ s₁ hot' cold', resolveFaultLocked s rid off = some (countHandled s₁ rid) ∧
      Reaches s s₁ hot' cold' ∧ pageReadable s₁.pool rid off = true := by
  have hfix := pageFloor_aligned (dvd_pageFloor off (s.pool.region rid).layout.pageSize)
  rw [readable_shared hf] at hun
  obtain ⟨lo,hi,s₁,-,-,e₁,r₁,-,m₁⟩ := serve_shared h hr hf hun
  obtain ⟨s₂,s₃,-,-,hot₃,cold₃,e₂,e₃,r₃,-⟩ := trim_spec r₁.inv rid lo hi
  -- Readability of a shared page is its `mapped` flag, which is never cleared.
  have hread : ∀ {s' hot' cold'}, Reaches s s' hot' cold' → ∀ {x},
      pageFloor x (s.pool.region rid).layout.pageSize =
        pageFloor off (s.pool.region rid).layout.pageSize →
      pageReadable s'.pool rid x = ((s'.pool.region rid).sharedPages k).mapped := by
    intro s' hot' cold' hrs x hx
    apply readable_shared
    rw [hrs.layouts rid,hx]
    exact hf
  refine ⟨s₃,hot₃,cold₃,resolve_steps e₁ ((hread r₁ hfix).trans m₁) e₂ e₃,r₁.trans r₃,?_⟩
  rw [hread (r₁.trans r₃) rfl,(r₃.run.frame ⟨_,_,r₁.inv⟩).published rid k m₁]
  exact m₁

/-- After a fault on an exclusive page its chunk is the hot front of the queue,
and in a bounded pool the queue is one access to a split recency list. -/
theorem trim_exclusive {s s₁ : State} {hot cold hot₂ cold₂ hot₃ cold₃ : List Node} {n : Node}
    (hnot : n ∉ hot) (r₁ : Reaches s s₁ (n::hot) (cold.erase n))
    (hx : 0 < s₁.pool.targetSize →
      Evicted s₁.pool (Protected n.1 n.2 n.2) (n::hot) (cold.erase n) hot₂ cold₂ ∧
      Rebalanced s₁.pool (sizeSum s₁.pool (hot₂ ++ cold₂)/2) hot₂ cold₂ hot₃ cold₃)
    (hu : s₁.pool.targetSize = 0 → hot₃ = n::hot ∧ cold₃ = cold.erase n) :
    n ∈ hot₃ ∧ (0 < s.pool.targetSize →
      MovesToFront (lruNodeSize s.pool) s.pool.targetSize n hot cold hot₃ cold₃) := by
  have hT₁ := r₁.target
  by_cases h0 : s.pool.targetSize = 0
  · obtain ⟨rfl,rfl⟩ := hu (hT₁.trans h0)
    exact ⟨by simp,by omega⟩
  · obtain ⟨hx₂,hx₃⟩ := hx (by omega)
    have hnd := r₁.inv.queue.order.nodup
    have honly : ∀ m ∈ hot ++ cold.erase n, ¬ Protected n.1 n.2 n.2 m := by
      rintro m hm ⟨h1,h2,h3⟩
      obtain rfl : m = n := Prod.ext h1 (le_antisymm h3 h2)
      exact (List.nodup_cons.mp hnd).1 hm
    obtain ⟨g1,g2⟩ := settled hx₂ hx₃ hnd ⟨rfl,le_refl _,le_refl _⟩ honly
      (fun m hm => Layout.chunkSize_pos _ (r₁.inv.live hm).2)
    have hw : lruNodeSize s₁.pool = lruNodeSize s.pool := funext r₁.layouts.nodeSize
    rw [hw,hT₁] at g1
    rw [hw,r₁.layouts.sizeSum] at g2
    refine ⟨by rw [g2]; simp,fun _ => ⟨?_,g2⟩⟩
    rw [g1,List.erase_append_right _ hnot]

theorem resolve_exclusive {s : State} {hot cold : List Node} {rid : RegionId} {off : ℕ}
    (h : PoolInv s hot cold) (hr : rid ∈ s.pool.regions) (hun : pageReadable s.pool rid off = false)
    (hf : findSharedPage (s.pool.region rid).layout
      (pageFloor off (s.pool.region rid).layout.pageSize) = none) :
    ∃ s₁ hot' cold', resolveFaultLocked s rid off = some (countHandled s₁ rid) ∧
      Reaches s s₁ hot' cold' ∧ pageReadable s₁.pool rid off = true ∧
      (0 < s.pool.targetSize → MovesToFront (lruNodeSize s.pool) s.pool.targetSize
        (rid,(s.pool.region rid).layout.findChunk
          (pageFloor off (s.pool.region rid).layout.pageSize)) hot cold hot' cold') := by
  set page := pageFloor off (s.pool.region rid).layout.pageSize with hpage
  set n : Node := (rid,(s.pool.region rid).layout.findChunk page) with hn
  have hfix : pageFloor page (s.pool.region rid).layout.pageSize = page :=
    pageFloor_aligned (dvd_pageFloor _ _)
  have hnot : n ∉ hot := by
    intro hm
    rw [(readable_iff_hot h hr hf).mpr hm] at hun
    cases hun
  obtain ⟨s₁,e₁,r₁,-⟩ := serve_exclusive h hr hf hnot
  obtain ⟨s₂,s₃,hot₂,cold₂,hot₃,cold₃,e₂,e₃,r₃,hx,hu⟩ := trim_spec r₁.inv rid n.2 n.2
  obtain ⟨hfront,hmoves⟩ := trim_exclusive hnot r₁ hx hu
  have hread : ∀ {s' hot' cold'}, Reaches s s' hot' cold' → n ∈ hot' → ∀ {x},
      pageFloor x (s.pool.region rid).layout.pageSize = page → pageReadable s'.pool rid x = true := by
    intro s' hot' cold' hrs hm x hx
    have hl : (s'.pool.region rid).layout = (s.pool.region rid).layout := hrs.layouts rid
    rw [readable_iff_hot hrs.inv (by rw [hrs.regions]; exact hr) (by rw [hl,hx]; exact hf),hl,hx]
    exact hm
  exact ⟨s₃,hot₃,cold₃,resolve_steps e₁ (hread r₁ List.mem_cons_self hfix) e₂ e₃,r₁.trans r₃,
    hread (r₁.trans r₃) hfront hpage.symm,hmoves⟩

/-- Resolving a fault on an unreadable page of a live region never aborts and
leaves the page readable. On an exclusive page of a bounded pool the queue
refines one access to a split recency list. -/
theorem resolve_spec {s : State} {hot cold : List Node} {rid : RegionId} {off : ℕ}
    (h : PoolInv s hot cold) (hr : rid ∈ s.pool.regions) (hun : pageReadable s.pool rid off = false) :
    ∃ s₁ hot' cold', resolveFaultLocked s rid off = some (countHandled s₁ rid) ∧
      Reaches s s₁ hot' cold' ∧ pageReadable s₁.pool rid off = true ∧
      (0 < s.pool.targetSize → findSharedPage (s.pool.region rid).layout
          (pageFloor off (s.pool.region rid).layout.pageSize) = none →
        MovesToFront (lruNodeSize s.pool) s.pool.targetSize (rid,(s.pool.region rid).layout.findChunk
          (pageFloor off (s.pool.region rid).layout.pageSize)) hot cold hot' cold') := by
  cases hf : findSharedPage (s.pool.region rid).layout
      (pageFloor off (s.pool.region rid).layout.pageSize) with
  | some k =>
    obtain ⟨s₁,hot',cold',e,r,hup⟩ := resolve_shared h hr hun hf
    exact ⟨s₁,hot',cold',e,r,hup,by simp⟩
  | none =>
    obtain ⟨s₁,hot',cold',e,r,hup,hmoves⟩ := resolve_exclusive h hr hun hf
    exact ⟨s₁,hot',cold',e,r,hup,fun ht _ => hmoves ht⟩

end FaultCache.PoolResolve
