import FaultCache.FaultProcess

/-!
# The pool does not look at the page table

Whatever the pool does to its chunks it decides from its own records. A fault
that is resolved over another page table changes the pool in the same way, and
does the same to every page on which the two tables agree.
-/

set_option autoImplicit false

namespace FaultCache.PoolLocality
open FaultCache.PageGeometry FaultCache.SharedPages FaultCache.VmPages FaultCache.PoolMachine

section Results
variable {A A' B B' : Type*} {R : A → A' → Prop} {S : B → B' → Prop}

theorem rel_bind {x : Option A} {y : Option A'} {f : A → Option B} {g : A' → Option B'}
    (h : Option.Rel R x y) (hf : ∀ a b, R a b → Option.Rel S (f a) (g b)) :
    Option.Rel S (x.bind f) (y.bind g) := by
  cases h with
  | some h => exact hf _ _ h
  | none => exact .none

theorem rel_map {x : Option A} {y : Option A'} {f : A → B} {g : A' → B'} (h : Option.Rel R x y)
    (hf : ∀ a b, R a b → S (f a) (g b)) : Option.Rel S (x.map f) (y.map g) := by
  cases h with
  | some h => exact .some (hf _ _ h)
  | none => exact .none

end Results

/-- The same pool over two page tables that agree on page `q`. -/
structure Alike (q : ℕ) (s s' : State) : Prop where
  pool : s'.pool = s.pool
  page : s'.vm q = s.vm q

variable {q : ℕ} {s s' : State} {vm vm' : PageTable}

theorem setReadable_alike (h : vm' q = vm q) (p : Pool) (n : Node) (readable : Bool) :
    chunkSetReadable p vm' n readable q = chunkSetReadable p vm n readable q := by
  simp only [chunkSetReadable]
  split_ifs
  · simp only [vmSetReadable,h]
  · exact h

theorem decommit_alike (h : vm' q = vm q) (r : Region) (c : ℕ) :
    decommitChunk r vm' c q = decommitChunk r vm c q := by
  simp only [decommitChunk]
  split_ifs
  · exact h
  · simp only [vmDecommit,h]

theorem consume_alike (scratch : Scratch) (ps : List Piece) (h : vm' q = vm q) :
    consume vm' scratch ps q = consume vm scratch ps q := by
  induction ps generalizing vm vm' with
  | nil => exact h
  | cons p ps ih =>
    cases p with
    | publish off len target =>
      refine ih ?_
      simp only [vmScratchPublish,h]
    | discard off len => exact ih h

/-- A region with the page table it has been worked on in. -/
def AlikeRegion (q : ℕ) (m m' : Region × PageTable) : Prop := m'.1 = m.1 ∧ m'.2 q = m.2 q

theorem install_alike (r : Region) (h : vm' q = vm q) (k : ℕ) :
    Option.Rel (AlikeRegion q) (installSharedPage r vm k) (installSharedPage r vm' k) := by
  unfold installSharedPage
  cases (r.sharedPages k).staging with
  | none => exact .none
  | some scratch =>
    refine .some ⟨rfl,?_⟩
    simp only [vmScratchPublish,h]

theorem stage_alike (r : Region) (h : vm' q = vm q) (sp : Option ℕ) (c : ℕ) (scratch : Scratch) (spanLo : ℕ) :
    Option.Rel (AlikeRegion q) (stageIntoSharedPage r vm sp c scratch spanLo)
      (stageIntoSharedPage r vm' sp c scratch spanLo) := by
  cases sp with
  | none => exact .none
  | some k =>
    simp only [stageIntoSharedPage]
    split_ifs
    · exact .none
    · exact install_alike _ h k
    · exact .some ⟨rfl,h⟩

theorem when_alike (flag : Bool) (r : Region) (h : vm' q = vm q) (sp : Option ℕ) (c : ℕ) (scratch : Scratch)
    (spanLo : ℕ) : Option.Rel (AlikeRegion q) (stageWhen flag r vm sp c scratch spanLo)
      (stageWhen flag r vm' sp c scratch spanLo) := by
  cases flag with
  | false => exact .some ⟨rfl,h⟩
  | true => exact stage_alike r h sp c scratch spanLo

theorem shared_alike (r : Region) (h : vm' q = vm q) (c : ℕ) (scratch : Scratch) :
    Option.Rel (AlikeRegion q) (stageShared r vm c scratch) (stageShared r vm' c scratch) := by
  simp only [stageShared]
  split_ifs
  · exact .some ⟨rfl,h⟩
  · refine rel_bind (when_alike _ r h _ c scratch _) ?_
    rintro ⟨r₁,t⟩ ⟨r₂,t'⟩ ⟨hr,ht⟩
    cases hr
    exact when_alike _ r₁ ht _ c scratch _

theorem fill_alike (h : Alike q s s') (rid : RegionId) (c : ℕ) :
    Option.Rel (Alike q) (fillChunkLocked s rid c) (fillChunkLocked s' rid c) := by
  simp only [fillChunkLocked,h.pool]
  refine rel_bind (shared_alike _ h.page c _) ?_
  rintro ⟨r₁,t⟩ ⟨r₂,t'⟩ ⟨hr,ht⟩
  cases hr
  refine rel_map (R := Eq) ?_ ?_
  · cases fillAccount _ (rid,c) with
    | none => exact .none
    | some p => exact .some rfl
  · rintro p _ rfl
    exact ⟨rfl,consume_alike _ _ ht⟩

theorem unless_alike (h : Alike q s s') (rid : RegionId) (c : ℕ) :
    Option.Rel (Alike q) (fillUnless s rid c) (fillUnless s' rid c) := by
  simp only [fillUnless,h.pool]
  split_ifs
  · exact .some h
  · exact fill_alike h rid c

theorem missing_alike (rid : RegionId) (len : ℕ) (c : ℕ) (h : Alike q s s') :
    Option.Rel (Alike q) (fillMissing rid len c s) (fillMissing rid len c s') := by
  induction len generalizing s s' c with
  | zero => exact .some h
  | succ len ih => exact rel_bind (unless_alike h rid c) (fun _ _ h₁ => ih (c+1) h₁)

theorem promote_alike (h : Alike q s s') (rid : RegionId) (c : ℕ) :
    Option.Rel (Alike q) (promoteChunk s rid c) (promoteChunk s' rid c) := by
  refine rel_map (R := Alike q) ?_ (fun a b hab => ⟨by simp only [hab.pool],hab.page⟩)
  simp only [lruPromote,h.pool]
  split_ifs
  · cases lruUnlink s.pool (rid,c) with
    | none => exact .none
    | some p =>
      simp only [Option.bind_some]
      cases lruInsertMru p (rid,c) with
      | none => exact .none
      | some p₁ => exact .some ⟨rfl,setReadable_alike h.page _ _ _⟩
  · exact .none

theorem serve_alike (h : Alike q s s') (rid : RegionId) (page : ℕ) :
    Option.Rel (fun m m' => m'.1 = m.1 ∧ m'.2.1 = m.2.1 ∧ Alike q m.2.2 m'.2.2) (servePage s rid page)
      (servePage s' rid page) := by
  simp only [servePage,h.pool]
  cases findSharedPage (s.pool.region rid).layout page with
  | some k =>
    simp only
    split_ifs
    · exact .none
    · exact rel_map (missing_alike rid _ _ h) (fun a b hab => ⟨rfl,rfl,hab⟩)
  | none =>
    simp only
    refine rel_map (R := Alike q) ?_ (fun a b hab => ⟨rfl,rfl,hab⟩)
    split_ifs
    · exact promote_alike h rid _
    · exact fill_alike h rid _

theorem evictChunk_alike (h : Alike q s s') (n : Node) :
    Option.Rel (Alike q) (lruEvictChunk s n) (lruEvictChunk s' n) := by
  simp only [lruEvictChunk,h.pool]
  cases lruForgetChunk s.pool n with
  | none => exact .none
  | some p => exact .some ⟨rfl,decommit_alike h.page _ _⟩

theorem evictLoop_alike (rid : RegionId) (lo hi fuel : ℕ) (h : Alike q s s') :
    Option.Rel (Alike q) (evictLoop rid lo hi fuel s) (evictLoop rid lo hi fuel s') := by
  induction fuel generalizing s s' with
  | zero => exact .none
  | succ fuel ih =>
    simp only [evictLoop,h.pool]
    split_ifs
    · cases s.pool.links.prev .head with
      | head => exact .none
      | null => exact .none
      | node v =>
        simp only
        split_ifs
        · exact .some h
        · exact rel_bind (evictChunk_alike h v) (fun _ _ h₁ => ih h₁)
    · exact .some h

theorem evict_alike (h : Alike q s s') (rid : RegionId) (lo hi : ℕ) :
    Option.Rel (Alike q) (evictUntilWithinBudget s rid lo hi) (evictUntilWithinBudget s' rid lo hi) := by
  simp only [evictUntilWithinBudget,h.pool]
  split_ifs
  · exact .some h
  · exact evictLoop_alike rid lo hi _ h

theorem rebalanceLoop_alike (fuel : ℕ) (h : Alike q s s') :
    Option.Rel (Alike q) (rebalanceLoop fuel s) (rebalanceLoop fuel s') := by
  induction fuel generalizing s s' with
  | zero => exact .none
  | succ fuel ih =>
    simp only [rebalanceLoop,h.pool]
    split_ifs
    · cases s.pool.midpoint with
      | head => exact .none
      | null => exact .none
      | node n =>
        refine ih ⟨?_,?_⟩
        · simp only [demote,h.pool]
        · simp only [demote,h.pool]
          exact setReadable_alike h.page _ _ _
    · exact .some h

theorem rebalance_alike (h : Alike q s s') : Option.Rel (Alike q) (lruRebalance s) (lruRebalance s') := by
  simp only [lruRebalance,h.pool]
  split_ifs
  · exact .some h
  · exact rebalanceLoop_alike _ h

/-- A resolved fault acts on every page on its own. -/
theorem resolve_alike (h : Alike q s s') (rid : RegionId) (off : ℕ) :
    Option.Rel (Alike q) (resolveFaultLocked s rid off) (resolveFaultLocked s' rid off) := by
  simp only [resolveFaultLocked,h.pool]
  refine rel_bind (serve_alike h rid _) ?_
  rintro ⟨lo,hi,s₁⟩ ⟨lo',hi',s₂⟩ ⟨h1,h2,hs⟩
  cases h1
  cases h2
  have hsame : Alike q s₁ s₂ := hs
  simp only [hsame.pool]
  split_ifs
  · refine rel_bind (evict_alike hsame rid _ _) (fun s₃ s₄ hs' => ?_)
    exact rel_map (rebalance_alike hs') (fun a b hab => ⟨by simp only [countHandled,hab.pool],hab.page⟩)
  · exact .none

end FaultCache.PoolLocality
