import FaultCache.ServerMachine

/-!
# What the server's cache promises to its mappings

A region never goes away and never changes its layout, and `resolved` flags are
only ever set. Between setting a flag and copying the chunk the lock is free,
so the copy relies on nobody writing to a resolved chunk again: only the holder
of the lock writes, and only to a chunk whose flag is still clear.
-/

set_option autoImplicit false

namespace FaultCache.ServerCache
open FaultCache.FixedBytes FaultCache.PageGeometry FaultCache.PoolMachine FaultCache.ServerGroups
open FaultCache.WireFormat FaultCache.ServerMachine

/-- The cache of one region: resolved chunks hold what the callback wrote, and
the padding after the last chunk is zero. -/
structure RegionOk (x : ServerRegion) : Prop where
  cached : ∀ i < x.layout.nchunks, x.resolved i = true → ∀ y, x.layout.Covers i y →
    x.content y = x.fillChunk i (y-x.layout.chunkStart i)
  padding : ∀ y, x.layout.totalSize ≤ y → x.content y = 0

/-- How a region may change. -/
structure Extends (x x' : ServerRegion) : Prop where
  descriptor : x'.descriptor = x.descriptor
  layout : x'.layout = x.layout
  fillChunk : x'.fillChunk = x.fillChunk
  resolved : ∀ i, x.resolved i = true → x'.resolved i = true
  mappings : ∀ m ∈ x.mappings, m ∈ x'.mappings

theorem Extends.refl (x : ServerRegion) : Extends x x :=
  ⟨rfl,rfl,rfl,fun _ h => h,fun _ h => h⟩

theorem Extends.trans {x y z : ServerRegion} (h₁ : Extends x y) (h₂ : Extends y z) : Extends x z :=
  ⟨h₂.descriptor.trans h₁.descriptor,h₂.layout.trans h₁.layout,h₂.fillChunk.trans h₁.fillChunk,
    fun i h => h₂.resolved i (h₁.resolved i h),fun m h => h₂.mappings m (h₁.mappings m h)⟩

def Grows (s s' : Server) : Prop :=
  ∀ r ∈ s.regions, r ∈ s'.regions ∧ Extends (s.region r) (s'.region r)

theorem Grows.refl (s : Server) : Grows s s := fun _ hr => ⟨hr,Extends.refl _⟩

theorem Grows.of_same {s s' : Server} (hr : s'.regions = s.regions) (he : s'.region = s.region) :
    Grows s s' := by
  intro r hm
  rw [hr,he]
  exact ⟨hm,Extends.refl _⟩

theorem Grows.trans {s₁ s₂ s₃ : Server} (h₁ : Grows s₁ s₂) (h₂ : Grows s₂ s₃) : Grows s₁ s₃ := by
  intro r hr
  obtain ⟨hr₂,he₁⟩ := h₁ r hr
  obtain ⟨hr₃,he₂⟩ := h₂ r hr₂
  exact ⟨hr₃,he₁.trans he₂⟩

theorem grows_update {s : Server} {r : ServerRegionId} {f : ServerRegion → ServerRegion}
    (h : Extends (s.region r) (f (s.region r))) : Grows s (s.update r f) := by
  intro q hq
  refine ⟨hq,?_⟩
  by_cases hqr : q = r
  · subst hqr
    simpa only [Server.update,Function.update_self] using h
  · simp only [Server.update,Function.update_of_ne hqr]
    exact Extends.refl _

/-- The mapping a loop works for. -/
structure Serving (s : Server) (r : ServerRegionId) (m : Mapping) : Prop where
  region : r ∈ s.regions
  mapping : m ∈ (s.region r).mappings

theorem Serving.mono {s s' : Server} {r : ServerRegionId} {m : Mapping} (h : Serving s r m)
    (hg : Grows s s') : Serving s' r m :=
  ⟨(hg r h.region).1,(hg r h.region).2.mappings m h.mapping⟩

/-- The chunks from `lo` on and before `i` are resolved. -/
def DoneTo (x : ServerRegion) (lo i : ℕ) : Prop := ∀ j, lo ≤ j → j < i → x.resolved j = true

/-- What a loop knows at each of its phases. -/
def At (s : Server) (t : LoopId) : Phase → Prop
  | .polling => s.lock ≠ some t
  | .found r m => s.lock ≠ some t ∧ Serving s r m
  | .resolving r m off => s.lock ≠ some t ∧ Serving s r m ∧ off < (s.region r).layout.mappedSize
  | .filling r m off i => s.lock = some t ∧ Serving s r m ∧ off < (s.region r).layout.mappedSize ∧
      DoneTo (s.region r) (group (s.region r).layout off).lo i
  | .writing r m off i => s.lock = some t ∧ Serving s r m ∧ off < (s.region r).layout.mappedSize ∧
      DoneTo (s.region r) (group (s.region r).layout off).lo i ∧
      i ≤ (group (s.region r).layout off).hi
  | .copying r m off => s.lock ≠ some t ∧ Serving s r m ∧ off < (s.region r).layout.mappedSize ∧
      DoneTo (s.region r) (group (s.region r).layout off).lo ((group (s.region r).layout off).hi+1)

theorem DoneTo.mono {x x' : ServerRegion} {lo i : ℕ} (h : DoneTo x lo i) (he : Extends x x') :
    DoneTo x' lo i := fun j h1 h2 => he.resolved j (h j h1 h2)

/-- A loop's knowledge survives the steps of the others. -/
theorem At.mono {s s' : Server} {t : LoopId} {p : Phase} (h : At s t p) (hg : Grows s s')
    (hl : s'.lock = some t ↔ s.lock = some t) : At s' t p := by
  have hlay : ∀ {r : ServerRegionId}, r ∈ s.regions → (s'.region r).layout = (s.region r).layout :=
    fun hr => (hg _ hr).2.layout
  cases p with
  | polling => exact fun hc => h (hl.mp hc)
  | found r m => exact ⟨fun hc => h.1 (hl.mp hc),h.2.mono hg⟩
  | resolving r m off =>
    obtain ⟨h1,h2,h3⟩ := h
    exact ⟨fun hc => h1 (hl.mp hc),h2.mono hg,by rw [hlay h2.region]; exact h3⟩
  | filling r m off i =>
    obtain ⟨h1,h2,h3,h4⟩ := h
    have he := (hg r h2.region).2
    refine ⟨hl.mpr h1,h2.mono hg,?_,?_⟩
    · rw [he.layout]
      exact h3
    · rw [he.layout]
      exact h4.mono he
  | writing r m off i =>
    obtain ⟨h1,h2,h3,h4,h5⟩ := h
    have he := (hg r h2.region).2
    refine ⟨hl.mpr h1,h2.mono hg,?_,?_,?_⟩
    · rw [he.layout]
      exact h3
    · rw [he.layout]
      exact h4.mono he
    · rw [he.layout]
      exact h5
  | copying r m off =>
    obtain ⟨h1,h2,h3,h4⟩ := h
    have he := (hg r h2.region).2
    refine ⟨fun hc => h1 (hl.mp hc),h2.mono hg,?_,?_⟩
    · rw [he.layout]
      exact h3
    · rw [he.layout]
      exact h4.mono he

/-- A copy that gave its mapping the right bytes: a page-aligned range around
the faulting page, with every chunk's bytes as its callback wrote them and
zeroes after the last chunk. -/
def Served (x : ServerRegion) (c : Copy) : Prop :=
  c.mapping ∈ x.mappings ∧ ∃ lo hi, c.dst = sizeAdd c.mapping.baseAddr lo ∧ lo+c.len = hi ∧
    x.layout.pageSize ∣ lo ∧ x.layout.pageSize ∣ hi ∧
    lo ≤ pageFloor c.faultOff x.layout.pageSize ∧
    pageFloor c.faultOff x.layout.pageSize+x.layout.pageSize ≤ hi ∧ hi ≤ x.layout.mappedSize ∧
    ∀ y, lo ≤ y → y < hi →
      (∀ i < x.layout.nchunks, x.layout.Covers i y →
        c.byte (y-lo) = x.fillChunk i (y-x.layout.chunkStart i)) ∧
      (x.layout.totalSize ≤ y → c.byte (y-lo) = 0)

theorem Served.mono {x x' : ServerRegion} {c : Copy} (h : Served x c) (he : Extends x x') :
    Served x' c := by
  obtain ⟨hm,hrest⟩ := h
  refine ⟨he.mappings _ hm,?_⟩
  rw [he.layout,he.fillChunk]
  exact hrest

/-- The invariant of every reachable server. -/
structure ServerInv (s : Server) : Prop where
  fresh : ∀ r ∈ s.regions, r < s.nextRegion
  distinct : ∀ r ∈ s.regions, ∀ q ∈ s.regions,
    (s.region r).descriptor = (s.region q).descriptor → r = q
  cache : ∀ r ∈ s.regions, RegionOk (s.region r)
  loops : ∀ t, At s t (s.phase t)
  writer : ∀ t r m off i, s.phase t = .writing r m off i → (s.region r).resolved i = false
  calls : ∀ call ∈ s.calls, ∃ r ∈ s.regions, (s.region r).descriptor = call.1 ∧
    ((s.region r).resolved call.2 = true ∨ ∃ t m off, s.phase t = .writing r m off call.2)
  once : s.calls.Nodup
  copies : ∀ c ∈ s.copies, c.region ∈ s.regions ∧ Served (s.region c.region) c

section Moves
variable {s : Server} {t : LoopId}

theorem conn_inv (h : ServerInv s) (t : LoopId) (c : Option ConnState) : ServerInv (setConn s t c) :=
  ⟨h.fresh,h.distinct,h.cache,fun u => (h.loops u).mono (Grows.refl s) Iff.rfl,h.writer,h.calls,h.once,
    h.copies⟩

@[simp] theorem setPhase_self (s : Server) (t : LoopId) (p : Phase) : (setPhase s t p).phase t = p :=
  Function.update_self ..

theorem setPhase_of_ne (s : Server) {t u : LoopId} (p : Phase) (h : u ≠ t) :
    (setPhase s t p).phase u = s.phase u := Function.update_of_ne h ..

/-- The loops after a step of one of them. -/
theorem loops_frame {s' : Server} (h : ServerInv s) (hg : Grows s s')
    (hphase : ∀ u ≠ t, s'.phase u = s.phase u) (hlock : ∀ u ≠ t, (s'.lock = some u ↔ s.lock = some u))
    (hown : At s' t (s'.phase t)) (u : LoopId) : At s' u (s'.phase u) := by
  by_cases hu : u = t
  · subst hu
    exact hown
  · rw [hphase u hu]
    exact (h.loops u).mono hg (hlock u hu)

theorem copies_frame {s' : Server} (h : ServerInv s) (hg : Grows s s') (c : Copy) (hc : c ∈ s.copies) :
    c.region ∈ s'.regions ∧ Served (s'.region c.region) c := by
  obtain ⟨hm,hserved⟩ := h.copies c hc
  exact ⟨(hg _ hm).1,hserved.mono (hg _ hm).2⟩

/-- A loop moves from one phase to another, possibly taking or letting go of
the lock, without touching a region. -/
theorem phase_inv (h : ServerInv s) {l : Option LoopId} {p : Phase}
    (hl : ∀ u ≠ t, (l = some u ↔ s.lock = some u)) (hown : At { s with lock := l } t p)
    (hbefore : ∀ r m off i, s.phase t ≠ .writing r m off i)
    (hafter : ∀ r m off i, p ≠ .writing r m off i) :
    ServerInv (setPhase { s with lock := l } t p) := by
  have hother : ∀ {u r m off i}, (setPhase { s with lock := l } t p).phase u = .writing r m off i →
      u ≠ t ∧ s.phase u = .writing r m off i := by
    intro u r m off i hu
    have hne : u ≠ t := by
      rintro rfl
      rw [setPhase_self] at hu
      exact hafter r m off i hu
    rw [setPhase_of_ne _ p hne] at hu
    exact ⟨hne,hu⟩
  refine ⟨h.fresh,h.distinct,h.cache,?_,?_,?_,h.once,h.copies⟩
  · refine loops_frame h (Grows.of_same rfl rfl) (fun u hu => setPhase_of_ne _ p hu) hl ?_
    rw [setPhase_self]
    exact hown.mono (Grows.refl s) Iff.rfl
  · intro u r m off i hu
    exact h.writer u r m off i (hother hu).2
  · intro call hc
    obtain ⟨r,hr,hd,hstate⟩ := h.calls call hc
    refine ⟨r,hr,hd,hstate.imp id ?_⟩
    rintro ⟨u,m,off,hu⟩
    have hne : u ≠ t := by
      rintro rfl
      exact hbefore _ _ _ _ hu
    exact ⟨u,m,off,by rw [setPhase_of_ne _ p hne]; exact hu⟩

/-- A region changes, but none of its flags. -/
theorem update_inv (h : ServerInv s) {r : ServerRegionId} (hr : r ∈ s.regions)
    {f : ServerRegion → ServerRegion} (he : Extends (s.region r) (f (s.region r)))
    (hok : RegionOk (f (s.region r))) (hres : (f (s.region r)).resolved = (s.region r).resolved) :
    ServerInv (s.update r f) := by
  have hg : Grows s (s.update r f) := grows_update he
  have hflags : ∀ q, ((s.update r f).region q).resolved = (s.region q).resolved := by
    intro q
    by_cases hq : q = r
    · subst hq
      simpa only [Server.update,Function.update_self] using hres
    · simp only [Server.update,Function.update_of_ne hq]
  have hdesc : ∀ q ∈ s.regions, ((s.update r f).region q).descriptor = (s.region q).descriptor :=
    fun q hq => (hg q hq).2.descriptor
  refine ⟨h.fresh,?_,?_,fun u => (h.loops u).mono hg Iff.rfl,?_,?_,h.once,?_⟩
  · intro q hq q' hq' hd
    rw [hdesc q hq,hdesc q' hq'] at hd
    exact h.distinct q hq q' hq' hd
  · intro q hq
    by_cases hqr : q = r
    · subst hqr
      simpa only [Server.update,Function.update_self] using hok
    · simpa only [Server.update,Function.update_of_ne hqr] using h.cache q hq
  · intro u q m off i hu
    rw [hflags]
    exact h.writer u q m off i hu
  · intro call hc
    obtain ⟨q,hq,hd,hstate⟩ := h.calls call hc
    refine ⟨q,hq,(hdesc q hq).trans hd,?_⟩
    rw [hflags]
    exact hstate
  · exact fun c hc => copies_frame h hg c hc

theorem grows_insert (h : ServerInv s) (x : ServerRegion) : Grows s (insertRegion s x) := by
  intro r hr
  have hne : r ≠ s.nextRegion := Nat.ne_of_lt (h.fresh r hr)
  refine ⟨List.mem_cons_of_mem _ hr,?_⟩
  simp only [insertRegion,Function.update_of_ne hne]
  exact Extends.refl _

/-- A region for a descriptor that has none yet. -/
theorem insert_inv (h : ServerInv s) {x : ServerRegion} (hok : RegionOk x)
    (hnew : ∀ r ∈ s.regions, (s.region r).descriptor ≠ x.descriptor) :
    ServerInv (insertRegion s x) := by
  have hg := grows_insert h x
  have hself : (insertRegion s x).region s.nextRegion = x := Function.update_self ..
  have hold : ∀ r ∈ s.regions, (insertRegion s x).region r = s.region r := fun r hr =>
    Function.update_of_ne (Nat.ne_of_lt (h.fresh r hr)) ..
  refine ⟨?_,?_,?_,fun u => (h.loops u).mono hg Iff.rfl,?_,?_,h.once,?_⟩
  · intro r hr
    rcases List.mem_cons.mp hr with rfl | hr
    · exact Nat.lt_succ_self _
    · exact Nat.lt_succ_of_lt (h.fresh r hr)
  · intro r hr q hq hd
    rcases List.mem_cons.mp hr with rfl | hr <;> rcases List.mem_cons.mp hq with rfl | hq
    · rfl
    · rw [hself,hold q hq] at hd
      exact absurd hd.symm (hnew q hq)
    · rw [hself,hold r hr] at hd
      exact absurd hd (hnew r hr)
    · rw [hold r hr,hold q hq] at hd
      exact h.distinct r hr q hq hd
  · intro r hr
    rcases List.mem_cons.mp hr with rfl | hr
    · rw [hself]
      exact hok
    · rw [hold r hr]
      exact h.cache r hr
  · intro u r m off i hu
    have hat := h.loops u
    rw [show s.phase u = .writing r m off i from hu] at hat
    rw [hold r hat.2.1.region]
    exact h.writer u r m off i hu
  · intro call hc
    obtain ⟨r,hr,hd,hstate⟩ := h.calls call hc
    refine ⟨r,List.mem_cons_of_mem _ hr,?_⟩
    rw [hold r hr]
    exact ⟨hd,hstate⟩
  · exact fun c hc => copies_frame h hg c hc

/-- Only the holder of the lock is inside a callback. -/
theorem writer_holds_lock (h : ServerInv s) {u : LoopId} {r : ServerRegionId} {m : Mapping} {off i : ℕ}
    (hu : s.phase u = .writing r m off i) : s.lock = some u := by
  have hat := h.loops u
  rw [hu] at hat
  exact hat.1

/-- The callback is called on a chunk it has never been called on before. -/
theorem beginFill_inv (h : ServerInv s) {r : ServerRegionId} {m : Mapping} {off i : ℕ}
    (hp : s.phase t = .filling r m off i) (hi : i ≤ (group (s.region r).layout off).hi)
    (hr : (s.region r).resolved i = false) : ServerInv (beginFill s t r m off i) := by
  have hat := h.loops t
  rw [hp] at hat
  obtain ⟨hlock,hserve,hoff,hdone⟩ := hat
  have hnone : ∀ {u q m' off' j}, s.phase u ≠ .writing q m' off' j := by
    intro u q m' off' j hu
    obtain rfl := Option.some.inj (hlock.symm.trans (writer_holds_lock h hu))
    rw [hp] at hu
    cases hu
  have hphase : (beginFill s t r m off i).phase t = .writing r m off i := setPhase_self ..
  have hother : ∀ {u}, u ≠ t → (beginFill s t r m off i).phase u = s.phase u :=
    fun hu => setPhase_of_ne _ _ hu
  refine ⟨h.fresh,h.distinct,h.cache,?_,?_,?_,?_,h.copies⟩
  · refine loops_frame h (Grows.of_same rfl rfl) (fun u hu => hother hu) (fun _ _ => Iff.rfl) ?_
    rw [hphase]
    exact ⟨hlock,hserve.mono (Grows.refl s),hoff,hdone,hi⟩
  · intro u q m' off' j hu
    by_cases hut : u = t
    · subst hut
      rw [hphase] at hu
      cases hu
      exact hr
    · rw [hother hut] at hu
      exact absurd hu hnone
  · intro call hc
    rcases List.mem_cons.mp hc with rfl | hc
    · exact ⟨r,hserve.region,rfl,Or.inr ⟨t,m,off,hphase⟩⟩
    · obtain ⟨q,hq,hd,hstate⟩ := h.calls call hc
      rcases hstate with hres | ⟨u,m',off',hu⟩
      · exact ⟨q,hq,hd,Or.inl hres⟩
      · exact absurd hu hnone
  · refine List.nodup_cons.mpr ⟨?_,h.once⟩
    intro hmem
    obtain ⟨q,hq,hd,hstate⟩ := h.calls _ hmem
    obtain rfl := h.distinct q hq r hserve.region hd
    rcases hstate with hres | ⟨u,m',off',hu⟩
    · rw [hr] at hres
      cases hres
    · exact absurd hu hnone

/-- Whatever the running callback leaves in its own chunk, the resolved chunks
and the padding stay as they are. -/
theorem write_ok {x : ServerRegion} {i : ℕ} {content : ℕ → UInt8} (h : RegionOk x)
    (hi : i < x.layout.nchunks) (hres : x.resolved i = false)
    (hc : ∀ y, ¬ x.layout.Covers i y → content y = x.content y) :
    RegionOk { x with content := content } := by
  constructor
  · intro j hj hrj y hy
    refine (hc y ?_).trans (h.cached j hj hrj y hy)
    intro hiy
    obtain rfl := x.layout.covers_unique hj hi hy hiy
    rw [hres] at hrj
    cases hrj
  · intro y hy
    refine (hc y ?_).trans (h.padding y hy)
    rintro ⟨-,hlt⟩
    exact absurd (lt_of_lt_of_le hlt (x.layout.start_le_total hi)) (not_lt.mpr hy)

theorem filled_covers {x : ServerRegion} {i y : ℕ} (hy : x.layout.Covers i y) :
    filled x i y = x.fillChunk i (y-x.layout.chunkStart i) := if_pos hy

theorem filled_of_not_covers {x : ServerRegion} {i y : ℕ} (hy : ¬ x.layout.Covers i y) :
    filled x i y = x.content y := if_neg hy

/-- A callback that has returned leaves its chunk right. -/
theorem endFill_ok {x : ServerRegion} {i : ℕ} (h : RegionOk x) (hi : i < x.layout.nchunks)
    (hres : x.resolved i = false) :
    RegionOk { x with content := filled x i, resolved := Function.update x.resolved i true } := by
  have hkept : ∀ y, ¬ x.layout.Covers i y → filled x i y = x.content y :=
    fun _ hy => filled_of_not_covers hy
  obtain ⟨hcached,hpadding⟩ := write_ok h hi hres hkept
  refine ⟨?_,hpadding⟩
  intro j hj hrj y hy
  by_cases hji : j = i
  · subst hji
    exact filled_covers hy
  · simp only [Function.update_of_ne hji] at hrj
    exact hcached j hj hrj y hy

theorem endFill_region (s : Server) (t : LoopId) (r : ServerRegionId) (m : Mapping) (off i : ℕ) :
    (endFill s t r m off i).region r = { s.region r with
      content := filled (s.region r) i, resolved := Function.update (s.region r).resolved i true } :=
  Function.update_self ..

theorem endFill_grows (s : Server) (t : LoopId) (r : ServerRegionId) (m : Mapping) (off i : ℕ) :
    Grows s (endFill s t r m off i) := by
  refine grows_update (s := s) (r := r) (f := fun x =>
    { x with content := filled x i, resolved := Function.update x.resolved i true })
    ⟨rfl,rfl,rfl,?_,fun _ hm => hm⟩
  intro j hj
  by_cases hji : j = i
  · subst hji
    exact Function.update_self ..
  · simpa only [Function.update_of_ne hji] using hj

theorem endFill_inv (h : ServerInv s) {r : ServerRegionId} {m : Mapping} {off i : ℕ}
    (hp : s.phase t = .writing r m off i) : ServerInv (endFill s t r m off i) := by
  have hat := h.loops t
  rw [hp] at hat
  obtain ⟨hlock,hserve,hoff,hdone,hi⟩ := hat
  have hin : i < (s.region r).layout.nchunks :=
    lt_of_le_of_lt hi (group_spec (s.region r).layout off).inside
  have hres := h.writer t r m off i hp
  have hself := endFill_region s t r m off i
  have hold : ∀ {q}, q ≠ r → (endFill s t r m off i).region q = s.region q :=
    fun hq => Function.update_of_ne hq ..
  have hg := endFill_grows s t r m off i
  have he := (hg r hserve.region).2
  have hphase : (endFill s t r m off i).phase t = .filling r m off (i+1) := setPhase_self ..
  have hother : ∀ {u}, u ≠ t → (endFill s t r m off i).phase u = s.phase u :=
    fun hu => setPhase_of_ne _ _ hu
  have hset : ((endFill s t r m off i).region r).resolved i = true := by
    rw [hself]
    exact Function.update_self ..
  refine ⟨h.fresh,?_,?_,?_,?_,?_,h.once,?_⟩
  · intro q hq q' hq' hd
    rw [(hg q hq).2.descriptor,(hg q' hq').2.descriptor] at hd
    exact h.distinct q hq q' hq' hd
  · intro q hq
    by_cases hqr : q = r
    · subst hqr
      rw [hself]
      exact endFill_ok (h.cache q hq) hin hres
    · rw [hold hqr]
      exact h.cache q hq
  · refine loops_frame h hg (fun u hu => hother hu) (fun _ _ => Iff.rfl) ?_
    rw [hphase]
    refine ⟨hlock,hserve.mono hg,by rw [he.layout]; exact hoff,?_⟩
    rw [he.layout]
    intro j h1 h2
    by_cases hji : j = i
    · subst hji
      exact hset
    · exact he.resolved j (hdone j h1 (by omega))
  · -- No other loop is inside a callback, since this one had the lock.
    intro u q m' off' j hu
    have hut : u ≠ t := by
      rintro rfl
      rw [hphase] at hu
      cases hu
    rw [hother hut] at hu
    exact absurd (Option.some.inj ((writer_holds_lock h hu).symm.trans hlock)) hut
  · intro call hc
    obtain ⟨q,hq,hd,hstate⟩ := h.calls call hc
    refine ⟨q,hq,(hg q hq).2.descriptor.trans hd,Or.inl ?_⟩
    rcases hstate with hres' | ⟨u,m',off',hu⟩
    · exact (hg q hq).2.resolved _ hres'
    · obtain rfl := Option.some.inj (hlock.symm.trans (writer_holds_lock h hu))
      rw [hp] at hu
      cases hu
      exact hset
  · exact fun c hc => copies_frame h hg c hc

/-- The bytes a loop is about to copy are right, and stay so until it does. -/
theorem copy_served (h : ServerInv s) {r : ServerRegionId} {m : Mapping} {off : ℕ}
    (hp : s.phase t = .copying r m off) : Served (s.region r) (copyOf s r m off) := by
  have hat := h.loops t
  rw [hp] at hat
  obtain ⟨-,hserve,hoff,hdone⟩ := hat
  set x := s.region r with hx
  have hspec := group_spec x.layout off
  have hok : RegionOk x := h.cache r hserve.region
  set g := group x.layout off with hg
  obtain ⟨hpage,hpage'⟩ := hspec.contains_page hoff
  have hlen : g.pageLo+(g.pageHi-g.pageLo) = g.pageHi := by
    have := x.layout.pageSize_pos
    omega
  refine ⟨hserve.mapping,g.pageLo,g.pageHi,rfl,hlen,hspec.alignedLo,hspec.alignedHi,hpage,hpage',
    hspec.pageHi_le,?_⟩
  intro y hlo hhi
  have hbyte : (copyOf s r m off).byte (y-g.pageLo) = x.content y := by
    change x.content (g.pageLo+(y-g.pageLo)) = x.content y
    rw [Nat.add_sub_cancel' hlo]
  rw [hbyte]
  refine ⟨?_,hok.padding y⟩
  intro i hi hy
  obtain ⟨h1,h2⟩ := hspec.chunk_mem hlo hhi hi hy
  exact hok.cached i hi (hdone i h1 (by omega)) y hy

theorem copy_inv (h : ServerInv s) {r : ServerRegionId} {m : Mapping} {off : ℕ}
    (hp : s.phase t = .copying r m off) : ServerInv (copyPages s t r m off) := by
  have hserved := copy_served h hp
  have hat := h.loops t
  rw [hp] at hat
  have hbase : ServerInv (setPhase s t .polling) := by
    refine phase_inv (t := t) (p := .polling) h (fun _ _ => Iff.rfl) hat.1 ?_ ?_
    · intro r' m' off' i hw
      rw [hp] at hw
      cases hw
    · intro r' m' off' i hw
      cases hw
  refine ⟨hbase.fresh,hbase.distinct,hbase.cache,?_,hbase.writer,hbase.calls,hbase.once,?_⟩
  · intro u
    exact (hbase.loops u).mono (Grows.refl s) Iff.rfl
  · intro c hc
    rcases List.mem_cons.mp hc with rfl | hc
    · exact ⟨hat.2.1.region,hserved⟩
    · exact h.copies c hc

theorem findRegion_some {d : Bytes} {r : ServerRegionId} (hf : findRegion s d = some r) :
    r ∈ s.regions ∧ (s.region r).descriptor = d :=
  ⟨List.mem_of_find?_eq_some hf,by simpa using List.find?_some hf⟩

theorem findRegion_none {d : Bytes} (hf : findRegion s d = none) :
    ∀ r ∈ s.regions, (s.region r).descriptor ≠ d := by
  intro r hr
  simpa using List.find?_eq_none.mp hf r hr

/-- A region that has just been created has an empty cache. -/
theorem createRegion_ok {P : ℕ} {hP : 0 < P} {d : Bytes} {answer : Except String (Recipe P)}
    {memory : Bool} {x : ServerRegion} (hx : createRegion P hP d answer memory = .ok x) :
    x.descriptor = d ∧ RegionOk x := by
  unfold createRegion at hx
  split at hx
  · cases hx
  · split at hx
    · split at hx
      · cases hx
      · split at hx
        · cases hx
        · split at hx
          · cases hx
            exact ⟨rfl,by simp,fun _ _ => rfl⟩
          · cases hx
    · cases hx

theorem handleResolve_cases (s : Server) (msg : Bytes) (answer : Except String (Recipe s.pageSize))
    (memory replyMemory : Bool) :
    (handleResolve s msg answer memory replyMemory).2 = s ∨
    ∃ x, RegionOk x ∧ (∀ r ∈ s.regions, (s.region r).descriptor ≠ x.descriptor) ∧
      (handleResolve s msg answer memory replyMemory).2 = insertRegion s x := by
  unfold handleResolve
  split
  · exact Or.inl rfl
  · exact Or.inl rfl
  · split
    · exact Or.inl rfl
    · next hfind =>
      split
      · exact Or.inl rfl
      · next x hx =>
        obtain ⟨hd,hok⟩ := createRegion_ok hx
        exact Or.inr ⟨x,hok,by rw [hd]; exact findRegion_none hfind,rfl⟩

theorem handleAttach_cases (s : Server) (msg : Bytes) (uffd : Option ℕ) (memory : Bool) :
    (handleAttach s msg uffd memory).2 = s ∨
    ∃ r ∈ s.regions, ∃ m : Mapping, (handleAttach s msg uffd memory).2 =
      s.update r (fun x => { x with mappings := m::x.mappings }) := by
  unfold handleAttach
  split
  · exact Or.inl rfl
  · exact Or.inl rfl
  · split
    · exact Or.inl rfl
    · next r hfind =>
      split_ifs
      · exact Or.inr ⟨r,(findRegion_some hfind).1,_,rfl⟩
      · exact Or.inl rfl

theorem findMapping_some {fd : ℕ} {r : ServerRegionId} {m : Mapping}
    (hf : findMapping s fd = some (r,m)) : Serving s r m := by
  obtain ⟨q,hq,he⟩ := List.exists_of_findSome?_eq_some hf
  obtain ⟨m',hm,hpair⟩ := Option.map_eq_some_iff.mp he
  obtain ⟨rfl,rfl⟩ := Prod.mk.inj hpair
  exact ⟨hq,List.mem_of_find?_eq_some hm⟩

theorem attach_extends (x : ServerRegion) (m : Mapping) :
    Extends x { x with mappings := m::x.mappings } :=
  ⟨rfl,rfl,rfl,fun _ h => h,fun _ h => List.mem_cons_of_mem _ h⟩

theorem write_extends (x : ServerRegion) (content : ℕ → UInt8) :
    Extends x { x with content := content } := ⟨rfl,rfl,rfl,fun _ h => h,fun _ h => h⟩

/-- Every step keeps the regions and only adds to them. -/
theorem step_grows {s' : Server} (h : ServerInv s) (hs : Step s s') : Grows s s' := by
  cases hs with
  | resolve t msg answer memory replyMemory =>
    rcases handleResolve_cases s msg answer memory replyMemory with he | ⟨x,-,-,he⟩
    · rw [he]
      exact Grows.refl s
    · rw [he]
      exact grows_insert h x
  | attach t msg uffd memory =>
    rcases handleAttach_cases s msg uffd memory with he | ⟨r,-,m,he⟩
    · rw [he]
      exact Grows.refl s
    · rw [he]
      exact grows_update (f := fun x => { x with mappings := m::x.mappings }) (attach_extends _ m)
  | write t r m off i content => exact grows_update (write_extends _ content)
  | endFill t r m off i => exact endFill_grows s t r m off i
  | _ => exact Grows.refl s

theorem step_inv {s' : Server} (h : ServerInv s) (hs : Step s s') : ServerInv s' := by
  have hphase : ∀ {t p}, s.phase t = p → At s t p := fun hp => hp ▸ h.loops _
  have hnot : ∀ {t p}, s.phase t = p → (∀ r m off i, p ≠ .writing r m off i) →
      ∀ r m off i, s.phase t ≠ .writing r m off i := fun hp hw => hp ▸ hw
  cases hs with
  | enter t => exact conn_inv h t _
  | leave t => exact conn_inv h t _
  | resolve t msg answer memory replyMemory =>
    apply conn_inv
    rcases handleResolve_cases s msg answer memory replyMemory with he | ⟨x,hok,hnew,he⟩
    · rw [he]
      exact h
    · rw [he]
      exact insert_inv h hok hnew
  | attach t msg uffd memory =>
    apply conn_inv
    rcases handleAttach_cases s msg uffd memory with he | ⟨r,hr,m,he⟩
    · rw [he]
      exact h
    · rw [he]
      exact update_inv h hr (attach_extends _ m) ⟨(h.cache r hr).cached,(h.cache r hr).padding⟩ rfl
  | event t fd r m hc hp hl hfind =>
    exact phase_inv (p := .found r m) h (fun _ _ => Iff.rfl) ⟨hphase hp,findMapping_some hfind⟩
      (hnot hp (by simp)) (by simp)
  | unread t r m hp =>
    exact phase_inv (p := .polling) h (fun _ _ => Iff.rfl) (hphase hp).1 (hnot hp (by simp)) (by simp)
  | fault t r m faultAddr hp hin =>
    exact phase_inv (p := .resolving r m _) h (fun _ _ => Iff.rfl) ⟨(hphase hp).1,(hphase hp).2,hin⟩
      (hnot hp (by simp)) (by simp)
  | acquire t r m off hp hl =>
    obtain ⟨-,hserve,hoff⟩ := hphase hp
    refine phase_inv (p := .filling r m off _) h ?_ ?_ (hnot hp (by simp)) (by simp)
    · intro u hu
      rw [hl]
      simp [hu.symm]
    · exact ⟨rfl,hserve.mono (Grows.refl s),hoff,fun j h1 h2 => absurd h2 (not_lt.mpr h1)⟩
  | skip t r m off i hp hi hr =>
    obtain ⟨hlock,hserve,hoff,hdone⟩ := hphase hp
    refine phase_inv (p := .filling r m off (i+1)) h (fun _ _ => Iff.rfl) ?_ (hnot hp (by simp)) (by simp)
    refine ⟨hlock,hserve,hoff,?_⟩
    intro j h1 h2
    rcases Nat.lt_succ_iff_lt_or_eq.mp h2 with hlt | rfl
    · exact hdone j h1 hlt
    · exact hr
  | beginFill t r m off i hp hi hr => exact beginFill_inv h hp hi hr
  | write t r m off i content hp hc =>
    obtain ⟨-,hserve,-,-,hi⟩ := hphase hp
    have hin := lt_of_le_of_lt hi (group_spec (s.region r).layout off).inside
    exact update_inv h hserve.region (write_extends _ content)
      (write_ok (h.cache r hserve.region) hin (h.writer t r m off i hp) hc) rfl
  | endFill t r m off i hp => exact endFill_inv h hp
  | release t r m off i hp hi =>
    obtain ⟨hlock,hserve,hoff,hdone⟩ := hphase hp
    refine phase_inv (p := .copying r m off) h ?_ ?_ (hnot hp (by simp)) (by simp)
    · intro u hu
      rw [hlock]
      simp [hu.symm]
    · exact ⟨by simp,hserve.mono (Grows.refl s),hoff,fun j h1 h2 => hdone j h1 (lt_of_lt_of_le h2 hi)⟩
  | copy t r m off hp => exact copy_inv h hp

end Moves

theorem start_inv (pageSize : ℕ) (hP : 0 < pageSize) : ServerInv (serverStart pageSize hP) := by
  refine ⟨?_,?_,?_,?_,?_,?_,List.nodup_nil,?_⟩
  all_goals simp [serverStart,At]

theorem steps_inv {s s' : Server} (h : ServerInv s) (hs : Steps s s') : ServerInv s' ∧ Grows s s' := by
  induction hs with
  | refl => exact ⟨h,Grows.refl s⟩
  | tail _ hstep ih => exact ⟨step_inv ih.1 hstep,ih.2.trans (step_grows ih.1 hstep)⟩

theorem reachable_inv {s : Server} (h : Reachable s) : ServerInv s := by
  obtain ⟨pageSize,hP,hs⟩ := h
  exact (steps_inv (start_inv pageSize hP) hs).1

/-- Over every interleaving of the loops: each chunk of each descriptor is
filled at most once, a resolved chunk keeps the bytes of its callback for ever,
and every copy serves its mapping. -/
theorem server_serves_chunks {s : Server} (h : Reachable s) :
    s.calls.Nodup ∧
    (∀ r ∈ s.regions, ∀ i < (s.region r).layout.nchunks, (s.region r).resolved i = true →
      ∀ s', Steps s s' → (s'.region r).resolved i = true ∧
        ∀ y, (s.region r).layout.Covers i y →
          (s'.region r).content y = (s.region r).fillChunk i (y-(s.region r).layout.chunkStart i)) ∧
    ∀ c ∈ s.copies, c.region ∈ s.regions ∧ Served (s.region c.region) c := by
  have hinv := reachable_inv h
  refine ⟨hinv.once,?_,hinv.copies⟩
  intro r hr i hi hres s' hs
  obtain ⟨hinv',hg⟩ := steps_inv hinv hs
  obtain ⟨hr',he⟩ := hg r hr
  have hok := hinv'.cache r hr'
  refine ⟨he.resolved i hres,?_⟩
  intro y hy
  have hcached := hok.cached i (by rw [he.layout]; exact hi) (he.resolved i hres) y
    (by rw [he.layout]; exact hy)
  rw [he.fillChunk,he.layout] at hcached
  exact hcached

/-- One chunk of six bytes over two four-byte pages. -/
def sampleRecipe : Recipe 4 where
  chunkSizes := some [6]
  fillChunk := some (fun c i => (16*c+i+1).toUInt8)
  count := by simp
  widths := by simp
  rounds := by simp [sumSizes]

/-- A client resolves, attaches at address 64 and faults at 69. -/
theorem sample_run : ∃ s, Reachable s ∧ s.calls = [([7],0)] ∧ s.copies.length = 1 := by
  have h1 : Steps (serverStart 4 (by decide)) _ := .single (.enter _ 0 rfl)
  have h2 := h1.tail (.resolve _ 0 (resolveReqHdr 1 ++ [7]) (.ok sampleRecipe) true true rfl rfl rfl)
  have h3 := h2.tail (.attach _ 0 (attachReqHdr 64 1 ++ [7]) (some 3) true rfl rfl rfl ?_)
  · have h4 := h3.tail (.event _ 0 3 0 ⟨3,64⟩ (by decide) rfl rfl rfl)
    have h5 := h4.tail (.fault _ 0 0 ⟨3,64⟩ 69 rfl (by decide))
    have h6 := h5.tail (.acquire _ 0 0 ⟨3,64⟩ 5 rfl rfl)
    have h7 := h6.tail (.beginFill _ 0 0 ⟨3,64⟩ 5 0 rfl (by decide) rfl)
    have h8 := h7.tail (.endFill _ 0 0 ⟨3,64⟩ 5 0 rfl)
    have h9 := h8.tail (.release _ 0 0 ⟨3,64⟩ 5 1 rfl (by decide))
    have h10 := h9.tail (.copy _ 0 0 ⟨3,64⟩ 5 rfl)
    exact ⟨_,⟨4,by decide,h10⟩,rfl,rfl⟩
  · intro fd _ r hr m hm
    obtain rfl : r = 0 := List.mem_singleton.mp hr
    exact absurd hm List.not_mem_nil

theorem server_serves_chunks_sample : ∃ s : Server, s.calls = [([7],0)] ∧ s.copies.length = 1 ∧
    ∀ c ∈ s.copies, c.region ∈ s.regions ∧ Served (s.region c.region) c := by
  obtain ⟨s,hs,hcalls,hcopies⟩ := sample_run
  exact ⟨s,hcalls,hcopies,(server_serves_chunks hs).2.2⟩

end FaultCache.ServerCache
