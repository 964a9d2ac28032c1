import FaultCache.PageGeometry
import Mathlib.Logic.Function.Basic
import Mathlib.Order.Interval.Set.Basic

/-!
# The table of shared pages

A page that holds an unaligned chunk boundary belongs to no single chunk. The
table of such pages is built by two passes over the boundaries which skip
repeated pages, and is searched by bisection. Ownership of a page is thereby
decided three ways: by the table, by the exclusive range of a chunk, and by
the chunk search. The results below make the three agree on every page.
-/

set_option autoImplicit false

namespace FaultCache.SharedPages
open FaultCache.Bisection FaultCache.PageGeometry

/-- The fixed part of a `shared_page_t`: its offset and its contributors. -/
structure SharedSpan where
  pageOff : ℕ
  firstChunk : ℕ
  lastChunk : ℕ
  deriving DecidableEq, Repr

def sizeMax : ℕ := 2^64-1

/-- The page holding boundary `i`. -/
def boundaryPage (L : Layout) (i : ℕ) : ℕ := pageFloor (L.chunkStart i) L.pageSize

/-- The counting pass: entries and `prev` after `m` boundaries. -/
def countShared (L : Layout) : ℕ → ℕ × ℕ
  | 0 => (0,sizeMax)
  | m+1 =>
    let s := countShared L m
    let p := boundaryPage L (m+1)
    if L.chunkStart (m+1) = p ∨ p = s.2 then s else (s.1+1,p)

structure Scan where
  count : ℕ
  prev : ℕ
  table : ℕ → SharedSpan

def lastByte (L : Layout) (p : ℕ) : ℕ :=
  if L.totalSize ≤ p+L.pageSize-1 then L.totalSize-1 else p+L.pageSize-1

/-- The filling pass, with the contributors of each entry. -/
def fillShared (L : Layout) : ℕ → Scan
  | 0 => ⟨0,sizeMax,fun _ => ⟨0,0,0⟩⟩
  | m+1 =>
    let s := fillShared L m
    let p := boundaryPage L (m+1)
    if L.chunkStart (m+1) = p ∨ p = s.prev then s
    else ⟨s.count+1,p,Function.update s.table s.count
      ⟨p,L.findChunk p,L.findChunk (lastByte L p)⟩⟩

def nshared (L : Layout) : ℕ := (countShared L (L.nchunks-1)).1

def sharedPage (L : Layout) (k : ℕ) : SharedSpan := (fillShared L (L.nchunks-1)).table k

def findSharedPage (L : Layout) (pageOff : ℕ) : Option ℕ :=
  let lo := firstLoop (fun mid => (sharedPage L mid).pageOff < pageOff) (nshared L) 0 (nshared L)
  if lo < nshared L ∧ (sharedPage L lo).pageOff = pageOff then some lo else none

/-- `FC_ASSERT(k == n)`: both passes skip the same boundaries. -/
theorem passes_agree (L : Layout) (m : ℕ) :
    (fillShared L m).count = (countShared L m).1 ∧ (fillShared L m).prev = (countShared L m).2 := by
  induction m with
  | zero => exact ⟨rfl,rfl⟩
  | succ m ih =>
    simp only [fillShared,countShared,ih.2]
    split_ifs
    · exact ih
    · exact ⟨by simp [ih.1],rfl⟩

/-- Boundary `b` is interior and not page-aligned. -/
def Unaligned (L : Layout) (b : ℕ) : Prop :=
  0 < b ∧ b < L.nchunks ∧ L.chunkStart b ≠ boundaryPage L b

structure ScanInv (L : Layout) (m : ℕ) (s : Scan) : Prop where
  fresh : s.count = 0 → s.prev = sizeMax
  prev : 0 < s.count → s.prev = (s.table (s.count-1)).pageOff
  sorted : ∀ i j, i < j → j < s.count → (s.table i).pageOff < (s.table j).pageOff
  entry : ∀ i < s.count, ∃ b ≤ m, Unaligned L b ∧ s.table i =
    ⟨boundaryPage L b,L.findChunk (boundaryPage L b),L.findChunk (lastByte L (boundaryPage L b))⟩
  complete : ∀ b ≤ m, Unaligned L b → ∃ i < s.count, (s.table i).pageOff = boundaryPage L b

theorem boundaryPage_mono (L : Layout) {a b : ℕ} (h : a ≤ b) (hb : b ≤ L.nchunks) :
    boundaryPage L a ≤ boundaryPage L b :=
  pageFloor_mono L.pageSize_pos (L.start_mono h hb)

theorem boundaryPage_lt_sizeMax (L : Layout) {b : ℕ} (hb : b < L.nchunks) :
    boundaryPage L b < sizeMax := by
  have h1 := pageFloor_le (L.chunkStart b) L.pageSize
  have h2 := L.start_strict hb (le_refl _)
  have h3 := L.start_last
  have h4 := L.total_fits
  have h5 := L.pageSize_pos
  simp only [boundaryPage,sizeMax]
  omega

theorem scan_skip {L : Layout} {m : ℕ} {s : Scan} (h : ScanInv L m s) (hm : m+1 < L.nchunks)
    (hc : L.chunkStart (m+1) = boundaryPage L (m+1) ∨ boundaryPage L (m+1) = s.prev) :
    ScanInv L (m+1) s where
  fresh := h.fresh
  prev := h.prev
  sorted := h.sorted
  entry := by
    intro i hi
    obtain ⟨b,hb,hu,he⟩ := h.entry i hi
    exact ⟨b,by omega,hu,he⟩
  complete := by
    intro b hb hu
    by_cases hbm : b ≤ m
    · exact h.complete b hbm hu
    · obtain rfl : b = m+1 := by omega
      rcases hc with hc | hc
      · exact absurd hc hu.2.2
      · by_cases hk : s.count = 0
        · have := boundaryPage_lt_sizeMax L hm
          have := h.fresh hk
          omega
        · exact ⟨s.count-1,by omega,by rw [hc,h.prev (by omega)]⟩

theorem scan_extend {L : Layout} {m : ℕ} {s : Scan} (h : ScanInv L m s) (hm : m+1 < L.nchunks)
    (h1 : L.chunkStart (m+1) ≠ boundaryPage L (m+1)) (h2 : boundaryPage L (m+1) ≠ s.prev) :
    ScanInv L (m+1) ⟨s.count+1,boundaryPage L (m+1),Function.update s.table s.count
      ⟨boundaryPage L (m+1),L.findChunk (boundaryPage L (m+1)),
        L.findChunk (lastByte L (boundaryPage L (m+1)))⟩⟩ := by
  have hold : ∀ i < s.count, (s.table i).pageOff < boundaryPage L (m+1) := by
    intro i hi
    have hle : (s.table (s.count-1)).pageOff ≤ boundaryPage L (m+1) := by
      obtain ⟨b,hb,hu,he⟩ := h.entry (s.count-1) (by omega)
      rw [he]
      exact boundaryPage_mono L (by omega) (by omega)
    have hlast := h.prev (by omega)
    by_cases hil : i = s.count-1
    · subst hil; omega
    · have := h.sorted i (s.count-1) (by omega) (by omega)
      omega
  refine ⟨fun hc => absurd hc (Nat.succ_ne_zero _),fun _ => by simp,?_,?_,?_⟩
  · intro i j hij hj
    simp only at hj ⊢
    have hi : i ≠ s.count := by omega
    rw [Function.update_of_ne hi]
    by_cases hjk : j = s.count
    · subst hjk
      rw [Function.update_self]
      exact hold i hij
    · rw [Function.update_of_ne hjk]
      exact h.sorted i j hij (by omega)
  · intro i hi
    simp only at hi ⊢
    by_cases hik : i = s.count
    · subst hik
      exact ⟨m+1,le_refl _,⟨by omega,hm,h1⟩,by rw [Function.update_self]⟩
    · obtain ⟨b,hb,hu,he⟩ := h.entry i (by omega)
      exact ⟨b,by omega,hu,by rw [Function.update_of_ne hik]; exact he⟩
  · intro b hb hu
    by_cases hbm : b ≤ m
    · obtain ⟨i,hi,he⟩ := h.complete b hbm hu
      exact ⟨i,Nat.lt_succ_of_lt hi,by simpa [Function.update_of_ne (show i ≠ s.count by omega)] using he⟩
    · obtain rfl : b = m+1 := by omega
      exact ⟨s.count,Nat.lt_succ_self _,by simp⟩

theorem scan_inv (L : Layout) (m : ℕ) (hm : m < L.nchunks) : ScanInv L m (fillShared L m) := by
  induction m with
  | zero =>
    refine ⟨fun _ => rfl,?_,?_,?_,?_⟩
    · intro h; exact absurd h (lt_irrefl _)
    · intro i j _ hj; exact absurd hj (Nat.not_lt_zero _)
    · intro i hi; exact absurd hi (Nat.not_lt_zero _)
    · intro b hb hu; have := hu.1; omega
  | succ m ih =>
    have h := ih (by omega)
    rw [fillShared]
    split_ifs with hc
    · exact scan_skip h hm hc
    · exact scan_extend h hm (fun he => hc (Or.inl he)) (fun he => hc (Or.inr he))

theorem table_inv (L : Layout) : ScanInv L (L.nchunks-1) (fillShared L (L.nchunks-1)) :=
  scan_inv L _ (by have := L.nchunks_pos; omega)

theorem table_count (L : Layout) : (fillShared L (L.nchunks-1)).count = nshared L :=
  (passes_agree L _).1

theorem shared_sorted (L : Layout) {i j : ℕ} (hij : i < j) (hj : j < nshared L) :
    (sharedPage L i).pageOff < (sharedPage L j).pageOff :=
  (table_inv L).sorted i j hij (by rw [table_count]; exact hj)

theorem shared_entry (L : Layout) {k : ℕ} (hk : k < nshared L) :
    ∃ b, Unaligned L b ∧ sharedPage L k =
      ⟨boundaryPage L b,L.findChunk (boundaryPage L b),L.findChunk (lastByte L (boundaryPage L b))⟩ := by
  obtain ⟨b,-,hu,he⟩ := (table_inv L).entry k (by rw [table_count]; exact hk)
  exact ⟨b,hu,he⟩

theorem shared_complete (L : Layout) {b : ℕ} (hu : Unaligned L b) :
    ∃ k < nshared L, (sharedPage L k).pageOff = boundaryPage L b := by
  obtain ⟨k,hk,he⟩ := (table_inv L).complete b (by have := hu.2.1; omega) hu
  exact ⟨k,by rw [table_count] at hk; exact hk,he⟩

theorem shared_injective (L : Layout) {i j : ℕ} (hi : i < nshared L) (hj : j < nshared L)
    (h : (sharedPage L i).pageOff = (sharedPage L j).pageOff) : i = j := by
  rcases Nat.lt_trichotomy i j with hlt | he | hlt
  · have := shared_sorted L hlt hj; omega
  · exact he
  · have := shared_sorted L hlt hi; omega

/-- The table search finds exactly the entry of a page. -/
theorem findSharedPage_some (L : Layout) (p k : ℕ) :
    findSharedPage L p = some k ↔ k < nshared L ∧ (sharedPage L k).pageOff = p := by
  have hd : DownClosed (fun mid => decide ((sharedPage L mid).pageOff < p)) (nshared L) := by
    intro i j hij hj h
    simp only [decide_eq_true_eq] at h ⊢
    rcases Nat.lt_or_eq_of_le hij with hlt | rfl
    · have := shared_sorted L hlt hj; omega
    · exact h
  obtain ⟨-,h2,h3,h4⟩ := first_loop_spec _ _ hd (nshared L) 0 (nshared L) (by omega) (by omega)
    (le_refl _) (by intro j hj; omega)
  unfold findSharedPage
  constructor
  · intro h
    simp only at h
    split_ifs at h with hc
    cases h
    exact hc
  · rintro ⟨hk,hp⟩
    set lo := firstLoop (fun mid => decide ((sharedPage L mid).pageOff < p)) (nshared L) 0 (nshared L)
    have hlo : lo = k := by
      rcases Nat.lt_trichotomy lo k with hlt | he | hlt
      · have := of_decide_eq_false (h4 lo (le_refl _) (by omega))
        have := shared_sorted L hlt hk
        omega
      · exact he
      · have := of_decide_eq_true (h3 k hlt)
        omega
    simp only [hlo]
    rw [if_pos ⟨hk,hp⟩]

theorem findSharedPage_none (L : Layout) (p : ℕ) :
    findSharedPage L p = none ↔ ∀ b, Unaligned L b → boundaryPage L b ≠ p := by
  constructor
  · intro h b hu hp
    obtain ⟨k,hk,he⟩ := shared_complete L hu
    have := (findSharedPage_some L p k).mpr ⟨hk,he.trans hp⟩
    rw [h] at this
    cases this
  · intro h
    cases hf : findSharedPage L p with
    | none => rfl
    | some k =>
      obtain ⟨hk,hp⟩ := (findSharedPage_some L p k).mp hf
      obtain ⟨b,hu,he⟩ := shared_entry L hk
      rw [he] at hp
      exact absurd hp (h b hu)

theorem findSharedPage_boundary (L : Layout) {b : ℕ} (hu : Unaligned L b) :
    ∃ k, findSharedPage L (boundaryPage L b) = some k := by
  obtain ⟨k,hk,he⟩ := shared_complete L hu
  exact ⟨k,(findSharedPage_some L _ k).mpr ⟨hk,he⟩⟩

theorem page_lt_total (L : Layout) {p : ℕ} (hp : L.pageSize ∣ p) (h : p < L.mappedSize) :
    p < L.totalSize := by
  have := aligned_add_le hp L.dvd_mapped h
  have := L.mapped_bounds
  omega

/-- The chunks with a byte in a page are the range between the chunk covering
its first byte and the chunk covering its last byte inside the region. -/
theorem touches_iff (L : Layout) {p c : ℕ} (hp : p < L.totalSize) (hc : c < L.nchunks) :
    L.Touches c p ↔ L.findChunk p ≤ c ∧ c ≤ L.findChunk (lastByte L p) := by
  obtain ⟨f1,f2,f3⟩ := L.findChunk_spec p
  obtain ⟨g1,g2,g3⟩ := L.findChunk_spec (lastByte L p)
  have hP := L.pageSize_pos
  have hlb : lastByte L p < p+L.pageSize ∧ lastByte L p < L.totalSize ∧ p ≤ lastByte L p := by
    unfold lastByte
    split_ifs <;> omega
  have hstart : L.chunkStart c < L.totalSize := L.start_last ▸ L.start_strict hc (le_refl _)
  constructor
  · rintro ⟨h1,h2⟩
    constructor
    · by_contra hlt
      have := L.start_mono (i := c+1) (j := L.findChunk p) (by omega) (by omega)
      omega
    · by_contra hlt
      have := g3 c (by omega) hc
      unfold lastByte at this
      split_ifs at this <;> omega
  · rintro ⟨h1,h2⟩
    constructor
    · have := L.start_mono h2 (by omega)
      omega
    · by_cases he : c+1 = L.nchunks
      · rw [he,L.start_last]; exact hp
      · exact f3 (c+1) (by omega) (by omega)

theorem shared_aligned (L : Layout) {k : ℕ} (hk : k < nshared L) :
    L.pageSize ∣ (sharedPage L k).pageOff := by
  obtain ⟨b,hu,he⟩ := shared_entry L hk
  rw [he]
  exact dvd_pageFloor _ _

/-- A boundary strictly inside its page. -/
theorem unaligned_inside (L : Layout) {b : ℕ} (hu : Unaligned L b) :
    boundaryPage L b < L.chunkStart b ∧ L.chunkStart b < boundaryPage L b+L.pageSize := by
  have h1 := pageFloor_le (L.chunkStart b) L.pageSize
  have h2 := lt_pageFloor_add L.pageSize_pos (L.chunkStart b)
  have h3 := hu.2.2
  simp only [boundaryPage] at *
  omega

theorem shared_lt_total (L : Layout) {k : ℕ} (hk : k < nshared L) :
    (sharedPage L k).pageOff < L.totalSize := by
  obtain ⟨b,hu,he⟩ := shared_entry L hk
  have h1 := (unaligned_inside L hu).1
  have h2 := L.start_le_total (Nat.le_of_lt hu.2.1)
  rw [he]
  simp only
  omega

theorem shared_lt_mapped (L : Layout) {k : ℕ} (hk : k < nshared L) :
    (sharedPage L k).pageOff+L.pageSize ≤ L.mappedSize := by
  have h1 := shared_lt_total L hk
  have h2 := L.mapped_bounds.1
  exact aligned_add_le (shared_aligned L hk) L.dvd_mapped (by omega)

/-- The contributors of an entry are exactly the chunks with bytes in it. -/
theorem contributors_iff (L : Layout) {k c : ℕ} (hk : k < nshared L) (hc : c < L.nchunks) :
    (sharedPage L k).firstChunk ≤ c ∧ c ≤ (sharedPage L k).lastChunk ↔
      L.Touches c (sharedPage L k).pageOff := by
  rw [touches_iff L (shared_lt_total L hk) hc]
  obtain ⟨b,hu,he⟩ := shared_entry L hk
  rw [he]

theorem lastChunk_lt (L : Layout) {k : ℕ} (hk : k < nshared L) :
    (sharedPage L k).lastChunk < L.nchunks := by
  obtain ⟨b,hu,he⟩ := shared_entry L hk
  rw [he]
  exact L.findChunk_lt _

theorem two_contributors (L : Layout) {k : ℕ} (hk : k < nshared L) :
    (sharedPage L k).firstChunk < (sharedPage L k).lastChunk := by
  obtain ⟨b,hu,he⟩ := shared_entry L hk
  obtain ⟨h1,h2⟩ := unaligned_inside L hu
  have hb := hu.1
  have hn := hu.2.1
  have hlo : L.Touches (b-1) (sharedPage L k).pageOff := by
    rw [he]
    have := L.start_strict (i := b-1) (j := b) (by omega) (by omega)
    refine ⟨by simp only; omega,?_⟩
    rw [show b-1+1 = b by omega]
    exact h1
  have hhi : L.Touches b (sharedPage L k).pageOff := by
    rw [he]
    exact ⟨h2,lt_trans h1 (L.start_succ b hn)⟩
  have hl := (contributors_iff L hk (by omega)).mpr hlo
  have hh := (contributors_iff L hk hn).mpr hhi
  omega

theorem exclusive_iff (L : Layout) {c p : ℕ} (hc : c < L.nchunks) (hp : L.pageSize ∣ p) :
    L.exclLo c ≤ p ∧ p < L.exclHi c ↔ L.chunkStart c ≤ p ∧ p < L.mappedSize ∧
      (c+1 = L.nchunks ∨ p+L.pageSize ≤ L.chunkStart (c+1)) := by
  have hP := L.pageSize_pos
  have hfit : L.chunkStart c+L.pageSize-1 < 2^64 := by
    have := L.start_le_total (Nat.le_of_lt hc)
    have := L.total_fits
    omega
  have hb := pageCeil_bounds hP hfit
  have hlo : pageCeil (L.chunkStart c) L.pageSize ≤ p ↔ L.chunkStart c ≤ p :=
    ⟨fun h => by omega,pageCeil_le hP hp hfit⟩
  have hmap := L.mapped_bounds.1
  simp only [Layout.exclLo,Layout.exclHi,Layout.chunkExclusivePages]
  by_cases hl : c+1 = L.nchunks
  · simp only [if_pos hl]
    split_ifs <;> omega
  · have hfl := pageFloor_le (L.chunkStart (c+1)) L.pageSize
    have hend := L.start_le_total (i := c+1) (by omega)
    have hhi : p < pageFloor (L.chunkStart (c+1)) L.pageSize ↔ p+L.pageSize ≤ L.chunkStart (c+1) := by
      constructor
      · intro h
        have := aligned_add_le hp (dvd_pageFloor _ _) h
        omega
      · intro h
        have := lt_pageFloor_add hP (L.chunkStart (c+1))
        omega
    simp only [if_neg hl]
    split_ifs <;> omega

theorem excl_le (L : Layout) (c : ℕ) : L.exclLo c ≤ L.exclHi c := by
  simp only [Layout.exclLo,Layout.exclHi,Layout.chunkExclusivePages]
  split_ifs <;> omega

/-- Every page is in the table or in the exclusive range of the chunk that
covers its first byte. -/
theorem page_exclusive (L : Layout) {p : ℕ} (hp : L.pageSize ∣ p) (hm : p < L.mappedSize)
    (hf : findSharedPage L p = none) :
    L.exclLo (L.findChunk p) ≤ p ∧ p < L.exclHi (L.findChunk p) := by
  obtain ⟨h1,h2,h3⟩ := L.findChunk_spec p
  rw [exclusive_iff L h1 hp]
  refine ⟨h2,hm,?_⟩
  by_cases hl : L.findChunk p+1 = L.nchunks
  · exact Or.inl hl
  · right
    by_contra hc
    have h4 := h3 (L.findChunk p+1) (by omega) (by omega)
    have hb : boundaryPage L (L.findChunk p+1) = p :=
      pageFloor_eq L.pageSize_pos hp (by omega) (by omega)
    exact (findSharedPage_none L p).mp hf _ ⟨by omega,by omega,by omega⟩ hb

/-- A page outside the table holds bytes of one chunk only. -/
theorem touches_exclusive (L : Layout) {p c : ℕ} (hp : L.pageSize ∣ p) (hm : p < L.mappedSize)
    (hf : findSharedPage L p = none) (hc : c < L.nchunks) : L.Touches c p ↔ c = L.findChunk p := by
  obtain ⟨h1,h2,-⟩ := L.findChunk_spec p
  obtain ⟨-,-,h3⟩ := (exclusive_iff L h1 hp).mp (page_exclusive L hp hm hf)
  have hcov := L.findChunk_covers (page_lt_total L hp hm)
  constructor
  · rintro ⟨g1,g2⟩
    rcases Nat.lt_trichotomy c (L.findChunk p) with hlt | he | hgt
    · have := L.start_mono (i := c+1) hlt (by omega)
      omega
    · exact he
    · have := h3.resolve_left (by omega)
      have := L.start_mono (i := L.findChunk p+1) hgt (by omega)
      omega
  · rintro rfl
    exact ⟨by have := L.pageSize_pos; omega,hcov.2⟩

theorem exclusive_page (L : Layout) {c p : ℕ} (hc : c < L.nchunks) (hp : L.pageSize ∣ p)
    (h : L.exclLo c ≤ p ∧ p < L.exclHi c) :
    p < L.mappedSize ∧ findSharedPage L p = none ∧ L.findChunk p = c := by
  obtain ⟨h1,h2,h3⟩ := (exclusive_iff L hc hp).mp h
  have ht := page_lt_total L hp h2
  have hP := L.pageSize_pos
  refine ⟨h2,?_,?_⟩
  · rw [findSharedPage_none]
    intro b hu hb
    obtain ⟨g1,g2⟩ := unaligned_inside L hu
    have hcb : c < b := by
      by_contra hle
      have := L.start_mono (i := b) (j := c) (by omega) (by omega)
      omega
    have := hu.2.1
    rcases h3 with h3 | h3
    · omega
    · have := L.start_mono (i := c+1) (j := b) (by omega) (by omega)
      omega
  · apply L.findChunk_eq hc
    refine ⟨h1,?_⟩
    rcases h3 with h3 | h3
    · rw [h3,L.start_last]; exact ht
    · omega

/-- The partial first page of a chunk is shared, and so is its partial last
page unless it is the final chunk's padded one. -/
def hasHead (L : Layout) (c : ℕ) : Bool := L.chunkStart c % L.pageSize ≠ 0

def hasTail (L : Layout) (c : ℕ) : Bool :=
  L.chunkStart (c+1) % L.pageSize ≠ 0 ∧ c+1 < L.nchunks

theorem mod_ne_zero_iff (L : Layout) (b : ℕ) :
    L.chunkStart b % L.pageSize ≠ 0 ↔ L.chunkStart b ≠ boundaryPage L b := by
  have := Nat.mod_le (L.chunkStart b) L.pageSize
  simp only [boundaryPage,pageFloor]
  omega

theorem head_unaligned (L : Layout) {c : ℕ} (hc : c < L.nchunks) (h : hasHead L c = true) :
    Unaligned L c := by
  have hm : L.chunkStart c % L.pageSize ≠ 0 := by simpa [hasHead] using h
  refine ⟨?_,hc,(mod_ne_zero_iff L c).mp hm⟩
  rcases Nat.eq_zero_or_pos c with rfl | hpos
  · simp [L.start_zero] at hm
  · exact hpos

theorem tail_unaligned (L : Layout) {c : ℕ} (h : hasTail L c = true) : Unaligned L (c+1) := by
  have hm : L.chunkStart (c+1) % L.pageSize ≠ 0 ∧ c+1 < L.nchunks := by simpa [hasTail] using h
  exact ⟨by omega,hm.2,(mod_ne_zero_iff L (c+1)).mp hm.1⟩

/-- The shared pages a chunk contributes to are its head and tail pages. -/
theorem touches_shared (L : Layout) {k c : ℕ} (hk : k < nshared L) (hc : c < L.nchunks) :
    L.Touches c (sharedPage L k).pageOff ↔
      hasHead L c = true ∧ (sharedPage L k).pageOff = boundaryPage L c ∨
      hasTail L c = true ∧ (sharedPage L k).pageOff = boundaryPage L (c+1) := by
  have hP := L.pageSize_pos
  have hend := L.start_succ c hc
  constructor
  · rintro ⟨h1,h2⟩
    obtain ⟨b,hu,he⟩ := shared_entry L hk
    obtain ⟨g1,g2⟩ := unaligned_inside L hu
    have hb := hu.2.1
    have ha := shared_aligned L hk
    have hpo : (sharedPage L k).pageOff = boundaryPage L b := by rw [he]
    rw [hpo] at h1 h2 ha ⊢
    by_cases hbc : b ≤ c
    · left
      have := L.start_mono hbc (by omega)
      have hq : boundaryPage L c = boundaryPage L b := pageFloor_eq hP ha (by omega) (by omega)
      refine ⟨?_,hq.symm⟩
      simp only [hasHead,decide_eq_true_eq,mod_ne_zero_iff]
      omega
    · right
      have := L.start_mono (i := c+1) (j := b) (by omega) (by omega)
      have hq : boundaryPage L (c+1) = boundaryPage L b := pageFloor_eq hP ha (by omega) (by omega)
      refine ⟨?_,hq.symm⟩
      simp only [hasTail,decide_eq_true_eq,mod_ne_zero_iff]
      omega
  · rintro (⟨h,hp⟩ | ⟨h,hp⟩)
    · obtain ⟨g1,g2⟩ := unaligned_inside L (head_unaligned L hc h)
      rw [hp]
      exact ⟨g2,by omega⟩
    · obtain ⟨g1,g2⟩ := unaligned_inside L (tail_unaligned L h)
      rw [hp]
      exact ⟨by omega,g1⟩

section Ownership
variable (L : Layout)

/-- The chunks with a byte in the page at `p`. -/
def pageChunks (p : ℕ) : Set ℕ :=
  {c | c < L.nchunks ∧ ∃ x, L.Covers c x ∧ p ≤ x ∧ x < p+L.pageSize}

theorem mem_pageChunks (p c : ℕ) : c ∈ pageChunks L p ↔ c < L.nchunks ∧ L.Touches c p := by
  constructor
  · rintro ⟨hc,x,⟨h1,h2⟩,h3,h4⟩
    exact ⟨hc,by omega,by omega⟩
  · rintro ⟨hc,h1,h2⟩
    have hlt := L.start_succ c hc
    have hP := L.pageSize_pos
    refine ⟨hc,max (L.chunkStart c) p,⟨le_max_left _ _,?_⟩,le_max_right _ _,?_⟩
    · exact max_lt hlt h2
    · exact max_lt h1 (by omega)

/-- Entry `k` of the table, and nothing else, speaks for the page at `p`. -/
structure SharedBy (p k : ℕ) : Prop where
  index : k < nshared L
  page : (sharedPage L k).pageOff = p
  unique : ∀ j < nshared L, (sharedPage L j).pageOff = p → j = k
  found : findSharedPage L p = some k
  contributors : Set.Icc (sharedPage L k).firstChunk (sharedPage L k).lastChunk = pageChunks L p
  several : (sharedPage L k).firstChunk < (sharedPage L k).lastChunk
  notExclusive : ∀ c < L.nchunks, ¬ (L.exclLo c ≤ p ∧ p < L.exclHi c)

/-- Chunk `c`, and nothing else, speaks for the page at `p`. -/
structure OwnedBy (p c : ℕ) : Prop where
  index : c < L.nchunks
  exclusive : L.exclLo c ≤ p ∧ p < L.exclHi c
  unique : ∀ d < L.nchunks, L.exclLo d ≤ p ∧ p < L.exclHi d → d = c
  found : L.findChunk p = c
  contributors : pageChunks L p = {c}
  absent : ∀ k < nshared L, (sharedPage L k).pageOff ≠ p
  notFound : findSharedPage L p = none

theorem shared_by {p k : ℕ} (hp : L.pageSize ∣ p) (h : findSharedPage L p = some k) :
    SharedBy L p k := by
  obtain ⟨hk,hpage⟩ := (findSharedPage_some L p k).mp h
  refine ⟨hk,hpage,?_,h,?_,two_contributors L hk,?_⟩
  · intro j hj hjp
    exact shared_injective L hj hk (hjp.trans hpage.symm)
  · ext c
    rw [Set.mem_Icc,mem_pageChunks]
    constructor
    · intro hc
      have hlt := lt_of_le_of_lt hc.2 (lastChunk_lt L hk)
      exact ⟨hlt,hpage ▸ (contributors_iff L hk hlt).mp hc⟩
    · rintro ⟨hlt,hc⟩
      exact (contributors_iff L hk hlt).mpr (hpage ▸ hc)
  · intro c hc hex
    have hnone := (exclusive_page L hc hp hex).2.1
    rw [h] at hnone
    cases hnone

theorem owned_by {p : ℕ} (hp : L.pageSize ∣ p) (hm : p < L.mappedSize)
    (h : findSharedPage L p = none) : OwnedBy L p (L.findChunk p) := by
  refine ⟨L.findChunk_lt p,page_exclusive L hp hm h,?_,rfl,?_,?_,h⟩
  · intro d hd hex
    exact (exclusive_page L hd hp hex).2.2.symm
  · ext c
    rw [mem_pageChunks,Set.mem_singleton_iff]
    constructor
    · rintro ⟨hc,ht⟩
      exact (touches_exclusive L hp hm h hc).mp ht
    · rintro rfl
      exact ⟨L.findChunk_lt p,(touches_exclusive L hp hm h (L.findChunk_lt p)).mpr rfl⟩
  · intro k hk hpage
    have hsome := (findSharedPage_some L p k).mpr ⟨hk,hpage⟩
    rw [h] at hsome
    cases hsome

/-- The table, the exclusive ranges and both searches give every page of the
mapping the same owner, and the two passes build one sorted table. -/
theorem page_ownership {p : ℕ} (hp : L.pageSize ∣ p) (hm : p < L.mappedSize) :
    ((∃ k, SharedBy L p k) ∨ ∃ c, OwnedBy L p c) ∧
    ¬ ((∃ k, SharedBy L p k) ∧ ∃ c, OwnedBy L p c) ∧
    (∀ i j, i < j → j < nshared L → (sharedPage L i).pageOff < (sharedPage L j).pageOff) ∧
    (fillShared L (L.nchunks-1)).count = (countShared L (L.nchunks-1)).1 := by
  refine ⟨?_,?_,fun i j => shared_sorted L,table_count L⟩
  · cases hf : findSharedPage L p with
    | some k => exact Or.inl ⟨k,shared_by L hp hf⟩
    | none => exact Or.inr ⟨_,owned_by L hp hm hf⟩
  · rintro ⟨⟨k,hk⟩,c,hc⟩
    exact hc.absent k hk.index hk.page

/-- Four chunks over three pages of four bytes: the first two pages are shared
by two chunks each, and the last one is padded. -/
theorem page_ownership_sample :
    let L := Layout.ofSizes 4 [3,2,3,2] 10
      ⟨by decide,by decide,by decide,by decide,by decide,by decide⟩
    ((∃ k, SharedBy L 8 k) ∨ ∃ c, OwnedBy L 8 c) ∧
    ¬ ((∃ k, SharedBy L 8 k) ∧ ∃ c, OwnedBy L 8 c) ∧
    (∀ i j, i < j → j < nshared L → (sharedPage L i).pageOff < (sharedPage L j).pageOff) ∧
    (fillShared L (L.nchunks-1)).count = (countShared L (L.nchunks-1)).1 :=
  page_ownership _ (by decide) (by decide)

end Ownership

end FaultCache.SharedPages
