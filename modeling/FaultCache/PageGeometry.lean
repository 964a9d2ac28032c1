import FaultCache.Bisection
import Mathlib.Algebra.Order.BigOperators.Group.List
import Mathlib.Algebra.Order.Group.Nat
import Mathlib.Data.List.GetD
import Mathlib.Tactic.Ring

/-!
# Chunk layouts over pages

A region is a run of chunks of arbitrary nonzero sizes over pages of a fixed
size. Offsets are `size_t` values and chunk indices `uint32_t` values; the
additions that can wrap are reduced explicitly. A `Layout` is a validated
sequence of prefix sums for which neither the page rounding nor the count of
`nchunks+1` table entries wraps, so the geometry below is exact.
-/

set_option autoImplicit false

namespace FaultCache.PageGeometry
open FaultCache.Bisection

def pageFloor (x pageSize : ℕ) : ℕ := x-x % pageSize

def pageCeil (x pageSize : ℕ) : ℕ := pageFloor ((x+pageSize-1) % 2^64) pageSize

section Rounding
variable {P : ℕ}

theorem pageFloor_le (x P : ℕ) : pageFloor x P ≤ x := Nat.sub_le _ _

theorem dvd_pageFloor (x P : ℕ) : P ∣ pageFloor x P := Nat.dvd_sub_mod x

theorem lt_pageFloor_add (hP : 0 < P) (x : ℕ) : x < pageFloor x P+P := by
  have h1 := Nat.mod_lt x hP
  have h2 := Nat.mod_le x P
  unfold pageFloor
  omega

theorem aligned_add_le {a b : ℕ} (ha : P ∣ a) (hb : P ∣ b) (h : a < b) : a+P ≤ b := by
  obtain ⟨m,rfl⟩ := ha
  obtain ⟨n,rfl⟩ := hb
  have hmn : m < n := Nat.lt_of_mul_lt_mul_left h
  calc P*m+P = P*(m+1) := by ring
    _ ≤ P*n := Nat.mul_le_mul_left P hmn

theorem aligned_eq {a b : ℕ} (ha : P ∣ a) (hb : P ∣ b) (h1 : a ≤ b) (h2 : b < a+P) : a = b := by
  rcases Nat.lt_or_ge a b with hlt | hge
  · have := aligned_add_le ha hb hlt
    omega
  · omega

theorem pageFloor_eq (hP : 0 < P) {p x : ℕ} (hp : P ∣ p) (h1 : p ≤ x) (h2 : x < p+P) :
    pageFloor x P = p := by
  have hf := dvd_pageFloor x P
  have hle := pageFloor_le x P
  have hlt := lt_pageFloor_add hP x
  rcases Nat.lt_trichotomy (pageFloor x P) p with h | h | h
  · have := aligned_add_le hf hp h; omega
  · exact h
  · have := aligned_add_le hp hf h; omega

theorem pageFloor_mono (hP : 0 < P) {x y : ℕ} (h : x ≤ y) : pageFloor x P ≤ pageFloor y P := by
  by_contra hc
  have := aligned_add_le (dvd_pageFloor y P) (dvd_pageFloor x P) (by omega)
  have := lt_pageFloor_add hP y
  have := pageFloor_le x P
  omega

theorem pageFloor_aligned {p : ℕ} (hp : P ∣ p) : pageFloor p P = p := by
  simp [pageFloor,Nat.mod_eq_zero_of_dvd hp]

theorem dvd_pageCeil (x P : ℕ) : P ∣ pageCeil x P := dvd_pageFloor _ P

theorem pageCeil_bounds (hP : 0 < P) {x : ℕ} (h : x+P-1 < 2^64) :
    x ≤ pageCeil x P ∧ pageCeil x P < x+P := by
  unfold pageCeil
  rw [Nat.mod_eq_of_lt h]
  have h1 := pageFloor_le (x+P-1) P
  have h2 := lt_pageFloor_add hP (x+P-1)
  omega

theorem pageCeil_le (hP : 0 < P) {p x : ℕ} (hp : P ∣ p) (h : x+P-1 < 2^64) (hx : x ≤ p) :
    pageCeil x P ≤ p := by
  by_contra hc
  have := aligned_add_le hp (dvd_pageCeil x P) (by omega)
  have := pageCeil_bounds hP h
  omega

end Rounding

/-- The running-sum check of `fc_region_create` and its two siblings: a zero
size or a wrapping total rejects the layout. -/
def sumSizes : List ℕ → ℕ → Option ℕ
  | [], total => some total
  | size::sizes, total =>
    if size = 0 ∨ (total+size) % 2^64 < total then none
    else sumSizes sizes ((total+size) % 2^64)

/-- The prefix-sum table, accumulated in `size_t`. -/
def prefixSum (sizes : List ℕ) : ℕ → ℕ
  | 0 => 0
  | i+1 => (prefixSum sizes i+sizes.getD i 0) % 2^64

structure Layout where
  pageSize : ℕ
  nchunks : ℕ
  chunkStart : ℕ → ℕ
  totalSize : ℕ
  mappedSize : ℕ
  pageSize_pos : 0 < pageSize
  nchunks_pos : 0 < nchunks
  nchunks_lt : nchunks+1 < 2^32
  start_zero : chunkStart 0 = 0
  start_succ : ∀ i < nchunks, chunkStart i < chunkStart (i+1)
  start_last : chunkStart nchunks = totalSize
  total_fits : totalSize+pageSize-1 < 2^64
  mapped_eq : mappedSize = pageCeil totalSize pageSize

/-- What a caller may pass: `nchunks` sizes that the running-sum check
accepts, with neither the page rounding nor `nchunks+1` wrapping. -/
structure Accepted (pageSize : ℕ) (sizes : List ℕ) (total : ℕ) : Prop where
  pageSize_pos : 0 < pageSize
  nonempty : sizes ≠ []
  count : sizes.length+1 < 2^32
  widths : ∀ size ∈ sizes, size < 2^64
  summed : sumSizes sizes 0 = some total
  rounds : total+pageSize-1 < 2^64

theorem sum_sizes_exact (sizes : List ℕ) (total out : ℕ) (ht : total < 2^64)
    (hw : ∀ size ∈ sizes, size < 2^64) (h : sumSizes sizes total = some out) :
    out = total+sizes.sum ∧ out < 2^64 ∧ ∀ size ∈ sizes, 0 < size := by
  induction sizes generalizing total with
  | nil =>
    cases h
    simpa using ht
  | cons size sizes ih =>
    rw [sumSizes] at h
    split_ifs at h with hc
    have hs := hw size (by simp)
    have hlt : total+size < 2^64 := by
      by_contra hge
      apply hc
      right
      have : (total+size) % 2^64 = total+size-2^64 := by
        rw [Nat.mod_eq_sub_mod (by omega),Nat.mod_eq_of_lt (by omega)]
      omega
    rw [Nat.mod_eq_of_lt hlt] at h
    obtain ⟨h1,h2,h3⟩ := ih (total+size) hlt (fun s hs => hw s (by simp [hs])) h
    refine ⟨by rw [h1,List.sum_cons]; ring,h2,?_⟩
    intro s hs
    rcases List.mem_cons.mp hs with rfl | hs
    · omega
    · exact h3 s hs

/-- Positive sizes whose sum does not wrap pass. -/
theorem sum_sizes_some (sizes : List ℕ) (total : ℕ) (hpos : ∀ size ∈ sizes, 0 < size)
    (h : total+sizes.sum < 2^64) : sumSizes sizes total = some (total+sizes.sum) := by
  induction sizes generalizing total with
  | nil => rfl
  | cons size sizes ih =>
    rw [List.sum_cons] at h
    have hsize := hpos size List.mem_cons_self
    have hmod : (total+size) % 2^64 = total+size := Nat.mod_eq_of_lt (by omega)
    rw [sumSizes,hmod,if_neg (by omega),ih _ (fun s hs => hpos s (List.mem_cons_of_mem _ hs)) (by omega),
      List.sum_cons,Nat.add_assoc]

theorem prefix_sum_exact (sizes : List ℕ) (h : sizes.sum < 2^64) (i : ℕ) :
    prefixSum sizes i = (sizes.take i).sum := by
  induction i with
  | zero => rfl
  | succ i ih =>
    have hs : (sizes.take (i+1)).sum = (sizes.take i).sum+sizes.getD i 0 := by
      by_cases hi : i < sizes.length
      · rw [List.sum_take_succ _ _ hi,List.getD_eq_getElem _ _ hi]
      · rw [List.take_of_length_le (by omega),List.take_of_length_le (by omega),
          List.getD_eq_default _ _ (by omega),Nat.add_zero]
    have hle : (sizes.take (i+1)).sum ≤ sizes.sum :=
      (List.take_sublist (i+1) sizes).sum_le_sum (by simp)
    rw [prefixSum,ih,← hs,Nat.mod_eq_of_lt (by omega)]

/-- The layout `fc_region_create` stores for accepted sizes. -/
def Layout.ofSizes (pageSize : ℕ) (sizes : List ℕ) (total : ℕ)
    (h : Accepted pageSize sizes total) : Layout where
  pageSize := pageSize
  nchunks := sizes.length
  chunkStart := prefixSum sizes
  totalSize := total
  mappedSize := pageCeil total pageSize
  pageSize_pos := h.pageSize_pos
  nchunks_pos := List.length_pos_iff.mpr h.nonempty
  nchunks_lt := h.count
  start_zero := rfl
  start_succ := by
    intro i hi
    obtain ⟨h1,h2,h3⟩ := sum_sizes_exact sizes 0 total (by decide) h.widths h.summed
    rw [prefix_sum_exact sizes (by omega),prefix_sum_exact sizes (by omega),
      List.sum_take_succ _ _ hi]
    have := h3 sizes[i] (List.getElem_mem hi)
    omega
  start_last := by
    obtain ⟨h1,h2,h3⟩ := sum_sizes_exact sizes 0 total (by decide) h.widths h.summed
    rw [prefix_sum_exact sizes (by omega),List.take_length]
    omega
  total_fits := h.rounds
  mapped_eq := rfl

instance : Inhabited Layout :=
  ⟨Layout.ofSizes 1 [1] 1 ⟨by decide,by decide,by decide,by decide,by decide,by decide⟩⟩

namespace Layout
variable (L : Layout)

def chunkSize (c : ℕ) : ℕ := L.chunkStart (c+1)-L.chunkStart c

/-- Binary search for the chunk covering byte offset `off`. -/
def findChunk (off : ℕ) : ℕ :=
  lastLoop (fun mid => L.chunkStart mid ≤ off) L.nchunks 0 (L.nchunks-1)

/-- Pages wholly owned by chunk `c`, as a half-open range of offsets. The
final chunk also owns the padding after it, up to `mappedSize`. -/
def chunkExclusivePages (c : ℕ) : ℕ × ℕ :=
  let lo := pageCeil (L.chunkStart c) L.pageSize
  let hi := if c+1 = L.nchunks then L.mappedSize else pageFloor (L.chunkStart (c+1)) L.pageSize
  (lo,if hi < lo then lo else hi)

def exclLo (c : ℕ) : ℕ := (L.chunkExclusivePages c).1
def exclHi (c : ℕ) : ℕ := (L.chunkExclusivePages c).2

def Covers (c off : ℕ) : Prop := L.chunkStart c ≤ off ∧ off < L.chunkStart (c+1)

/-- Chunk `c` has at least one byte in the page at `p`. -/
def Touches (c p : ℕ) : Prop := L.chunkStart c < p+L.pageSize ∧ p < L.chunkStart (c+1)

instance (c p : ℕ) : Decidable (L.Touches c p) := inferInstanceAs (Decidable (_ ∧ _))

/-- A stored chunk is as long as its entry of the accepted sizes. -/
theorem ofSizes_chunkSize {P total : ℕ} {sizes : List ℕ} (h : Accepted P sizes total) {c : ℕ}
    (hc : c < sizes.length) : (Layout.ofSizes P sizes total h).chunkSize c = sizes[c] := by
  obtain ⟨h1,h2,-⟩ := sum_sizes_exact sizes 0 total (by decide) h.widths h.summed
  change prefixSum sizes (c+1)-prefixSum sizes c = sizes[c]
  rw [prefix_sum_exact sizes (by omega),prefix_sum_exact sizes (by omega),List.sum_take_succ _ _ hc]
  omega

theorem ofSizes_entry {P total : ℕ} {sizes : List ℕ} (h : Accepted P sizes total) (c size : ℕ) :
    sizes[c]? = some size ↔ c < (Layout.ofSizes P sizes total h).nchunks ∧
      size = (Layout.ofSizes P sizes total h).chunkSize c := by
  rw [List.getElem?_eq_some_iff]
  constructor
  · rintro ⟨hc,rfl⟩
    exact ⟨hc,(ofSizes_chunkSize h hc).symm⟩
  · rintro ⟨hc,rfl⟩
    exact ⟨hc,(ofSizes_chunkSize h hc).symm⟩

theorem start_mono {i j : ℕ} (h : i ≤ j) (hj : j ≤ L.nchunks) :
    L.chunkStart i ≤ L.chunkStart j := by
  induction j, h using Nat.le_induction with
  | base => exact le_refl _
  | succ j hij ih =>
    have := L.start_succ j (by omega)
    have := ih (by omega)
    omega

theorem start_strict {i j : ℕ} (h : i < j) (hj : j ≤ L.nchunks) :
    L.chunkStart i < L.chunkStart j :=
  lt_of_lt_of_le (L.start_succ i (by omega)) (L.start_mono h hj)

theorem start_le_total {i : ℕ} (h : i ≤ L.nchunks) : L.chunkStart i ≤ L.totalSize :=
  L.start_last ▸ L.start_mono h (le_refl _)

theorem chunkSize_pos {c : ℕ} (hc : c < L.nchunks) : 0 < L.chunkSize c :=
  Nat.sub_pos_of_lt (L.start_succ c hc)

theorem dvd_mapped : L.pageSize ∣ L.mappedSize := L.mapped_eq ▸ dvd_pageCeil _ _

theorem mapped_bounds : L.totalSize ≤ L.mappedSize ∧ L.mappedSize < L.totalSize+L.pageSize :=
  L.mapped_eq ▸ pageCeil_bounds L.pageSize_pos L.total_fits

theorem findChunk_spec (off : ℕ) :
    L.findChunk off < L.nchunks ∧ L.chunkStart (L.findChunk off) ≤ off ∧
      ∀ j, L.findChunk off < j → j < L.nchunks → off < L.chunkStart j := by
  have hpos := L.nchunks_pos
  have hd : DownClosed (fun mid => decide (L.chunkStart mid ≤ off)) L.nchunks := by
    intro i j hij hj h
    have := L.start_mono hij (by omega)
    simp only [decide_eq_true_eq] at h ⊢
    omega
  have hz : decide (L.chunkStart 0 ≤ off) = true := by simp [L.start_zero]
  obtain ⟨-,h2,h3,h4⟩ := last_loop_spec _ _ hd L.nchunks 0 (L.nchunks-1) (by omega) (by omega)
    (by omega) hz
  refine ⟨?_,of_decide_eq_true h3,?_⟩
  · change L.findChunk off ≤ L.nchunks-1 at h2
    omega
  · intro j hj hjn
    have := h4 j hj (by omega)
    simpa using this

theorem findChunk_lt (off : ℕ) : L.findChunk off < L.nchunks := (L.findChunk_spec off).1

theorem findChunk_covers {off : ℕ} (h : off < L.totalSize) : L.Covers (L.findChunk off) off := by
  obtain ⟨h1,h2,h3⟩ := L.findChunk_spec off
  refine ⟨h2,?_⟩
  by_cases hl : L.findChunk off+1 = L.nchunks
  · rw [hl,L.start_last]; exact h
  · exact h3 _ (by omega) (by omega)

theorem covers_unique {c d off : ℕ} (hc : c < L.nchunks) (hd : d < L.nchunks)
    (h1 : L.Covers c off) (h2 : L.Covers d off) : c = d := by
  rcases Nat.lt_trichotomy c d with h | h | h
  · have := L.start_mono (i := c+1) h (by omega)
    have := h1.2
    have := h2.1
    omega
  · exact h
  · have := L.start_mono (i := d+1) h (by omega)
    have := h2.2
    have := h1.1
    omega

theorem findChunk_eq {c off : ℕ} (hc : c < L.nchunks) (h : L.Covers c off) :
    L.findChunk off = c := by
  have ht : off < L.totalSize := lt_of_lt_of_le h.2 (L.start_le_total hc)
  exact L.covers_unique (L.findChunk_lt off) hc (L.findChunk_covers ht) h

end Layout

end FaultCache.PageGeometry
