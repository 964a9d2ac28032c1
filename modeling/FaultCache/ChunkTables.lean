import FaultCache.PoolMachine
import Mathlib.Data.List.GetD

/-!
# The chunk tables of the three creators

`fc_region_create`, `fc_client_region_create` and the server's `create_region`
validate a list of chunk sizes, allocate `chunk_start`, fill it with running
sums and round the total up to whole pages. The validator only looks at the
running sum. The number of entries is computed in 32 bits and the rounding in 64
bits, and both can wrap for a layout that has passed.
-/

set_option autoImplicit false

namespace FaultCache.ChunkTables
open FaultCache.PageGeometry FaultCache.PoolMachine

/-- What is stored of an accepted layout. `mappedSize` is also the size of the
server's content buffer. -/
structure ChunkTable where
  nchunks : ℕ
  chunkStart : List ℕ
  totalSize : ℕ
  mappedSize : ℕ
  deriving DecidableEq, Repr

/-- What comes of an attempt to store a layout. -/
inductive Creation where
  /-- `fc_misuse` -/
  | misuse
  /-- null with `EINVAL` -/
  | einval
  /-- the server's own message for the client -/
  | invalidLayout
  /-- a write left the table -/
  | overrun
  | created (t : ChunkTable)
  deriving DecidableEq, Repr

/-- `table[i] = value`, if the table has such an entry. -/
def writeEntry (table : List ℕ) (i value : ℕ) : Option (List ℕ) :=
  if i < table.length then some (table.set i value) else none

/-- `chunk_start[i] = acc; acc += chunk_sizes[i]` for every chunk, then the last
entry. -/
def fillTable : List ℕ → ℕ → ℕ → List ℕ → Option (List ℕ)
  | [], acc, i, table => writeEntry table i acc
  | size::sizes, acc, i, table =>
    (writeEntry table i acc).bind (fillTable sizes (sizeAdd acc size) (i+1))

/-- The common part: validate, allocate `nchunks+1` entries, fill, round. -/
def storeLayout (empty invalid : Creation) (pageSize : ℕ) (sizes : List ℕ) : Creation :=
  if sizes = [] then empty
  else match sumSizes sizes 0 with
    | none => invalid
    | some total =>
      match fillTable sizes 0 0 (List.replicate (countUp sizes.length) 0) with
      | none => .overrun
      | some chunkStart => .created ⟨sizes.length,chunkStart,total,pageCeil total pageSize⟩

def fcRegionCreate : ℕ → List ℕ → Creation := storeLayout .misuse .einval

/-- `resolve_descriptor` never returns an empty list. -/
def fcClientRegionCreate : ℕ → List ℕ → Creation := storeLayout .einval .einval

def createRegion : ℕ → List ℕ → Creation := storeLayout .invalidLayout .invalidLayout

section Filling
variable {P total : ℕ} {sizes : List ℕ}

theorem writeEntry_split {table : List ℕ} {i value : ℕ} (h : i < table.length) :
    writeEntry table i value = some (table.take i ++ value::table.drop (i+1)) := by
  rw [writeEntry,if_pos h,List.set_eq_take_append_cons_drop,if_pos h]

/-- The loop leaves the running sums in the table, whatever was there. -/
theorem fillTable_scanl (sizes : List ℕ) (acc i : ℕ) (table : List ℕ)
    (h : table.length = i+sizes.length+1) :
    fillTable sizes acc i table = some (table.take i ++ sizes.scanl sizeAdd acc) := by
  induction sizes generalizing acc i table with
  | nil =>
    rw [List.length_nil] at h
    rw [fillTable,writeEntry_split (by omega),List.drop_of_length_le (by omega),List.scanl_nil]
  | cons size sizes ih =>
    rw [List.length_cons] at h
    have hfront : (table.take i ++ [acc]).length = i+1 := by
      rw [List.length_append,List.length_take,List.length_singleton]
      omega
    rw [fillTable,writeEntry_split (by omega),Option.bind_some,List.append_cons,ih,
      List.take_left' hfront,List.scanl_cons,← List.append_cons]
    rw [List.length_append,hfront,List.length_drop]
    omega

theorem foldl_sizeAdd (ns : List ℕ) (acc : ℕ) (h : acc+ns.sum < 2^64) : ns.foldl sizeAdd acc = acc+ns.sum := by
  induction ns generalizing acc with
  | nil => rfl
  | cons n ns ih =>
    rw [List.sum_cons] at h
    have hn : sizeAdd acc n = acc+n := Nat.mod_eq_of_lt (by omega)
    rw [List.foldl_cons,hn,ih _ (by omega),List.sum_cons]
    omega

/-- Without a wrap the running sums are the sums of the prefixes. -/
theorem scanl_entry (h : sizes.sum < 2^64) {i : ℕ} (hi : i ≤ sizes.length) :
    (sizes.scanl sizeAdd 0)[i]? = some (sizes.take i).sum := by
  have hle : (sizes.take i).sum ≤ sizes.sum := (List.take_sublist i sizes).sum_le_sum (by simp)
  rw [List.getElem?_eq_getElem (by rw [List.length_scanl]; omega),List.getElem_scanl,
    foldl_sizeAdd _ _ (by omega),Nat.zero_add]

end Filling

/-- The stored layout is what the sizes say: the entries are the exact prefix
sums, and the rounded size covers the total with less than a page to spare. -/
structure Exact (pageSize : ℕ) (sizes : List ℕ) (t : ChunkTable) : Prop where
  nchunks : t.nchunks = sizes.length
  entries : t.chunkStart.length = sizes.length+1
  starts : ∀ i ≤ sizes.length, t.chunkStart[i]? = some (sizes.take i).sum
  increasing : t.chunkStart.Pairwise (· < ·)
  total : t.totalSize = sizes.sum
  aligned : pageSize ∣ t.mappedSize
  covers : t.totalSize ≤ t.mappedSize
  tight : t.mappedSize < t.totalSize+pageSize
  room : ∀ stop ∈ t.chunkStart, stop ≤ t.mappedSize

section Storing
variable {P total : ℕ} {sizes : List ℕ} {empty invalid : Creation}

theorem storeLayout_valid (hne : sizes ≠ []) (hs : sumSizes sizes 0 = some total)
    (hn : sizes.length+1 < 2^32) :
    storeLayout empty invalid P sizes =
      .created ⟨sizes.length,sizes.scanl sizeAdd 0,total,pageCeil total P⟩ := by
  have hcount : countUp sizes.length = sizes.length+1 := Nat.mod_eq_of_lt hn
  have hfill : fillTable sizes 0 0 (List.replicate (countUp sizes.length) 0) =
      some (sizes.scanl sizeAdd 0) := by
    rw [fillTable_scanl _ _ _ _ (by rw [List.length_replicate,hcount]; omega)]
    rfl
  simp only [storeLayout,if_neg hne,hs,hfill]

/-- With `2^32-1` chunks the table has no entries at all. -/
theorem storeLayout_overrun (hs : sumSizes sizes 0 = some total) (hn : sizes.length+1 = 2^32) :
    storeLayout empty invalid P sizes = .overrun := by
  have hne : sizes ≠ [] := by
    rintro rfl
    simp at hn
  have hcount : countUp sizes.length = 0 := by
    rw [countUp,hn,Nat.mod_self]
  obtain ⟨size,rest,rfl⟩ := List.exists_cons_of_ne_nil hne
  have hfill : fillTable (size::rest) 0 0 (List.replicate (countUp (size::rest).length) 0) = none := by
    rw [hcount]
    rfl
  simp only [storeLayout,if_neg hne,hs,hfill]

theorem scanl_increasing (hsum : sizes.sum < 2^64) (hpos : ∀ size ∈ sizes, 0 < size) :
    (sizes.scanl sizeAdd 0).Pairwise (· < ·) := by
  rw [List.pairwise_iff_getElem]
  intro i j hi hj hij
  rw [List.length_scanl] at hi hj
  have h1 := scanl_entry hsum (i := i) (by omega)
  have h2 := scanl_entry hsum (i := j) (by omega)
  rw [List.getElem?_eq_getElem (by rw [List.length_scanl]; omega)] at h1 h2
  rw [Option.some.inj h1,Option.some.inj h2]
  have hsplit := List.sum_take_succ sizes i (by omega)
  have hone := hpos sizes[i] (List.getElem_mem (by omega))
  have hle : (sizes.take (i+1)).sum ≤ (sizes.take j).sum :=
    (List.take_sublist_take_left (by omega)).sum_le_sum (by simp)
  omega

/-- When nothing wraps, everything is exact. -/
theorem store_exact (hP : 0 < P) (hw : ∀ size ∈ sizes, size < 2^64)
    (hs : sumSizes sizes 0 = some total) (hround : sizes.sum+P-1 < 2^64) :
    Exact P sizes ⟨sizes.length,sizes.scanl sizeAdd 0,total,pageCeil total P⟩ := by
  obtain ⟨htotal,hlt,hpos⟩ := sum_sizes_exact sizes 0 total (by decide) hw hs
  rw [Nat.zero_add] at htotal
  subst htotal
  obtain ⟨h1,h2⟩ := pageCeil_bounds hP hround
  have hstarts : ∀ i ≤ sizes.length, (sizes.scanl sizeAdd 0)[i]? = some (sizes.take i).sum :=
    fun i hi => scanl_entry hlt hi
  refine ⟨rfl,List.length_scanl,hstarts,scanl_increasing hlt hpos,rfl,dvd_pageCeil _ _,h1,h2,?_⟩
  intro stop hstop
  obtain ⟨i,hi,rfl⟩ := List.getElem_of_mem hstop
  have hentry := hstarts i (by rw [List.length_scanl] at hi; omega)
  rw [List.getElem?_eq_getElem hi] at hentry
  rw [Option.some.inj hentry]
  exact le_trans ((List.take_sublist i sizes).sum_le_sum (by simp)) h1

/-- A rounding that wraps ends at zero. -/
theorem pageCeil_wrapped {x : ℕ} (hP : P < 2^64) (hx : x < 2^64) (h : 2^64 ≤ x+P-1) :
    pageCeil x P = 0 := by
  have hmod : (x+P-1) % 2^64 = x+P-1-2^64 := by
    rw [Nat.mod_eq_sub_mod h,Nat.mod_eq_of_lt (by omega)]
  rw [pageCeil,hmod,pageFloor,Nat.mod_eq_of_lt (by omega),Nat.sub_self]

/-- The creator stores an exact layout. -/
def Stores (create : ℕ → List ℕ → Creation) (pageSize : ℕ) (sizes : List ℕ) : Prop :=
  ∃ t, create pageSize sizes = .created t ∧ Exact pageSize sizes t

theorem storeLayout_stores_iff (hP : 0 < P) (hP64 : P < 2^64) (hne : sizes ≠ [])
    (hn : sizes.length < 2^32) (hw : ∀ size ∈ sizes, size < 2^64) (hs : sumSizes sizes 0 = some total) :
    Stores (storeLayout empty invalid) P sizes ↔
      sizes.length+1 < 2^32 ∧ sizes.sum+P-1 < 2^64 := by
  obtain ⟨htotal,hlt,hpos⟩ := sum_sizes_exact sizes 0 total (by decide) hw hs
  rw [Nat.zero_add] at htotal
  constructor
  · rintro ⟨t,ht,hex⟩
    have hcount : sizes.length+1 < 2^32 := by
      by_contra hc
      rw [storeLayout_overrun hs (by omega)] at ht
      cases ht
    rw [storeLayout_valid hne hs hcount] at ht
    cases ht
    refine ⟨hcount,?_⟩
    by_contra hc
    have hzero := pageCeil_wrapped hP64 hlt (by omega)
    have hcovers : total ≤ pageCeil total P := hex.covers
    have hfirst := hpos (sizes.head hne) (List.head_mem hne)
    have hsum := List.single_le_sum (by simp) (sizes.head hne) (List.head_mem hne)
    omega
  · rintro ⟨hcount,hround⟩
    exact ⟨_,storeLayout_valid hne hs hcount,store_exact hP hw hs hround⟩

/-- In each of the three creators a layout that passes the validator is stored
exactly unless one of the two computations wraps. -/
theorem creators_store_exactly_iff (hP : 0 < P) (hP64 : P < 2^64) (hne : sizes ≠ [])
    (hn : sizes.length < 2^32) (hw : ∀ size ∈ sizes, size < 2^64) (hs : sumSizes sizes 0 = some total) :
    (Stores fcRegionCreate P sizes ↔ sizes.length+1 < 2^32 ∧ sizes.sum+P-1 < 2^64) ∧
    (Stores fcClientRegionCreate P sizes ↔ sizes.length+1 < 2^32 ∧ sizes.sum+P-1 < 2^64) ∧
    (Stores createRegion P sizes ↔ sizes.length+1 < 2^32 ∧ sizes.sum+P-1 < 2^64) :=
  ⟨storeLayout_stores_iff hP hP64 hne hn hw hs,storeLayout_stores_iff hP hP64 hne hn hw hs,
    storeLayout_stores_iff hP hP64 hne hn hw hs⟩

theorem creators_store_exactly_iff_two_chunks :
    Stores createRegion 4096 [6000,100] ∧ sumSizes [6000,100] 0 = some 6100 := by
  have hs : sumSizes [6000,100] 0 = some 6100 := by decide
  refine ⟨?_,hs⟩
  exact (creators_store_exactly_iff (by decide) (by decide) (by decide) (by decide) (by decide) hs).2.2.mpr
    ⟨by decide,by decide⟩

/-- One chunk of `2^64-1` bytes passes, and is rounded up to no pages at all. -/
theorem largest_chunk_rounds_to_nothing :
    createRegion 4096 [2^64-1] = .created ⟨1,[0,2^64-1],2^64-1,0⟩ ∧
    ¬ ∀ P sizes total, 0 < P → P < 2^64 → sizes ≠ [] → sizes.length < 2^32 →
      (∀ size ∈ sizes, size < 2^64) → sumSizes sizes 0 = some total →
      Stores fcRegionCreate P sizes ∧ Stores fcClientRegionCreate P sizes ∧
        Stores createRegion P sizes := by
  have he : createRegion 4096 [2^64-1] = .created ⟨1,[0,2^64-1],2^64-1,0⟩ := by decide
  refine ⟨he,?_⟩
  intro hall
  obtain ⟨-,-,t,ht,hex⟩ := hall 4096 [2^64-1] (2^64-1) (by decide) (by decide) (by decide) (by decide)
    (by decide) (by decide)
  rw [he] at ht
  cases ht
  exact absurd hex.covers (by decide)

end Storing

end FaultCache.ChunkTables
