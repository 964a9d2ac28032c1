import FaultCache.PythonSlices

/-!
# Subscripts of a region

`Region.__getitem__` copies the bytes it needs out of the mapping with one
native read and selects from the copy. A slice with a step copies the whole span
from its first index to its bound.
-/

set_option autoImplicit false

namespace FaultCache.RegionSlices
open FaultCache.PythonSlices

/-- What `Region` keeps of its mapping. `close()` drops the address. -/
structure PyRegion where
  addr : Option ℤ
  size : ℕ

inductive Key where
  | index (i : ℤ)
  | slice (s : Slice)
  | other

inductive Value where
  | byte (b : UInt8)
  | bytes (bs : List UInt8)
  deriving DecidableEq, Repr

/-- One `memcpy` out of the mapping. -/
structure NativeRead where
  addr : ℤ
  length : ℕ
  deriving DecidableEq, Repr

/-- The bytes that `_read` returns. -/
def read (mem : ℤ → UInt8) (addr : ℤ) (length : ℕ) : List UInt8 :=
  (List.range length).map (fun k : ℕ => mem (addr+k))

/-- `Region.__getitem__`, with the native reads it issues. -/
def getItem (mem : ℤ → UInt8) (r : PyRegion) (key : Key) : Except PyError Value × List NativeRead :=
  match r.addr with
  | none => (.error .valueError,[])
  | some addr =>
    let n := r.size
    match key with
    | .slice s =>
      match s.indices n with
      | .error e => (.error e,[])
      | .ok (start,stop,step) =>
        if step = 1 then
          let length := (max 0 (stop-start)).toNat
          (.ok (.bytes (read mem (addr+start) length)),[⟨addr+start,length⟩])
        else
          let lo := if 0 < step then start else stop+1
          let hi := if 0 < step then stop else start+1
          let length := (max 0 (hi-lo)).toNat
          let span := read mem (addr+lo) length
          (((pyRange start stop step).mapM (fun i => pyItem span (i-lo))).map .bytes,
            [⟨addr+lo,length⟩])
    | .index key =>
      let i := if key < 0 then key+n else key
      if 0 ≤ i ∧ i < n then
        ((pyItem (read mem (addr+i) 1) 0).map .byte,[⟨addr+i,1⟩])
      else (.error .indexError,[])
    | .other => (.error .typeError,[])

section Contents
variable {mem : ℤ → UInt8} {addr : ℤ} {B : List UInt8}

theorem read_item {i : ℤ} {length : ℕ} (h1 : 0 ≤ i) (h2 : i < length) :
    pyItem (read mem addr length) i = .ok (mem (addr+i)) := by
  have hlen : i < (read mem addr length).length := by simpa [read] using h2
  obtain ⟨hi,he⟩ := pyItem_inside h1 hlen
  rw [he]
  simp [read,Int.toNat_of_nonneg h1]

/-- The mapping holds the contents. -/
def Holds (mem : ℤ → UInt8) (addr : ℤ) (B : List UInt8) : Prop :=
  ∀ i : ℕ, i < B.length → B[i]? = some (mem (addr+i))

theorem Holds.item (h : Holds mem addr B) (i : ℤ) (h1 : 0 ≤ i) (h2 : i < B.length) :
    pyItem B i = .ok (mem (addr+i)) := by
  obtain ⟨hi,he⟩ := pyItem_inside h1 h2
  have hb := h i.toNat hi
  rw [List.getElem?_eq_getElem hi,Option.some.injEq,Int.toNat_of_nonneg h1] at hb
  rw [he,hb]

/-- The span a slice reads, in indices of the region. -/
structure Span (start stop step lo hi : ℤ) : Prop where
  lo : lo = if 0 < step then start else stop+1
  hi : hi = if 0 < step then stop else start+1

theorem span_mem {n : ℕ} {start stop step lo hi : ℤ} (hr : Reduced n start stop step)
    (hs : Span start stop step lo hi) {i : ℤ} (hi' : i ∈ pyRange start stop step) : lo ≤ i ∧ i < hi := by
  obtain ⟨⟨k,hk⟩,h1,h2⟩ := (mem_pyRange hr.nonzero i).mp hi'
  rw [hs.lo,hs.hi]
  rcases lt_or_gt_of_ne hr.nonzero with hneg | hpos
  · have := h2 hneg
    have : 0 ≤ (k : ℤ)*(-step) := mul_nonneg (by omega) (by omega)
    rw [mul_neg] at this
    rw [if_neg (by omega),if_neg (by omega)]
    omega
  · have := h1 hpos
    have : 0 ≤ (k : ℤ)*step := mul_nonneg (by omega) (by omega)
    rw [if_pos hpos,if_pos hpos]
    omega

/-- The span lies inside the region. -/
theorem span_inside {n : ℕ} {start stop step lo hi : ℤ} (hr : Reduced n start stop step)
    (hs : Span start stop step lo hi) : 0 ≤ lo ∧ hi ≤ n := by
  rw [hs.lo,hs.hi] at *
  rcases lt_or_gt_of_ne hr.nonzero with hneg | hpos
  · have := hr.backward hneg
    rw [if_neg (by omega)] at *
    rw [if_neg (by omega)] at *
    omega
  · have := hr.forward hpos
    rw [if_pos hpos] at *
    rw [if_pos hpos] at *
    omega

theorem getItem_slice (mem : ℤ → UInt8) (addr : ℤ) {n : ℕ} {s : Slice} {start stop step : ℤ}
    (h : s.indices n = .ok (start,stop,step)) : ∃ lo hi, Span start stop step lo hi ∧
      (getItem mem ⟨some addr,n⟩ (.slice s)).2 = [⟨addr+lo,(max 0 (hi-lo)).toNat⟩] ∧
      (getItem mem ⟨some addr,n⟩ (.slice s)).1 =
        .ok (.bytes ((pyRange start stop step).map (fun i => mem (addr+i)))) := by
  have hr := indices_reduced h
  by_cases h1 : step = 1
  · subst h1
    refine ⟨start,stop,⟨by simp,by simp⟩,?_,?_⟩
    · simp only [getItem,h,if_true]
    · simp only [getItem,h,if_true,pyRange_one,read,List.map_map]
      congr 3
      funext k
      simp only [Function.comp]
      congr 1
      omega
  · have hs : Span start stop step (if 0 < step then start else stop+1)
      (if 0 < step then stop else start+1) := ⟨rfl,rfl⟩
    refine ⟨_,_,hs,?_,?_⟩
    · simp only [getItem,h,if_neg h1]
    · simp only [getItem,h,if_neg h1]
      rw [mapM_ok (g := fun i => mem (addr+i))]
      · rfl
      · intro i hi
        have hmem := span_mem hr hs hi
        rw [read_item (by omega) (by omega)]
        congr 2
        omega

/-- A subscript of a region is the subscript of its contents, and reads no byte
outside them. -/
theorem getItem_subscripts (hB : Holds mem addr B) :
    (∀ s, (getItem mem ⟨some addr,B.length⟩ (.slice s)).1 = (pySlice B s).map .bytes) ∧
    (∀ s, s.step ≠ some 0 → ∃ bs, (getItem mem ⟨some addr,B.length⟩ (.slice s)).1 = .ok (.bytes bs)) ∧
    (∀ i, (getItem mem ⟨some addr,B.length⟩ (.index i)).1 = (pyItem B i).map .byte) ∧
    ∀ key, ∀ rd ∈ (getItem mem ⟨some addr,B.length⟩ key).2, 0 < rd.length →
      addr ≤ rd.addr ∧ rd.addr+rd.length ≤ addr+B.length := by
  refine ⟨?_,?_,?_,?_⟩
  · intro s
    rcases indices_cases s B.length with he | ⟨start,stop,step,he⟩
    · simp only [getItem,pySlice,he]
      rfl
    · obtain ⟨lo,hi,-,-,hv⟩ := getItem_slice mem addr he
      rw [hv,pySlice_ok hB.item he]
      rfl
  · intro s hs
    rcases indices_cases s B.length with he | ⟨start,stop,step,he⟩
    · exact absurd ((indices_error_iff s B.length).mp he) hs
    · obtain ⟨lo,hi,-,-,hv⟩ := getItem_slice mem addr he
      exact ⟨_,hv⟩
  · intro i
    rw [pyItem_wrapped]
    simp only [getItem]
    generalize (if i < 0 then i+(B.length : ℤ) else i) = j
    split_ifs with hj
    · rw [read_item (le_refl _) (by omega),hB.item j hj.1 hj.2,add_zero]
    · rfl
  · intro key rd hrd hlen
    cases key with
    | other => simp [getItem] at hrd
    | index i =>
      simp only [getItem] at hrd
      generalize (if i < 0 then i+(B.length : ℤ) else i) = j at hrd
      split_ifs at hrd with hj
      · obtain rfl := List.mem_singleton.mp hrd
        simp only at hlen ⊢
        omega
      · cases hrd
    | slice s =>
      rcases indices_cases s B.length with he | ⟨start,stop,step,he⟩
      · simp only [getItem,he] at hrd
        cases hrd
      · obtain ⟨lo,hi,hs,hreads,-⟩ := getItem_slice mem addr he
        rw [hreads] at hrd
        obtain rfl := List.mem_singleton.mp hrd
        have := span_inside (indices_reduced he) hs
        simp only at hlen ⊢
        omega

/-- Five bytes at address 100, the last two of them backwards. -/
theorem getItem_subscripts_five :
    (getItem (fun a => (a-100).toNat.toUInt8+10) ⟨some 100,5⟩ (.slice ⟨some (-1),some 2,some (-1)⟩)).1 =
      .ok (.bytes [14,13]) ∧
    (getItem (fun a => (a-100).toNat.toUInt8+10) ⟨some 100,5⟩ (.index (-6))).1 = .error .indexError := by
  have hB : Holds (fun a => (a-100).toNat.toUInt8+10) 100 [10,11,12,13,14] := by
    unfold Holds
    decide
  obtain ⟨hslice,-,hindex,-⟩ := getItem_subscripts hB
  exact ⟨(hslice _).trans (by decide),(hindex _).trans (by decide)⟩

end Contents

end FaultCache.RegionSlices
