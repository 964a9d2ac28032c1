import Mathlib.Data.Int.Order.Basic
import Mathlib.Tactic.SplitIfs
import Mathlib.Tactic.Linarith

/-!
# Subscripts of a Python sequence

`slice.indices`, `range` and subscripts of a sequence as the language
reference describes them. A slice selects the items at the indices of a range,
and these indices always exist.
-/

set_option autoImplicit false

namespace FaultCache.PythonSlices

inductive PyError where
  | indexError
  | valueError
  | typeError
  deriving DecidableEq, Repr

structure Slice where
  start : Option ℤ
  stop : Option ℤ
  step : Option ℤ
  deriving DecidableEq, Repr

/-- A bound that is missing, or counts from the end where it is negative, kept
between `lower` and `upper`. -/
def reduceBound (n : ℕ) (lower upper missing : ℤ) : Option ℤ → ℤ
  | none => missing
  | some i => if i < 0 then max (i+n) lower else min i upper

/-- `slice.indices(n)`. -/
def Slice.indices (s : Slice) (n : ℕ) : Except PyError (ℤ × ℤ × ℤ) :=
  let step := s.step.getD 1
  if step = 0 then .error .valueError
  else if step < 0 then
    .ok (reduceBound n (-1) (n-1) (n-1) s.start,reduceBound n (-1) (n-1) (-1) s.stop,step)
  else .ok (reduceBound n 0 n 0 s.start,reduceBound n 0 n n s.stop,step)

def rangeLength (start stop step : ℤ) : ℕ :=
  if 0 < step then if start < stop then ((stop-start-1)/step+1).toNat else 0
  else if stop < start then ((start-stop-1)/(-step)+1).toNat else 0

/-- `range(start, stop, step)` for a step other than zero. -/
def pyRange (start stop step : ℤ) : List ℤ :=
  (List.range (rangeLength start stop step)).map (fun k : ℕ => start+k*step)

section Items
variable {α : Type*}

/-- `xs[i]`. -/
def pyItem (xs : List α) (i : ℤ) : Except PyError α :=
  let i := if i < 0 then i+xs.length else i
  if 0 ≤ i then
    match xs[i.toNat]? with
    | some x => .ok x
    | none => .error .indexError
  else .error .indexError

/-- `xs[start:stop:step]`. -/
def pySlice (xs : List α) (s : Slice) : Except PyError (List α) :=
  (s.indices xs.length).bind (fun m => (pyRange m.1 m.2.1 m.2.2).mapM (pyItem xs))

theorem pyItem_inside {xs : List α} {i : ℤ} (h1 : 0 ≤ i) (h2 : i < xs.length) :
    ∃ hi : i.toNat < xs.length, pyItem xs i = .ok xs[i.toNat] := by
  have hi : i.toNat < xs.length := by omega
  refine ⟨hi,?_⟩
  simp only [pyItem,if_neg (not_lt.mpr h1),if_pos h1,List.getElem?_eq_getElem hi]

/-- A negative index counts from the end, and one that is out of range then is
an error. -/
theorem pyItem_wrapped (xs : List α) (i : ℤ) : pyItem xs i =
    if 0 ≤ (if i < 0 then i+xs.length else i) ∧ (if i < 0 then i+xs.length else i) < xs.length then
      pyItem xs (if i < 0 then i+xs.length else i)
    else .error .indexError := by
  generalize hj : (if i < 0 then i+(xs.length : ℤ) else i) = j
  by_cases hin : 0 ≤ j ∧ j < xs.length
  · simp only [pyItem,hj,if_pos hin,if_neg (not_lt.mpr hin.1)]
  · simp only [pyItem,hj,if_neg hin]
    split_ifs with h0
    · rw [List.getElem?_eq_none (by omega)]
    · rfl

/-- Where every item is there, taking them one by one succeeds. -/
theorem mapM_ok {β γ ε : Type*} {f : β → Except ε γ} {g : β → γ} (xs : List β)
    (h : ∀ x ∈ xs, f x = .ok (g x)) : xs.mapM f = .ok (xs.map g) := by
  induction xs with
  | nil => rfl
  | cons x xs ih =>
    rw [List.mapM_cons,h x List.mem_cons_self,ih (fun y hy => h y (List.mem_cons_of_mem _ hy))]
    rfl

end Items

section Ranges

/-- The indices count from `start` in steps and stop before they reach `stop`. -/
theorem mem_pyRange {start stop step : ℤ} (hs : step ≠ 0) (i : ℤ) : i ∈ pyRange start stop step ↔
    (∃ k : ℕ, i = start+k*step) ∧ (0 < step → i < stop) ∧ (step < 0 → stop < i) := by
  have hlen : ∀ k : ℕ, k < rangeLength start stop step ↔
      (0 < step → start+k*step < stop) ∧ (step < 0 → stop < start+k*step) := by
    intro k
    unfold rangeLength
    rcases lt_or_gt_of_ne hs with hneg | hpos
    · have hk : 0 ≤ (k : ℤ)*(-step) := mul_nonneg (by omega) (by omega)
      have hle := Int.le_ediv_iff_mul_le (show 0 < -step by omega) (a := (k : ℤ)) (b := start-stop-1)
      have hdiv : stop < start → 0 ≤ (start-stop-1)/(-step) :=
        fun h => Int.ediv_nonneg (by omega) (by omega)
      rw [mul_neg] at hk hle
      rw [if_neg (by omega)]
      split_ifs with hlt
      · have := hdiv hlt
        omega
      · omega
    · have hk : 0 ≤ (k : ℤ)*step := mul_nonneg (by omega) (by omega)
      have hle := Int.le_ediv_iff_mul_le hpos (a := (k : ℤ)) (b := stop-start-1)
      have hdiv : start < stop → 0 ≤ (stop-start-1)/step :=
        fun h => Int.ediv_nonneg (by omega) (by omega)
      rw [if_pos hpos]
      split_ifs with hlt
      · have := hdiv hlt
        omega
      · omega
  simp only [pyRange,List.mem_map,List.mem_range,hlen]
  constructor
  · rintro ⟨k,hk,rfl⟩
    exact ⟨⟨k,rfl⟩,hk⟩
  · rintro ⟨⟨k,rfl⟩,hk⟩
    exact ⟨k,hk,rfl⟩

/-- Between the first term of a progression and a later one, every position is
between two neighbours. -/
theorem progression_brackets (start step i : ℤ) (m : ℕ)
    (hi : (start ≤ i ∧ i ≤ start+m*step) ∨ (start+m*step ≤ i ∧ i ≤ start)) :
    ∃ k ≤ m, ∃ k' ≤ m, start+k*step ≤ i ∧ i ≤ start+k'*step ∧ start+k'*step-(start+k*step) ≤ |step| := by
  induction m with
  | zero =>
    have he : i = start := by omega
    refine ⟨0,le_refl _,0,le_refl _,by omega,by omega,?_⟩
    rw [sub_self]
    exact abs_nonneg _
  | succ m ih =>
    have hnext : start+(m+1 : ℕ)*step = start+m*step+step := by
      rw [Nat.cast_succ,add_mul,one_mul,add_assoc]
    by_cases hin : (start ≤ i ∧ i ≤ start+m*step) ∨ (start+m*step ≤ i ∧ i ≤ start)
    · obtain ⟨k,hk,k',hk',h⟩ := ih hin
      exact ⟨k,by omega,k',by omega,h⟩
    · have hup := le_abs_self step
      have hdown := neg_le_abs step
      rcases hi with hi | hi
      · refine ⟨m,by omega,m+1,le_refl _,?_⟩
        omega
      · refine ⟨m+1,le_refl _,m,by omega,?_⟩
        omega

/-- A range contains every term before one of its own. -/
theorem pyRange_earlier {start stop step : ℤ} (hs : step ≠ 0) {m k : ℕ} (hk : k ≤ m)
    (hm : start+m*step ∈ pyRange start stop step) : start+k*step ∈ pyRange start stop step := by
  obtain ⟨-,hup,hdown⟩ := (mem_pyRange hs _).mp hm
  refine (mem_pyRange hs _).mpr ⟨⟨k,rfl⟩,?_,?_⟩
  · intro hpos
    have := hup hpos
    have : (k : ℤ)*step ≤ m*step := mul_le_mul_of_nonneg_right (by omega) (by omega)
    omega
  · intro hneg
    have := hdown hneg
    have : (m : ℤ)*step ≤ k*step := mul_le_mul_of_nonpos_right (by omega) (by omega)
    omega

theorem pyRange_one (start stop : ℤ) :
    pyRange start stop 1 = (List.range (max 0 (stop-start)).toNat).map (fun k : ℕ => start+k) := by
  have hlen : rangeLength start stop 1 = (max 0 (stop-start)).toNat := by
    simp only [rangeLength,Int.ediv_one]
    split_ifs <;> omega
  simp only [pyRange,hlen,mul_one]

end Ranges

section Indices
variable {s : Slice} {n : ℕ} {start stop step : ℤ}

/-- What a slice of a sequence of length `n` is reduced to. -/
structure Reduced (n : ℕ) (start stop step : ℤ) : Prop where
  nonzero : step ≠ 0
  forward : 0 < step → 0 ≤ start ∧ start ≤ n ∧ 0 ≤ stop ∧ stop ≤ n
  backward : step < 0 → -1 ≤ start ∧ start ≤ n-1 ∧ -1 ≤ stop ∧ stop ≤ n-1

theorem reduceBound_mem {lower upper missing : ℤ} (h1 : lower ≤ upper)
    (h2 : lower ≤ missing ∧ missing ≤ upper) (h3 : lower ≤ 0) (h4 : (n : ℤ)-1 ≤ upper) (b : Option ℤ) :
    lower ≤ reduceBound n lower upper missing b ∧ reduceBound n lower upper missing b ≤ upper := by
  cases b with
  | none => exact h2
  | some i =>
    simp only [reduceBound]
    split_ifs <;> omega

theorem indices_reduced (h : s.indices n = .ok (start,stop,step)) : Reduced n start stop step := by
  simp only [Slice.indices] at h
  split_ifs at h with h0 hneg
  · simp only [Except.ok.injEq,Prod.mk.injEq] at h
    obtain ⟨rfl,rfl,rfl⟩ := h
    refine ⟨h0,fun hp => absurd hneg (by omega),fun _ => ?_⟩
    have hstart := reduceBound_mem (n := n) (show (-1 : ℤ) ≤ n-1 by omega)
      (show -1 ≤ (n : ℤ)-1 ∧ (n : ℤ)-1 ≤ n-1 by omega) (by omega) (le_refl _) s.start
    have hstop := reduceBound_mem (n := n) (show (-1 : ℤ) ≤ n-1 by omega)
      (show (-1 : ℤ) ≤ -1 ∧ (-1 : ℤ) ≤ n-1 by omega) (by omega) (le_refl _) s.stop
    exact ⟨hstart.1,hstart.2,hstop.1,hstop.2⟩
  · simp only [Except.ok.injEq,Prod.mk.injEq] at h
    obtain ⟨rfl,rfl,rfl⟩ := h
    refine ⟨h0,fun _ => ?_,fun hn => absurd hn hneg⟩
    have hstart := reduceBound_mem (n := n) (show (0 : ℤ) ≤ n by omega)
      (show (0 : ℤ) ≤ 0 ∧ (0 : ℤ) ≤ n by omega) (le_refl _) (by omega) s.start
    have hstop := reduceBound_mem (n := n) (show (0 : ℤ) ≤ n by omega)
      (show (0 : ℤ) ≤ n ∧ (n : ℤ) ≤ n by omega) (le_refl _) (by omega) s.stop
    exact ⟨hstart.1,hstart.2,hstop.1,hstop.2⟩

theorem indices_error_iff (s : Slice) (n : ℕ) :
    s.indices n = .error .valueError ↔ s.step = some 0 := by
  have hzero : s.step.getD 1 = 0 ↔ s.step = some 0 := by
    cases hs : s.step with
    | none => simp
    | some k => simp
  rw [← hzero]
  simp only [Slice.indices]
  split_ifs with h0 hneg
  · exact iff_of_true rfl h0
  · exact iff_of_false (fun h => by cases h) h0
  · exact iff_of_false (fun h => by cases h) h0

theorem indices_cases (s : Slice) (n : ℕ) : s.indices n = .error .valueError ∨
    ∃ start stop step, s.indices n = .ok (start,stop,step) := by
  simp only [Slice.indices]
  split_ifs
  · exact Or.inl rfl
  · exact Or.inr ⟨_,_,_,rfl⟩
  · exact Or.inr ⟨_,_,_,rfl⟩

/-- The indices of a slice are indices of the sequence. -/
theorem Reduced.inside (h : Reduced n start stop step) {i : ℤ} (hi : i ∈ pyRange start stop step) :
    0 ≤ i ∧ i < n := by
  obtain ⟨⟨k,hk⟩,h1,h2⟩ := (mem_pyRange h.nonzero i).mp hi
  rcases lt_or_gt_of_ne h.nonzero with hneg | hpos
  · have := h.backward hneg
    have := h2 hneg
    have : 0 ≤ (k : ℤ)*(-step) := mul_nonneg (by omega) (by omega)
    rw [mul_neg] at this
    omega
  · have := h.forward hpos
    have := h1 hpos
    have : 0 ≤ (k : ℤ)*step := mul_nonneg (by omega) (by omega)
    omega

/-- A slice returns the items at its indices. -/
theorem pySlice_ok {α : Type*} {xs : List α} {item : ℤ → α}
    (hitem : ∀ i : ℤ, 0 ≤ i → i < xs.length → pyItem xs i = .ok (item i))
    (h : s.indices xs.length = .ok (start,stop,step)) :
    pySlice xs s = .ok ((pyRange start stop step).map item) := by
  rw [pySlice,h]
  exact mapM_ok _ (fun i hi => hitem i ((indices_reduced h).inside hi).1 ((indices_reduced h).inside hi).2)

end Indices

end FaultCache.PythonSlices
