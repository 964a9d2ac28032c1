import Mathlib.Algebra.BigOperators.Group.List.Basic
import Mathlib.Algebra.Ring.Nat
import Mathlib.Data.Finset.Card
import Mathlib.Order.Interval.Finset.Nat
import Mathlib.Tactic.SplitIfs

/-!
# Taking a buffer apart

A buffer of `n` bytes is given away range by range. The ranges tile it when no
two of them share a byte and together they are all of it. The lengths then add
up to `n`, and stay below it until the last range that is not empty.
-/

set_option autoImplicit false

namespace FaultCache.RangeTiling

structure Span where
  off : ℕ
  len : ℕ
  deriving DecidableEq, Repr

def Span.bytes (r : Span) : Finset ℕ := Finset.Ico r.off (r.off+r.len)

def covered : List Span → Finset ℕ
  | [] => ∅
  | r::rs => r.bytes ∪ covered rs

def total (rs : List Span) : ℕ := (rs.map Span.len).sum

structure Tiles (n : ℕ) (rs : List Span) : Prop where
  disjoint : rs.Pairwise (fun a b => Disjoint a.bytes b.bytes)
  union : covered rs = Finset.range n

variable {n : ℕ} {r : Span} {rs qs : List Span}

theorem mem_bytes {x : ℕ} : x ∈ r.bytes ↔ r.off ≤ x ∧ x < r.off+r.len := Finset.mem_Ico

theorem disjoint_of_le {a b : Span} (h : a.off+a.len ≤ b.off) : Disjoint a.bytes b.bytes := by
  rw [Finset.disjoint_left]
  intro x ha hb
  have := (mem_bytes.mp ha).2
  have := (mem_bytes.mp hb).1
  omega

theorem mem_covered {x : ℕ} : x ∈ covered rs ↔ ∃ r ∈ rs, x ∈ r.bytes := by
  induction rs with
  | nil => simp [covered]
  | cons r rs ih => rw [covered,Finset.mem_union,ih,List.exists_mem_cons_iff]

@[simp] theorem total_nil : total [] = 0 := rfl

@[simp] theorem total_cons (r : Span) (rs : List Span) : total (r::rs) = r.len+total rs := by
  simp [total]

theorem total_append (rs qs : List Span) : total (rs ++ qs) = total rs+total qs := by
  simp [total]

theorem covered_card (h : rs.Pairwise (fun a b => Disjoint a.bytes b.bytes)) :
    (covered rs).card = total rs := by
  induction rs with
  | nil => rfl
  | cons r rs ih =>
    obtain ⟨hr,hrs⟩ := List.pairwise_cons.mp h
    have hdisj : Disjoint r.bytes (covered rs) := by
      rw [Finset.disjoint_left]
      intro x hx hcov
      obtain ⟨q,hq,hxq⟩ := mem_covered.mp hcov
      exact Finset.disjoint_left.mp (hr q hq) hx hxq
    rw [covered,Finset.card_union_of_disjoint hdisj,ih hrs,total_cons,Span.bytes,Nat.card_Ico,
      Nat.add_sub_cancel_left]

theorem total_le (h : rs.Pairwise (fun a b => Disjoint a.bytes b.bytes)) (hin : ∀ r ∈ rs, r.off+r.len ≤ n) :
    total rs ≤ n := by
  have hsub : covered rs ⊆ Finset.range n := by
    intro x hx
    obtain ⟨r,hr,hxr⟩ := mem_covered.mp hx
    exact Finset.mem_range.mpr ((mem_bytes.mp hxr).2.trans_le (hin r hr))
  have := Finset.card_le_card hsub
  rwa [covered_card h,Finset.card_range] at this

/-- Tiling ranges have the buffer's length. -/
theorem Tiles.total_eq (h : Tiles n rs) : total rs = n := by
  rw [← covered_card h.disjoint,h.union,Finset.card_range]

theorem total_pos (hlen : ∀ r ∈ rs, 0 < r.len) (hne : rs ≠ []) : 0 < total rs := by
  cases rs with
  | nil => exact absurd rfl hne
  | cons r rs =>
    have := hlen r List.mem_cons_self
    rw [total_cons]
    omega

/-- The buffer is used up by its last range and not before. -/
theorem Tiles.prefix_total (h : Tiles n (rs ++ qs)) (hlen : ∀ r ∈ qs, 0 < r.len) :
    total rs ≤ n ∧ (total rs = n ↔ qs = []) := by
  have htotal := h.total_eq
  rw [total_append] at htotal
  refine ⟨by omega,?_⟩
  constructor
  · intro he
    by_contra hne
    have := total_pos hlen hne
    omega
  · rintro rfl
    exact htotal

theorem Tiles.inside (h : Tiles n rs) (hr : r ∈ rs) (hlen : 0 < r.len) : r.off+r.len ≤ n := by
  have hlast : r.off+r.len-1 ∈ covered rs := mem_covered.mpr ⟨r,hr,mem_bytes.mpr ⟨by omega,by omega⟩⟩
  rw [h.union,Finset.mem_range] at hlast
  omega

theorem tiles_whole (n : ℕ) : Tiles n [⟨0,n⟩] := by
  refine ⟨List.pairwise_singleton _ _,?_⟩
  ext x
  simp [covered,Span.bytes]

/-- A range in the middle first, and then what is left in front of it and
behind it. -/
theorem tiles_around {a b : ℕ} (hab : a ≤ b) (hbn : b ≤ n) :
    Tiles n (⟨a,b-a⟩::((if 0 < a then [⟨0,a⟩] else []) ++ if b < n then [⟨b,n-b⟩] else [])) := by
  have hfront : Disjoint (Span.mk a (b-a)).bytes (Span.mk 0 a).bytes :=
    (disjoint_of_le (Nat.zero_add a).le).symm
  have hback : Disjoint (Span.mk a (b-a)).bytes (Span.mk b (n-b)).bytes :=
    disjoint_of_le (Nat.add_sub_cancel' hab).le
  have hends : Disjoint (Span.mk 0 a).bytes (Span.mk b (n-b)).bytes :=
    disjoint_of_le ((Nat.zero_add a).le.trans hab)
  constructor
  · split_ifs <;> simp [hfront,hback,hends]
  · ext x
    rw [mem_covered,Finset.mem_range]
    split_ifs <;> simp only [List.nil_append,List.cons_append,List.exists_mem_cons_iff,
      List.not_mem_nil,false_and,exists_false,or_false,mem_bytes] <;> omega

theorem around_nonempty {a b : ℕ} (hab : a < b) : ∀ r ∈ (⟨a,b-a⟩::((if 0 < a then [⟨0,a⟩] else []) ++
    if b < n then [⟨b,n-b⟩] else []) : List Span), 0 < r.len := by
  intro r hr
  rcases List.mem_cons.mp hr with rfl | hr
  · exact Nat.sub_pos_of_lt hab
  · rcases List.mem_append.mp hr with hr | hr
    · split_ifs at hr with h
      · obtain rfl := List.mem_singleton.mp hr
        exact h
      · cases hr
    · split_ifs at hr with h
      · obtain rfl := List.mem_singleton.mp hr
        exact Nat.sub_pos_of_lt h
      · cases hr

end FaultCache.RangeTiling
