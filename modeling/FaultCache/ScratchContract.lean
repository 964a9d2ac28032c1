import FaultCache.PoolMachine
import FaultCache.RangeTiling

/-!
# Using up a scratch buffer

`vm.h` asks that publish and discard together consume the whole buffer, one
disjoint range at a time, and that it is not touched afterwards. The Windows
back end only counts the bytes, asserts that there are not too many of them and
gives the buffer back with the last one. Callers that meet the contract pass its
assertions, and it gives the buffer back exactly when they are through.
-/

set_option autoImplicit false

namespace FaultCache.ScratchContract
open FaultCache.VmPages FaultCache.PoolMachine FaultCache.RangeTiling

def span : Piece → Span
  | .publish off len _ => ⟨off,len⟩
  | .discard off len => ⟨off,len⟩

/-- The callers' side of `vm.h`. -/
structure Consumes (n : ℕ) (ps : List Piece) : Prop where
  tiles : Tiles n (ps.map span)
  nonempty : ∀ p ∈ ps, 0 < (span p).len

/-- `vm_scratch_t` on Windows. `addr` is set while the staging view and the
section are there. -/
structure ScratchView where
  size : ℕ
  consumed : ℕ
  addr : Bool
  deriving DecidableEq, Repr

def scratchView (size : ℕ) : ScratchView := ⟨size,0,true⟩

/-- A view that is gone cannot be unmapped again. -/
def scratchConsume (s : ScratchView) (len : ℕ) : Option ScratchView :=
  let consumed := sizeAdd s.consumed len
  if consumed ≤ s.size then
    if consumed = s.size then
      if s.addr then some ⟨s.size,consumed,false⟩ else none
    else some ⟨s.size,consumed,s.addr⟩
  else none

/-- The range has to be one of the open section. -/
def publishView (s : ScratchView) (off len : ℕ) : Option ScratchView :=
  if s.addr ∧ off+len ≤ s.size then scratchConsume s len else none

def discardView (s : ScratchView) (_off len : ℕ) : Option ScratchView := scratchConsume s len

def useView (s : ScratchView) : Piece → Option ScratchView
  | .publish off len _ => publishView s off len
  | .discard off len => discardView s off len

def useViews : ScratchView → List Piece → Option ScratchView
  | s, [] => some s
  | s, p::ps => (useView s p).bind (useViews · ps)

variable {n : ℕ} {p : Piece} {ps qs : List Piece} {done : List Span}

theorem useView_eq (hin : (span p).off+(span p).len ≤ n) (hn : n < 2^64)
    (hsum : total done+(span p).len ≤ n) : useView ⟨n,total done,true⟩ p =
      some ⟨n,total done+(span p).len,decide (total done+(span p).len ≠ n)⟩ := by
  have hadd : sizeAdd (total done) (span p).len = total done+(span p).len :=
    Nat.mod_eq_of_lt (hsum.trans_lt hn)
  have hcons : scratchConsume ⟨n,total done,true⟩ (span p).len =
      some ⟨n,total done+(span p).len,decide (total done+(span p).len ≠ n)⟩ := by
    rw [scratchConsume,hadd,if_pos hsum]
    by_cases he : total done+(span p).len = n
    · simp [he]
    · simp [he]
  cases p with
  | publish off len target => exact (if_pos ⟨rfl,hin⟩).trans hcons
  | discard off len => exact hcons

/-- The pieces `done` have been used and `qs` are used next. The view is there
until none are left. -/
theorem useViews_from (done : List Span) (ht : Tiles n (done ++ (ps ++ qs).map span))
    (hlen : ∀ p ∈ ps ++ qs, 0 < (span p).len) (hne : ps ++ qs ≠ []) (hn : n < 2^64) :
    useViews ⟨n,total done,true⟩ ps = some ⟨n,total (done ++ ps.map span),decide (qs ≠ [])⟩ := by
  induction ps generalizing done with
  | nil =>
    have hqs : decide (qs ≠ []) = true := decide_eq_true hne
    rw [hqs,List.map_nil,List.append_nil]
    rfl
  | cons p ps ih =>
    have hnext : Tiles n ((done ++ [span p]) ++ (ps ++ qs).map span) := by simpa using ht
    have hrest : ∀ q ∈ ps ++ qs, 0 < (span q).len := fun q hq => hlen q (List.mem_cons_of_mem _ hq)
    have hspans : ∀ r ∈ (ps ++ qs).map span, 0 < r.len := by
      intro r hr
      obtain ⟨q,hq,rfl⟩ := List.mem_map.mp hr
      exact hrest q hq
    obtain ⟨hle,hend⟩ := hnext.prefix_total hspans
    have hsum : total (done ++ [span p]) = total done+(span p).len := by simp [total_append]
    rw [hsum] at hle hend
    have hin := ht.inside (r := span p) (by simp) (hlen p List.mem_cons_self)
    rw [useViews,useView_eq hin hn hle,Option.bind_some]
    by_cases hlast : ps ++ qs = []
    · obtain ⟨rfl,rfl⟩ := List.append_eq_nil_iff.mp hlast
      have he : total done+(span p).len = n := hend.mpr rfl
      rw [List.map_singleton,hsum]
      simp [useViews,he]
    · have hmore : total done+(span p).len ≠ n := fun he => hlast (List.map_eq_nil_iff.mp (hend.mp he))
      rw [decide_eq_true hmore,← hsum,ih _ hnext hrest hlast]
      simp

/-- Every assertion of the back end holds, and the view goes with the last piece. -/
theorem Consumes.released (h : Consumes n (ps ++ qs)) (hpos : 0 < n) (hn : n < 2^64) :
    useViews (scratchView n) ps = some ⟨n,total (ps.map span),decide (qs ≠ [])⟩ := by
  refine useViews_from [] h.tiles h.nonempty ?_ hn
  intro hnil
  have htotal := h.tiles.total_eq
  rw [hnil] at htotal
  exact Nat.ne_of_lt hpos htotal

end FaultCache.ScratchContract
