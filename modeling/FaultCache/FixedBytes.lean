import Mathlib.Algebra.Order.Group.Nat
import Mathlib.Data.Nat.ModEq
import Mathlib.Tactic.Ring

/-!
# Fixed-width numbers as bytes

A field of a struct that travels as memory is a number cut to its width and
laid out least significant byte first. Writing and reading it back loses
exactly what the width cuts off. Buffers are lists of bytes, and a copy into a
buffer fails when it would leave it.
-/

set_option autoImplicit false

namespace FaultCache.FixedBytes

abbrev Bytes := List UInt8

def bytesOf : ℕ → ℕ → Bytes
  | 0, _ => []
  | k+1, n => n.toUInt8::bytesOf k (n/256)

def valueOf : Bytes → ℕ
  | [] => 0
  | b::bs => b.toNat+256*valueOf bs

@[simp] theorem bytesOf_length (k n : ℕ) : (bytesOf k n).length = k := by
  induction k generalizing n with
  | zero => rfl
  | succ k ih => rw [bytesOf,List.length_cons,ih]

theorem valueOf_bytesOf (k n : ℕ) : valueOf (bytesOf k n) = n % 256^k := by
  induction k generalizing n with
  | zero => rw [bytesOf,valueOf,pow_zero,Nat.mod_one]
  | succ k ih =>
    have hb : n.toUInt8.toNat = n % 256 := rfl
    rw [bytesOf,valueOf,ih,hb,Nat.pow_succ',Nat.mod_mul]

theorem valueOf_bytesOf_of_lt {k n : ℕ} (h : n < 256^k) : valueOf (bytesOf k n) = n := by
  rw [valueOf_bytesOf,Nat.mod_eq_of_lt h]

/-- An array of numbers of one width. -/
def wordsOf (k : ℕ) (ns : List ℕ) : Bytes := ns.flatMap (bytesOf k)

@[simp] theorem wordsOf_length (k : ℕ) (ns : List ℕ) : (wordsOf k ns).length = ns.length*k := by
  induction ns with
  | nil => rw [wordsOf,List.flatMap_nil,List.length_nil,List.length_nil,Nat.zero_mul]
  | cons n ns ih =>
    rw [wordsOf] at ih
    rw [wordsOf,List.flatMap_cons,List.length_append,ih,bytesOf_length,List.length_cons]
    ring

/-- The bytes of one element of an array. -/
theorem wordsOf_at (k : ℕ) {ns : List ℕ} {i : ℕ} (hi : i < ns.length) :
    ((wordsOf k ns).drop (i*k)).take k = bytesOf k ns[i] := by
  induction ns generalizing i with
  | nil => cases hi
  | cons n ns ih =>
    rw [wordsOf,List.flatMap_cons]
    cases i with
    | zero => rw [Nat.zero_mul,List.drop_zero,List.take_left' (bytesOf_length k n),List.getElem_cons_zero]
    | succ i =>
      have hoff : (i+1)*k = (bytesOf k n).length+i*k := by
        rw [bytesOf_length]
        ring
      rw [hoff,List.drop_length_add_append,List.getElem_cons_succ]
      exact ih (by simpa using hi)

/-- Copies `bytes` to offset `off` of `buf`, if they fit there. -/
def memcpy (buf : Bytes) (off : ℕ) (bytes : Bytes) : Option Bytes :=
  if off+bytes.length ≤ buf.length then
    some (buf.take off ++ bytes ++ buf.drop (off+bytes.length))
  else none

/-- A copy that succeeds stays inside the buffer and keeps its length. -/
theorem memcpy_some {buf bytes out : Bytes} {off : ℕ} (h : memcpy buf off bytes = some out) :
    off+bytes.length ≤ buf.length ∧ out.length = buf.length := by
  unfold memcpy at h
  split_ifs at h with hle
  cases h
  refine ⟨hle,?_⟩
  simp only [List.length_append,List.length_take,List.length_drop]
  omega

/-- A copy that fills the buffer from `off` on keeps what stands before it. -/
theorem memcpy_to_end {buf bytes : Bytes} {off : ℕ} (h : off+bytes.length = buf.length) :
    memcpy buf off bytes = some (buf.take off ++ bytes) := by
  rw [memcpy,if_pos (by omega),h,List.drop_length,List.append_nil]

theorem memcpy_front {buf bytes : Bytes} (h : bytes.length ≤ buf.length) :
    memcpy buf 0 bytes = some (bytes ++ buf.drop bytes.length) := by
  rw [memcpy,if_pos (by omega),List.take_zero,List.nil_append,Nat.zero_add]

end FaultCache.FixedBytes
