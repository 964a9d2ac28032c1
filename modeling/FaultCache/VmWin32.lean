import FaultCache.Placeholders
import FaultCache.VmPosix

/-!
# The seam on Windows

`vm-win32.c` on an address space of allocations. A region starts as one
placeholder and falls apart where pages are published, so that a call which finds
other borders than it expects would fail. The ranges that are published together
are fixed with the layout of a region: as long as the calls keep to them, none
fails, and what is mapped afterwards is what the contract says.
-/

set_option autoImplicit false

namespace FaultCache.VmWin32
open FaultCache.VmPages FaultCache.PoolMachine FaultCache.RangeTiling FaultCache.ScratchContract
open FaultCache.VmContract FaultCache.Placeholders
open FaultCache.AddressSpace (Prot OwnedBy KeepsOthers OthersMove load)
open FaultCache.VmPosix (protOf bytesOf heldProt)

inductive Owner where
  | cache
  | other
  deriving DecidableEq, Repr

/-- `vm_scratch_t`. The address is zero when the view is gone. -/
structure Scratch where
  addr : ℕ
  size : ℕ
  sec : ℕ
  consumed : ℕ
  deriving DecidableEq, Repr

structure Win32 where
  kernel : Kernel Owner
  scratch : Buffer → Option Scratch

section Calls
variable (P : ℕ) (k : Kernel Owner)

def vmReserve (base size : ℕ) : Option (Kernel Owner) := virtualAlloc2 k base size .cache

/-- A piece is released for what it is. -/
def releasePiece (p : ℕ) : Option Kind → Option (Kernel Owner)
  | none => some k
  | some (.view _) => unmapViewOfFile k p
  | some _ => virtualFree k p

def vmReleaseLoop : ℕ → Kernel Owner → ℕ → ℕ → Option (Kernel Owner)
  | 0, k, p, stop => if p < stop then none else some k
  | fuel+1, k, p, stop =>
    if p < stop then
      let mbi := virtualQuery k p
      (releasePiece k p mbi.kind).bind (fun k' => vmReleaseLoop fuel k' (p+mbi.size) stop)
    else some k

def vmRelease (base size : ℕ) : Option (Kernel Owner) := vmReleaseLoop size k base (base+size)

def vmSetReadable (addr size : ℕ) (readable : Bool) : Option (Kernel Owner) :=
  virtualProtect k addr size (if readable then .read else .none)

def decommitPiece (p : ℕ) : Option Kind → Option (Kernel Owner)
  | some (.view _) => unmapViewOfFileEx k p
  | _ => some k

def vmDecommitLoop : ℕ → Kernel Owner → ℕ → ℕ → Option (Kernel Owner)
  | 0, k, p, stop => if p < stop then none else some k
  | fuel+1, k, p, stop =>
    if p < stop then
      let mbi := virtualQuery k p
      (decommitPiece k p mbi.kind).bind (fun k' => vmDecommitLoop fuel k' (p+mbi.size) stop)
    else some k

def vmDecommit (addr size : ℕ) : Option (Kernel Owner) := vmDecommitLoop size k addr (addr+size)

/-- The size goes to the kernel in two halves of 32 bits. -/
def vmScratchCreate (pick size : ℕ) : Option (Kernel Owner × Scratch) :=
  (createFileMapping k (size/2^32%2^32) (size%2^32)).bind (fun r =>
    (mapViewOfFile r.1 r.2 pick size .cache).map (fun k' => (k',⟨pick,size,r.2,0⟩)))

def vmScratchSeal (s : Scratch) : Option (Kernel Owner) := virtualProtect k s.addr s.size .read

def scratchConsume (s : Scratch) (len : ℕ) : Option (Kernel Owner × Scratch) :=
  let s := { s with consumed := sizeAdd s.consumed len }
  if s.consumed ≤ s.size then
    if s.consumed = s.size then
      (unmapViewOfFile k s.addr).bind (fun k' => (closeHandle k' s.sec).map (fun k' => (k',{ s with addr := 0 })))
    else some (k,s)
  else none

def vmScratchPublish (s : Scratch) (off len target : ℕ) : Option (Kernel Owner × Scratch) :=
  let mbi := virtualQuery k target
  (if mbi.base ≠ target ∨ mbi.size ≠ len ∨ mbi.allocBase ≠ target then virtualFreePreserve k target len
    else some k).bind (fun k' => (mapViewOfFile3 P k' s.sec target off len .read).bind (scratchConsume · s len))

def vmScratchDiscard (s : Scratch) (_off len : ℕ) : Option (Kernel Owner × Scratch) := scratchConsume k s len

end Calls

/-- A call with the address `pick` that the kernel chooses for a new buffer. It
stops at the first assertion that fails. -/
def win32Call (P pick : ℕ) (w : Win32) : VmCall → Option Win32
  | .reserve base size => (vmReserve w.kernel base size).map (fun k => { w with kernel := k })
  | .release base size => (vmRelease w.kernel base size).map (fun k => { w with kernel := k })
  | .setReadable addr size readable =>
    (vmSetReadable w.kernel addr size readable).map (fun k => { w with kernel := k })
  | .decommit addr size => (vmDecommit w.kernel addr size).map (fun k => { w with kernel := k })
  | .create b size => (vmScratchCreate w.kernel pick size).map (fun r =>
      ⟨r.1,Function.update w.scratch b (some r.2)⟩)
  | .write b off bytes len => (w.scratch b).bind (fun x =>
      (store w.kernel (x.addr+off) bytes len).map (fun k => { w with kernel := k }))
  | .copy dst dstOff src srcOff len => (w.scratch dst).bind (fun x => (w.scratch src).bind (fun y =>
      (copy w.kernel (x.addr+dstOff) (y.addr+srcOff) len).map (fun k => { w with kernel := k })))
  | .seal b => (w.scratch b).bind (fun x =>
      (vmScratchSeal w.kernel x).map (fun k => { w with kernel := k }))
  | .consume b (.publish off len target) => (w.scratch b).bind (fun x =>
      (vmScratchPublish P w.kernel x off len target).map (fun r =>
        ⟨r.1,Function.update w.scratch b (some r.2)⟩))
  | .consume b (.discard off len) => (w.scratch b).bind (fun x =>
      (vmScratchDiscard w.kernel x off len).map (fun r => ⟨r.1,Function.update w.scratch b (some r.2)⟩))

def Mine (a : Alloc Owner) : Prop := a.owner = .cache

/-- An address that belongs to the cache. -/
abbrev Cached (k : Kernel Owner) (q : ℕ) : Prop := OwnedBy Mine k.space.alloc q

/-- Room for a new allocation. -/
structure Vacant (P : ℕ) (k : Kernel Owner) (addr size : ℕ) : Prop where
  aligned : P ∣ addr
  below : addr+size < 2^64
  unmapped : ∀ q, addr ≤ q ∧ q < addr+size → k.space.alloc q = none

/-- The kernel puts a new allocation where there is none. -/
def Picks (P pick : ℕ) (w : Win32) : VmCall → Prop
  | .reserve base size => Vacant P w.kernel base size
  | .create _ size => Vacant P w.kernel pick size
  | _ => True

/-- The calls made so far, with anything the others did in between. -/
inductive Exec (P : ℕ) (w₀ : Win32) : List VmCall → Win32 → Prop
  | start : Exec P w₀ [] w₀
  | others {cs : List VmCall} {w : Win32} {sp : Space Owner} (h : Exec P w₀ cs w)
      (ho : OthersMove Mine w.kernel.space.alloc sp.alloc) :
      Exec P w₀ cs { w with kernel := { w.kernel with space := sp } }
  | call {cs : List VmCall} {w w' : Win32} {c : VmCall} {pick : ℕ} (h : Exec P w₀ cs w)
      (hp : Picks P pick w c) (hc : win32Call P pick w c = some w') : Exec P w₀ (cs ++ [c]) w'

theorem Exec.split {P : ℕ} {w₀ w : Win32} {cs ds : List VmCall} (hx : Exec P w₀ (cs ++ ds) w) :
    ∃ w₁, Exec P w₀ cs w₁ ∧ Exec P w₁ ds w := by
  generalize he : cs ++ ds = es at hx
  induction hx generalizing ds with
  | start =>
    obtain ⟨rfl,rfl⟩ := List.append_eq_nil_iff.mp he
    exact ⟨w₀,.start,.start⟩
  | others _ ho ih =>
    obtain ⟨w₁,h1,h2⟩ := ih he
    exact ⟨w₁,h1,h2.others ho⟩
  | @call es w w' c pick hx hp hc ih =>
    rcases List.eq_nil_or_concat ds with rfl | ⟨ds',d,rfl⟩
    · rw [List.append_nil] at he
      subst he
      exact ⟨w',hx.call hp hc,.start⟩
    · rw [List.concat_eq_append,← List.append_assoc] at he
      obtain ⟨rfl,hd⟩ := List.append_inj' he rfl
      cases hd
      obtain ⟨w₁,h1,h2⟩ := ih rfl
      rw [List.concat_eq_append]
      exact ⟨w₁,h1,h2.call hp hc⟩

/-- Two ranges have an address in common. -/
def Meet (b n b' n' : ℕ) : Prop := b < b'+n' ∧ b' < b+n

/-- Which ranges are reserved, and which of their parts are published, protected
and given back at once. -/
structure Plan where
  area : ℕ → ℕ → Prop
  unit : ℕ → ℕ → Prop
  area_pos : ∀ {b n}, area b n → 0 < n
  unit_pos : ∀ {b n}, unit b n → 0 < n
  areas_apart : ∀ {b n b' n'}, area b n → area b' n' → Meet b n b' n' → b = b' ∧ n = n'
  units_apart : ∀ {b n b' n'}, unit b n → unit b' n' → Meet b n b' n' → b = b' ∧ n = n'
  unit_inside : ∀ {b n b' n'}, unit b n → area b' n' → Meet b n b' n' → b' ≤ b ∧ b+n ≤ b'+n'

/-- The call keeps to the plan. -/
def Keeps (U : Plan) : VmCall → Prop
  | .reserve base size => U.area base size
  | .release base size => U.area base size
  | .setReadable addr size _ => U.unit addr size
  | .decommit addr size => U.unit addr size
  | .consume _ (.publish _ len target) => U.unit target len
  | _ => True

/-- The kind of a piece of an area. A view is one of the units, and units are
not divided by the borders of placeholders. -/
def KindFits (U : Plan) (k : Kernel Owner) (a : Alloc Owner) : Kind → Prop
  | .placeholder => ∀ b n, U.unit b n → Meet b n a.base a.size → a.base ≤ b ∧ b+n ≤ a.base+a.size
  | .view v => v.replaces = true ∧ U.unit a.base a.size ∧ v.sec < k.count
  | .other => False

structure Fits (P : ℕ) (U : Plan) (m : Memory) (k : Kernel Owner) (a : Alloc Owner) : Prop where
  owner : a.owner = .cache
  start : P ∣ a.base
  whole : P ∣ a.size
  area : ∃ b n, U.area b n ∧ b ≤ a.base ∧ a.base+a.size ≤ b+n
  reserved : ∀ q, a.Has q → m.reserved q = true
  kind : KindFits U k a a.kind

/-- The reserved ranges are what the memory behind the seam says. -/
structure Mapped (P : ℕ) (U : Plan) (m : Memory) (k : Kernel Owner) : Prop where
  below : ∀ q, m.reserved q = true → q < 2^64
  whole : ∀ q i, P ∣ q → i < P → m.reserved (q+i) = m.reserved q
  piece : ∀ q, m.reserved q = true → ∃ a, k.space.alloc q = some a ∧ Fits P U m k a
  vacant : ∀ q a, P ∣ q → m.reserved q = true → k.space.alloc q = some a →
    (m.table q = .inaccessible ↔ a.kind = .placeholder)
  pages : ∀ q i, P ∣ q → i < P → m.reserved q = true →
    cells k (q+i) = some ⟨protOf (m.table q),.cache,bytesOf (m.table q) i⟩

/-- The staging view of a buffer. -/
def stagingView (h : Held) (x : Scratch) : Alloc Owner :=
  ⟨x.addr,h.size,.view ⟨x.sec,0,heldProt h,false⟩,.cache⟩

/-- Where a buffer is. The view and the handle stay until nothing is left of it. -/
structure HeldAt (P : ℕ) (k : Kernel Owner) (h : Held) (x : Scratch) : Prop where
  size : x.size = h.size
  consumed : x.consumed = total h.used
  left : total h.used < h.size
  below : h.size < 2^64
  aligned : P ∣ h.size
  inside : ∀ r ∈ h.used, r.off+r.len ≤ h.size
  disjoint : h.used.Pairwise (fun a b => Disjoint a.bytes b.bytes)
  view : k.space.alloc x.addr = some (stagingView h x)
  sec : ∃ s, k.sections x.sec = some s ∧ s.size = h.size ∧ s.isOpen = true ∧ ∀ i < h.size, s.bytes i = h.bytes i

def Holds (m : Memory) (w : Win32) (b : Buffer) (h : Held) (x : Scratch) : Prop :=
  m.held b = some h ∧ w.scratch b = some x

/-- The buffers and their sections, of which no other handle is open. -/
structure Buffers (P : ℕ) (m : Memory) (w : Win32) : Prop where
  held : ∀ b h, m.held b = some h → ∃ x, w.scratch b = some x ∧ HeldAt P w.kernel h x
  apart : ∀ b b' h h' x x', Holds m w b h x → Holds m w b' h' x' → x.sec = x'.sec → b = b'
  handles : ∀ n s, w.kernel.sections n = some s → s.isOpen = true → ∃ b h x, Holds m w b h x ∧ x.sec = n
  fresh : ∀ n, w.kernel.count ≤ n → w.kernel.sections n = none

/-- The address space is what the memory behind the seam says. -/
structure Sim (P : ℕ) (U : Plan) (m : Memory) (w : Win32) : Prop where
  mapped : Mapped P U m w.kernel
  buffers : Buffers P m w
  /-- What is published of a buffer cannot change any more. -/
  frozen : ∀ q a v b h x, m.reserved q = true → w.kernel.space.alloc q = some a → a.kind = .view v →
    Holds m w b h x → x.sec = v.sec → h.sealed = true
  ledger : ∀ q, Cached w.kernel q ↔ m.reserved q = true ∨ ∃ b h x, Holds m w b h x ∧ (stagingView h x).Has q

end FaultCache.VmWin32
