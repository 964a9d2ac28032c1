import FaultCache.AddressSpace
import FaultCache.VmContract

/-!
# The seam on Linux

`vm-posix.c` on an address space that other threads and the rest of the program
use as well. Whatever the kernel picks for new mappings and whatever the others
do between two system calls, a call that the contract allows does not fail, and
what is mapped afterwards is what the contract says.
-/

set_option autoImplicit false

namespace FaultCache.VmPosix
open FaultCache.VmPages FaultCache.RangeTiling FaultCache.ScratchContract FaultCache.VmContract
open FaultCache.AddressSpace

/-- The cache's mappings carry the number of the `mmap` that made them. -/
inductive Owner where
  | cache (area : ℕ)
  | other
  deriving DecidableEq, Repr

def Mine (c : Cell Owner) : Prop := ∃ area, c.owner = .cache area

/-- `vm_scratch_t` without the bookkeeping that is not used here. -/
structure ScratchAddr where
  addr : ℕ
  size : ℕ
  deriving DecidableEq, Repr

structure Posix where
  space : Space Owner
  areas : ℕ
  scratch : Buffer → Option ScratchAddr

section Calls
variable (P : ℕ) (sp : Space Owner)

def vmReserve (area base size : ℕ) : Option (Space Owner) := mmap P sp base size .none (.cache area)

def vmRelease (base size : ℕ) : Option (Space Owner) := munmap P sp base size

def vmSetReadable (addr size : ℕ) (readable : Bool) : Option (Space Owner) :=
  mprotect P sp addr size (if readable then .read else .none)

def vmDecommit (area addr size : ℕ) : Option (Space Owner) := mmap P sp addr size .none (.cache area)

def vmScratchCreate (area addr size : ℕ) : Option (Space Owner × ScratchAddr) :=
  (mmap P sp addr size .readWrite (.cache area)).map (fun sp' => (sp',⟨addr,size⟩))

def vmScratchSeal (s : ScratchAddr) : Option (Space Owner) := mprotect P sp s.addr s.size .read

def vmScratchPublish (s : ScratchAddr) (off len target : ℕ) : Option (Space Owner) :=
  mremap P sp (s.addr+off) len target

def vmScratchDiscard (s : ScratchAddr) (off len : ℕ) : Option (Space Owner) := munmap P sp (s.addr+off) len

end Calls

/-- A call with the address `pick` that the kernel chooses for a new buffer. It
stops at the first assertion that fails. -/
def posixCall (P pick : ℕ) (s : Posix) : VmCall → Option Posix
  | .reserve base size => (vmReserve P s.space s.areas base size).map (fun sp =>
      { s with space := sp, areas := s.areas+1 })
  | .release base size => (vmRelease P s.space base size).map (fun sp => { s with space := sp })
  | .setReadable addr size readable =>
    (vmSetReadable P s.space addr size readable).map (fun sp => { s with space := sp })
  | .decommit addr size => (vmDecommit P s.space s.areas addr size).map (fun sp =>
      { s with space := sp, areas := s.areas+1 })
  | .create b size => (vmScratchCreate P s.space s.areas pick size).map (fun r =>
      ⟨r.1,s.areas+1,Function.update s.scratch b (some r.2)⟩)
  | .write b off bytes len => (s.scratch b).bind (fun x =>
      (store s.space (x.addr+off) bytes len).map (fun sp => { s with space := sp }))
  | .copy dst dstOff src srcOff len => (s.scratch dst).bind (fun x => (s.scratch src).bind (fun y =>
      (copy s.space (x.addr+dstOff) (y.addr+srcOff) len).map (fun sp => { s with space := sp })))
  | .seal b => (s.scratch b).bind (fun x =>
      (vmScratchSeal P s.space x).map (fun sp => { s with space := sp }))
  | .consume b (.publish off len target) => (s.scratch b).bind (fun x =>
      (vmScratchPublish P s.space x off len target).map (fun sp => { s with space := sp }))
  | .consume b (.discard off len) => (s.scratch b).bind (fun x =>
      (vmScratchDiscard P s.space x off len).map (fun sp => { s with space := sp }))

/-- Room for a new mapping. -/
structure Vacant (P : ℕ) (sp : Space Owner) (addr size : ℕ) : Prop where
  aligned : P ∣ addr
  below : addr+wholePages P size ≤ 2^64
  unmapped : ∀ q, addr ≤ q ∧ q < addr+wholePages P size → sp q = none

/-- The kernel puts a new mapping where nothing is mapped. -/
def Picks (P pick : ℕ) (s : Posix) : VmCall → Prop
  | .reserve base size => Vacant P s.space base size
  | .create _ size => Vacant P s.space pick size
  | _ => True

/-- The calls made so far, with anything the others did in between. -/
inductive Exec (P : ℕ) (s₀ : Posix) : List VmCall → Posix → Prop
  | start : Exec P s₀ [] s₀
  | others {cs : List VmCall} {s : Posix} {sp : Space Owner} (h : Exec P s₀ cs s)
      (ho : OthersMove Mine s.space sp) : Exec P s₀ cs { s with space := sp }
  | call {cs : List VmCall} {s s' : Posix} {c : VmCall} {pick : ℕ} (h : Exec P s₀ cs s)
      (hp : Picks P pick s c) (hc : posixCall P pick s c = some s') : Exec P s₀ (cs ++ [c]) s'

/-- An address that belongs to the cache. -/
abbrev Cached (sp : Space Owner) (q : ℕ) : Prop := OwnedBy Mine sp q

/-- A byte of a buffer that has not been used yet. -/
def Remains (h : Held) (i : ℕ) : Prop := i < h.size ∧ ∀ r ∈ h.used, i ∉ r.bytes

def Holds (m : Memory) (s : Posix) (b : Buffer) (q : ℕ) : Prop :=
  ∃ h x, m.held b = some h ∧ s.scratch b = some x ∧ x.addr ≤ q ∧ Remains h (q-x.addr)

def protOf : PageState → Prot
  | .readable _ => .read
  | _ => .none

def bytesOf : PageState → ℕ → UInt8
  | .inaccessible => fun _ => 0
  | .hidden b => b
  | .readable b => b

def heldProt (h : Held) : Prot := if h.sealed then .read else .readWrite

/-- Where a buffer is. -/
structure HeldAt (P : ℕ) (sp : Space Owner) (h : Held) (x : ScratchAddr) : Prop where
  size : x.size = h.size
  aligned : P ∣ x.addr
  whole : P ∣ h.size
  pos : 0 < h.size
  below : x.addr+h.size ≤ 2^64
  inside : ∀ r ∈ h.used, r.off+r.len ≤ h.size
  disjoint : h.used.Pairwise (fun a b => Disjoint a.bytes b.bytes)
  cells : ∃ a, ∀ i, Remains h i → sp (x.addr+i) = some ⟨heldProt h,.cache a,h.bytes i⟩

/-- The address space is what the memory behind the seam says. -/
structure Sim (P : ℕ) (m : Memory) (s : Posix) : Prop where
  below : ∀ q, m.reserved q = true → q < 2^64
  whole : ∀ q i, P ∣ q → i < P → m.reserved (q+i) = m.reserved q
  pages : ∀ q i, P ∣ q → i < P → m.reserved q = true →
    ∃ a, s.space (q+i) = some ⟨protOf (m.table q),.cache a,bytesOf (m.table q) i⟩
  held : ∀ b h, m.held b = some h → ∃ x, s.scratch b = some x ∧ HeldAt P s.space h x
  ledger : ∀ q, Cached s.space q ↔ m.reserved q = true ∨ ∃ b, Holds m s b q
  apart : ∀ b q, Holds m s b q → m.reserved q = false
  single : ∀ b b' q, Holds m s b q → Holds m s b' q → b = b'

variable {P : ℕ} {m m' : Memory} {s s' : Posix} {b : Buffer}

theorem cached_congr {sp sp' : Space Owner} {q : ℕ} (h : sp' q = sp q) : Cached sp' q ↔ Cached sp q :=
  OwnedBy.congr h

theorem Sim.floor (h : Sim P m s) (hP : 0 < P) (q : ℕ) :
    ∃ p i, P ∣ p ∧ i < P ∧ q = p+i ∧ m.reserved q = m.reserved p := by
  refine ⟨P*(q/P),q%P,dvd_mul_right _ _,Nat.mod_lt _ hP,(Nat.div_add_mod q P).symm,?_⟩
  conv_lhs => rw [← Nat.div_add_mod q P]
  exact h.whole _ _ (dvd_mul_right _ _) (Nat.mod_lt _ hP)

theorem Sim.reserved_cached (h : Sim P m s) {q : ℕ} (hq : m.reserved q = true) : Cached s.space q :=
  (h.ledger q).mpr (Or.inl hq)

theorem Sim.holds_cached (h : Sim P m s) {q : ℕ} (hq : Holds m s b q) : Cached s.space q :=
  (h.ledger q).mpr (Or.inr ⟨b,hq⟩)

/-- A call that changes what is reserved and what its pages show. -/
theorem Sim.pagesMove (h : Sim P m s) (hheld : m'.held = m.held) (hscr : s'.scratch = s.scratch)
    (hP : 0 < P) (below : ∀ q, m'.reserved q = true → q < 2^64)
    (whole : ∀ q i, P ∣ q → i < P → m'.reserved (q+i) = m'.reserved q)
    (pages : ∀ q i, P ∣ q → i < P → m'.reserved q = true →
      ∃ a, s'.space (q+i) = some ⟨protOf (m'.table q),.cache a,bytesOf (m'.table q) i⟩)
    (hfree : ∀ q, m'.reserved q = true → m.reserved q = true ∨ ¬ Cached s.space q)
    (hkeep : ∀ q, m.reserved q = false → m'.reserved q = false → s'.space q = s.space q)
    (hgone : ∀ q, m.reserved q = true → m'.reserved q = false → ¬ Cached s'.space q) : Sim P m' s' := by
  have hholds : ∀ b q, Holds m' s' b q ↔ Holds m s b q := by
    intro b q
    rw [Holds,Holds,hheld,hscr]
  have hout : ∀ b q, Holds m s b q → m'.reserved q = false ∧ s'.space q = s.space q := by
    intro b q hq
    have hr := h.apart b q hq
    have hr' : m'.reserved q = false := by
      rw [← Bool.not_eq_true]
      intro hc
      rcases hfree q hc with hc | hc
      · rw [hr] at hc
        cases hc
      · exact hc (h.holds_cached hq)
    exact ⟨hr',hkeep q hr hr'⟩
  refine ⟨below,whole,pages,?_,?_,?_,?_⟩
  · intro b hb hbm
    rw [hheld] at hbm
    obtain ⟨x,hx,hat⟩ := h.held b hb hbm
    obtain ⟨a,ha⟩ := hat.cells
    refine ⟨x,hscr ▸ hx,{ hat with cells := ⟨a,fun i hi => ?_⟩ }⟩
    rw [(hout b (x.addr+i) ⟨hb,x,hbm,hx,Nat.le_add_right _ _,by rwa [Nat.add_sub_cancel_left]⟩).2]
    exact ha i hi
  · intro q
    simp only [hholds]
    cases hr' : m'.reserved q with
    | true =>
      refine iff_of_true ?_ (Or.inl rfl)
      obtain ⟨p,i,hp,hi,rfl⟩ : ∃ p i, P ∣ p ∧ i < P ∧ q = p+i :=
        ⟨P*(q/P),q%P,dvd_mul_right _ _,Nat.mod_lt _ hP,(Nat.div_add_mod q P).symm⟩
      rw [whole p i hp hi] at hr'
      obtain ⟨a,ha⟩ := pages p i hp hi hr'
      exact ⟨_,ha,_,rfl⟩
    | false =>
      cases hr : m.reserved q with
      | true =>
        refine iff_of_false (hgone q hr hr') ?_
        rintro (hc | ⟨b,hb⟩)
        · cases hc
        · rw [h.apart b q hb] at hr
          cases hr
      | false =>
        rw [cached_congr (hkeep q hr hr'),h.ledger q,hr]
  · intro b q hq
    exact (hout b q ((hholds b q).mp hq)).1
  · intro b b' q hq hq'
    exact h.single b b' q ((hholds b q).mp hq) ((hholds b' q).mp hq')

/-- A call that changes one buffer. -/
theorem Sim.bufferMove (h : Sim P m s) (b : Buffer) (htable : m'.table = m.table)
    (hres : m'.reserved = m.reserved)
    (hother : ∀ b', b' ≠ b → m'.held b' = m.held b' ∧ s'.scratch b' = s.scratch b')
    (hb : ∀ x, m'.held b = some x → ∃ y, s'.scratch b = some y ∧ HeldAt P s'.space x y)
    (hnew : ∀ q, Holds m' s' b q → Holds m s b q ∨ ¬ Cached s.space q)
    (hkeep : ∀ q, ¬ Holds m s b q → ¬ Holds m' s' b q → s'.space q = s.space q)
    (hgone : ∀ q, Holds m s b q → ¬ Holds m' s' b q → ¬ Cached s'.space q) : Sim P m' s' := by
  have hholds : ∀ b', b' ≠ b → ∀ q, Holds m' s' b' q ↔ Holds m s b' q := by
    intro b' hne q
    rw [Holds,Holds,(hother b' hne).1,(hother b' hne).2]
  have hsame : ∀ q, (m.reserved q = true ∨ ∃ b', b' ≠ b ∧ Holds m s b' q) →
      s'.space q = s.space q ∧ ¬ Holds m' s' b q := by
    intro q hq
    have hcached : Cached s.space q := by
      rcases hq with hr | ⟨b',-,hb'⟩
      · exact h.reserved_cached hr
      · exact h.holds_cached hb'
    have hnot : ¬ Holds m s b q := by
      intro hc
      rcases hq with hr | ⟨b',hne,hb'⟩
      · rw [h.apart b q hc] at hr
        cases hr
      · exact hne (h.single b' b q hb' hc)
    have hnot' : ¬ Holds m' s' b q := fun hc => (hnew q hc).elim hnot (fun hn => hn hcached)
    exact ⟨hkeep q hnot hnot',hnot'⟩
  have hbcached : ∀ q, Holds m' s' b q → Cached s'.space q := by
    rintro q ⟨x,y,hx,hy,hle,hrem⟩
    obtain ⟨y',hy',hat⟩ := hb x hx
    cases hy.symm.trans hy'
    obtain ⟨a,ha⟩ := hat.cells
    have := ha _ hrem
    rw [Nat.add_sub_cancel' hle] at this
    exact ⟨_,this,_,rfl⟩
  refine ⟨hres ▸ h.below,hres ▸ h.whole,?_,?_,?_,?_,?_⟩
  · intro q i hq hi hr
    rw [hres] at hr
    have hr' : m.reserved (q+i) = true := (h.whole q i hq hi).trans hr
    rw [(hsame (q+i) (Or.inl hr')).1,htable]
    exact h.pages q i hq hi hr
  · intro b' x hx
    by_cases hne : b' = b
    · subst hne
      exact hb x hx
    · obtain ⟨e₁,e₂⟩ := hother b' hne
      rw [e₁] at hx
      obtain ⟨y,hy,hat⟩ := h.held b' x hx
      obtain ⟨a,ha⟩ := hat.cells
      refine ⟨y,e₂ ▸ hy,{ hat with cells := ⟨a,fun i hi => ?_⟩ }⟩
      rw [(hsame (y.addr+i) (Or.inr ⟨b',hne,x,y,hx,hy,Nat.le_add_right _ _,
        by rwa [Nat.add_sub_cancel_left]⟩)).1]
      exact ha i hi
  · intro q
    rw [hres]
    by_cases hq : m.reserved q = true ∨ ∃ b', b' ≠ b ∧ Holds m s b' q
    · refine iff_of_true ?_ ?_
      · rw [cached_congr (hsame q hq).1]
        rcases hq with hr | ⟨b',-,hb'⟩
        · exact h.reserved_cached hr
        · exact h.holds_cached hb'
      · exact hq.imp_right (fun ⟨b',hne,hb'⟩ => ⟨b',(hholds b' hne q).mpr hb'⟩)
    · have hno : ∀ b', Holds m' s' b' q → b' = b := by
        intro b' hb'
        by_contra hne
        exact hq (Or.inr ⟨b',hne,(hholds b' hne q).mp hb'⟩)
      have hr : m.reserved q ≠ true := fun hc => hq (Or.inl hc)
      constructor
      · intro hc
        by_contra hnone
        have hnb : ¬ Holds m' s' b q := fun hx => hnone (Or.inr ⟨b,hx⟩)
        by_cases hb : Holds m s b q
        · exact hgone q hb hnb hc
        · rw [cached_congr (hkeep q hb hnb)] at hc
          rcases (h.ledger q).mp hc with hc | ⟨b',hb'⟩
          · exact hr hc
          · by_cases hne : b' = b
            · exact hb (hne ▸ hb')
            · exact hq (Or.inr ⟨b',hne,hb'⟩)
      · rintro (hc | ⟨b',hb'⟩)
        · exact absurd hc hr
        · obtain rfl := hno b' hb'
          exact hbcached q hb'
  · intro b' q hq
    rw [hres,← Bool.not_eq_true]
    intro hr
    by_cases hne : b' = b
    · subst hne
      exact (hsame q (Or.inl hr)).2 hq
    · rw [h.apart b' q ((hholds b' hne q).mp hq)] at hr
      cases hr
  · have hone : ∀ b', b' ≠ b → ∀ q, Holds m' s' b' q → ¬ Holds m' s' b q :=
      fun b' hne q hq => (hsame q (Or.inr ⟨b',hne,(hholds b' hne q).mp hq⟩)).2
    intro b₁ b₂ q h₁ h₂
    by_cases hn₁ : b₁ = b
    · by_cases hn₂ : b₂ = b
      · exact hn₁.trans hn₂.symm
      · exact absurd (hn₁ ▸ h₁) (hone b₂ hn₂ q h₂)
    · by_cases hn₂ : b₂ = b
      · exact absurd (hn₂ ▸ h₂) (hone b₁ hn₁ q h₁)
      · exact h.single b₁ b₂ q ((hholds b₁ hn₁ q).mp h₁) ((hholds b₂ hn₂ q).mp h₂)

section Ranges
variable {addr size : ℕ} {f : ℕ → Option (Cell Owner)} {T : PageTable}

/-- Pages of a range are put in place. -/
theorem Sim.mapRange (h : Sim P m s) (hp : Pages P addr size) (hb : addr+size ≤ 2^64)
    (hfree : ∀ q, addr ≤ q ∧ q < addr+size → m.reserved q = true ∨ s.space q = none)
    (hheld : m'.held = m.held) (hscr : s'.scratch = s.scratch)
    (hsp : s'.space = onRange s.space addr size f)
    (hr : ∀ q, m'.reserved q = if addr ≤ q ∧ q < addr+size then true else m.reserved q)
    (ht : ∀ q, m'.table q = if addr ≤ q ∧ q < addr+size then T q else m.table q)
    (hf : ∀ q i, P ∣ q → i < P → addr ≤ q ∧ q < addr+size →
      ∃ a, f (q+i) = some ⟨protOf (T q),.cache a,bytesOf (T q) i⟩) :
    Sim P m' s' ∧ KeepsOthers Mine s.space s'.space := by
  have hP := Nat.pos_of_dvd_of_pos hp.whole hp.pos
  have hmem := fun q i => @page_within P addr size q i hp.start hp.whole
  constructor
  · refine h.pagesMove hheld hscr hP ?_ ?_ ?_ ?_ ?_ ?_
    · intro q hq
      rw [hr] at hq
      split_ifs at hq with hin
      · omega
      · exact h.below q hq
    · intro q i hq hi
      rw [hr,hr,h.whole q i hq hi]
      exact if_congr (hmem q i hq hi) rfl rfl
    · intro q i hq hi hres
      rw [hr] at hres
      rw [ht,hsp]
      by_cases hin : addr ≤ q ∧ q < addr+size
      · rw [if_pos hin,onRange_in ((hmem q i hq hi).mpr hin)]
        exact hf q i hq hi hin
      · rw [if_neg hin] at hres ⊢
        rw [onRange_out ((hmem q i hq hi).not.mpr hin)]
        exact h.pages q i hq hi hres
    · intro q hq
      rw [hr] at hq
      split_ifs at hq with hin
      · exact (hfree q hin).imp_right not_owned_none
      · exact Or.inl hq
    · intro q _ hq
      rw [hr] at hq
      split_ifs at hq with hin
      rw [hsp,onRange_out hin]
    · intro q hq hq'
      rw [hr] at hq'
      split_ifs at hq'
      rw [hq] at hq'
      cases hq'
  · rw [hsp]
    refine onRange_keeps ?_ ?_
    · intro q hin
      exact (hfree q hin).symm.imp_right h.reserved_cached
    · intro q hin
      have hdecomp : P*(q/P)+q%P = q := Nat.div_add_mod q P
      have hpage := (hmem _ _ (dvd_mul_right P (q/P)) (Nat.mod_lt q hP)).mp (hdecomp.symm ▸ hin)
      obtain ⟨a,ha⟩ := hf _ _ (dvd_mul_right P (q/P)) (Nat.mod_lt q hP) hpage
      rw [hdecomp] at ha
      exact Or.inr ⟨_,ha,_,rfl⟩

/-- Pages of a range are taken away. -/
theorem Sim.unmapRange (h : Sim P m s) (hp : Pages P addr size)
    (hres : ∀ q, addr ≤ q ∧ q < addr+size → m.reserved q = true)
    (hheld : m'.held = m.held) (hscr : s'.scratch = s.scratch)
    (hsp : s'.space = onRange s.space addr size (fun _ => none))
    (hr : ∀ q, m'.reserved q = if addr ≤ q ∧ q < addr+size then false else m.reserved q)
    (ht : ∀ q, ¬ (addr ≤ q ∧ q < addr+size) → m'.table q = m.table q) :
    Sim P m' s' ∧ KeepsOthers Mine s.space s'.space := by
  have hP := Nat.pos_of_dvd_of_pos hp.whole hp.pos
  have hmem := fun q i => @page_within P addr size q i hp.start hp.whole
  have hold : ∀ q, m'.reserved q = true → ¬ (addr ≤ q ∧ q < addr+size) ∧ m.reserved q = true := by
    intro q hq
    rw [hr] at hq
    split_ifs at hq with hin
    exact ⟨hin,hq⟩
  constructor
  · refine h.pagesMove hheld hscr hP ?_ ?_ ?_ ?_ ?_ ?_
    · exact fun q hq => h.below q (hold q hq).2
    · intro q i hq hi
      rw [hr,hr,h.whole q i hq hi]
      exact if_congr (hmem q i hq hi) rfl rfl
    · intro q i hq hi hres'
      obtain ⟨hin,hold⟩ := hold q hres'
      rw [ht q hin,hsp,onRange_out ((hmem q i hq hi).not.mpr hin)]
      exact h.pages q i hq hi hold
    · exact fun q hq => Or.inl (hold q hq).2
    · intro q hq _
      rw [hsp,onRange_out (fun hin => by rw [hres q hin] at hq; cases hq)]
    · intro q hq hq'
      refine not_owned_none ?_
      rw [hr] at hq'
      split_ifs at hq' with hin
      · rw [hsp,onRange_in hin]
      · rw [hq] at hq'
        cases hq'
  · rw [hsp]
    exact onRange_keeps (fun q hin => Or.inr (h.reserved_cached (hres q hin))) (fun _ _ => Or.inl rfl)

end Ranges

section Buffers
variable {h₀ h₁ : Held} {x : ScratchAddr} {sp : Space Owner}

theorem remains_unused (hu : h₀.used = []) {i : ℕ} : Remains h₀ i ↔ i < h₀.size :=
  and_iff_left (by rw [hu]; exact fun _ hr => absurd hr List.not_mem_nil)

theorem holds_unused (hb : m.held b = some h₀) (hx : s.scratch b = some x) (hu : h₀.used = []) {q : ℕ} :
    Holds m s b q ↔ x.addr ≤ q ∧ q < x.addr+h₀.size := by
  constructor
  · rintro ⟨y,z,hy,hz,hle,hrem⟩
    cases hb.symm.trans hy
    cases hx.symm.trans hz
    have := (remains_unused hu).mp hrem
    omega
  · rintro ⟨hle,hlt⟩
    exact ⟨h₀,x,hb,hx,hle,(remains_unused hu).mpr (by omega)⟩

/-- The bytes or the protection of a whole buffer change. -/
theorem Sim.rewriteBuffer (h : Sim P m s) (hb : m.held b = some h₀) (hx : s.scratch b = some x)
    (hu : h₀.used = []) (hu' : h₁.used = []) (hsize : h₁.size = h₀.size)
    (hout : ∀ q, ¬ (x.addr ≤ q ∧ q < x.addr+h₀.size) → sp q = s.space q)
    (hin : ∃ a, ∀ i < h₀.size, sp (x.addr+i) = some ⟨heldProt h₁,.cache a,h₁.bytes i⟩) :
    Sim P (m.hold b (some h₁)) { s with space := sp } ∧ KeepsOthers Mine s.space sp := by
  obtain ⟨y,hy,hat⟩ := h.held b h₀ hb
  cases hx.symm.trans hy
  obtain ⟨a,ha⟩ := hin
  have hholds : ∀ q, Holds (m.hold b (some h₁)) { s with space := sp } b q ↔ Holds m s b q := by
    intro q
    rw [holds_unused (s := { s with space := sp }) (hold_self m b (some h₁)) hx hu',holds_unused hb hx hu,hsize]
  have hcached : ∀ q, Holds m s b q → Cached sp q := by
    intro q hq
    obtain ⟨h1,h2⟩ := (holds_unused hb hx hu).mp hq
    have := ha (q-x.addr) (by omega)
    rw [Nat.add_sub_cancel' h1] at this
    exact ⟨_,this,_,rfl⟩
  constructor
  · refine h.bufferMove b rfl rfl ?_ ?_ ?_ ?_ ?_
    · exact fun b' hne => ⟨hold_of_ne m _ hne,rfl⟩
    · intro z hz
      rw [hold_self] at hz
      cases hz
      refine ⟨x,hx,⟨hat.size.trans hsize.symm,hat.aligned,hsize ▸ hat.whole,hsize ▸ hat.pos,
        hsize ▸ hat.below,?_,?_,a,?_⟩⟩
      · rw [hu']
        exact fun _ hr => absurd hr List.not_mem_nil
      · rw [hu']
        exact List.Pairwise.nil
      · exact fun i hi => ha i (hsize ▸ hi.1)
    · exact fun q hq => Or.inl ((hholds q).mp hq)
    · exact fun q hq _ => hout q ((holds_unused hb hx hu).not.mp hq)
    · exact fun q hq hq' => absurd ((hholds q).mpr hq) hq'
  · constructor
    · intro q hq
      refine Or.inl (hout q (fun hc => hq ?_))
      exact h.holds_cached ((holds_unused hb hx hu).mpr hc)
    · intro q hq
      by_cases hc : x.addr ≤ q ∧ q < x.addr+h₀.size
      · exact Or.inl (hcached q ((holds_unused hb hx hu).mpr hc))
      · exact Or.inl ((cached_congr (hout q hc)).mpr hq)

/-- A buffer is used up when nothing of it remains. -/
theorem remains_use (hin : ∀ r ∈ h₀.used, r.off+r.len ≤ h₀.size)
    (hd : h₀.used.Pairwise (fun a b => Disjoint a.bytes b.bytes)) {r : Span} (hr : r.off+r.len ≤ h₀.size)
    (hrd : ∀ u ∈ h₀.used, Disjoint u.bytes r.bytes) {i : ℕ} :
    (∃ y, h₀.use r = some y ∧ Remains y i) ↔ Remains h₀ i ∧ i ∉ r.bytes := by
  have hsplit : (∀ u ∈ h₀.used ++ [r], i ∉ u.bytes) ↔ (∀ u ∈ h₀.used, i ∉ u.bytes) ∧ i ∉ r.bytes := by
    simp [or_imp,forall_and]
  rw [Held.use]
  split_ifs with htotal
  · refine iff_of_false (by rintro ⟨y,hy,-⟩; cases hy) ?_
    rintro ⟨⟨hlt,hno⟩,hnr⟩
    have hpair : (h₀.used ++ [r]).Pairwise (fun a b => Disjoint a.bytes b.bytes) := by
      rw [List.pairwise_append]
      refine ⟨hd,List.pairwise_singleton _ _,fun u hu v hv => ?_⟩
      rw [List.mem_singleton.mp hv]
      exact hrd u hu
    have hsub : covered (h₀.used ++ [r]) ⊆ Finset.range h₀.size := by
      intro y hy
      obtain ⟨u,hu,hyu⟩ := mem_covered.mp hy
      have hlast := (mem_bytes.mp hyu).2
      rw [Finset.mem_range]
      rcases List.mem_append.mp hu with hu | hu
      · exact hlast.trans_le (hin u hu)
      · rw [List.mem_singleton.mp hu] at hlast
        exact hlast.trans_le hr
    have hall := Finset.eq_of_subset_of_card_le hsub
      (by rw [Finset.card_range,covered_card hpair,htotal])
    have hmem : i ∈ covered (h₀.used ++ [r]) := by
      rw [hall,Finset.mem_range]
      exact hlt
    obtain ⟨u,hu,hiu⟩ := mem_covered.mp hmem
    exact hsplit.mpr ⟨hno,hnr⟩ u hu hiu
  · constructor
    · rintro ⟨y,hy,hlt,hno⟩
      cases hy
      obtain ⟨h1,h2⟩ := hsplit.mp hno
      exact ⟨⟨hlt,h1⟩,h2⟩
    · rintro ⟨⟨hlt,h1⟩,h2⟩
      exact ⟨_,rfl,hlt,hsplit.mpr ⟨h1,h2⟩⟩

/-- A piece of a buffer is unmapped. -/
theorem Sim.dropPiece (h : Sim P m s) (hb : m.held b = some h₀) (hx : s.scratch b = some x) {r : Span}
    (hr : r.off+r.len ≤ h₀.size) (hrd : ∀ u ∈ h₀.used, Disjoint u.bytes r.bytes)
    (hsp : sp = onRange s.space (x.addr+r.off) r.len (fun _ => none)) :
    Sim P (m.hold b (h₀.use r)) { s with space := sp } ∧ KeepsOthers Mine s.space sp := by
  obtain ⟨y,hy,hat⟩ := h.held b h₀ hb
  cases hx.symm.trans hy
  have huse := fun i => remains_use (i := i) hat.inside hat.disjoint hr hrd
  have hpiece : ∀ q, x.addr+r.off ≤ q ∧ q < x.addr+r.off+r.len ↔ x.addr ≤ q ∧ q-x.addr ∈ r.bytes := by
    intro q
    rw [mem_bytes]
    omega
  have hold : ∀ q, Holds m s b q ↔ x.addr ≤ q ∧ Remains h₀ (q-x.addr) := by
    intro q
    constructor
    · rintro ⟨y,z,hy,hz,hrest⟩
      cases hb.symm.trans hy
      cases hx.symm.trans hz
      exact hrest
    · rintro ⟨hle,hrem⟩
      exact ⟨h₀,x,hb,hx,hle,hrem⟩
  have hnew : ∀ q, Holds (m.hold b (h₀.use r)) { s with space := sp } b q ↔
      Holds m s b q ∧ ¬ (x.addr+r.off ≤ q ∧ q < x.addr+r.off+r.len) := by
    intro q
    rw [hold,hpiece]
    constructor
    · rintro ⟨y,z,hy,hz,hle,hrem⟩
      rw [hold_self] at hy
      cases hx.symm.trans hz
      obtain ⟨h1,h2⟩ := (huse _).mp ⟨y,hy,hrem⟩
      exact ⟨⟨hle,h1⟩,fun hc => h2 hc.2⟩
    · rintro ⟨⟨hle,hrem⟩,hno⟩
      obtain ⟨y,hy,hyrem⟩ := (huse _).mpr ⟨hrem,fun hc => hno ⟨hle,hc⟩⟩
      exact ⟨y,x,(hold_self m b _).trans hy,hx,hle,hyrem⟩
  have hremains : ∀ q, x.addr+r.off ≤ q ∧ q < x.addr+r.off+r.len → Holds m s b q := by
    intro q hq
    obtain ⟨hle,hin⟩ := (hpiece q).mp hq
    refine (hold q).mpr ⟨hle,?_,?_⟩
    · have := (mem_bytes.mp hin).2
      omega
    · exact fun u hu hc => Finset.disjoint_left.mp (hrd u hu) hc hin
  constructor
  · refine h.bufferMove b rfl rfl ?_ ?_ ?_ ?_ ?_
    · exact fun b' hne => ⟨hold_of_ne m _ hne,rfl⟩
    · intro z hz
      rw [hold_self] at hz
      have hz' : z = { h₀ with used := h₀.used ++ [r] } := by
        rw [Held.use] at hz
        split_ifs at hz
        exact (Option.some.inj hz).symm
      have hzr : ∀ i, Remains z i → Remains h₀ i ∧ i ∉ r.bytes := fun i hi => (huse i).mp ⟨z,hz,hi⟩
      subst hz'
      obtain ⟨a,ha⟩ := hat.cells
      refine ⟨x,hx,⟨hat.size,hat.aligned,hat.whole,hat.pos,hat.below,?_,?_,a,?_⟩⟩
      · intro u hu
        rcases List.mem_append.mp hu with hu | hu
        · exact hat.inside u hu
        · rw [List.mem_singleton.mp hu]
          exact hr
      · rw [List.pairwise_append]
        refine ⟨hat.disjoint,List.pairwise_singleton _ _,fun u hu v hv => ?_⟩
        rw [List.mem_singleton.mp hv]
        exact hrd u hu
      · intro i hi
        obtain ⟨h1,h2⟩ := hzr i hi
        have hout : ¬ (x.addr+r.off ≤ x.addr+i ∧ x.addr+i < x.addr+r.off+r.len) := by
          rw [hpiece,Nat.add_sub_cancel_left]
          exact fun hc => h2 hc.2
        change sp (x.addr+i) = _
        rw [hsp,onRange_out hout]
        exact ha i h1
    · exact fun q hq => Or.inl ((hnew q).mp hq).1
    · intro q hq _
      change sp q = _
      rw [hsp,onRange_out (fun hc => hq (hremains q hc))]
    · intro q hq hq'
      refine not_owned_none ?_
      change sp q = _
      rw [hsp,onRange_in (by by_contra hc; exact hq' ((hnew q).mpr ⟨hq,hc⟩))]
  · rw [hsp]
    exact onRange_keeps (fun q hq => Or.inr (h.holds_cached (hremains q hq))) (fun _ _ => Or.inl rfl)

end Buffers

section Progress
variable {pick addr size : ℕ}

/-- The system calls of this call succeed, and what they leave is as it should be. -/
def Served (P pick : ℕ) (m : Memory) (s : Posix) (c : VmCall) : Prop :=
  ∃ s', posixCall P pick s c = some s' ∧ Sim P (call m c) s' ∧ KeepsOthers Mine s.space s'.space

theorem Pages.page_pos (hp : Pages P addr size) : 0 < P := Nat.pos_of_dvd_of_pos hp.whole hp.pos

theorem Pages.rounded (hp : Pages P addr size) : wholePages P size = size :=
  wholePages_aligned (Pages.page_pos hp) hp.whole

/-- A range of reserved pages is below the end of the address space. -/
theorem Sim.range_below (h : Sim P m s) (hp : Pages P addr size)
    (hr : ∀ q, addr ≤ q ∧ q < addr+size → m.reserved q = true) : addr+size ≤ 2^64 := by
  have hpos := hp.pos
  have := h.below (addr+size-1) (hr _ (by omega))
  omega

theorem Sim.page_cell (h : Sim P m s) (hP : 0 < P) {q : ℕ} (hr : m.reserved q = true) :
    ∃ a, s.space q = some ⟨protOf (m.table (P*(q/P))),.cache a,bytesOf (m.table (P*(q/P))) (q%P)⟩ := by
  have hd : P ∣ P*(q/P) := dvd_mul_right _ _
  have hlt := Nat.mod_lt q hP
  rw [← Nat.div_add_mod q P,h.whole _ _ hd hlt] at hr
  obtain ⟨a,ha⟩ := h.pages _ _ hd hlt hr
  rw [Nat.div_add_mod] at ha
  exact ⟨a,ha⟩

theorem reserve_served (h : Sim P m s) (ha : Allowed P m (.reserve addr size))
    (hv : Vacant P s.space addr size) : Served P pick m s (.reserve addr size) := by
  obtain ⟨hp,hb,-⟩ := ha
  have hround := Pages.rounded hp
  have hcall : posixCall P pick s (.reserve addr size) = some { s with
      space := onRange s.space addr size (fun _ => some ⟨.none,.cache s.areas,0⟩)
      areas := s.areas+1 } := by
    rw [posixCall,vmReserve,mmap,hround,if_pos ⟨hp.start,hp.pos,hb.le⟩]
    rfl
  refine ⟨_,hcall,h.mapRange (T := fun _ => .inaccessible) hp hb.le ?_ rfl rfl rfl (fun _ => rfl) (fun _ => rfl) ?_⟩
  · exact fun q hq => Or.inr (hv.unmapped q (hround.symm ▸ hq))
  · exact fun q i _ _ _ => ⟨_,rfl⟩

theorem release_served (h : Sim P m s) (ha : Allowed P m (.release addr size)) :
    Served P pick m s (.release addr size) := by
  obtain ⟨hp,hr⟩ := ha
  have hcall : posixCall P pick s (.release addr size) = some { s with
      space := onRange s.space addr size (fun _ => none) } := by
    rw [posixCall,vmRelease,munmap,Pages.rounded hp,if_pos ⟨hp.start,hp.pos,h.range_below hp hr⟩]
    rfl
  exact ⟨_,hcall,h.unmapRange hp hr rfl rfl rfl (fun _ => rfl) (fun q hq => if_neg hq)⟩

theorem setReadable_served (h : Sim P m s) {readable : Bool}
    (ha : Allowed P m (.setReadable addr size readable)) :
    Served P pick m s (.setReadable addr size readable) := by
  obtain ⟨hp,hr⟩ := ha
  have hP := Pages.page_pos hp
  have hres : ∀ q, addr ≤ q ∧ q < addr+size → m.reserved q = true := fun q hq => (hr q hq).1
  have hmapped : ∀ i < size, (s.space (addr+i)).isSome = true := by
    intro i hi
    obtain ⟨a,ha⟩ := h.page_cell hP (hres (addr+i) ⟨Nat.le_add_right _ _,by omega⟩)
    rw [ha]
    rfl
  have hcall : posixCall P pick s (.setReadable addr size readable) = some { s with
      space := onRange s.space addr size (fun q => (s.space q).map (fun c =>
        { c with prot := if readable then .read else .none })) } := by
    rw [posixCall,vmSetReadable,mprotect,Pages.rounded hp,if_pos ⟨hp.start,hmapped⟩]
    rfl
  have hprot : ∀ t : PageState, protOf (t.setReadable readable) = if readable then .read else .none := by
    intro t
    cases t <;> cases readable <;> rfl
  have hbytes : ∀ t : PageState, bytesOf (t.setReadable readable) = bytesOf t := by
    intro t
    cases t <;> cases readable <;> rfl
  refine ⟨_,hcall,h.mapRange (T := fun q => (m.table q).setReadable readable) hp (h.range_below hp hres)
    (fun q hq => Or.inl (hres q hq)) rfl rfl rfl ?_ (fun _ => rfl) ?_⟩
  · intro q
    split_ifs with hin
    · exact hres q hin
    · rfl
  · intro q i hq hi hin
    obtain ⟨a,ha⟩ := h.pages q i hq hi (hres q hin)
    refine ⟨a,?_⟩
    simp only [ha,Option.map_some,hprot,hbytes]

theorem decommit_served (h : Sim P m s) (ha : Allowed P m (.decommit addr size)) :
    Served P pick m s (.decommit addr size) := by
  obtain ⟨hp,hr⟩ := ha
  have hres : ∀ q, addr ≤ q ∧ q < addr+size → m.reserved q = true := fun q hq => (hr q hq).1
  have hcall : posixCall P pick s (.decommit addr size) = some { s with
      space := onRange s.space addr size (fun _ => some ⟨.none,.cache s.areas,0⟩)
      areas := s.areas+1 } := by
    rw [posixCall,vmDecommit,mmap,Pages.rounded hp,if_pos ⟨hp.start,hp.pos,h.range_below hp hres⟩]
    rfl
  refine ⟨_,hcall,h.mapRange (T := fun _ => .inaccessible) hp (h.range_below hp hres)
    (fun q hq => Or.inl (hres q hq)) rfl rfl rfl ?_ (fun _ => rfl) ?_⟩
  · intro q
    split_ifs with hin
    · exact hres q hin
    · rfl
  · exact fun q i _ _ _ => ⟨_,rfl⟩

theorem create_served (h : Sim P m s) (ha : Allowed P m (.create b size))
    (hv : Vacant P s.space pick size) : Served P pick m s (.create b size) := by
  obtain ⟨hp,hnone⟩ := ha
  have hround := Pages.rounded hp
  obtain ⟨haligned,hbelow,hunmapped⟩ := hv
  rw [hround] at hbelow hunmapped
  let f : ℕ → Option (Cell Owner) := fun _ => some ⟨.readWrite,.cache s.areas,0⟩
  let s' : Posix := ⟨onRange s.space pick size f,s.areas+1,
    Function.update s.scratch b (some ⟨pick,size⟩)⟩
  have hcall : posixCall P pick s (.create b size) = some s' := by
    rw [posixCall,vmScratchCreate,mmap,hround,if_pos ⟨haligned,hp.pos,hbelow⟩]
    rfl
  have hx : s'.scratch b = some ⟨pick,size⟩ := Function.update_self _ _ _
  have hholds : ∀ q, Holds (call m (.create b size)) s' b q ↔ pick ≤ q ∧ q < pick+size :=
    fun q => holds_unused (hold_self m b _) hx rfl
  have hfree : ∀ q, ¬ Holds m s b q := by
    rintro q ⟨y,z,hy,-⟩
    rw [hnone] at hy
    cases hy
  refine ⟨s',hcall,?_,?_⟩
  · refine h.bufferMove b rfl rfl ?_ ?_ ?_ ?_ ?_
    · exact fun b' hne => ⟨hold_of_ne m _ hne,Function.update_of_ne hne _ _⟩
    · intro y hy
      rw [call,hold_self] at hy
      cases hy
      refine ⟨_,hx,⟨rfl,haligned,hp.whole,hp.pos,hbelow,fun _ hr => absurd hr List.not_mem_nil,
        List.Pairwise.nil,s.areas,?_⟩⟩
      intro i hi
      have hlt : i < size := hi.1
      change onRange s.space pick size f (pick+i) = _
      exact onRange_in ⟨Nat.le_add_right _ _,Nat.add_lt_add_left hlt _⟩
    · exact fun q hq => Or.inr (not_owned_none (hunmapped q ((hholds q).mp hq)))
    · intro q _ hq
      change onRange s.space pick size f q = _
      exact onRange_out ((hholds q).not.mp hq)
    · exact fun q hq => absurd hq (hfree q)
  · exact onRange_keeps (fun q hq => Or.inl (hunmapped q hq)) (fun _ _ => Or.inr ⟨_,rfl,_,rfl⟩)

section Stores
variable {h₀ h₁ : Held} {x y : ScratchAddr} {off srcOff len : ℕ}

/-- A store into a buffer that has not been sealed. -/
theorem store_served (srcOff : ℕ) (h : Sim P m s) {bytes : ℕ → UInt8} (hb : m.held b = some h₀) (hs : h₀.sealed = false)
    (hu : h₀.used = []) (hx : s.scratch b = some x) (hlen : off+len ≤ h₀.size)
    (he : h₁ = { h₀ with bytes := memcpy h₀.bytes off bytes srcOff len }) {g : ℕ → UInt8}
    (hg : ∀ i < len, g i = bytes (srcOff+i)) :
    ∃ sp, store s.space (x.addr+off) g len = some sp ∧
      Sim P (m.hold b (some h₁)) { s with space := sp } ∧ KeepsOthers Mine s.space sp := by
  obtain ⟨z,hz,hat⟩ := h.held b h₀ hb
  cases hx.symm.trans hz
  obtain ⟨a,ha⟩ := hat.cells
  have hprot : heldProt h₀ = .readWrite := by
    rw [heldProt,hs]
    rfl
  have hcell : ∀ i < h₀.size, s.space (x.addr+i) = some ⟨.readWrite,.cache a,h₀.bytes i⟩ := by
    intro i hi
    rw [← hprot]
    exact ha i ((remains_unused hu).mpr hi)
  have hstore : store s.space (x.addr+off) g len = some (onRange s.space (x.addr+off) len
      (fun q => (s.space q).map (fun c => { c with byte := g (q-(x.addr+off)) }))) := by
    refine if_pos (fun i hi => ?_)
    rw [Nat.add_assoc,hcell _ (by omega)]
    rfl
  refine ⟨_,hstore,h.rewriteBuffer hb hx hu (he ▸ hu) (he ▸ rfl) ?_ ⟨a,fun i hi => ?_⟩⟩
  · intro q hq
    exact onRange_out (by omega)
  · have hprot₁ : heldProt h₁ = .readWrite := by
      rw [he]
      exact hprot
    rw [hprot₁,he]
    simp only [memcpy]
    by_cases hin : off ≤ i ∧ i < off+len
    · rw [onRange_in (by omega),hcell i hi,if_pos hin]
      have hidx : x.addr+i-(x.addr+off) = i-off := by omega
      simp only [Option.map_some,hidx]
      rw [hg _ (by omega)]
    · rw [onRange_out (by omega),hcell i hi,if_neg hin]

theorem write_served (h : Sim P m s) {bytes : ℕ → UInt8} (ha : Allowed P m (.write b off bytes len)) :
    Served P pick m s (.write b off bytes len) := by
  obtain ⟨h₀,hb,hs,hu,hlen⟩ := ha
  obtain ⟨x,hx,-⟩ := h.held b h₀ hb
  obtain ⟨sp,hstore,hsim,hkeep⟩ := store_served 0 h hb hs hu hx hlen rfl
    (fun i _ => congrArg bytes (Nat.zero_add i).symm)
  refine ⟨{ s with space := sp },?_,?_,hkeep⟩
  · rw [posixCall,hx,Option.bind_some,hstore]
    rfl
  · rw [call,hb]
    exact hsim

theorem copy_served (h : Sim P m s) {dst src : Buffer} {dstOff : ℕ}
    (ha : Allowed P m (.copy dst dstOff src srcOff len)) :
    Served P pick m s (.copy dst dstOff src srcOff len) := by
  obtain ⟨-,⟨h₀,hb,hs,hu,hlen⟩,⟨h₂,hb₂,hu₂,hlen₂⟩⟩ := ha
  obtain ⟨x,hx,-⟩ := h.held dst h₀ hb
  obtain ⟨y,hy,hat⟩ := h.held src h₂ hb₂
  obtain ⟨a,ha⟩ := hat.cells
  have hload : ∀ i < len, load s.space (y.addr+srcOff+i) = some (h₂.bytes (srcOff+i)) := by
    intro i hi
    rw [load,Nat.add_assoc,ha (srcOff+i) ((remains_unused hu₂).mpr (by omega))]
    simp only [Option.bind_some,heldProt]
    cases h₂.sealed <;> rfl
  obtain ⟨sp,hstore,hsim,hkeep⟩ := store_served (g := fun i => (load s.space (y.addr+srcOff+i)).getD 0)
    srcOff h hb hs hu hx hlen rfl (fun i hi => by rw [hload i hi]; rfl)
  refine ⟨{ s with space := sp },?_,?_,hkeep⟩
  · rw [posixCall,hx,Option.bind_some,hy,Option.bind_some,copy,if_pos (fun i hi => by rw [hload i hi]; rfl),
      hstore]
    rfl
  · rw [call,hb,hb₂]
    exact hsim

theorem seal_served (h : Sim P m s) (ha : Allowed P m (.seal b)) : Served P pick m s (.seal b) := by
  obtain ⟨h₀,hb,hs,hu⟩ := ha
  obtain ⟨x,hx,hat⟩ := h.held b h₀ hb
  obtain ⟨a,ha⟩ := hat.cells
  have hP := Nat.pos_of_dvd_of_pos hat.whole hat.pos
  have hcell : ∀ i < h₀.size, s.space (x.addr+i) = some ⟨heldProt h₀,.cache a,h₀.bytes i⟩ :=
    fun i hi => ha i ((remains_unused hu).mpr hi)
  have hseal : vmScratchSeal P s.space x = some (onRange s.space x.addr h₀.size
      (fun q => (s.space q).map (fun c => { c with prot := .read }))) := by
    rw [vmScratchSeal,hat.size,mprotect,wholePages_aligned hP hat.whole]
    refine if_pos ⟨hat.aligned,fun i hi => ?_⟩
    rw [hcell i hi]
    rfl
  set sp := onRange s.space x.addr h₀.size (fun q => (s.space q).map (fun c => { c with prot := .read })) with hsp
  have hin : ∀ i < h₀.size, sp (x.addr+i) = some ⟨.read,.cache a,h₀.bytes i⟩ := by
    intro i hi
    rw [hsp,onRange_in ⟨Nat.le_add_right _ _,Nat.add_lt_add_left hi _⟩,hcell i hi]
    rfl
  obtain ⟨hsim,hkeep⟩ : Sim P (m.hold b (some { h₀ with sealed := true })) { s with space := sp } ∧
      KeepsOthers Mine s.space sp :=
    h.rewriteBuffer hb hx hu hu rfl (fun q hq => onRange_out hq) ⟨a,hin⟩
  refine ⟨{ s with space := sp },?_,?_,hkeep⟩
  · rw [posixCall,hx,Option.bind_some,hseal]
    rfl
  · rw [call,hb]
    exact hsim

theorem discard_served (h : Sim P m s) (ha : Allowed P m (.consume b (.discard off len))) :
    Served P pick m s (.consume b (.discard off len)) := by
  obtain ⟨h₀,hb,hp,hle,hd,-⟩ := ha
  obtain ⟨x,hx,hat⟩ := h.held b h₀ hb
  have hpages : Pages P off len := hp
  have hin : off+len ≤ h₀.size := hle
  have hbelow := hat.below
  obtain ⟨hsim,hkeep⟩ := h.dropPiece (r := ⟨off,len⟩) hb hx hle hd rfl
  refine ⟨{ s with space := onRange s.space (x.addr+off) len (fun _ => none) },?_,?_,hkeep⟩
  · rw [posixCall,hx,Option.bind_some,vmScratchDiscard,munmap,Pages.rounded hpages,
      if_pos ⟨(Nat.dvd_add_right hat.aligned).mpr hpages.start,hpages.pos,by omega⟩]
    rfl
  · rw [call,hb]
    exact hsim

/-- The pages of a buffer move to their place in one system call. -/
theorem publish_served (h : Sim P m s) {target : ℕ} (ha : Allowed P m (.consume b (.publish off len target))) :
    Served P pick m s (.consume b (.publish off len target)) := by
  obtain ⟨h₀,hb,hp,hle,hd,hsealed,htarget,hr⟩ := ha
  obtain ⟨x,hx,hat⟩ := h.held b h₀ hb
  have hpages : Pages P off len := hp
  have hin : off+len ≤ h₀.size := hle
  have hP := Pages.page_pos hpages
  have htpages : Pages P target len := ⟨htarget,hpages.whole,hpages.pos⟩
  have hres : ∀ q, target ≤ q ∧ q < target+len → m.reserved q = true := fun q hq => (hr q hq).1
  have hbelow := h.range_below htpages hres
  obtain ⟨a,ha⟩ := hat.cells
  have hprot : heldProt h₀ = .read := by
    rw [heldProt,hsealed]
    rfl
  have hremains : ∀ i < len, Remains h₀ (off+i) := by
    intro i hi
    refine ⟨by omega,fun u hu hc => Finset.disjoint_left.mp (hd u hu) hc ?_⟩
    exact mem_bytes.mpr ⟨Nat.le_add_right _ _,Nat.add_lt_add_left hi _⟩
  have hcell : ∀ i < len, s.space (x.addr+off+i) = some ⟨.read,.cache a,h₀.bytes (off+i)⟩ := by
    intro i hi
    rw [Nat.add_assoc,ha _ (hremains i hi),hprot]
  have hapart : x.addr+off+len ≤ target ∨ target+len ≤ x.addr+off := by
    by_contra hc
    have hq : ∃ q, x.addr+off ≤ q ∧ q < x.addr+off+len ∧ target ≤ q ∧ q < target+len :=
      ⟨max (x.addr+off) target,by omega,by omega,by omega,by omega⟩
    obtain ⟨q,h1,h2,h3,h4⟩ := hq
    have hholds : Holds m s b q := by
      refine ⟨h₀,x,hb,hx,by omega,?_⟩
      have := hremains (q-(x.addr+off)) (by omega)
      rwa [show off+(q-(x.addr+off)) = q-x.addr by omega] at this
    have := h.apart b q hholds
    rw [hres q ⟨h3,h4⟩] at this
    cases this
  have hone : OneMapping s.space (x.addr+off) len := by
    intro i hi
    have hfirst := hcell 0 hpages.pos
    rw [Nat.add_zero] at hfirst
    rw [hcell i hi,hfirst]
    exact ⟨rfl,rfl⟩
  obtain ⟨hsim,hkeep⟩ := h.dropPiece (r := ⟨off,len⟩) hb hx hle hd rfl
  let moved : ℕ → Option (Cell Owner) := fun q => s.space (x.addr+off+(q-target))
  let s' : Posix := { s with
    space := onRange (onRange s.space (x.addr+off) len (fun _ => none)) target len moved }
  have hcall : posixCall P pick s (.consume b (.publish off len target)) = some s' := by
    rw [posixCall,hx,Option.bind_some,vmScratchPublish,mremap,Pages.rounded hpages]
    rw [if_pos ⟨(Nat.dvd_add_right hat.aligned).mpr hpages.start,htarget,hpages.pos,hbelow,hapart,hone⟩]
    rfl
  have hleft : call m (.consume b (.publish off len target)) =
      { m with table := VmPages.vmScratchPublish m.table ⟨h₀.size,h₀.bytes⟩ off len target }.hold b
        (h₀.use ⟨off,len⟩) := by
    rw [call,hb]
    rfl
  rw [Served,hleft]
  set m' : Memory := { m with table := VmPages.vmScratchPublish m.table ⟨h₀.size,h₀.bytes⟩ off len target }.hold b
    (h₀.use ⟨off,len⟩) with hm'
  obtain ⟨hsim',hkeep'⟩ : Sim P m' s' ∧ KeepsOthers Mine _ s'.space := hsim.mapRange (f := moved)
    (T := fun q => .readable (fun i => h₀.bytes (off+(q-target)+i))) htpages hbelow
    (fun q hq => Or.inl (hres q hq)) rfl rfl rfl
    (by
      intro q
      split_ifs with hq
      · exact hres q hq
      · rfl)
    (fun _ => rfl)
    (by
      intro q i hq hi hin'
      have hqi := (page_within htarget hpages.whole hq hi).mpr hin'
      have hidx : x.addr+off+(q+i-target) = x.addr+off+(q-target+i) := by omega
      refine ⟨a,?_⟩
      simp only [moved,hidx]
      rw [hcell _ (by omega)]
      simp only [protOf,bytesOf,Nat.add_assoc])
  exact ⟨s',hcall,hsim',hkeep.trans hkeep'⟩

end Stores

/-- No assertion of the back end fails on a call that is allowed. -/
theorem call_served {c : VmCall} (h : Sim P m s) (ha : Allowed P m c) (hp : Picks P pick s c) :
    Served P pick m s c := by
  match c, ha, hp with
  | .reserve _ _, ha, hp => exact reserve_served h ha hp
  | .release _ _, ha, _ => exact release_served h ha
  | .setReadable _ _ _, ha, _ => exact setReadable_served h ha
  | .decommit _ _, ha, _ => exact decommit_served h ha
  | .create _ _, ha, hp => exact create_served h ha hp
  | .write _ _ _ _, ha, _ => exact write_served h ha
  | .copy _ _ _ _ _, ha, _ => exact copy_served h ha
  | .seal _, ha, _ => exact seal_served h ha
  | .consume _ (.publish _ _ _), ha, _ => exact publish_served h ha
  | .consume _ (.discard _ _), ha, _ => exact discard_served h ha

/-- The others leave alone what the cache has. -/
theorem Sim.others {sp : Space Owner} (h : Sim P m s) (ho : OthersMove Mine s.space sp) :
    Sim P m { s with space := sp } := by
  have hsame : ∀ q, Cached s.space q → sp q = s.space q := fun q hq => ho q (Or.inl hq)
  have hcached : ∀ q, Cached sp q ↔ Cached s.space q := by
    intro q
    constructor
    · intro hq
      exact (cached_congr (ho q (Or.inr hq))).mp hq
    · intro hq
      exact (cached_congr (hsame q hq)).mpr hq
  refine ⟨h.below,h.whole,?_,?_,?_,h.apart,h.single⟩
  · intro q i hq hi hr
    have hr' : m.reserved (q+i) = true := (h.whole q i hq hi).trans hr
    change ∃ a, sp (q+i) = _
    rw [hsame _ (h.reserved_cached hr')]
    exact h.pages q i hq hi hr
  · intro b x hb
    obtain ⟨y,hy,hat⟩ := h.held b x hb
    obtain ⟨a,ha⟩ := hat.cells
    refine ⟨y,hy,{ hat with cells := ⟨a,fun i hi => ?_⟩ }⟩
    change sp (y.addr+i) = _
    rw [hsame _ (h.holds_cached ⟨x,y,hb,hy,Nat.le_add_right _ _,by rwa [Nat.add_sub_cancel_left]⟩)]
    exact ha i hi
  · exact fun q => (hcached q).trans (h.ledger q)

theorem exec_sim {s₀ : Posix} {cs : List VmCall} (h₀ : Sim P m s₀)
    (ha : AllAllowed P m cs) (hx : Exec P s₀ cs s) : Sim P (calls m cs) s := by
  induction hx with
  | start => exact h₀
  | others _ ho ih => exact (ih ha).others ho
  | @call cs s s' c pick _ hp hc ih =>
    obtain ⟨hal,hlast⟩ := allowed_append.mp ha
    obtain ⟨s₂,hs₂,hsim,-⟩ := call_served (ih hal) hlast.1 hp
    cases hc.symm.trans hs₂
    rw [calls_append]
    exact hsim

end Progress

end FaultCache.VmPosix
