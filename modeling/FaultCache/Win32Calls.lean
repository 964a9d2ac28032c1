import FaultCache.Win32Effects

/-!
# No assertion of the Windows back end fails

One lemma for each call of the seam: if the contract allows it and it keeps to
the plan, the calls it makes to the kernel succeed and what they leave is what
the contract says. Runs of calls follow, with anything that the others do in
between.
-/

set_option autoImplicit false

namespace FaultCache.VmWin32
open FaultCache.VmPages FaultCache.PoolMachine FaultCache.RangeTiling FaultCache.ScratchContract
open FaultCache.VmContract FaultCache.Placeholders
open FaultCache.AddressSpace (Prot OwnedBy KeepsOthers OthersMove load)
open FaultCache.VmPosix (protOf bytesOf heldProt)

variable {P : ℕ} {U : Plan} {m m' : Memory} {k k' : Kernel Owner} {w w' : Win32} {a : Alloc Owner}
  {b : Buffer} {h : Held} {x : Scratch} {p q : ℕ}

def Served (P pick : ℕ) (U : Plan) (m : Memory) (w : Win32) (c : VmCall) : Prop :=
  ∃ w', win32Call P pick w c = some w' ∧ Sim P U (call m c) w' ∧
    KeepsOthers Mine w.kernel.space.alloc w'.kernel.space.alloc

section Progress
variable {pick base addr size off len : ℕ}

theorem reserve_served (h₀ : Sim P U m w) (ha : Allowed P m (.reserve base size))
    (hk : Keeps U (.reserve base size)) (hv : Vacant P w.kernel base size) :
    Served P pick U m w (.reserve base size) := by
  obtain ⟨hp,hb,hfree⟩ := ha
  have hvac : ∀ i < size, w.kernel.space.alloc (base+i) = none := fun i hi =>
    hv.unmapped _ ⟨Nat.le_add_right _ _,by omega⟩
  set a : Alloc Owner := ⟨base,size,.placeholder,.cache⟩ with ha
  have hcall : win32Call P pick w (.reserve base size) = some { w with
      kernel := { w.kernel with space := w.kernel.space.place a hvac } } := by
    rw [win32Call,vmReserve,virtualAlloc2,dif_pos ⟨hp.pos,hvac⟩]
    rfl
  have hres : ∀ q, (call m (.reserve base size)).reserved q = if a.Has q then true else m.reserved q :=
    fun _ => rfl
  refine ⟨_,hcall,h₀.regionMove rfl rfl (h₀.mapped.reserve hp hb.le hk) ?_ ?_ ?_ ?_,place_keeps hvac rfl⟩
  · intro q hq
    rw [hres] at hq
    split_ifs at hq with hin
    · exact Or.inr (AddressSpace.not_owned_none (hv.unmapped q hin))
    · exact Or.inl hq
  · intro q _ hq
    rw [hres] at hq
    split_ifs at hq with hin
    exact if_neg hin
  · intro q hq hq'
    rw [hres,hq,ite_self] at hq'
    cases hq'
  · intro q c v hq hc hkind
    rw [hres] at hq
    change (if a.Has q then some a else w.kernel.space.alloc q) = some c at hc
    split_ifs at hq hc with hin
    · cases hc
      cases hkind
    · exact Or.inl ⟨q,c,v,hq,hc,hkind,rfl⟩

theorem release_served (h₀ : Sim P U m w) (ha : Allowed P m (.release base size))
    (hk : Keeps U (.release base size)) : Served P pick U m w (.release base size) := by
  obtain ⟨hp,hr⟩ := ha
  obtain ⟨sp,hloop,hsp,hkeep⟩ := releaseLoop_clears (k := w.kernel) size (base+size) le_rfl (by
    intro q h1 h2
    obtain ⟨a,ha,hf⟩ := h₀.mapped.piece q (hr q ⟨h1,h2⟩)
    obtain ⟨b,n,harea,h3,h4⟩ := hf.area
    obtain ⟨h5,h6⟩ := w.kernel.space.within ha
    obtain ⟨rfl,rfl⟩ := U.areas_apart harea hk ⟨by omega,by omega⟩
    refine ⟨a,ha,hf.owner,fun hother => ?_,h3,h4⟩
    have := hf.kind
    rw [hother] at this
    exact this)
  have hcall : win32Call P pick w (.release base size) =
      some { w with kernel := { w.kernel with space := sp } } := by
    rw [win32Call,vmRelease,hloop]
    rfl
  have hres : ∀ q, (call m (.release base size)).reserved q =
      if base ≤ q ∧ q < base+size then false else m.reserved q := fun _ => rfl
  refine ⟨_,hcall,h₀.regionMove rfl rfl (h₀.mapped.clear hp hk hsp) ?_ ?_ ?_ ?_,hkeep⟩
  · intro q hq
    rw [hres] at hq
    split_ifs at hq
    exact Or.inl hq
  · intro q hq _
    rw [hsp,if_neg]
    intro hin
    rw [hr q hin] at hq
    cases hq
  · intro q hq hq'
    rw [hres] at hq'
    split_ifs at hq' with hin
    · exact (hsp q).trans (if_pos hin)
    · rw [hq] at hq'
      cases hq'
  · intro q c v hq hc hkind
    rw [hres] at hq
    split_ifs at hq with hin
    rw [hsp,if_neg hin] at hc
    exact Or.inl ⟨q,c,v,hq,hc,hkind,rfl⟩

/-- What a page of a piece shows. -/
theorem Mapped.shows (h₀ : Mapped P U m k) (ha : k.space.alloc p = some a) (hp : m.reserved p = true)
    (hq : a.Has q) (hP : P ∣ q) {i : ℕ} (hi : i < P) : a.kind.prot = protOf (m.table q) ∧
      a.kind.byte k.sections (q+i-a.base) = bytesOf (m.table q) i := by
  have hf := h₀.fits hp ha
  have hcell := h₀.pages q i hP hi (hf.reserved q hq)
  rw [cells_some (k.space.whole ha ((hf.has_page hP hi).mpr hq))] at hcell
  have := Option.some.inj hcell
  exact ⟨congrArg AddressSpace.Cell.prot this,congrArg AddressSpace.Cell.byte this⟩

theorem setReadable_served {readable : Bool} (h₀ : Sim P U m w)
    (ha : Allowed P m (.setReadable addr size readable)) (hk : Keeps U (.setReadable addr size readable)) :
    Served P pick U m w (.setReadable addr size readable) := by
  obtain ⟨hp,hr⟩ := ha
  obtain ⟨hres,hne⟩ := hr addr ⟨le_rfl,Nat.lt_add_of_pos_right hp.pos⟩
  obtain ⟨v,hv,hrep,hsec⟩ := h₀.mapped.view_at hk hp.start hres (hne hp.start)
  set a : Alloc Owner := ⟨addr,size,.view v,.cache⟩ with ha
  set prot : Prot := if readable then .read else .none with hprot
  have hcall : win32Call P pick w (.setReadable addr size readable) = some { w with
      kernel := { w.kernel with space := w.kernel.space.setKind addr (.view { v with prot := prot }) } } := by
    rw [win32Call,vmSetReadable,virtualProtect,hv,Option.bind_some]
    simp only [ha,and_self,if_true,Option.map_some,hprot]
  have hmap : Mapped P U (call m (.setReadable addr size readable))
      { w.kernel with space := w.kernel.space.setKind addr (.view { v with prot := prot }) } := by
    refine h₀.mapped.rekind (T := fun q => (m.table q).setReadable readable) hv hres ⟨hrep,hk,hsec⟩ rfl
      (fun _ => rfl) ?_ ?_
    · intro q hq hP
      refine iff_of_false ?_ (fun hc => by cases hc)
      have := (hr q hq).2 hP
      cases ht : m.table q <;> cases readable <;> simp [PageState.setReadable,ht] at this ⊢
    · intro q i hq hP hi
      obtain ⟨-,hbyte⟩ := h₀.mapped.shows hv hres hq hP hi
      refine ⟨?_,?_⟩
      · cases m.table q <;> cases readable <;> rfl
      · have hsame : bytesOf ((m.table q).setReadable readable) = bytesOf (m.table q) := by
          cases m.table q <;> cases readable <;> rfl
        rw [hsame,← hbyte]
        rfl
  refine ⟨_,hcall,h₀.regionMove rfl rfl hmap (fun q hq => Or.inl hq) ?_ ?_ ?_,setKind_keeps hv rfl rfl⟩
  · intro q hq _
    refine setKind_out hv (fun hin => ?_)
    rw [(hr q hin).1] at hq
    cases hq
  · intro q hq hq'
    rw [show m.reserved q = false from hq'] at hq
    cases hq
  · intro q c v' hq hc hkind
    refine Or.inl ?_
    by_cases hin : a.Has q
    · cases (setKind_in hv hin).symm.trans hc
      cases hkind
      exact ⟨addr,a,v,hres,hv,rfl,rfl⟩
    · exact ⟨q,c,v',hq,(setKind_out hv hin).symm.trans hc,hkind,rfl⟩

theorem decommit_served (h₀ : Sim P U m w) (ha : Allowed P m (.decommit addr size))
    (hk : Keeps U (.decommit addr size)) : Served P pick U m w (.decommit addr size) := by
  obtain ⟨hp,hr⟩ := ha
  obtain ⟨hres,hne⟩ := hr addr ⟨le_rfl,Nat.lt_add_of_pos_right hp.pos⟩
  obtain ⟨v,hv,hrep,hsec⟩ := h₀.mapped.view_at hk hp.start hres (hne hp.start)
  set a : Alloc Owner := ⟨addr,size,.view v,.cache⟩ with ha
  have hcall : win32Call P pick w (.decommit addr size) = some { w with
      kernel := { w.kernel with space := w.kernel.space.setKind addr .placeholder } } := by
    rw [win32Call,decommitLoop_view hv hrep hp.pos]
    rfl
  have hunit : KindFits U w.kernel a .placeholder := by
    intro b n hun hmeet
    obtain ⟨rfl,rfl⟩ := U.units_apart hun hk hmeet
    exact ⟨le_rfl,le_rfl⟩
  have hmap : Mapped P U (call m (.decommit addr size))
      { w.kernel with space := w.kernel.space.setKind addr .placeholder } :=
    h₀.mapped.rekind (T := fun _ => .inaccessible) hv hres hunit rfl (fun _ => rfl)
      (fun _ _ _ => iff_of_true rfl rfl) (fun _ _ _ _ _ => ⟨rfl,rfl⟩)
  refine ⟨_,hcall,h₀.regionMove rfl rfl hmap (fun q hq => Or.inl hq) ?_ ?_ ?_,setKind_keeps hv rfl rfl⟩
  · intro q hq _
    refine setKind_out hv (fun hin => ?_)
    rw [(hr q hin).1] at hq
    cases hq
  · intro q hq hq'
    rw [show m.reserved q = false from hq'] at hq
    cases hq
  · intro q c v' hq hc hkind
    by_cases hin : a.Has q
    · cases (setKind_in hv hin).symm.trans hc
      cases hkind
    · exact Or.inl ⟨q,c,v',hq,(setKind_out hv hin).symm.trans hc,hkind,rfl⟩

theorem create_served (h₀ : Sim P U m w) (ha : Allowed P m (.create b size))
    (hv : Vacant P w.kernel pick size) : Served P pick U m w (.create b size) := by
  obtain ⟨hp,hnone⟩ := ha
  obtain ⟨-,hbelow,hunmapped⟩ := hv
  set g : Held := ⟨size,fun _ => 0,false,[]⟩ with hg
  set y : Scratch := ⟨pick,size,w.kernel.count,0⟩ with hy
  have hvac : ∀ i < size, w.kernel.space.alloc (pick+i) = none := fun i hi =>
    hunmapped _ ⟨Nat.le_add_right _ _,by omega⟩
  let k₁ : Kernel Owner :=
    { space := w.kernel.space.place (stagingView g y) hvac
      sections := Function.update w.kernel.sections w.kernel.count (some ⟨size,fun _ => 0,true⟩)
      count := w.kernel.count+1 }
  have hhalves : size/2^32%2^32*2^32+size%2^32 = size := by omega
  have hcall : win32Call P pick w (.create b size) = some ⟨k₁,Function.update w.scratch b (some y)⟩ := by
    have hshows : Shows { w.kernel with
        sections := Function.update w.kernel.sections w.kernel.count (some ⟨size,fun _ => 0,true⟩)
        count := w.kernel.count+1 } w.kernel.count 0 size := by
      simp [Shows]
    rw [win32Call,vmScratchCreate,createFileMapping,hhalves,if_pos hp.pos,Option.bind_some,mapViewOfFile,
      dif_pos ⟨hp.pos,hshows,hvac⟩]
    rfl
  have hin : ∀ q, (stagingView g y).Has q → k₁.space.alloc q = some (stagingView g y) := fun q hq => if_pos hq
  have hout : ∀ q, ¬ (stagingView g y).Has q → k₁.space.alloc q = w.kernel.space.alloc q := fun q hq => if_neg hq
  have hempty : ∀ q, (stagingView g y).Has q → w.kernel.space.alloc q = none := fun q hq => hunmapped q hq
  have hself : k₁.sections w.kernel.count = some ⟨size,fun _ => 0,true⟩ := Function.update_self _ _ _
  have hsec : ∀ n, n ≠ w.kernel.count → k₁.sections n = w.kernel.sections n := fun n hn =>
    Function.update_of_ne hn _ _
  have hold : ∀ {b' h x}, Holds m w b' h x → b' ≠ b ∧ x.sec ≠ w.kernel.count := by
    intro b' h x hb
    constructor
    · rintro rfl
      have := hb.1
      rw [hnone] at this
      cases this
    · intro he
      obtain ⟨s,hs,-⟩ := (h₀.buffers.heldAt hb).sec
      rw [he,h₀.buffers.fresh _ le_rfl] at hs
      cases hs
  have hnew : ∀ {b' h x}, Holds (m.hold b (some g)) ⟨k₁,Function.update w.scratch b (some y)⟩ b' h x →
      b' = b ∧ h = g ∧ x = y ∨ b' ≠ b ∧ Holds m w b' h x := by
    rintro b' h x ⟨h1,h2⟩
    by_cases he : b' = b
    · subst he
      rw [hold_self] at h1
      simp only [Function.update_self] at h2
      exact Or.inl ⟨rfl,(Option.some.inj h1).symm,(Option.some.inj h2).symm⟩
    · rw [hold_of_ne m _ he] at h1
      simp only [Function.update_of_ne he] at h2
      exact Or.inr ⟨he,h1,h2⟩
  have hstay : ∀ {b' h x}, Holds m w b' h x →
      Holds (m.hold b (some g)) ⟨k₁,Function.update w.scratch b (some y)⟩ b' h x := by
    intro b' h x hb
    exact ⟨(hold_of_ne m _ (hold hb).1).trans hb.1,(Function.update_of_ne (hold hb).1 _ _).trans hb.2⟩
  have hres : ∀ q, m.reserved q = true → k₁.space.alloc q = w.kernel.space.alloc q := by
    intro q hq
    refine hout q (fun hin => ?_)
    obtain ⟨a,ha,-⟩ := h₀.mapped.piece q hq
    rw [hempty q hin] at ha
    cases ha
  have hviews : ∀ q a v, m.reserved q = true → w.kernel.space.alloc q = some a → a.kind = .view v →
      v.sec ≠ w.kernel.count := by
    intro q a v hq ha hk
    have := (h₀.mapped.fits hq ha).kind
    rw [hk] at this
    exact Nat.ne_of_lt this.2.2
  have hat : HeldAt P k₁ g y := by
    refine ⟨rfl,rfl,hp.pos,(by omega : size < 2^64),hp.whole,fun _ hr => absurd hr List.not_mem_nil,
      List.Pairwise.nil,hin _ ⟨le_rfl,Nat.lt_add_of_pos_right hp.pos⟩,_,hself,rfl,rfl,fun _ _ => rfl⟩
  have hb : Holds (m.hold b (some g)) ⟨k₁,Function.update w.scratch b (some y)⟩ b g y :=
    ⟨hold_self _ _ _,Function.update_self _ _ _⟩
  refine ⟨_,hcall,⟨?_,⟨?_,?_,?_,?_⟩,?_,?_⟩,place_keeps hvac rfl⟩
  · refine h₀.mapped.congr rfl rfl (Nat.le_succ _) hres (fun q a v i hq ha hk => ?_)
    rw [hk]
    simp only [Kind.byte,hsec _ (hviews q a v hq ha hk)]
  · intro b' h hbh
    by_cases he : b' = b
    · subst he
      cases (hold_self m b' (some g)).symm.trans hbh
      exact ⟨y,hb.2,hat⟩
    · obtain ⟨x,hx,hxat⟩ := h₀.buffers.held b' h ((hold_of_ne m _ he).symm.trans hbh)
      have hbx : Holds m w b' h x := ⟨(hold_of_ne m _ he).symm.trans hbh,hx⟩
      refine ⟨x,(hstay hbx).2,hxat.congr (hout _ (fun hc => ?_)) (hsec _ (hold hbx).2)⟩
      have := hxat.view
      rw [hempty _ hc] at this
      cases this
  · intro b₁ b₂ g₁ g₂ x₁ x₂ hx₁ hx₂ he
    rcases hnew hx₁ with ⟨e₁,-,rfl⟩ | ⟨-,k₁⟩
    · rcases hnew hx₂ with ⟨e₂,-,-⟩ | ⟨-,k₂⟩
      · exact e₁.trans e₂.symm
      · exact absurd he.symm (hold k₂).2
    · rcases hnew hx₂ with ⟨-,-,rfl⟩ | ⟨-,k₂⟩
      · exact absurd he (hold k₁).2
      · exact h₀.buffers.apart _ _ _ _ _ _ k₁ k₂ he
  · intro n s hs hopen
    by_cases hn : n = w.kernel.count
    · exact ⟨b,g,y,hb,hn.symm⟩
    · obtain ⟨b',h,x,hx,he⟩ := h₀.buffers.handles n s ((hsec n hn).symm.trans hs) hopen
      exact ⟨b',h,x,hstay hx,he⟩
  · intro n hn
    have hlt : w.kernel.count < n := hn
    exact (hsec n hlt.ne').trans (h₀.buffers.fresh n hlt.le)
  · intro q a v b' h x hq ha hk hx he
    have ha' : w.kernel.space.alloc q = some a := (hres q hq).symm.trans ha
    rcases hnew hx with ⟨-,-,rfl⟩ | ⟨-,hx'⟩
    · exact absurd he.symm (hviews q a v hq ha' hk)
    · exact h₀.frozen q a v b' h x hq ha' hk hx' he
  · intro q
    by_cases hq : (stagingView g y).Has q
    · exact iff_of_true ⟨_,hin q hq,rfl⟩ (Or.inr ⟨b,g,y,hb,hq⟩)
    · refine (OwnedBy.congr (hout q hq)).trans ((h₀.ledger q).trans (or_congr Iff.rfl ⟨?_,?_⟩))
      · rintro ⟨b',h,x,hx,hxq⟩
        exact ⟨b',h,x,hstay hx,hxq⟩
      · rintro ⟨b',h,x,hx,hxq⟩
        rcases hnew hx with ⟨-,rfl,rfl⟩ | ⟨-,hx'⟩
        · exact absurd hxq hq
        · exact ⟨b',h,x,hx',hxq⟩

/-- A store into a buffer that has not been sealed. -/
theorem store_served (bytes g : ℕ → UInt8) (srcOff : ℕ) (h₀ : Sim P U m w) (hb : Holds m w b h x)
    (hs : h.sealed = false) (hlen : off+len ≤ h.size)
    (hg : ∀ i < len, g i = bytes (srcOff+i)) :
    ∃ k', store w.kernel (x.addr+off) g len = some k' ∧ k'.space = w.kernel.space ∧
      Sim P U (m.hold b (some { h with bytes := memcpy h.bytes off bytes srcOff len })) { w with kernel := k' } := by
  have hat := h₀.buffers.heldAt hb
  obtain ⟨s,hsec,hsize,hopen,hbytes⟩ := hat.sec
  have hprot : heldProt h = .readWrite := by
    rw [heldProt,hs]
    rfl
  obtain ⟨s',hstore,hsize',hopen',hbytes'⟩ := store_view (x.addr+off) len g
    hat.view rfl hprot hsec (Nat.le_add_right _ _) (by simp only [stagingView]; omega)
  refine ⟨_,hstore,rfl,?_⟩
  have hself : Function.update w.scratch b (some x) = w.scratch := by
    rw [← hb.2,Function.update_eq_self]
  refine h₀.bufferMove hb rfl hself.symm rfl rfl rfl ?_ rfl (fun _ _ => rfl)
    (fun n hn => Function.update_of_ne hn _ _) (fun hc => by rw [hs] at hc; cases hc)
  refine ⟨hat.size,hat.consumed,hat.left,hat.below,hat.aligned,hat.inside,hat.disjoint,hat.view,
    s',Function.update_self _ _ _,hsize'.trans hsize,hopen'.trans hopen,?_⟩
  intro i hi
  have hoff : x.addr+off-(stagingView h x).base = off := Nat.add_sub_cancel_left _ _
  rw [hbytes',hoff]
  simp only [memcpy,Nat.zero_add]
  by_cases hin : off ≤ i ∧ i < off+len
  · rw [if_pos hin,if_pos hin]
    exact hg _ (by omega)
  · rw [if_neg hin,if_neg hin]
    exact hbytes i hi

theorem write_served {bytes : ℕ → UInt8} (h₀ : Sim P U m w) (ha : Allowed P m (.write b off bytes len)) :
    Served P pick U m w (.write b off bytes len) := by
  obtain ⟨h,hh,hs,-,hlen⟩ := ha
  obtain ⟨x,hx,-⟩ := h₀.buffers.held b h hh
  obtain ⟨k',hstore,hspace,hsim⟩ := store_served bytes bytes 0 h₀ ⟨hh,hx⟩ hs hlen
    (fun i _ => congrArg bytes (Nat.zero_add i).symm)
  refine ⟨{ w with kernel := k' },?_,?_,by rw [hspace]; exact .refl _⟩
  · rw [win32Call,hx,Option.bind_some,hstore]
    rfl
  · rw [call,hh]
    exact hsim

theorem copy_served {dst src : Buffer} {dstOff srcOff : ℕ} (h₀ : Sim P U m w)
    (ha : Allowed P m (.copy dst dstOff src srcOff len)) :
    Served P pick U m w (.copy dst dstOff src srcOff len) := by
  obtain ⟨-,⟨h,hh,hs,-,hlen⟩,⟨g,hg,-,hlen'⟩⟩ := ha
  obtain ⟨x,hx,-⟩ := h₀.buffers.held dst h hh
  obtain ⟨y,hy,hat⟩ := h₀.buffers.held src g hg
  obtain ⟨s,hsec,-,-,hbytes⟩ := hat.sec
  have hload : ∀ i < len, load (cells w.kernel) (y.addr+srcOff+i) = some (g.bytes (srcOff+i)) := by
    intro i hi
    have hidx : y.addr+srcOff+i-(stagingView g y).base = srcOff+i := by
      simp only [stagingView]
      omega
    rw [load,cells_some (hat.alloc ⟨by simp only [stagingView]; omega,by simp only [stagingView]; omega⟩),
      Option.bind_some,hidx,← hbytes _ (by omega)]
    simp only [stagingView,Kind.prot,heldProt,Kind.byte,hsec,Option.map_some,Option.getD_some,Nat.zero_add]
    cases g.sealed <;> rfl
  obtain ⟨k',hstore,hspace,hsim⟩ := store_served g.bytes
    (fun i => (load (cells w.kernel) (y.addr+srcOff+i)).getD 0) srcOff h₀ ⟨hh,hx⟩ hs hlen
    (fun i hi => by rw [hload i hi]; rfl)
  refine ⟨{ w with kernel := k' },?_,?_,by rw [hspace]; exact .refl _⟩
  · rw [win32Call,hx,Option.bind_some,hy,Option.bind_some,copy,
      if_pos (fun i hi => by rw [hload i hi]; rfl),hstore]
    rfl
  · rw [call,hh,hg]
    exact hsim

theorem seal_served (h₀ : Sim P U m w) (ha : Allowed P m (.seal b)) : Served P pick U m w (.seal b) := by
  obtain ⟨h,hh,hs,-⟩ := ha
  obtain ⟨x,hx,hat⟩ := h₀.buffers.held b h hh
  have hb : Holds m w b h x := ⟨hh,hx⟩
  let v : View := ⟨x.sec,0,.read,false⟩
  have hseal : vmScratchSeal w.kernel x = some { w.kernel with
      space := w.kernel.space.setKind x.addr (.view v) } := by
    rw [vmScratchSeal,virtualProtect,hat.view,Option.bind_some]
    simp only [stagingView,hat.size,and_self,if_true,v]
  have hself : Function.update w.scratch b (some x) = w.scratch := by
    rw [← hx,Function.update_eq_self]
  have hview : (w.kernel.space.setKind x.addr (.view v)).alloc x.addr =
      some (stagingView { h with sealed := true } x) := setKind_in hat.view (w.kernel.space.within hat.view)
  refine ⟨{ w with kernel := { w.kernel with space := w.kernel.space.setKind x.addr (.view v) } },?_,?_,?_⟩
  · rw [win32Call,hx,Option.bind_some,hseal]
    rfl
  · rw [call,hh]
    refine h₀.bufferMove hb rfl hself.symm rfl rfl rfl ?_ rfl (fun q hq => setKind_out hat.view hq)
      (fun _ _ => rfl) (fun hc => by rw [hs] at hc; cases hc)
    exact ⟨hat.size,hat.consumed,hat.left,hat.below,hat.aligned,hat.inside,hat.disjoint,hview,hat.sec⟩
  · exact setKind_keeps hat.view rfl rfl

theorem discard_served (h₀ : Sim P U m w) (ha : Allowed P m (.consume b (.discard off len))) :
    Served P pick U m w (.consume b (.discard off len)) := by
  obtain ⟨h,hh,hp,hle,hd,-⟩ := ha
  obtain ⟨x,hx,-⟩ := h₀.buffers.held b h hh
  obtain ⟨k',x',hcons,hsim,hkeep⟩ := h₀.consume (r := ⟨off,len⟩) ⟨hh,hx⟩ hle hd
  refine ⟨⟨k',Function.update w.scratch b (some x')⟩,?_,?_,hkeep⟩
  · rw [win32Call,hx,Option.bind_some,vmScratchDiscard,hcons]
    rfl
  · rw [call,hh]
    exact hsim

/-- Before a unit is published its placeholder has just its addresses, cut out of
a larger one where that is needed. -/
theorem cutOut (h₀ : Sim P U m w) (hu : U.unit p len) (hp : Pages P p len)
    (hr : ∀ q, p ≤ q ∧ q < p+len → m.reserved q = true ∧ (P ∣ q → m.table q = .inaccessible)) :
    ∃ sp, (if (virtualQuery w.kernel p).base ≠ p ∨ (virtualQuery w.kernel p).size ≠ len ∨
        (virtualQuery w.kernel p).allocBase ≠ p then virtualFreePreserve w.kernel p len else some w.kernel) =
        some { w.kernel with space := sp } ∧
      sp.alloc p = some ⟨p,len,.placeholder,.cache⟩ ∧
      Sim P U m { w with kernel := { w.kernel with space := sp } } ∧
      KeepsOthers Mine w.kernel.space.alloc sp.alloc := by
  obtain ⟨hres,hvac⟩ := hr p ⟨le_rfl,Nat.lt_add_of_pos_right hp.pos⟩
  obtain ⟨a,ha,hf⟩ := h₀.mapped.piece p hres
  have hkind : a.kind = .placeholder := (h₀.mapped.vacant p a hp.start hres ha).mp (hvac hp.start)
  obtain ⟨h1,h2⟩ := w.kernel.space.within ha
  obtain ⟨h3,h4⟩ : a.base ≤ p ∧ p+len ≤ a.base+a.size := by
    have := hf.kind
    rw [hkind] at this
    have hpos := hp.pos
    exact this p len hu ⟨by omega,by omega⟩
  have hquery : virtualQuery w.kernel p = ⟨p,a.base,a.base+a.size-p,some a.kind⟩ := by
    rw [virtualQuery,ha]
  rw [hquery]
  by_cases hwhole : a.base = p ∧ a.size = len
  · obtain ⟨e₁,e₂⟩ := hwhole
    have heq : a = ⟨p,len,.placeholder,.cache⟩ := by
      obtain ⟨base,size,kd,owner⟩ := a
      obtain rfl := hf.owner
      cases e₁
      cases e₂
      cases hkind
      rfl
    refine ⟨w.kernel.space,if_neg ?_,ha.trans (congrArg some heq),h₀,.refl _⟩
    simp only [not_or,not_not]
    exact ⟨trivial,by omega,e₁⟩
  · have hfree : virtualFreePreserve w.kernel p len = some { w.kernel with
        space := w.kernel.space.split p len } := by
      rw [virtualFreePreserve,ha,Option.bind_some]
      exact if_pos ⟨hkind,hp.pos,by omega,h4⟩
    have hcut : ∀ q, (a.cut p (p+len) q).kind = .placeholder ∧ (a.cut p (p+len) q).owner = .cache := by
      intro q
      simp only [Alloc.cut]
      split_ifs <;> exact ⟨hkind,hf.owner⟩
    have hat : (w.kernel.space.split p len).alloc p = some ⟨p,len,.placeholder,.cache⟩ := by
      have hpos := hp.pos
      rw [split_in ha h4 (w.kernel.space.within ha),Alloc.cut,if_neg (lt_irrefl p),if_pos (by omega),
        Alloc.part,hkind,hf.owner,Nat.add_sub_cancel_left]
    refine ⟨_,(if_pos ?_).trans hfree,hat,?_,split_keeps ha h4 hf.owner (fun q => (hcut q).2)⟩
    · by_contra hc
      simp only [not_or,not_not] at hc
      exact hwhole ⟨hc.2.2,by omega⟩
    · refine h₀.regionMove rfl rfl (h₀.mapped.split ha hres hu hkind hp.start hp.whole h4)
        (fun q hq => Or.inl hq) ?_ ?_ ?_
      · intro q hq _
        refine split_out ha (fun hin => ?_)
        rw [hf.reserved q hin] at hq
        cases hq
      · intro q hq hq'
        rw [hq] at hq'
        cases hq'
      · intro q c v hq hc hkd
        by_cases hin : a.Has q
        · cases (split_in ha h4 hin).symm.trans hc
          rw [(hcut q).1] at hkd
          cases hkd
        · exact Or.inl ⟨q,c,v,hq,(split_out ha hin).symm.trans hc,hkd,rfl⟩

/-- A view of the section takes the place of the placeholder in one step. -/
theorem publish_served {target : ℕ} (h₀ : Sim P U m w) (ha : Allowed P m (.consume b (.publish off len target)))
    (hk : Keeps U (.consume b (.publish off len target))) :
    Served P pick U m w (.consume b (.publish off len target)) := by
  obtain ⟨h,hh,hpages,hle,hd,hsealed,htarget,hr⟩ := ha
  obtain ⟨x,hx,hat⟩ := h₀.buffers.held b h hh
  have hb : Holds m w b h x := ⟨hh,hx⟩
  have hoff : Pages P off len := hpages
  have hin : off+len ≤ h.size := hle
  have hp : Pages P target len := ⟨htarget,hoff.whole,hoff.pos⟩
  obtain ⟨sp,hstep,hcut,hsim,hkeep⟩ := cutOut h₀ hk hp hr
  obtain ⟨s,hs,hsize,hopen,hbytes⟩ := hat.sec
  set a : Alloc Owner := ⟨target,len,.placeholder,.cache⟩ with ha
  set v : View := ⟨x.sec,off,.read,true⟩ with hv
  set k₁ : Kernel Owner := { w.kernel with space := sp } with hk₁
  have hmapped : Mapped P U m k₁ := hsim.mapped
  have hres : m.reserved target = true := (hr target ⟨le_rfl,Nat.lt_add_of_pos_right hp.pos⟩).1
  have hreplace : mapViewOfFile3 P k₁ x.sec target off len .read = some { k₁ with
      space := sp.setKind target (.view v) } := by
    rw [mapViewOfFile3,hcut,Option.bind_some]
    refine if_pos ⟨htarget,hoff.start,rfl,rfl,rfl,?_⟩
    simp only [Shows,hk₁,hs,Option.any_some,hopen,Bool.true_and,decide_eq_true_eq]
    omega
  set m₁ : Memory := { m with table := VmPages.vmScratchPublish m.table ⟨h.size,h.bytes⟩ off len target } with hm₁
  have hsec : x.sec < w.kernel.count := by
    by_contra hc
    rw [h₀.buffers.fresh _ (Nat.le_of_not_lt hc)] at hs
    cases hs
  have hmap : Mapped P U m₁ { k₁ with space := sp.setKind target (.view v) } := by
    refine hmapped.rekind (T := fun q => .readable (fun i => h.bytes (off+(q-target)+i))) hcut hres
      ⟨rfl,hk,hsec⟩ rfl (fun _ => rfl) ?_ ?_
    · exact fun _ _ _ => iff_of_false (fun hc => by cases hc) (fun hc => by cases hc)
    · intro q i hq hP hi
      refine ⟨rfl,?_⟩
      have hlast := (hmapped.fits hres hcut).has_page hP hi |>.mpr hq
      obtain ⟨h1,h2⟩ := hq
      obtain ⟨h3,h4⟩ := hlast
      simp only [ha] at h1 h2 h3 h4 ⊢
      have hidx : off+(q+i-target) = off+(q-target)+i := by omega
      simp only [Kind.byte,hv,hk₁,hs,Option.map_some,Option.getD_some,bytesOf,hidx]
      exact hbytes _ (by omega)
  have hsim₁ : Sim P U m₁ { w with kernel := { k₁ with space := sp.setKind target (.view v) } } := by
    refine hsim.regionMove rfl rfl hmap (fun q hq => Or.inl hq) ?_ ?_ ?_
    · intro q hq _
      refine setKind_out hcut (fun hc => ?_)
      rw [(hr q hc).1] at hq
      cases hq
    · intro q hq hq'
      rw [show m.reserved q = false from hq'] at hq
      cases hq
    · intro q c v' hq hc hkd
      by_cases hqa : a.Has q
      · cases (setKind_in hcut hqa).symm.trans hc
        cases hkd
        refine Or.inr (fun b' h' x' hb' he => ?_)
        obtain rfl := h₀.buffers.apart b' b h' h x' x hb' hb he
        cases hb'.1.symm.trans hh
        exact hsealed
      · exact Or.inl ⟨q,c,v',hq,(setKind_out hcut hqa).symm.trans hc,hkd,rfl⟩
  obtain ⟨k',x',hcons,hdone,hkeep'⟩ := hsim₁.consume (r := ⟨off,len⟩) hb hle hd
  refine ⟨⟨k',Function.update w.scratch b (some x')⟩,?_,?_,?_⟩
  · rw [win32Call,hx,Option.bind_some,vmScratchPublish]
    simp only [hstep,Option.bind_some,hreplace,hcons,Option.map_some]
  · rw [call,hh]
    exact hdone
  · have hswap : KeepsOthers Mine sp.alloc (sp.setKind target (.view v)).alloc := setKind_keeps hcut rfl rfl
    exact hkeep.trans (hswap.trans hkeep')

/-- No assertion of the back end fails on a call that is allowed and keeps to the plan. -/
theorem call_served {c : VmCall} (h₀ : Sim P U m w) (ha : Allowed P m c) (hk : Keeps U c) (hp : Picks P pick w c) :
    Served P pick U m w c := by
  match c, ha, hk, hp with
  | .reserve _ _, ha, hk, hp => exact reserve_served h₀ ha hk hp
  | .release _ _, ha, hk, _ => exact release_served h₀ ha hk
  | .setReadable _ _ _, ha, hk, _ => exact setReadable_served h₀ ha hk
  | .decommit _ _, ha, hk, _ => exact decommit_served h₀ ha hk
  | .create _ _, ha, _, hp => exact create_served h₀ ha hp
  | .write _ _ _ _, ha, _, _ => exact write_served h₀ ha
  | .copy _ _ _ _ _, ha, _, _ => exact copy_served h₀ ha
  | .seal _, ha, _, _ => exact seal_served h₀ ha
  | .consume _ (.publish _ _ _), ha, hk, _ => exact publish_served h₀ ha hk
  | .consume _ (.discard _ _), ha, _, _ => exact discard_served h₀ ha

/-- The others leave alone what the cache has. -/
theorem Sim.others {sp : Space Owner} (h₀ : Sim P U m w) (ho : OthersMove Mine w.kernel.space.alloc sp.alloc) :
    Sim P U m { w with kernel := { w.kernel with space := sp } } := by
  have hsame : ∀ q, Cached w.kernel q → sp.alloc q = w.kernel.space.alloc q := fun q hq => ho q (Or.inl hq)
  have hres : ∀ q, m.reserved q = true → sp.alloc q = w.kernel.space.alloc q := fun q hq =>
    hsame q (h₀.reserved_cached hq)
  have hcached : ∀ q, OwnedBy Mine sp.alloc q ↔ Cached w.kernel q := by
    intro q
    constructor
    · intro hq
      exact (OwnedBy.congr (ho q (Or.inr hq))).mp hq
    · intro hq
      exact (OwnedBy.congr (hsame q hq)).mpr hq
  refine ⟨h₀.mapped.congr rfl rfl le_rfl hres (fun _ _ _ _ _ _ _ => rfl),
    ⟨?_,h₀.buffers.apart,h₀.buffers.handles,h₀.buffers.fresh⟩,?_,fun q => (hcached q).trans (h₀.ledger q)⟩
  · intro b h hb
    obtain ⟨x,hx,hat⟩ := h₀.buffers.held b h hb
    refine ⟨x,hx,hat.congr (hsame _ ?_) rfl⟩
    exact h₀.staging_cached ⟨hb,hx⟩ (w.kernel.space.within hat.view)
  · intro q a v b h x hq ha
    exact h₀.frozen q a v b h x hq ((hres q hq).symm.trans ha)

theorem exec_sim {w₀ : Win32} {cs : List VmCall} (h₀ : Sim P U m w₀) (ha : AllAllowed P m cs)
    (hk : ∀ c ∈ cs, Keeps U c) (hx : Exec P w₀ cs w) : Sim P U (calls m cs) w := by
  induction hx with
  | start => exact h₀
  | others _ ho ih => exact (ih ha hk).others ho
  | @call cs w w' c pick _ hp hc ih =>
    obtain ⟨hal,hlast⟩ := allowed_append.mp ha
    have hsim := ih hal (fun d hd => hk d (List.mem_append_left _ hd))
    obtain ⟨w₂,hw₂,hsim₂,-⟩ := call_served hsim hlast.1 (hk c (by simp)) hp
    cases hc.symm.trans hw₂
    rw [calls_append]
    exact hsim₂

end Progress

end FaultCache.VmWin32
