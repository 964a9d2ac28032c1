import FaultCache.VmWin32

/-!
# What the Windows calls leave

The effects of the mapping calls on the simulation, one lemma for each kind of
effect. In a reserved range a piece becomes another kind, a unit is cut out of a
placeholder, an area comes or goes as a whole. A staging view is written to,
sealed or used up. Whatever is not named by the effect stays as it was.
-/

set_option autoImplicit false

namespace FaultCache.VmWin32
open FaultCache.VmPages FaultCache.PoolMachine FaultCache.RangeTiling FaultCache.ScratchContract
open FaultCache.VmContract FaultCache.Placeholders
open FaultCache.AddressSpace (Prot OwnedBy KeepsOthers OthersMove load)
open FaultCache.VmPosix (protOf bytesOf heldProt)

variable {P : ℕ} {U : Plan} {m m' : Memory} {k k' : Kernel Owner} {w w' : Win32} {a : Alloc Owner}
  {b : Buffer} {h : Held} {x : Scratch} {p q : ℕ}

theorem cells_some (ha : k.space.alloc q = some a) :
    cells k q = some ⟨a.kind.prot,a.owner,a.kind.byte k.sections (q-a.base)⟩ := by
  rw [cells,ha]
  rfl

theorem HeldAt.pos (h₀ : HeldAt P k h x) : 0 < h.size := Nat.lt_of_le_of_lt (Nat.zero_le _) h₀.left

theorem HeldAt.alloc (h₀ : HeldAt P k h x) (hq : (stagingView h x).Has q) :
    k.space.alloc q = some (stagingView h x) := k.space.whole h₀.view hq

theorem Buffers.heldAt (h₀ : Buffers P m w) (hb : Holds m w b h x) : HeldAt P w.kernel h x := by
  obtain ⟨y,hy,hat⟩ := h₀.held b h hb.1
  cases hb.2.symm.trans hy
  exact hat

/-- A view in a reserved range took the place of a placeholder, and a staging view did not. -/
theorem Sim.outside (h₀ : Sim P U m w) (hb : Holds m w b h x) (hq : (stagingView h x).Has q) :
    m.reserved q = false := by
  rw [← Bool.not_eq_true]
  intro hr
  obtain ⟨a,ha,hfits⟩ := h₀.mapped.piece q hr
  have hkind := hfits.kind
  cases ha.symm.trans ((h₀.buffers.heldAt hb).alloc hq)
  exact absurd hkind.1 Bool.false_ne_true

theorem Sim.single {b' : Buffer} {h' : Held} {x' : Scratch} (h₀ : Sim P U m w) (hb : Holds m w b h x)
    (hb' : Holds m w b' h' x') (hq : (stagingView h x).Has q) (hq' : (stagingView h' x').Has q) : b = b' := by
  have he := ((h₀.buffers.heldAt hb).alloc hq).symm.trans ((h₀.buffers.heldAt hb').alloc hq')
  have hv := congrArg Alloc.kind (Option.some.inj he)
  refine h₀.buffers.apart b b' h h' x x' hb hb' ?_
  exact congrArg View.sec (Kind.view.inj hv)

theorem Sim.reserved_cached (h₀ : Sim P U m w) (hq : m.reserved q = true) : Cached w.kernel q :=
  (h₀.ledger q).mpr (Or.inl hq)

theorem Sim.staging_cached (h₀ : Sim P U m w) (hb : Holds m w b h x) (hq : (stagingView h x).Has q) :
    Cached w.kernel q := (h₀.ledger q).mpr (Or.inr ⟨b,h,x,hb,hq⟩)

theorem KindFits.mono {kd : Kind} (hcount : k.count ≤ k'.count) (hk : KindFits U k a kd) : KindFits U k' a kd := by
  cases kd with
  | placeholder => exact hk
  | view v => exact ⟨hk.1,hk.2.1,hk.2.2.trans_le hcount⟩
  | other => exact hk

/-- Nothing changes in the reserved ranges. -/
theorem Mapped.congr (h₀ : Mapped P U m k) (hr : m'.reserved = m.reserved) (ht : m'.table = m.table)
    (hcount : k.count ≤ k'.count) (hsp : ∀ q, m.reserved q = true → k'.space.alloc q = k.space.alloc q)
    (hbytes : ∀ q a v i, m.reserved q = true → k.space.alloc q = some a → a.kind = .view v →
      a.kind.byte k'.sections i = a.kind.byte k.sections i) : Mapped P U m' k' := by
  refine ⟨hr ▸ h₀.below,hr ▸ h₀.whole,?_,?_,?_⟩
  · intro q hq
    rw [hr] at hq
    obtain ⟨a,ha,hf⟩ := h₀.piece q hq
    exact ⟨a,(hsp q hq).trans ha,{ hf with reserved := hr ▸ hf.reserved, kind := hf.kind.mono hcount }⟩
  · intro q a hP hq ha
    rw [hr] at hq
    rw [hsp q hq] at ha
    rw [ht]
    exact h₀.vacant q a hP hq ha
  · intro q i hP hi hq
    rw [hr] at hq
    have hq' : m.reserved (q+i) = true := (h₀.whole q i hP hi).trans hq
    obtain ⟨a,ha,hf⟩ := h₀.piece _ hq'
    rw [ht,← h₀.pages q i hP hi hq,cells_some ha,cells_some ((hsp _ hq').trans ha)]
    cases hk : a.kind with
    | view v =>
      rw [← hk,hbytes _ a v _ hq' ha hk]
    | placeholder => rfl
    | other => rfl

theorem HeldAt.congr (h₀ : HeldAt P k h x) (hsp : k'.space.alloc x.addr = k.space.alloc x.addr)
    (hsec : k'.sections x.sec = k.sections x.sec) : HeldAt P k' h x :=
  { h₀ with view := hsp.trans h₀.view, sec := hsec ▸ h₀.sec }

/-- A call that changes what is in the reserved ranges. -/
theorem Sim.regionMove {sp : Space Owner} (h₀ : Sim P U m w) (hheld : m'.held = m.held)
    (hw : w' = { w with kernel := { w.kernel with space := sp } }) (hm : Mapped P U m' w'.kernel)
    (hfree : ∀ q, m'.reserved q = true → m.reserved q = true ∨ ¬ Cached w.kernel q)
    (hkeep : ∀ q, m.reserved q = false → m'.reserved q = false → sp.alloc q = w.kernel.space.alloc q)
    (hgone : ∀ q, m.reserved q = true → m'.reserved q = false → sp.alloc q = none)
    (hfrozen : ∀ q a v, m'.reserved q = true → sp.alloc q = some a → a.kind = .view v →
      (∃ q a v', m.reserved q = true ∧ w.kernel.space.alloc q = some a ∧ a.kind = .view v' ∧ v'.sec = v.sec) ∨
      ∀ b h x, Holds m w b h x → x.sec = v.sec → h.sealed = true) : Sim P U m' w' := by
  subst hw
  have hholds : ∀ b h x, Holds m' { w with kernel := { w.kernel with space := sp } } b h x ↔ Holds m w b h x := by
    intro b h x
    rw [Holds,Holds,hheld]
  have hout : ∀ b h x q, Holds m w b h x → (stagingView h x).Has q →
      m'.reserved q = false ∧ sp.alloc q = w.kernel.space.alloc q := by
    intro b h x q hb hq
    have hr := h₀.outside hb hq
    have hr' : m'.reserved q = false := by
      rw [← Bool.not_eq_true]
      intro hc
      rcases hfree q hc with hc | hc
      · rw [hr] at hc
        cases hc
      · exact hc (h₀.staging_cached hb hq)
    exact ⟨hr',hkeep q hr hr'⟩
  refine ⟨hm,⟨?_,?_,?_,h₀.buffers.fresh⟩,?_,?_⟩
  · intro b h hb
    rw [hheld] at hb
    obtain ⟨x,hx,hat⟩ := h₀.buffers.held b h hb
    refine ⟨x,hx,hat.congr ?_ rfl⟩
    exact (hout b h x _ ⟨hb,hx⟩ (w.kernel.space.within hat.view)).2
  · intro b b' h h' x x' hb hb'
    exact h₀.buffers.apart b b' h h' x x' ((hholds _ _ _).mp hb) ((hholds _ _ _).mp hb')
  · intro n s hs hopen
    obtain ⟨b,h,x,hb,hn⟩ := h₀.buffers.handles n s hs hopen
    exact ⟨b,h,x,(hholds _ _ _).mpr hb,hn⟩
  · intro q a v b h x hq ha hk hb hsec
    rw [hholds] at hb
    rcases hfrozen q a v hq ha hk with ⟨q',a',v',hq',ha',hk',he⟩ | hnew
    · exact h₀.frozen q' a' v' b h x hq' ha' hk' hb (hsec.trans he.symm)
    · exact hnew b h x hb hsec
  · intro q
    simp only [hholds]
    cases hr' : m'.reserved q with
    | true =>
      refine iff_of_true ?_ (Or.inl rfl)
      obtain ⟨a,ha,hf⟩ := hm.piece q hr'
      exact ⟨a,ha,hf.owner⟩
    | false =>
      cases hr : m.reserved q with
      | true =>
        refine iff_of_false (AddressSpace.not_owned_none (hgone q hr hr')) ?_
        rintro (hc | ⟨b,h,x,hb,hq⟩)
        · cases hc
        · rw [h₀.outside hb hq] at hr
          cases hr
      | false =>
        have hsame := h₀.ledger q
        rw [hr] at hsame
        exact (OwnedBy.congr (hkeep q hr hr')).trans hsame

section Ranges
variable {base size len : ℕ} {kd : Kind} {T : PageTable}

theorem Mapped.fits (h₀ : Mapped P U m k) (hq : m.reserved q = true) (ha : k.space.alloc q = some a) :
    Fits P U m k a := by
  obtain ⟨a',ha',hf⟩ := h₀.piece q hq
  cases ha.symm.trans ha'
  exact hf

theorem Fits.has_page (hf : Fits P U m k a) {i : ℕ} (hq : P ∣ q) (hi : i < P) : a.Has (q+i) ↔ a.Has q :=
  AddressSpace.page_within hf.start hf.whole hq hi

/-- The piece at an address becomes another kind. -/
theorem Mapped.rekind (h₀ : Mapped P U m k) (ha : k.space.alloc p = some a) (hp : m.reserved p = true)
    (hkd : KindFits U k a kd) (hr : m'.reserved = m.reserved)
    (ht : ∀ q, m'.table q = if a.Has q then T q else m.table q)
    (hv : ∀ q, a.Has q → P ∣ q → (T q = .inaccessible ↔ kd = .placeholder))
    (hb : ∀ q i, a.Has q → P ∣ q → i < P →
      kd.prot = protOf (T q) ∧ kd.byte k.sections (q+i-a.base) = bytesOf (T q) i) :
    Mapped P U m' { k with space := k.space.setKind p kd } := by
  have hf := h₀.fits hp ha
  refine ⟨hr ▸ h₀.below,hr ▸ h₀.whole,?_,?_,?_⟩
  · intro q hq
    rw [hr] at hq
    by_cases hin : a.Has q
    · exact ⟨_,setKind_in ha hin,hf.owner,hf.start,hf.whole,hf.area,hr ▸ hf.reserved,hkd⟩
    · obtain ⟨c,hc,hfc⟩ := h₀.piece q hq
      exact ⟨c,(setKind_out ha hin).trans hc,{ hfc with reserved := hr ▸ hfc.reserved }⟩
  · intro q c hP hq hc
    rw [hr] at hq
    rw [ht]
    by_cases hin : a.Has q
    · rw [if_pos hin,hv q hin hP]
      cases (setKind_in ha hin).symm.trans hc
      rfl
    · rw [if_neg hin]
      exact h₀.vacant q c hP hq ((setKind_out ha hin).symm.trans hc)
  · intro q i hP hi hq
    rw [hr] at hq
    rw [ht]
    by_cases hin : a.Has q
    · obtain ⟨h1,h2⟩ := hb q i hin hP hi
      rw [if_pos hin,cells_some (setKind_in ha ((hf.has_page hP hi).mpr hin)),← h1,← h2]
      simp only [hf.owner]
    · rw [if_neg hin,← h₀.pages q i hP hi hq]
      change Option.map _ ((k.space.setKind p kd).alloc (q+i)) = _
      rw [setKind_out ha ((hf.has_page hP hi).not.mpr hin)]
      rfl

/-- A unit inside of a placeholder is cut out. -/
theorem Mapped.split (h₀ : Mapped P U m k) (ha : k.space.alloc p = some a) (hp : m.reserved p = true)
    (hu : U.unit p len) (hkind : a.kind = .placeholder) (hstart : P ∣ p) (hlen : P ∣ len)
    (hle : p+len ≤ a.base+a.size) : Mapped P U m { k with space := k.space.split p len } := by
  have hf := h₀.fits hp ha
  have hbase := (k.space.within ha).1
  have hcells : cells { k with space := k.space.split p len } = cells k := by
    funext q
    by_cases hin : a.Has q
    · rw [cells_some (split_in ha hle hin),cells_some (k.space.whole ha hin)]
      simp only [Alloc.cut]
      split_ifs <;> simp [Alloc.part,hkind,Kind.prot,Kind.byte]
    · change Option.map _ ((k.space.split p len).alloc q) = _
      rw [split_out ha hin]
      rfl
  have hcut : ∀ q, (a.cut p (p+len) q).kind = .placeholder ∧ (a.cut p (p+len) q).owner = a.owner := by
    intro q
    simp only [Alloc.cut]
    split_ifs <;> exact ⟨hkind,rfl⟩
  refine ⟨h₀.below,h₀.whole,?_,?_,?_⟩
  · intro q hq
    by_cases hin : a.Has q
    · refine ⟨_,split_in ha hle hin,(hcut q).2.trans hf.owner,?_,?_,?_,?_,?_⟩
      · simp only [Alloc.cut]
        split_ifs
        · exact hf.start
        · exact hstart
        · exact (Nat.dvd_add_right hstart).mpr hlen
      · simp only [Alloc.cut]
        split_ifs
        · exact Nat.dvd_sub hstart hf.start
        · exact Nat.dvd_sub ((Nat.dvd_add_right hstart).mpr hlen) hstart
        · exact Nat.dvd_sub ((Nat.dvd_add_right hf.start).mpr hf.whole) ((Nat.dvd_add_right hstart).mpr hlen)
      · obtain ⟨b,n,harea,h1,h2⟩ := hf.area
        refine ⟨b,n,harea,?_⟩
        simp only [Alloc.cut]
        split_ifs <;> simp only [Alloc.part] <;> omega
      · exact fun r hr => hf.reserved r (cut_part hbase (Nat.le_add_right _ _) hle hin hr).1
      · rw [(hcut q).1]
        intro b n hun hmeet
        have hkd := hf.kind
        rw [hkind] at hkd
        have hpos := U.unit_pos hun
        have hapart := U.units_apart hun hu
        have hinside := hkd b n hun
        simp only [Meet,Alloc.cut,Alloc.part] at hmeet hapart hinside ⊢
        split_ifs at hmeet ⊢ <;> simp only at hmeet ⊢ <;> omega
    · obtain ⟨c,hc,hfc⟩ := h₀.piece q hq
      exact ⟨c,(split_out ha hin).trans hc,{ hfc with }⟩
  · intro q c hP hq hc
    by_cases hin : a.Has q
    · cases (split_in ha hle hin).symm.trans hc
      rw [(hcut q).1,h₀.vacant q a hP hq (k.space.whole ha hin),hkind]
    · exact h₀.vacant q c hP hq ((split_out ha hin).symm.trans hc)
  · intro q i hP hi hq
    rw [hcells]
    exact h₀.pages q i hP hi hq

/-- A unit with something in it is one view. -/
theorem Mapped.view_at (h₀ : Mapped P U m k) (hu : U.unit p len) (hP : P ∣ p) (hr : m.reserved p = true)
    (hne : m.table p ≠ .inaccessible) :
    ∃ v, k.space.alloc p = some ⟨p,len,.view v,.cache⟩ ∧ v.replaces = true ∧ v.sec < k.count := by
  obtain ⟨a,ha,hf⟩ := h₀.piece p hr
  obtain ⟨h1,h2⟩ := k.space.within ha
  have hvac := h₀.vacant p a hP hr ha
  have hkind := hf.kind
  obtain ⟨base,size,kd,owner⟩ := a
  obtain rfl := hf.owner
  cases kd with
  | placeholder => exact absurd (hvac.mpr rfl) hne
  | other => exact hkind.elim
  | view v =>
    obtain ⟨hrep,hunit,hsec⟩ := hkind
    have hpos := U.unit_pos hu
    simp only at h1 h2 hunit
    obtain ⟨rfl,rfl⟩ := U.units_apart hunit hu ⟨by omega,by omega⟩
    exact ⟨v,ha,hrep,hsec⟩

theorem Mapped.reserve (h₀ : Mapped P U m k) (hp : Pages P base size) (hb : base+size ≤ 2^64)
    (hu : U.area base size) {hvac : ∀ i < size, k.space.alloc (base+i) = none} :
    Mapped P U (call m (.reserve base size))
      { k with space := k.space.place ⟨base,size,.placeholder,.cache⟩ hvac } := by
  set a : Alloc Owner := ⟨base,size,.placeholder,.cache⟩ with ha
  have hin : ∀ q, a.Has q → (k.space.place a hvac).alloc q = some a := fun q hq => if_pos hq
  have hout : ∀ q, ¬ a.Has q → (k.space.place a hvac).alloc q = k.space.alloc q := fun q hq => if_neg hq
  have hres : ∀ q, (call m (.reserve base size)).reserved q = if a.Has q then true else m.reserved q :=
    fun _ => rfl
  have htab : ∀ q, (call m (.reserve base size)).table q = if a.Has q then .inaccessible else m.table q :=
    fun _ => rfl
  have hpage : ∀ q i, P ∣ q → i < P → (a.Has (q+i) ↔ a.Has q) := fun q i hq hi =>
    AddressSpace.page_within hp.start hp.whole hq hi
  have hfa : Fits P U (call m (.reserve base size)) { k with space := k.space.place a hvac } a := by
    refine ⟨rfl,hp.start,hp.whole,⟨base,size,hu,le_refl _,le_refl _⟩,fun q hq => ?_,?_⟩
    · rw [hres,if_pos hq]
    · exact fun b n hun hmeet => U.unit_inside hun hu hmeet
  refine ⟨?_,?_,?_,?_,?_⟩
  · intro q hq
    rw [hres] at hq
    split_ifs at hq with h
    · have := h.2
      simp only [ha] at this
      omega
    · exact h₀.below q hq
  · intro q i hq hi
    rw [hres,hres,h₀.whole q i hq hi]
    exact if_congr (hpage q i hq hi) rfl rfl
  · intro q hq
    by_cases h : a.Has q
    · exact ⟨a,hin q h,hfa⟩
    · rw [hres,if_neg h] at hq
      obtain ⟨c,hc,hfc⟩ := h₀.piece q hq
      refine ⟨c,(hout q h).trans hc,{ hfc with reserved := fun r hr => ?_ }⟩
      rw [hres,hfc.reserved r hr,ite_self]
  · intro q c hP hq hc
    rw [htab]
    by_cases h : a.Has q
    · rw [if_pos h]
      cases (hin q h).symm.trans hc
      exact ⟨fun _ => rfl,fun _ => rfl⟩
    · rw [hres,if_neg h] at hq
      rw [if_neg h]
      exact h₀.vacant q c hP hq ((hout q h).symm.trans hc)
  · intro q i hP hi hq
    rw [htab]
    by_cases h : a.Has q
    · rw [if_pos h,cells_some (hin _ ((hpage q i hP hi).mpr h))]
      rfl
    · rw [hres,if_neg h] at hq
      rw [if_neg h,← h₀.pages q i hP hi hq]
      change Option.map _ ((k.space.place a hvac).alloc (q+i)) = _
      rw [hout _ ((hpage q i hP hi).not.mpr h)]
      rfl

/-- An area is cleared. -/
theorem Mapped.clear {sp : Space Owner} (h₀ : Mapped P U m k) (hp : Pages P base size) (hu : U.area base size)
    (hsp : ∀ q, sp.alloc q = if base ≤ q ∧ q < base+size then none else k.space.alloc q) :
    Mapped P U (call m (.release base size)) { k with space := sp } := by
  have hres : ∀ q, (call m (.release base size)).reserved q =
      if base ≤ q ∧ q < base+size then false else m.reserved q := fun _ => rfl
  have htab : ∀ q, (call m (.release base size)).table q =
      if base ≤ q ∧ q < base+size then .inaccessible else m.table q := fun _ => rfl
  have hold : ∀ q, (call m (.release base size)).reserved q = true →
      ¬ (base ≤ q ∧ q < base+size) ∧ m.reserved q = true := by
    intro q hq
    rw [hres] at hq
    split_ifs at hq with h
    exact ⟨h,hq⟩
  refine ⟨?_,?_,?_,?_,?_⟩
  · exact fun q hq => h₀.below q (hold q hq).2
  · intro q i hq hi
    rw [hres,hres,h₀.whole q i hq hi]
    exact if_congr (AddressSpace.page_within hp.start hp.whole hq hi) rfl rfl
  · intro q hq
    obtain ⟨hnot,hr⟩ := hold q hq
    obtain ⟨c,hc,hfc⟩ := h₀.piece q hr
    refine ⟨c,((hsp q).trans (if_neg hnot)).trans hc,{ hfc with reserved := fun r hr => ?_ }⟩
    rw [hres,if_neg,hfc.reserved r hr]
    intro hin
    -- a piece that reaches into the area is a part of it
    obtain ⟨b,n,harea,h1,h2⟩ := hfc.area
    obtain ⟨h3,h4⟩ := hr
    obtain ⟨rfl,rfl⟩ := U.areas_apart harea hu ⟨by omega,by omega⟩
    obtain ⟨h5,h6⟩ := k.space.within hc
    exact hnot ⟨by omega,by omega⟩
  · intro q c hP hq hc
    obtain ⟨hnot,hr⟩ := hold q hq
    rw [htab,if_neg hnot]
    exact h₀.vacant q c hP hr (((hsp q).trans (if_neg hnot)).symm.trans hc)
  · intro q i hP hi hq
    obtain ⟨hnot,hr⟩ := hold q hq
    rw [htab,if_neg hnot,← h₀.pages q i hP hi hr]
    change Option.map _ (sp.alloc (q+i)) = _
    rw [hsp,if_neg ((AddressSpace.page_within hp.start hp.whole hP hi).not.mpr hnot)]
    rfl

end Ranges

/-- The loop of `vm_release` on whole pieces. -/
theorem releaseLoop_clears (fuel stop : ℕ) (hfuel : stop ≤ p+fuel)
    (hpieces : ∀ q, p ≤ q → q < stop → ∃ a, k.space.alloc q = some a ∧ Mine a ∧ a.kind ≠ .other ∧
      p ≤ a.base ∧ a.base+a.size ≤ stop) :
    ∃ sp, vmReleaseLoop fuel k p stop = some { k with space := sp } ∧
      (∀ q, sp.alloc q = if p ≤ q ∧ q < stop then none else k.space.alloc q) ∧
      KeepsOthers Mine k.space.alloc sp.alloc := by
  have hdone : ¬ p < stop → ∃ sp, some k = some { k with space := sp } ∧
      (∀ q, sp.alloc q = if p ≤ q ∧ q < stop then none else k.space.alloc q) ∧
      KeepsOthers Mine k.space.alloc sp.alloc := by
    intro hlt
    exact ⟨k.space,rfl,fun q => (if_neg (by omega)).symm,.refl _⟩
  induction fuel generalizing k p with
  | zero =>
    have hlt : ¬ p < stop := by omega
    rw [vmReleaseLoop,if_neg hlt]
    exact hdone hlt
  | succ fuel ih =>
    rw [vmReleaseLoop]
    by_cases hlt : p < stop
    · obtain ⟨a,ha,hmine,hother,h1,h2⟩ := hpieces p le_rfl hlt
      obtain ⟨h3,h4⟩ := k.space.within ha
      have hbase : a.base = p := Nat.le_antisymm h3 h1
      have hquery : virtualQuery k p = ⟨p,a.base,a.base+a.size-p,some a.kind⟩ := by
        rw [virtualQuery,ha]
      have hfree : releasePiece k p (some a.kind) = some { k with space := k.space.erase p } := by
        cases hk : a.kind with
        | placeholder => simp only [releasePiece,virtualFree,ha,Option.bind_some,hk,hbase,and_self,if_true]
        | view v => simp only [releasePiece,unmapViewOfFile,ha,Option.bind_some,hk,hbase,if_true]
        | other => exact absurd hk hother
      rw [if_pos hlt,hquery]
      simp only [hfree,Option.bind_some]
      set k₁ : Kernel Owner := { k with space := k.space.erase p } with hk₁
      have hnext : p+(a.base+a.size-p) = a.base+a.size := by omega
      rw [hnext]
      obtain ⟨sp,hsp,halloc,hkeep⟩ := ih (k := k₁) (p := a.base+a.size) (by omega) (by
        intro q hq hq'
        obtain ⟨c,hc,hcm,hco,h5,h6⟩ := hpieces q (by omega) hq'
        have hnot : ¬ a.Has q := fun hc => by
          have := hc.2
          omega
        refine ⟨c,(erase_out ha hnot).trans hc,hcm,hco,?_,h6⟩
        -- a piece that starts before the end of this one is this one
        by_contra hbefore
        have hin : c.Has c.base := ⟨le_rfl,by have := k.space.within hc; obtain ⟨h7,h8⟩ := this; omega⟩
        have heq := (k.space.whole hc hin).symm.trans (k.space.whole ha ⟨by omega,by omega⟩)
        cases heq
        exact hnot (k.space.within hc))
        (fun hlt => ⟨k₁.space,rfl,fun q => (if_neg (by omega)).symm,.refl _⟩)
      refine ⟨sp,hsp,fun q => ?_,(erase_keeps ha hmine).trans hkeep⟩
      rw [halloc]
      by_cases hin : a.Has q
      · obtain ⟨h5,h6⟩ := hin
        rw [if_neg (by omega),if_pos (by omega)]
        exact erase_in ha ⟨h5,h6⟩
      · have hiff : (a.base+a.size ≤ q ∧ q < stop) ↔ (p ≤ q ∧ q < stop) := by
          simp only [Alloc.Has] at hin
          omega
        rw [if_congr hiff rfl rfl]
        exact if_congr Iff.rfl rfl (erase_out ha hin)
    · rw [if_neg hlt]
      exact hdone hlt

/-- The loop of `vm_decommit` on one view. -/
theorem decommitLoop_view {size : ℕ} {v : View} (ha : k.space.alloc p = some ⟨p,size,.view v,.cache⟩)
    (hv : v.replaces = true) (hpos : 0 < size) :
    vmDecommit k p size = some { k with space := k.space.setKind p .placeholder } := by
  have hquery : virtualQuery k p = ⟨p,p,size,some (.view v)⟩ := by
    rw [virtualQuery,ha]
    simp
  obtain ⟨n,rfl⟩ : ∃ n, size = n+1 := ⟨size-1,by omega⟩
  have hunmap : decommitPiece k p (some (.view v)) = some { k with space := k.space.setKind p .placeholder } := by
    simp only [decommitPiece,unmapViewOfFileEx,ha,Option.bind_some,hv,and_self,if_true]
  rw [vmDecommit,vmDecommitLoop,if_pos (by omega),hquery]
  simp only [hunmap,Option.bind_some]
  cases n <;> simp [vmDecommitLoop]

section Staging
variable {h' : Held} {x' : Scratch} {s : Section}

/-- A buffer is written to, sealed or partly used up. -/
theorem Sim.bufferMove (h₀ : Sim P U m w) (hb : Holds m w b h x)
    (hheld : m' = m.hold b (some h')) (hscr : w'.scratch = Function.update w.scratch b (some x'))
    (hsize : h'.size = h.size) (haddr : x'.addr = x.addr) (hsec : x'.sec = x.sec)
    (hat : HeldAt P w'.kernel h' x') (hcount : w'.kernel.count = w.kernel.count)
    (hsp : ∀ q, ¬ (stagingView h x).Has q → w'.kernel.space.alloc q = w.kernel.space.alloc q)
    (hother : ∀ n, n ≠ x.sec → w'.kernel.sections n = w.kernel.sections n)
    (hsame : h.sealed = true → h'.sealed = true ∧ w'.kernel.sections x.sec = w.kernel.sections x.sec) :
    Sim P U m' w' := by
  subst hheld
  have hself : Holds (m.hold b (some h')) w' b h' x' :=
    ⟨hold_self _ _ _,by rw [hscr]; exact Function.update_self _ _ _⟩
  have hne : ∀ b', b' ≠ b → ∀ g y, Holds (m.hold b (some h')) w' b' g y ↔ Holds m w b' g y := by
    intro b' hne g y
    rw [Holds,Holds,hold_of_ne m _ hne,hscr,Function.update_of_ne hne]
  have hback : ∀ {b' g y}, Holds (m.hold b (some h')) w' b' g y → ∃ g' y', Holds m w b' g' y' ∧ y'.sec = y.sec ∧
      (stagingView g' y').Has = (stagingView g y).Has := by
    intro b' g y hy
    by_cases he : b' = b
    · subst he
      cases hself.1.symm.trans hy.1
      cases hself.2.symm.trans hy.2
      refine ⟨h,x,hb,hsec.symm,?_⟩
      funext r
      simp only [Alloc.Has,stagingView,hsize,haddr]
    · exact ⟨g,y,(hne b' he g y).mp hy,rfl,rfl⟩
  have hview : ∀ q v a, m.reserved q = true → w.kernel.space.alloc q = some a → a.kind = .view v →
      w'.kernel.sections v.sec = w.kernel.sections v.sec := by
    intro q v a hq ha hk
    by_cases he : v.sec = x.sec
    · rw [he]
      exact (hsame (h₀.frozen q a v b h x hq ha hk hb he.symm)).2
    · exact hother _ he
  have hout : ∀ q, m.reserved q = true → w'.kernel.space.alloc q = w.kernel.space.alloc q := by
    intro q hq
    refine hsp q (fun hin => ?_)
    rw [h₀.outside hb hin] at hq
    cases hq
  have hmap : Mapped P U (m.hold b (some h')) w'.kernel := by
    refine h₀.mapped.congr rfl rfl hcount.ge hout (fun q a v i hq ha hk => ?_)
    rw [hk]
    simp only [Kind.byte,hview q v a hq ha hk]
  refine ⟨hmap,⟨?_,?_,?_,?_⟩,?_,?_⟩
  · intro b' g hg
    by_cases he : b' = b
    · subst he
      cases hself.1.symm.trans hg
      exact ⟨x',hself.2,hat⟩
    · rw [hold_of_ne m _ he] at hg
      obtain ⟨y,hy,haty⟩ := h₀.buffers.held b' g hg
      have hby : Holds m w b' g y := ⟨hg,hy⟩
      refine ⟨y,((hne b' he g y).mpr hby).2,haty.congr (hsp _ (fun hin => he ?_)) (hother _ (fun hc => he ?_))⟩
      · exact (h₀.single hb hby hin (w.kernel.space.within haty.view)).symm
      · exact h₀.buffers.apart b' b g h y x hby hb hc
  · intro b₁ b₂ g₁ g₂ y₁ y₂ hy₁ hy₂ he
    obtain ⟨_,_,k₁,e₁,-⟩ := hback hy₁
    obtain ⟨_,_,k₂,e₂,-⟩ := hback hy₂
    exact h₀.buffers.apart _ _ _ _ _ _ k₁ k₂ (e₁.trans (he.trans e₂.symm))
  · intro n s hs hopen
    by_cases hn : n = x.sec
    · exact ⟨b,h',x',hself,hsec.trans hn.symm⟩
    · rw [hother n hn] at hs
      obtain ⟨b',g,y,hy,he⟩ := h₀.buffers.handles n s hs hopen
      have hbne : b' ≠ b := by
        rintro rfl
        cases hy.2.symm.trans hb.2
        exact hn he.symm
      exact ⟨b',g,y,(hne b' hbne g y).mpr hy,he⟩
  · intro n hn
    rw [hcount] at hn
    rw [hother n,h₀.buffers.fresh n hn]
    rintro rfl
    obtain ⟨s,hs,-⟩ := (h₀.buffers.heldAt hb).sec
    rw [h₀.buffers.fresh _ hn] at hs
    cases hs
  · intro q a v b' g y hq ha hk hy he
    rw [hold_reserved] at hq
    rw [hout q hq] at ha
    by_cases hbe : b' = b
    · subst hbe
      cases hself.1.symm.trans hy.1
      cases hself.2.symm.trans hy.2
      exact (hsame (h₀.frozen q a v b' h x hq ha hk hb (hsec.symm.trans he))).1
    · exact h₀.frozen q a v b' g y hq ha hk ((hne b' hbe g y).mp hy) he
  · intro q
    have hcached : Cached w'.kernel q ↔ Cached w.kernel q := by
      by_cases hin : (stagingView h x).Has q
      · refine iff_of_true ⟨stagingView h' x',hat.alloc ?_,rfl⟩ (h₀.staging_cached hb hin)
        simpa only [Alloc.Has,stagingView,hsize,haddr] using hin
      · exact OwnedBy.congr (hsp q hin)
    rw [hcached,h₀.ledger q]
    refine or_congr Iff.rfl ⟨?_,?_⟩
    · rintro ⟨b',g,y,hy,hin⟩
      by_cases he : b' = b
      · subst he
        cases hy.1.symm.trans hb.1
        cases hy.2.symm.trans hb.2
        refine ⟨b',h',x',hself,?_⟩
        simpa only [Alloc.Has,stagingView,hsize,haddr] using hin
      · exact ⟨b',g,y,(hne b' he g y).mpr hy,hin⟩
    · rintro ⟨b',g,y,hy,hin⟩
      obtain ⟨g',y',hy',-,hhas⟩ := hback hy
      exact ⟨b',g',y',hy',by rw [hhas]; exact hin⟩

/-- A buffer is used up. Its section stays for what has been published of it. -/
theorem Sim.bufferGone (h₀ : Sim P U m w) (hb : Holds m w b h x) (hs : w.kernel.sections x.sec = some s)
    (hheld : m' = m.hold b none) (hscr : ∀ b', b' ≠ b → w'.scratch b' = w.scratch b')
    (hk : w'.kernel = { w.kernel with
      space := w.kernel.space.erase x.addr
      sections := Function.update w.kernel.sections x.sec (some { s with isOpen := false }) }) :
    Sim P U m' w' := by
  subst hheld
  have hat := h₀.buffers.heldAt hb
  have hne : ∀ {b' g y}, Holds (m.hold b none) w' b' g y → b' ≠ b ∧ Holds m w b' g y := by
    intro b' g y hy
    have he : b' ≠ b := by
      rintro rfl
      have := hy.1
      rw [hold_self] at this
      cases this
    refine ⟨he,?_,(hscr b' he) ▸ hy.2⟩
    rw [← hold_of_ne m none he]
    exact hy.1
  have hstay : ∀ {b' g y}, b' ≠ b → Holds m w b' g y → Holds (m.hold b none) w' b' g y := by
    intro b' g y he hy
    exact ⟨(hold_of_ne m none he).trans hy.1,(hscr b' he).trans hy.2⟩
  have hout : ∀ q, ¬ (stagingView h x).Has q → w'.kernel.space.alloc q = w.kernel.space.alloc q := by
    intro q hq
    rw [hk]
    exact erase_out hat.view hq
  have hsec : ∀ n, n ≠ x.sec → w'.kernel.sections n = w.kernel.sections n := by
    intro n hn
    rw [hk]
    exact Function.update_of_ne hn _ _
  have hclosed : w'.kernel.sections x.sec = some { s with isOpen := false } := by
    rw [hk]
    exact Function.update_self _ _ _
  have hcount : w'.kernel.count = w.kernel.count := by rw [hk]
  have hres : ∀ q, m.reserved q = true → ¬ (stagingView h x).Has q := by
    intro q hq hin
    rw [h₀.outside hb hin] at hq
    cases hq
  have hmap : Mapped P U (m.hold b none) w'.kernel := by
    refine h₀.mapped.congr rfl rfl hcount.ge (fun q hq => hout q (hres q hq)) (fun q a v i hq ha hk => ?_)
    rw [hk]
    by_cases he : v.sec = x.sec
    · simp only [Kind.byte,he,hclosed,hs,Option.map_some]
    · simp only [Kind.byte,hsec _ he]
  refine ⟨hmap,⟨?_,?_,?_,?_⟩,?_,?_⟩
  · intro b' g hg
    have he : b' ≠ b := by
      rintro rfl
      rw [hold_self] at hg
      cases hg
    rw [hold_of_ne m _ he] at hg
    obtain ⟨y,hy,haty⟩ := h₀.buffers.held b' g hg
    have hby : Holds m w b' g y := ⟨hg,hy⟩
    refine ⟨y,(hscr b' he).trans hy,haty.congr (hout _ (fun hin => he ?_)) (hsec _ (fun hc => he ?_))⟩
    · exact (h₀.single hb hby hin (w.kernel.space.within haty.view)).symm
    · exact h₀.buffers.apart b' b g h y x hby hb hc
  · intro b₁ b₂ g₁ g₂ y₁ y₂ hy₁ hy₂ he
    exact h₀.buffers.apart _ _ _ _ _ _ (hne hy₁).2 (hne hy₂).2 he
  · intro n s' hs' hopen
    have hn : n ≠ x.sec := by
      rintro rfl
      cases hclosed.symm.trans hs'
      cases hopen
    rw [hsec n hn] at hs'
    obtain ⟨b',g,y,hy,he⟩ := h₀.buffers.handles n s' hs' hopen
    refine ⟨b',g,y,hstay ?_ hy,he⟩
    rintro rfl
    cases hy.2.symm.trans hb.2
    exact hn he.symm
  · intro n hn
    rw [hcount] at hn
    rw [hsec n,h₀.buffers.fresh n hn]
    rintro rfl
    rw [h₀.buffers.fresh _ hn] at hs
    cases hs
  · intro q a v b' g y hq ha hkd hy he
    rw [hold_reserved] at hq
    rw [hout q (hres q hq)] at ha
    exact h₀.frozen q a v b' g y hq ha hkd (hne hy).2 he
  · intro q
    by_cases hin : (stagingView h x).Has q
    · refine iff_of_false (AddressSpace.not_owned_none ?_) ?_
      · rw [hk]
        exact erase_in hat.view hin
      · rintro (hq | ⟨b',g,y,hy,hiny⟩)
        · exact hres q hq hin
        · exact (hne hy).1 (h₀.single (hne hy).2 hb hiny hin)
    · refine (OwnedBy.congr (hout q hin)).trans ((h₀.ledger q).trans (or_congr Iff.rfl ⟨?_,?_⟩))
      · rintro ⟨b',g,y,hy,hiny⟩
        refine ⟨b',g,y,hstay ?_ hy,hiny⟩
        rintro rfl
        cases hy.1.symm.trans hb.1
        cases hy.2.symm.trans hb.2
        exact hin hiny
      · rintro ⟨b',g,y,hy,hiny⟩
        exact ⟨b',g,y,(hne hy).2,hiny⟩

/-- The bookkeeping of a piece: the count goes up, and with the last piece the
view and the handle go. -/
theorem Sim.consume (h₀ : Sim P U m w) (hb : Holds m w b h x) {r : Span} (hle : r.off+r.len ≤ h.size)
    (hd : ∀ u ∈ h.used, Disjoint u.bytes r.bytes) :
    ∃ k' x', scratchConsume w.kernel x r.len = some (k',x') ∧
      Sim P U (m.hold b (h.use r)) ⟨k',Function.update w.scratch b (some x')⟩ ∧
      KeepsOthers Mine w.kernel.space.alloc k'.space.alloc := by
  have hat := h₀.buffers.heldAt hb
  obtain ⟨s,hs,hssize,hopen,hbytes⟩ := hat.sec
  have hinside : ∀ u ∈ h.used ++ [r], u.off+u.len ≤ h.size := by
    intro u hu
    rcases List.mem_append.mp hu with hu | hu
    · exact hat.inside u hu
    · rw [List.mem_singleton.mp hu]
      exact hle
  have hdisjoint : (h.used ++ [r]).Pairwise (fun a b => Disjoint a.bytes b.bytes) := by
    rw [List.pairwise_append]
    refine ⟨hat.disjoint,List.pairwise_singleton _ _,fun u hu v hv => ?_⟩
    rw [List.mem_singleton.mp hv]
    exact hd u hu
  have htotal : total (h.used ++ [r]) = total h.used+r.len := by simp [total_append]
  have hsum := total_le hdisjoint hinside
  rw [htotal] at hsum
  have hadd : sizeAdd x.consumed r.len = total (h.used ++ [r]) := by
    rw [hat.consumed,htotal]
    exact Nat.mod_eq_of_lt (hsum.trans_lt hat.below)
  rw [← htotal] at hsum
  rw [scratchConsume]
  simp only [hadd,hat.size,if_pos hsum,Held.use]
  by_cases hlast : total (h.used ++ [r]) = h.size
  · let k₁ : Kernel Owner := { w.kernel with space := w.kernel.space.erase x.addr }
    have hunmap : unmapViewOfFile w.kernel x.addr = some k₁ := by
      simp only [unmapViewOfFile,hat.view,Option.bind_some,stagingView,if_true,k₁]
    have hclose : closeHandle k₁ x.sec = some { k₁ with
        sections := Function.update w.kernel.sections x.sec (some { s with isOpen := false }) } := by
      simp only [closeHandle,k₁,hs,Option.bind_some,hopen,if_true]
    rw [if_pos hlast,if_pos hlast,hunmap,Option.bind_some,hclose]
    refine ⟨_,_,rfl,h₀.bufferGone hb hs rfl (fun b' hne => Function.update_of_ne hne _ _) rfl,?_⟩
    exact erase_keeps hat.view rfl
  · rw [if_neg hlast,if_neg hlast]
    refine ⟨_,_,rfl,?_,.refl _⟩
    refine h₀.bufferMove hb rfl rfl rfl rfl rfl ?_ rfl (fun _ _ => rfl) (fun _ _ => rfl) (fun hsd => ⟨hsd,rfl⟩)
    exact ⟨rfl,rfl,lt_of_le_of_ne hsum hlast,hat.below,hat.aligned,hinside,hdisjoint,hat.view,
      s,hs,hssize,hopen,hbytes⟩

end Staging

end FaultCache.VmWin32
