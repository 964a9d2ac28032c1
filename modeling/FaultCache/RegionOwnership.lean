import FaultCache.ServerRegistry

/-!
# Who owns what the factory allocates

A factory call hands over an array of sizes and, where it succeeds, the user
data of a region with a callback to release it. `create_region` gives the array
back on each of its ways out. The user data goes into the region where there is
one, and stays with it until `fc_server_destroy`. The log says which call of the
factory the memory came from.
-/

set_option autoImplicit false

namespace FaultCache.RegionOwnership
open FaultCache.FixedBytes FaultCache.ChunkTables FaultCache.WireFormat FaultCache.ReplyFormat
open FaultCache.LabelledRuns
open FaultCache.ServerMachine (LoopId Mapping ConnState)
open FaultCache.ServerRegistry (RegionEntry RegionRecipe Registry replyFor)

/-- The number of a factory call. -/
abbrev CallId := ℕ

/-- What one factory call returns, and what it leaves in `out_layout`. -/
structure FactoryCall where
  error : Option Bytes
  recipe : RegionRecipe
  userData : ℕ
  destroyUserData : Option ℕ

/-- The allocations of `create_region` that succeed. -/
structure Allocations where
  message : Bool
  region : Bool
  descCopy : Bool
  chunkStart : Bool
  resolved : Bool
  content : Bool

/-- A `fc_server_region`. `owner` is the factory call that it was made for. -/
structure OwnedRegion where
  entry : RegionEntry
  userData : ℕ
  destroyUserData : Option ℕ
  owner : CallId

inductive Event where
  | freeSizes (c : CallId)
  | destroy (c : CallId) (callback userData : ℕ)
  | close (fd : ℕ)
  deriving DecidableEq, Repr

/-- `free(chunk_sizes)`; a null pointer is left alone. -/
def freeSizes (c : CallId) (call : FactoryCall) : List Event :=
  if call.recipe.chunkSizes.isSome then [.freeSizes c] else []

/-- `if (destroy_user_data) destroy_user_data(user_data)`. -/
def destroyUserData (c : CallId) (destroy : Option ℕ) (userData : ℕ) : List Event :=
  match destroy with
  | some f => [.destroy c f userData]
  | none => []

inductive Created where
  | rejected (error : Option Bytes) (log : List Event)
  | overrun
  | built (r : OwnedRegion) (log : List Event)

/-- `create_region` for the answer of factory call `c`. -/
def createRegion (pageSize : ℕ) (c : CallId) (descriptor : Bytes) (call : FactoryCall)
    (a : Allocations) : Created :=
  let free := freeSizes c call
  let destroy := destroyUserData c call.destroyUserData call.userData
  let invalid := Created.rejected (if a.message then some ServerRegistry.invalidLayout else none)
    (free ++ destroy)
  match call.error with
  | some error => .rejected (some error) free
  | none =>
    match call.recipe.chunkSizes, call.recipe.fillChunk with
    | some sizes, some _ =>
      match ChunkTables.createRegion pageSize sizes with
      | .created t =>
        if !a.region || (descriptor ≠ [] && !a.descCopy) || !a.chunkStart || !a.resolved then
          .rejected none (free ++ destroy)
        else if !a.content then .rejected none (free ++ destroy)
        else .built ⟨⟨descriptor,t,[]⟩,call.userData,call.destroyUserData,c⟩ free
      | .overrun =>
        if !a.region || (descriptor ≠ [] && !a.descCopy) || !a.chunkStart || !a.resolved then
          .rejected none (free ++ destroy)
        else .overrun
      | _ => invalid
    | _, _ => invalid

/-- `region_free`. -/
def regionFree (r : OwnedRegion) : List Event :=
  r.entry.mappings.map (fun m => .close m.uffd) ++ destroyUserData r.owner r.destroyUserData r.userData

inductive Phase where
  | serving
  | tearing
  | gone
  deriving DecidableEq, Repr

structure Server where
  pageSize : ℕ
  regions : List OwnedRegion
  conn : LoopId → Option ConnState
  calls : List FactoryCall
  log : List Event
  phase : Phase

def findRegion (regions : List OwnedRegion) (descriptor : Bytes) : Option OwnedRegion :=
  regions.find? (fun r => r.entry.descriptor = descriptor)

/-- The factory has been called once more. -/
def Server.record (s : Server) (call : FactoryCall) (log : List Event) : Server :=
  { s with calls := s.calls ++ [call], log := s.log ++ log }

inductive Handled where
  | closed
  | undefined
  | replied (reply : Resp) (s : Server)

/-- `handle_resolve` up to its reply. A region stays even where the reply finds
no memory. -/
def handleResolve (s : Server) (msg : Bytes) (call : FactoryCall) (a : Allocations)
    (replyMemory : Bool) : Handled :=
  match parseResolve msg with
  | .closed => .closed
  | .malformed => .replied (.rejected none) s
  | .request descriptor =>
    match findRegion s.regions descriptor with
    | some r => .replied (replyFor r.entry.table replyMemory) s
    | none =>
      match createRegion s.pageSize s.calls.length descriptor call a with
      | .rejected error log => .replied (.rejected error) (s.record call log)
      | .overrun => .undefined
      | .built r log =>
        .replied (replyFor r.entry.table replyMemory)
          { s.record call log with regions := r::s.regions }

def attachTo (descriptor : Bytes) (m : Mapping) : List OwnedRegion → List OwnedRegion
  | [] => []
  | r::rs =>
    if r.entry.descriptor = descriptor then
      { r with entry := { r.entry with mappings := m::r.entry.mappings } }::rs
    else r::attachTo descriptor m rs

/-- `handle_attach` up to its reply; `none` where the peer is gone. -/
def handleAttach (s : Server) (msg : Bytes) (uffd : Option ℕ) (memory : Bool) :
    Option (List OwnedRegion) :=
  match parseAttach msg uffd with
  | .closed => none
  | .malformed => some s.regions
  | .request (fd,base,descriptor) =>
    match findRegion s.regions descriptor with
    | none => some s.regions
    | some _ => some (if memory then attachTo descriptor ⟨fd,base⟩ s.regions else s.regions)

inductive Label where
  | enter (t : LoopId)
  | leave (t : LoopId)
  | resolve (t : LoopId) (msg : Bytes) (call : FactoryCall) (a : Allocations) (replyMemory sent : Bool)
  | attach (t : LoopId) (msg : Bytes) (uffd : Option ℕ) (memory sent : Bool)
  | destroy
  | free

def setConn (s : Server) (t : LoopId) (c : Option ConnState) : Server :=
  { s with conn := Function.update s.conn t c }

/-- One pass of a connection, or of the loop of `fc_server_destroy`. A failed
first allocation of a handler leaves the loop, like any other fatal error. -/
def step (s : Server) (l : Label) : Option Server :=
  match s.phase, l with
  | .serving, .enter t => if s.conn t = none then some (setConn s t (some .waitResolve)) else none
  | .serving, .leave t => some (setConn s t none)
  | .serving, .resolve t msg call a replyMemory sent =>
    if s.conn t = some .waitResolve then
      match handleResolve s msg call a replyMemory with
      | .closed => some (setConn s t none)
      | .undefined => none
      | .replied reply s' => some (setConn s' t (ServerRegistry.afterResolve sent reply))
    else none
  | .serving, .attach t msg uffd memory sent =>
    if s.conn t = some .waitAttach then
      match handleAttach s msg uffd memory with
      | none => some (setConn s t none)
      | some regions => some (setConn { s with regions := regions } t (ServerRegistry.afterAttach sent))
    else none
  | .serving, .destroy => some { s with phase := .tearing }
  | .tearing, .free =>
    match s.regions with
    | [] => some { s with phase := .gone }
    | r::rs => some { s with regions := rs, log := s.log ++ regionFree r }
  | _, _ => none

/-- Any order of steps, also where a connection is still there when the server is
destroyed. -/
def Move (s : Server) (l : Label) (s' : Server) : Prop := step s l = some s'

/-- `fc_server_create`. -/
def serverStart (pageSize : ℕ) : Server := ⟨pageSize,[],fun _ => none,[],[],.serving⟩

/-- The releases of the user data of factory call `c`, by callback and argument. -/
def destroysOf (c : CallId) (log : List Event) : List (ℕ × ℕ) :=
  log.filterMap (fun e => match e with
    | .destroy c' f u => if c' = c then some (f,u) else none
    | _ => none)

def freesOf (c : CallId) (log : List Event) : ℕ := log.count (.freeSizes c)

/-- What has to be called to release the user data. -/
def owing (destroy : Option ℕ) (userData : ℕ) : List (ℕ × ℕ) := destroy.toList.map (·,userData)

section Logs
variable {c d : CallId} {log log' : List Event}

@[simp] theorem destroysOf_nil (c : CallId) : destroysOf c [] = [] := rfl

@[simp] theorem freesOf_nil (c : CallId) : freesOf c [] = 0 := rfl

@[simp] theorem destroysOf_append (c : CallId) (log log' : List Event) :
    destroysOf c (log ++ log') = destroysOf c log ++ destroysOf c log' := List.filterMap_append

@[simp] theorem freesOf_append (c : CallId) (log log' : List Event) :
    freesOf c (log ++ log') = freesOf c log+freesOf c log' := List.count_append

@[simp] theorem destroysOf_freeSizes (c d : CallId) (call : FactoryCall) :
    destroysOf c (freeSizes d call) = [] := by
  unfold freeSizes
  split_ifs <;> rfl

@[simp] theorem freesOf_freeSizes (c d : CallId) (call : FactoryCall) : freesOf c (freeSizes d call) =
    if d = c then call.recipe.chunkSizes.isSome.toNat else 0 := by
  cases hs : call.recipe.chunkSizes with
  | none => simp [freeSizes,freesOf,hs]
  | some sizes => simp [freeSizes,freesOf,hs,List.count_cons]

@[simp] theorem destroysOf_destroyUserData (c d : CallId) (destroy : Option ℕ) (u : ℕ) :
    destroysOf c (destroyUserData d destroy u) = if d = c then owing destroy u else [] := by
  cases destroy with
  | none => simp [destroyUserData,owing]
  | some f =>
    by_cases hd : d = c
    · simp [destroyUserData,destroysOf,owing,hd]
    · simp [destroyUserData,destroysOf,hd]

@[simp] theorem freesOf_destroyUserData (c d : CallId) (destroy : Option ℕ) (u : ℕ) :
    freesOf c (destroyUserData d destroy u) = 0 := by
  cases destroy <;> simp [destroyUserData,freesOf]

@[simp] theorem destroysOf_regionFree (c : CallId) (r : OwnedRegion) : destroysOf c (regionFree r) =
    if r.owner = c then owing r.destroyUserData r.userData else [] := by
  have hclose : destroysOf c (r.entry.mappings.map (fun m => .close m.uffd)) = [] := by
    rw [destroysOf,List.filterMap_eq_nil_iff]
    intro e he
    obtain ⟨m,-,rfl⟩ := List.mem_map.mp he
    rfl
  rw [regionFree,destroysOf_append,hclose,List.nil_append,destroysOf_destroyUserData]

@[simp] theorem freesOf_regionFree (c : CallId) (r : OwnedRegion) : freesOf c (regionFree r) = 0 := by
  have hclose : freesOf c (r.entry.mappings.map (fun m => .close m.uffd)) = 0 := by
    rw [freesOf,List.count_eq_zero]
    simp
  rw [regionFree,freesOf_append,hclose,freesOf_destroyUserData]

end Logs

/-- The user data that a region has taken over. -/
def OwnedRegion.claim (r : OwnedRegion) : CallId × Option ℕ × ℕ :=
  (r.owner,r.destroyUserData,r.userData)

/-- What a factory call is still to be paid once no region holds its user data. -/
def FactoryCall.owed (call : FactoryCall) : List (ℕ × ℕ) :=
  match call.error with
  | some _ => []
  | none => owing call.destroyUserData call.userData

/-- Every array has been freed, and the user data of a call has been released
unless a region holds it. -/
structure Ledger (claims : List (CallId × Option ℕ × ℕ)) (calls : List FactoryCall) (log : List Event) :
    Prop where
  owners : (claims.map Prod.fst).Nodup
  claim : ∀ q ∈ claims, ∃ call, calls[q.1]? = some call ∧ call.owed = owing q.2.1 q.2.2
  destroyed : ∀ c call, calls[c]? = some call →
    destroysOf c log = if c ∈ claims.map Prod.fst then [] else call.owed
  freed : ∀ c call, calls[c]? = some call → freesOf c log = call.recipe.chunkSizes.isSome.toNat
  future : ∀ c, calls.length ≤ c → destroysOf c log = [] ∧ freesOf c log = 0

def Server.Paid (s : Server) : Prop := Ledger (s.regions.map OwnedRegion.claim) s.calls s.log

section Ledger
variable {claims : List (CallId × Option ℕ × ℕ)} {calls : List FactoryCall} {log : List Event}
  {call : FactoryCall}

theorem Ledger.claimed (h : Ledger claims calls log) {c : CallId} (hc : c ∈ claims.map Prod.fst) :
    c < calls.length := by
  obtain ⟨q,hq,rfl⟩ := List.mem_map.mp hc
  obtain ⟨call,hcall,-⟩ := h.claim q hq
  exact (List.getElem?_eq_some_iff.mp hcall).1

theorem getElem?_concat_cases {α : Type*} {xs : List α} {x y : α} {i : ℕ}
    (h : (xs ++ [x])[i]? = some y) : xs[i]? = some y ∨ (i = xs.length ∧ y = x) := by
  rcases Nat.lt_trichotomy i xs.length with hlt | rfl | hgt
  · rw [List.getElem?_append_left hlt] at h
    exact Or.inl h
  · rw [List.getElem?_concat_length] at h
    exact Or.inr ⟨rfl,(Option.some.inj h).symm⟩
  · rw [List.getElem?_eq_none (by simp; omega)] at h
    cases h

/-- One more call: the array is freed, and the user data is released at once or
goes to a region. -/
theorem Ledger.called (h : Ledger claims calls log) (call : FactoryCall) {paid : List Event}
    (new : List (CallId × Option ℕ × ℕ))
    (hnew : ∀ q ∈ new, q.1 = calls.length ∧ call.owed = owing q.2.1 q.2.2)
    (hone : (new.map Prod.fst).Nodup)
    (hd : ∀ c, destroysOf c paid = if calls.length = c ∧ new = [] then call.owed else [])
    (hf : ∀ c, freesOf c paid = if calls.length = c then call.recipe.chunkSizes.isSome.toNat else 0) :
    Ledger (new ++ claims) (calls ++ [call]) (log ++ paid) := by
  have hfresh : calls.length ∉ claims.map Prod.fst := fun hc => absurd (h.claimed hc) (lt_irrefl _)
  have hnewid : ∀ c ∈ new.map Prod.fst, c = calls.length := by
    intro c hc
    obtain ⟨q,hq,rfl⟩ := List.mem_map.mp hc
    exact (hnew q hq).1
  obtain ⟨hfut1,hfut2⟩ := h.future calls.length (le_refl _)
  refine ⟨?_,?_,?_,?_,?_⟩
  · rw [List.map_append,List.nodup_append]
    refine ⟨hone,h.owners,?_⟩
    rintro c hc d hd rfl
    exact hfresh (hnewid c hc ▸ hd)
  · intro q hq
    rcases List.mem_append.mp hq with hq | hq
    · obtain ⟨h1,h2⟩ := hnew q hq
      exact ⟨call,by rw [h1,List.getElem?_concat_length],h2⟩
    · obtain ⟨call',hcall,ho⟩ := h.claim q hq
      refine ⟨call',?_,ho⟩
      rw [List.getElem?_append_left (h.claimed (List.mem_map_of_mem hq))]
      exact hcall
  · intro c call' hcall
    simp only [destroysOf_append,hd,List.map_append,List.mem_append]
    rcases getElem?_concat_cases hcall with hold | ⟨rfl,rfl⟩
    · have hlt := (List.getElem?_eq_some_iff.mp hold).1
      have hne : calls.length ≠ c := by omega
      have hnot : c ∉ new.map Prod.fst := fun hc => hne (hnewid c hc).symm
      rw [if_neg (fun hc => hne hc.1),List.append_nil,h.destroyed c call' hold]
      simp only [hnot,false_or]
    · rw [hfut1,List.nil_append]
      cases new with
      | nil => simp [hfresh]
      | cons q qs =>
        have hq := (hnew q List.mem_cons_self).1
        simp [hq]
  · intro c call' hcall
    rw [freesOf_append,hf]
    rcases getElem?_concat_cases hcall with hold | ⟨rfl,rfl⟩
    · have hlt := (List.getElem?_eq_some_iff.mp hold).1
      rw [h.freed c call' hold,if_neg (by omega),Nat.add_zero]
    · rw [hfut2,if_pos rfl,Nat.zero_add]
  · intro c hc
    rw [List.length_append,List.length_singleton] at hc
    obtain ⟨h1,h2⟩ := h.future c (by omega)
    rw [destroysOf_append,freesOf_append,hd,hf,h1,h2,if_neg (by omega),if_neg (by omega)]
    exact ⟨rfl,rfl⟩

/-- A region goes, and releases the user data it holds. -/
theorem Ledger.freed_region {r : OwnedRegion} (h : Ledger (r.claim::claims) calls log) :
    Ledger claims calls (log ++ regionFree r) := by
  have hnd := h.owners
  rw [List.map_cons,List.nodup_cons] at hnd
  refine ⟨hnd.2,fun q hq => h.claim q (List.mem_cons_of_mem _ hq),?_,?_,?_⟩
  · intro c call hcall
    simp only [destroysOf_append,destroysOf_regionFree,h.destroyed c call hcall,List.map_cons,List.mem_cons]
    by_cases hc : c = r.claim.1
    · subst hc
      obtain ⟨call',hcall',ho⟩ := h.claim r.claim List.mem_cons_self
      obtain rfl := Option.some.inj (hcall.symm.trans hcall')
      rw [if_pos (Or.inl rfl),if_pos (show r.owner = r.claim.1 from rfl),if_neg hnd.1,ho,List.nil_append]
      rfl
    · rw [if_neg (show ¬ r.owner = c from fun he => hc he.symm),List.append_nil]
      simp only [hc,false_or]
  · intro c call hcall
    rw [freesOf_append,freesOf_regionFree,h.freed c call hcall,Nat.add_zero]
  · intro c hc
    obtain ⟨h1,h2⟩ := h.future c hc
    have hlt : r.owner < calls.length := h.claimed List.mem_cons_self
    have hne : r.owner ≠ c := ne_of_lt (lt_of_lt_of_le hlt hc)
    rw [destroysOf_append,freesOf_append,destroysOf_regionFree,freesOf_regionFree,h1,h2,if_neg hne]
    exact ⟨rfl,rfl⟩

end Ledger

section Steps
variable {s s' : Server} {l : Label} {P : ℕ} {c : CallId} {descriptor : Bytes} {call : FactoryCall}
  {a : Allocations}

/-- What `create_region` has released on its way out. -/
theorem createRegion_rejected {error : Option Bytes} {log : List Event}
    (h : createRegion P c descriptor call a = .rejected error log) :
    (∀ d, destroysOf d log = if c = d then call.owed else []) ∧
    ∀ d, freesOf d log = if c = d then call.recipe.chunkSizes.isSome.toNat else 0 := by
  have hpaid : log = freeSizes c call ++ (match call.error with
      | some _ => []
      | none => destroyUserData c call.destroyUserData call.userData) := by
    unfold createRegion at h
    cases he : call.error with
    | some e =>
      simp only [he] at h
      cases h
      simp
    | none =>
      simp only [he] at h
      split at h
      · split at h
        · split_ifs at h
          · cases h
            rfl
          · cases h
            rfl
        · split_ifs at h
          cases h
          rfl
        · cases h
          rfl
      · cases h
        rfl
  subst hpaid
  constructor
  · intro d
    cases he : call.error with
    | some e => simp [FactoryCall.owed,he]
    | none => simp [FactoryCall.owed,he]
  · intro d
    cases call.error with
    | some e => simp
    | none => simp

/-- A region takes the user data over, and the array has been freed. -/
theorem createRegion_built {r : OwnedRegion} {log : List Event}
    (h : createRegion P c descriptor call a = .built r log) :
    log = freeSizes c call ∧ call.error = none ∧
    r.claim = (c,call.destroyUserData,call.userData) := by
  unfold createRegion at h
  cases he : call.error with
  | some e =>
    simp only [he] at h
    cases h
  | none =>
    simp only [he] at h
    split at h
    · split at h
      · split_ifs at h
        cases h
        exact ⟨rfl,rfl,rfl⟩
      · split_ifs at h
      · cases h
    · cases h

theorem attachTo_claims (m : Mapping) (rs : List OwnedRegion) :
    (attachTo descriptor m rs).map OwnedRegion.claim = rs.map OwnedRegion.claim := by
  induction rs with
  | nil => rfl
  | cons r rs ih =>
    rw [attachTo]
    split_ifs
    · rfl
    · exact congrArg (r.claim::·) ih

theorem handleResolve_paid {msg : Bytes} {replyMemory : Bool} {reply : Resp} (h : s.Paid)
    (hr : handleResolve s msg call a replyMemory = .replied reply s') : s'.Paid := by
  unfold handleResolve at hr
  split at hr
  · cases hr
  · cases hr
    exact h
  · next descriptor hp =>
    split at hr
    · cases hr
      exact h
    · split at hr
      · next error log hc =>
        cases hr
        obtain ⟨hd,hf⟩ := createRegion_rejected hc
        exact Ledger.called h call [] (by simp) List.nodup_nil (by simpa using hd) hf
      · cases hr
      · next r log hc =>
        cases hr
        obtain ⟨rfl,he,hclaim⟩ := createRegion_built hc
        refine Ledger.called h call [r.claim] ?_ (List.nodup_singleton _) ?_ ?_
        · rintro q hq
          obtain rfl := List.mem_singleton.mp hq
          rw [hclaim]
          simp [FactoryCall.owed,he]
        · simp
        · simp

theorem handleAttach_claims {msg : Bytes} {uffd : Option ℕ} {memory : Bool} {regions : List OwnedRegion}
    (h : handleAttach s msg uffd memory = some regions) :
    regions.map OwnedRegion.claim = s.regions.map OwnedRegion.claim := by
  unfold handleAttach at h
  split at h
  · cases h
  · cases h
    rfl
  · split at h
    · cases h
      rfl
    · split_ifs at h
      · cases h
        exact attachTo_claims _ _
      · cases h
        rfl

/-- Every step leaves the books in order. -/
theorem step_paid (h : s.Paid) (hs : step s l = some s') : s'.Paid := by
  unfold step at hs
  split at hs
  · split_ifs at hs
    cases hs
    exact h
  · cases hs
    exact h
  · split_ifs at hs
    split at hs
    · cases hs
      exact h
    · cases hs
    · next reply s₁ hr =>
      cases hs
      have hpaid : s₁.Paid := handleResolve_paid h hr
      exact hpaid
  · split_ifs at hs
    split at hs
    · cases hs
      exact h
    · next regions hr =>
      cases hs
      have hclaims := handleAttach_claims hr
      unfold Server.Paid at h ⊢
      simp only [setConn,hclaims]
      exact h
  · cases hs
    exact h
  · split at hs
    · cases hs
      exact h
    · next r rs hr =>
      cases hs
      unfold Server.Paid at h ⊢
      rw [hr] at h
      exact h.freed_region
  · cases hs

theorem start_paid (P : ℕ) : (serverStart P).Paid :=
  ⟨List.nodup_nil,by simp [serverStart],by simp [serverStart],by simp [serverStart],by simp [serverStart]⟩

theorem handleResolve_phase {msg : Bytes} {replyMemory : Bool} {reply : Resp}
    (hr : handleResolve s msg call a replyMemory = .replied reply s') : s'.phase = s.phase := by
  unfold handleResolve at hr
  split at hr
  · cases hr
  · cases hr
    rfl
  · split at hr
    · cases hr
      rfl
    · split at hr
      · cases hr
        rfl
      · cases hr
      · cases hr
        rfl

/-- The loop of `fc_server_destroy` ends when no region is left. -/
theorem step_gone (hs : step s l = some s') (hg : s'.phase = .gone) : s'.regions = [] := by
  unfold step at hs
  split at hs
  case h_1 hp =>
    split_ifs at hs
    cases hs
    cases hp.symm.trans hg
  case h_2 hp =>
    cases hs
    cases hp.symm.trans hg
  case h_3 hp =>
    split_ifs at hs
    split at hs
    · cases hs
      cases hp.symm.trans hg
    · cases hs
    · next hr =>
      cases hs
      cases (hp.symm.trans (handleResolve_phase hr).symm).trans hg
  case h_4 hp =>
    split_ifs at hs
    split at hs
    · cases hs
      cases hp.symm.trans hg
    · cases hs
      cases hp.symm.trans hg
  case h_5 =>
    cases hs
    cases hg
  case h_6 hp =>
    split at hs
    · next hr =>
      cases hs
      exact hr
    · cases hs
      cases hp.symm.trans hg
  case h_7 => cases hs

/-- The books are in order throughout a run. -/
theorem run_paid {ms : List (Server × Label)} (hr : Run Move (serverStart P) ms s) :
    s.Paid ∧ ∀ m ∈ ms, m.1.Paid :=
  hr.invariant (start_paid P) step_paid

/-- The user data of a registered region has not been released. -/
theorem Server.Paid.held (h : s.Paid) {r : OwnedRegion} (hr : r ∈ s.regions) :
    destroysOf r.owner s.log = [] := by
  have hmem : r.owner ∈ (s.regions.map OwnedRegion.claim).map Prod.fst :=
    List.mem_map.mpr ⟨r.claim,List.mem_map_of_mem hr,rfl⟩
  obtain ⟨call,hcall,-⟩ := Ledger.claim h r.claim (List.mem_map_of_mem hr)
  rw [Ledger.destroyed h r.owner call hcall,if_pos hmem]

/-- Once the server is gone, every successful factory call has had its user data
released once, with its own callback, and never under a region that was still
registered. Calls that failed have not, and every array has been freed once. -/
theorem factory_results_released_once {ms : List (Server × Label)}
    (hr : Run Move (serverStart P) ms s) (hg : s.phase = .gone) :
    (∀ c call, s.calls[c]? = some call →
      (call.error = none → ∀ f, call.destroyUserData = some f →
        destroysOf c s.log = [(f,call.userData)]) ∧
      (call.error ≠ none ∨ call.destroyUserData = none → destroysOf c s.log = []) ∧
      freesOf c s.log = if call.recipe.chunkSizes.isSome then 1 else 0) ∧
    ∀ m ∈ ms, ∀ r ∈ m.1.regions, destroysOf r.owner m.1.log = [] := by
  obtain ⟨hpaid,hall⟩ := run_paid hr
  refine ⟨?_,fun m hm r hmem => (hall m hm).held hmem⟩
  have hempty : s.regions = [] := by
    cases hr with
    | start => cases hg
    | move _ hm => exact step_gone hm hg
  unfold Server.Paid at hpaid
  rw [hempty] at hpaid
  intro c call hcall
  have hd : destroysOf c s.log = call.owed := (hpaid.destroyed c call hcall).trans (if_neg List.not_mem_nil)
  refine ⟨?_,?_,?_⟩
  · intro he f hf
    rw [hd]
    simp [FactoryCall.owed,he,owing,hf]
  · rintro (he | hf)
    · obtain ⟨e,he⟩ := Option.ne_none_iff_exists'.mp he
      rw [hd]
      simp [FactoryCall.owed,he]
    · rw [hd]
      cases he : call.error with
      | some e => simp [FactoryCall.owed,he]
      | none => simp [FactoryCall.owed,he,owing,hf]
  · rw [hpaid.freed c call hcall]
    cases call.recipe.chunkSizes.isSome <;> rfl

def threeChunks : RegionRecipe where
  chunkSizes := some [6,6,4]
  fillChunk := some (fun _ _ => 0)
  count := by rintro _ ⟨⟩; decide
  widths := by rintro _ ⟨⟩; decide

/-- The factory accepts descriptor 1 and refuses descriptor 2, for which it had
already allocated its sizes and its user data. -/
def acceptAndRefuse : List Label :=
  [.enter 0,.resolve 0 (ServerRegistry.resolveMsg [1]) ⟨none,threeChunks,5,some 9⟩
      ⟨true,true,true,true,true,true⟩ true true,
    .attach 0 (ServerRegistry.attachMsg 4096 [1]) (some 7) true true,
    .resolve 0 (ServerRegistry.resolveMsg [2]) ⟨some [],threeChunks,6,some 9⟩
      ⟨true,true,true,true,true,true⟩ true true,
    .leave 0,.destroy,.free,.free]

theorem factory_results_released_once_two :
    ∃ ms s, trace step (serverStart 4096) acceptAndRefuse = some (ms,s) ∧ s.phase = .gone ∧
      s.log = [.freeSizes 0,.freeSizes 1,.close 7,.destroy 0 9 5] ∧
      ∀ c call, s.calls[c]? = some call → freesOf c s.log =
        if call.recipe.chunkSizes.isSome then 1 else 0 := by
  have hend : (trace step (serverStart 4096) acceptAndRefuse).map (fun r => (r.2.phase,r.2.log)) =
      some (.gone,[.freeSizes 0,.freeSizes 1,.close 7,.destroy 0 9 5]) := by decide +kernel
  obtain ⟨⟨ms,s⟩,h,he⟩ := Option.map_eq_some_iff.mp hend
  obtain ⟨hg,hlog⟩ := Prod.mk.inj he
  have hall := (factory_results_released_once (trace_run h) hg).1
  exact ⟨ms,s,h,hg,hlog,fun c call hcall => (hall c call hcall).2.2⟩

/-- What the other model of the server sees of a factory call. -/
def FactoryCall.answer (call : FactoryCall) : Except Bytes RegionRecipe :=
  match call.error with
  | some error => .error error
  | none => .ok call.recipe

/-- The first four allocations succeed. -/
def Allocations.first (a : Allocations) (descriptor : Bytes) : Bool :=
  a.region && (descriptor = [] || a.descCopy) && a.chunkStart && a.resolved

/-- The allocations that the layout asks for all succeed. -/
def Allocations.memory (a : Allocations) (P : ℕ) (descriptor : Bytes) (call : FactoryCall) : Bool :=
  match call.recipe.chunkSizes, call.recipe.fillChunk with
  | some sizes, some _ =>
    match ChunkTables.createRegion P sizes with
    | .created _ => a.first descriptor && a.content
    | .overrun => a.first descriptor && a.content
    | _ => a.message
  | _, _ => a.message

def Server.registry (s : Server) : Registry := ⟨s.pageSize,s.regions.map OwnedRegion.entry,s.conn⟩

def erase (P : ℕ) : Label → Option ServerRegistry.Label
  | .enter t => some (.enter t)
  | .leave t => some (.leave t)
  | .resolve t msg call a replyMemory sent =>
    let memory := match parseResolve msg with
      | .request descriptor => a.memory P descriptor call
      | _ => false
    some (.resolve t msg call.answer memory replyMemory sent)
  | .attach t msg uffd memory sent => some (.attach t msg uffd memory sent)
  | .destroy => none
  | .free => none

theorem first_fails (a : Allocations) (descriptor : Bytes) :
    (!a.region || (descriptor ≠ [] && !a.descCopy) || !a.chunkStart || !a.resolved) =
      !a.first descriptor := by
  simp [Allocations.first,Bool.not_and]

/-- Leaving the owners out, `create_region` is the other model's. -/
theorem createRegion_registry :
    (∀ error log, createRegion P c descriptor call a = .rejected error log →
      ServerRegistry.createRegion P call.answer (a.memory P descriptor call) = .rejected error) ∧
    ∀ r log, createRegion P c descriptor call a = .built r log →
      ServerRegistry.createRegion P call.answer (a.memory P descriptor call) = .built r.entry.table ∧
        r.entry = ⟨descriptor,r.entry.table,[]⟩ := by
  unfold createRegion ServerRegistry.createRegion FactoryCall.answer Allocations.memory
  rw [first_fails]
  cases he : call.error with
  | some e => exact ⟨fun _ _ h => by cases h; rfl,fun _ _ h => by cases h⟩
  | none =>
    cases hs : call.recipe.chunkSizes with
    | none => exact ⟨fun _ _ h => by cases h; simp [hs],fun _ _ h => by cases h⟩
    | some sizes =>
      cases hf : call.recipe.fillChunk with
      | none => exact ⟨fun _ _ h => by cases h; simp [hs,hf],fun _ _ h => by cases h⟩
      | some fill =>
        obtain ⟨creation,hc⟩ : ∃ creation, ChunkTables.createRegion P sizes = creation := ⟨_,rfl⟩
        cases creation with
        | created t =>
          simp only [hs,hf,hc]
          cases a.first descriptor with
          | false => exact ⟨fun _ _ h => by cases h; rfl,fun _ _ h => by cases h⟩
          | true =>
            cases a.content with
            | false => exact ⟨fun _ _ h => by cases h; rfl,fun _ _ h => by cases h⟩
            | true => exact ⟨fun _ _ h => (by cases h),fun _ _ h => by cases h; exact ⟨rfl,rfl⟩⟩
        | overrun =>
          simp only [hs,hf,hc]
          cases a.first descriptor with
          | false => exact ⟨fun _ _ h => by cases h; rfl,fun _ _ h => by cases h⟩
          | true => exact ⟨fun _ _ h => (by cases h),fun _ _ h => by cases h⟩
        | misuse | einval | invalidLayout =>
          simp only [hs,hf,hc]
          exact ⟨fun _ _ h => by cases h; rfl,fun _ _ h => by cases h⟩

theorem findRegion_registry (rs : List OwnedRegion) (descriptor : Bytes) :
    ServerRegistry.findRegion (rs.map OwnedRegion.entry) descriptor =
      (findRegion rs descriptor).map OwnedRegion.entry := by
  rw [ServerRegistry.findRegion,findRegion,List.find?_map]
  rfl

theorem attachTo_registry (m : Mapping) (rs : List OwnedRegion) (descriptor : Bytes) :
    (attachTo descriptor m rs).map OwnedRegion.entry =
      ServerRegistry.attachTo descriptor m (rs.map OwnedRegion.entry) := by
  induction rs with
  | nil => rfl
  | cons r rs ih =>
    rw [attachTo,List.map_cons,ServerRegistry.attachTo]
    split_ifs
    · rfl
    · exact congrArg (r.entry::·) ih

theorem handleResolve_closed {msg : Bytes} {replyMemory : Bool}
    (hr : handleResolve s msg call a replyMemory = .closed) : parseResolve msg = .closed := by
  unfold handleResolve at hr
  split at hr
  · next hp => exact hp
  · cases hr
  · split at hr
    · cases hr
    · split at hr
      · cases hr
      · cases hr
      · cases hr

theorem handleResolve_registry {msg : Bytes} {replyMemory : Bool} {reply : Resp}
    (hr : handleResolve s msg call a replyMemory = .replied reply s') :
    ServerRegistry.handleResolve s.registry msg call.answer
      (match parseResolve msg with
        | .request descriptor => a.memory s.pageSize descriptor call
        | _ => false) replyMemory = .replied reply s'.registry.regions ∧
    s'.pageSize = s.pageSize ∧ s'.conn = s.conn := by
  unfold handleResolve at hr
  unfold ServerRegistry.handleResolve
  cases hp : parseResolve msg with
  | closed =>
    rw [hp] at hr
    cases hr
  | malformed =>
    rw [hp] at hr
    cases hr
    exact ⟨rfl,rfl,rfl⟩
  | request d =>
    rw [hp] at hr
    simp only [Server.registry,findRegion_registry] at hr ⊢
    cases hf : findRegion s.regions d with
    | some r =>
      rw [hf] at hr
      cases hr
      exact ⟨rfl,rfl,rfl⟩
    | none =>
      rw [hf] at hr
      simp only [Option.map_none] at hr ⊢
      cases hc : createRegion s.pageSize s.calls.length d call a with
      | rejected error log =>
        rw [hc] at hr
        cases hr
        rw [createRegion_registry.1 _ _ hc]
        exact ⟨rfl,rfl,rfl⟩
      | overrun =>
        rw [hc] at hr
        cases hr
      | built r log =>
        rw [hc] at hr
        cases hr
        obtain ⟨hbuilt,hentry⟩ := createRegion_registry.2 _ _ hc
        rw [hbuilt]
        refine ⟨?_,rfl,rfl⟩
        simp only [List.map_cons,← hentry]

theorem handleAttach_registry (s : Server) (msg : Bytes) (uffd : Option ℕ) (memory : Bool) :
    (handleAttach s msg uffd memory = none → ServerRegistry.handleAttach s.registry msg uffd memory = .closed) ∧
    ∀ regions, handleAttach s msg uffd memory = some regions → ∃ ok,
      ServerRegistry.handleAttach s.registry msg uffd memory = .replied ok (regions.map OwnedRegion.entry) := by
  unfold handleAttach ServerRegistry.handleAttach
  cases hp : parseAttach msg uffd with
  | closed => exact ⟨fun _ => rfl,fun _ h => by cases h⟩
  | malformed => exact ⟨fun h => (by cases h),fun _ h => by cases h; exact ⟨_,rfl⟩⟩
  | request q =>
    obtain ⟨fd,base,d⟩ := q
    simp only [Server.registry,findRegion_registry]
    cases hf : findRegion s.regions d with
    | none => exact ⟨fun h => (by cases h),fun _ h => by cases h; exact ⟨_,rfl⟩⟩
    | some r =>
      refine ⟨fun h => (by cases h),fun regions h => ?_⟩
      cases h
      cases memory with
      | true => exact ⟨true,by simp [attachTo_registry]⟩
      | false => exact ⟨false,by simp⟩

/-- A connection's step is the registry's step, with the owners left out. -/
theorem step_registry {l' : ServerRegistry.Label} (hs : step s l = some s')
    (hl : erase s.pageSize l = some l') : ServerRegistry.step s.registry l' = some s'.registry := by
  have hserving : s.phase = .serving := by
    cases hp : s.phase with
    | serving => rfl
    | tearing =>
      cases l with
      | destroy | free => cases hl
      | _ => simp [step,hp] at hs
    | gone => cases l <;> simp [step,hp] at hs
  cases l with
  | enter t =>
    cases hl
    simp only [step,hserving] at hs
    split_ifs at hs with hc
    cases hs
    exact if_pos hc
  | leave t =>
    cases hl
    simp only [step,hserving] at hs
    cases hs
    rfl
  | resolve t msg call a replyMemory sent =>
    cases hl
    simp only [step,hserving] at hs
    split_ifs at hs with hc
    simp only [ServerRegistry.step]
    rw [if_pos (show s.registry.conn t = some .waitResolve from hc)]
    cases hr : handleResolve s msg call a replyMemory with
    | closed =>
      rw [hr] at hs
      cases hs
      simp only [ServerRegistry.handleResolve,handleResolve_closed hr]
      rfl
    | undefined =>
      rw [hr] at hs
      cases hs
    | replied reply s₁ =>
      rw [hr] at hs
      cases hs
      obtain ⟨h1,h2,h3⟩ := handleResolve_registry hr
      rw [h1]
      simp only [ServerRegistry.setConn,Server.registry,setConn,h2,h3]
  | attach t msg uffd memory sent =>
    cases hl
    simp only [step,hserving] at hs
    split_ifs at hs with hc
    simp only [ServerRegistry.step]
    rw [if_pos (show s.registry.conn t = some .waitAttach from hc)]
    obtain ⟨hclosed,hreply⟩ := handleAttach_registry s msg uffd memory
    cases hr : handleAttach s msg uffd memory with
    | none =>
      rw [hr] at hs
      cases hs
      rw [hclosed hr]
      rfl
    | some regions =>
      rw [hr] at hs
      cases hs
      obtain ⟨ok,hok⟩ := hreply regions hr
      rw [hok]
      rfl
  | destroy => cases hl
  | free => cases hl

/-- A server that still serves was serving, and a connection has moved. -/
theorem step_serving (hs : step s l = some s') (hserving : s'.phase = .serving) :
    s.phase = .serving ∧ ∃ l', erase s.pageSize l = some l' := by
  cases hp : s.phase with
  | serving =>
    refine ⟨rfl,?_⟩
    cases l with
    | destroy =>
      simp only [step,hp] at hs
      cases hs
      cases hserving
    | free => simp [step,hp] at hs
    | enter t => exact ⟨_,rfl⟩
    | leave t => exact ⟨_,rfl⟩
    | resolve t msg call a replyMemory sent => exact ⟨_,rfl⟩
    | attach t msg uffd memory sent => exact ⟨_,rfl⟩
  | tearing =>
    cases l with
    | free =>
      simp only [step,hp] at hs
      cases hregions : s.regions with
      | nil =>
        rw [hregions] at hs
        cases hs
        cases hserving
      | cons r rs =>
        rw [hregions] at hs
        cases hs
        cases hserving
    | enter | leave | resolve | attach | destroy => simp [step,hp] at hs
  | gone => cases l <;> simp [step,hp] at hs

/-- Until the server is destroyed, its regions are those that the registry has
after the same requests. -/
theorem run_registry {ms : List (Server × Label)} (hr : Run Move (serverStart P) ms s)
    (hserving : s.phase = .serving) :
    ∃ ns, Run ServerRegistry.Move (ServerRegistry.registryStart P) ns s.registry ∧
      ns.map Prod.snd = ms.filterMap (fun m => erase m.1.pageSize m.2) := by
  induction hr with
  | start => exact ⟨[],.start,rfl⟩
  | move _ hm ih =>
    obtain ⟨hbefore,l',hl⟩ := step_serving hm hserving
    obtain ⟨ns,hn,hlabels⟩ := ih hbefore
    refine ⟨_,hn.move (step_registry hm hl),?_⟩
    simp only [List.map_cons,List.filterMap_cons,hl,hlabels]

end Steps

end FaultCache.RegionOwnership
