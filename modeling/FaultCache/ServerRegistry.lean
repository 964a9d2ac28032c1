import FaultCache.LabelledRuns
import FaultCache.ReplyFormat
import FaultCache.ServerMachine

/-!
# The server's regions over any interleaving of requests

`server->regions` is searched by descriptor and grows by one region whenever the
factory accepts a descriptor that is not in it. Any number of connections work
on it with arbitrary messages. Each `handle_resolve` or `handle_attach` is one
step: it holds the lock while it works on the regions, and its reply concerns
its own connection only. Layouts are stored as the code stores them, also where
the page rounding wraps.
-/

set_option autoImplicit false

namespace FaultCache.ServerRegistry
open FaultCache.FixedBytes FaultCache.PageGeometry FaultCache.ChunkTables FaultCache.WireFormat
open FaultCache.ReplyFormat FaultCache.LabelledRuns
open FaultCache.ServerMachine (LoopId Mapping ConnState)

/-- The part of a `fc_server_region` that requests work on. -/
structure RegionEntry where
  descriptor : Bytes
  table : ChunkTable
  mappings : List Mapping
  deriving DecidableEq, Repr

structure Registry where
  pageSize : ℕ
  regions : List RegionEntry
  conn : LoopId → Option ConnState

/-- `fc_region_recipe_t`; `none` is a null pointer. -/
structure RegionRecipe where
  chunkSizes : Option (List ℕ)
  fillChunk : Option (ℕ → ℕ → UInt8)
  count : ∀ sizes, chunkSizes = some sizes → sizes.length < 2^32
  widths : ∀ sizes, chunkSizes = some sizes → ∀ size ∈ sizes, size < 2^64

/-- What `create_region` comes to. -/
inductive Built where
  | rejected (error : Option Bytes)
  /-- a write left the table of starts -/
  | overrun
  | built (t : ChunkTable)

def invalidLayout : Bytes := ServerMachine.invalidLayout.toUTF8.toList

/-- `create_region` for the factory's answer. `memory` is whether the
allocations succeed, that of the message for an invalid layout included. -/
def createRegion (pageSize : ℕ) (answer : Except Bytes RegionRecipe) (memory : Bool) : Built :=
  match answer with
  | .error message => .rejected (some message)
  | .ok recipe =>
    match recipe.chunkSizes, recipe.fillChunk with
    | some sizes, some _ =>
      match ChunkTables.createRegion pageSize sizes with
      | .created t => if memory then .built t else .rejected none
      | .overrun => if memory then .overrun else .rejected none
      | _ => .rejected (if memory then some invalidLayout else none)
    | _, _ => .rejected (if memory then some invalidLayout else none)

def findRegion (regions : List RegionEntry) (descriptor : Bytes) : Option RegionEntry :=
  regions.find? (fun r => r.descriptor = descriptor)

/-- What a handler comes to: its reply and the regions it leaves. -/
inductive Handled (α : Type) where
  | closed
  /-- nothing is promised any more -/
  | undefined
  | replied (reply : α) (regions : List RegionEntry)

def replyFor (t : ChunkTable) (replyMemory : Bool) : Resp :=
  if replyMemory then .accepted (replySizes t) else .rejected none

/-- `handle_resolve` up to its reply. -/
def handleResolve (s : Registry) (msg : Bytes) (answer : Except Bytes RegionRecipe)
    (memory replyMemory : Bool) : Handled Resp :=
  match parseResolve msg with
  | .closed => .closed
  | .malformed => .replied (.rejected none) s.regions
  | .request descriptor =>
    match findRegion s.regions descriptor with
    | some r => .replied (replyFor r.table replyMemory) s.regions
    | none =>
      match createRegion s.pageSize answer memory with
      | .rejected error => .replied (.rejected error) s.regions
      | .overrun => .undefined
      | .built t => .replied (replyFor t replyMemory) (⟨descriptor,t,[]⟩::s.regions)

/-- A new mapping in front of those of the first region with the descriptor. -/
def attachTo (descriptor : Bytes) (m : Mapping) : List RegionEntry → List RegionEntry
  | [] => []
  | r::rs =>
    if r.descriptor = descriptor then { r with mappings := m::r.mappings }::rs
    else r::attachTo descriptor m rs

/-- `handle_attach` up to its reply. -/
def handleAttach (s : Registry) (msg : Bytes) (uffd : Option ℕ) (memory : Bool) : Handled Bool :=
  match parseAttach msg uffd with
  | .closed => .closed
  | .malformed => .replied false s.regions
  | .request (fd,base,descriptor) =>
    match findRegion s.regions descriptor with
    | none => .replied false s.regions
    | some _ =>
      if memory then .replied true (attachTo descriptor ⟨fd,base⟩ s.regions)
      else .replied false s.regions

/-- What one connection does, with what its surroundings decide: the message,
the factory's answer, the allocations, and whether the reply could be sent. -/
inductive Label where
  | enter (t : LoopId)
  | leave (t : LoopId)
  | resolve (t : LoopId) (msg : Bytes) (answer : Except Bytes RegionRecipe)
      (memory replyMemory sent : Bool)
  | attach (t : LoopId) (msg : Bytes) (uffd : Option ℕ) (memory sent : Bool)

def setConn (s : Registry) (t : LoopId) (c : Option ConnState) : Registry :=
  { s with conn := Function.update s.conn t c }

@[simp] theorem setConn_self (s : Registry) (t : LoopId) (c : Option ConnState) :
    (setConn s t c).conn t = c := by simp [setConn]

theorem setConn_of_ne (s : Registry) {t u : LoopId} (c : Option ConnState) (h : u ≠ t) :
    (setConn s t c).conn u = s.conn u := by simp [setConn,h]

@[simp] theorem setConn_regions (s : Registry) (t : LoopId) (c : Option ConnState) :
    (setConn s t c).regions = s.regions := rfl

@[simp] theorem setConn_pageSize (s : Registry) (t : LoopId) (c : Option ConnState) :
    (setConn s t c).pageSize = s.pageSize := rfl

def loopOf : Label → LoopId
  | .enter t => t
  | .leave t => t
  | .resolve t _ _ _ _ _ => t
  | .attach t _ _ _ _ => t

/-- A reply that cannot be sent ends the loop. -/
def afterResolve (sent : Bool) : Resp → Option ConnState
  | .rejected _ => if sent then some .waitResolve else none
  | .accepted _ => if sent then some .waitAttach else none

def afterAttach (sent : Bool) : Option ConnState := if sent then some .waitResolve else none

/-- One pass of `fc_server_run` over its connection. -/
def step (s : Registry) : Label → Option Registry
  | .enter t => if s.conn t = none then some (setConn s t (some .waitResolve)) else none
  | .leave t => some (setConn s t none)
  | .resolve t msg answer memory replyMemory sent =>
    if s.conn t = some .waitResolve then
      match handleResolve s msg answer memory replyMemory with
      | .closed => some (setConn s t none)
      | .undefined => none
      | .replied reply regions => some (setConn { s with regions := regions } t (afterResolve sent reply))
    else none
  | .attach t msg uffd memory sent =>
    if s.conn t = some .waitAttach then
      match handleAttach s msg uffd memory with
      | .closed => some (setConn s t none)
      | .undefined => none
      | .replied _ regions => some (setConn { s with regions := regions } t (afterAttach sent))
    else none

def Move (s : Registry) (l : Label) (s' : Registry) : Prop := step s l = some s'

/-- `fc_server_create`. -/
def registryStart (pageSize : ℕ) : Registry := ⟨pageSize,[],fun _ => none⟩

/-- A move of a run with the state it was made in. -/
abbrev Moved := Registry × Label

/-- Success with a layout that passes the validator. -/
def validAnswer : Except Bytes RegionRecipe → Bool
  | .error _ => false
  | .ok recipe =>
    match recipe.chunkSizes, recipe.fillChunk with
    | some sizes, some _ => sizes ≠ [] ∧ (sumSizes sizes 0).isSome = true
    | _, _ => false

/-- The factory was called for the descriptor, as it was not found, and has
returned success with a valid layout; no allocation failed. -/
def factorySucceeds (descriptor : Bytes) : Moved → Bool
  | (s,.resolve _ msg answer memory _ _) =>
    match parseResolve msg with
    | .request d => d = descriptor ∧ (findRegion s.regions d).isNone = true ∧ validAnswer answer = true ∧
        memory = true
    | _ => false
  | _ => false

/-- The descriptor and the sizes of an accepted resolve request. -/
def acceptedReply : Moved → Option (Bytes × List ℕ)
  | (s,.resolve _ msg answer memory replyMemory _) =>
    match parseResolve msg, handleResolve s msg answer memory replyMemory with
    | .request d, .replied (.accepted sizes) _ => some (d,sizes)
    | _, _ => none
  | _ => none

def keys (regions : List RegionEntry) : List (Bytes × ChunkTable) :=
  regions.map (fun r => (r.descriptor,r.table))

section Steps
variable {s s' : Registry} {l : Label} {d : Bytes} {tbl : ChunkTable}

/-- A resolve request finds the peer gone or is answered. -/
theorem step_resolve {t : LoopId} {msg : Bytes} {answer : Except Bytes RegionRecipe}
    {memory replyMemory sent : Bool} (h : step s (.resolve t msg answer memory replyMemory sent) = some s') :
    (handleResolve s msg answer memory replyMemory = .closed ∧ s' = setConn s t none) ∨
    ∃ reply regions, handleResolve s msg answer memory replyMemory = .replied reply regions ∧
      s' = setConn { s with regions := regions } t (afterResolve sent reply) := by
  simp only [step] at h
  split_ifs at h
  split at h
  · next hr =>
    cases h
    exact Or.inl ⟨hr,rfl⟩
  · cases h
  · next reply regions hr =>
    cases h
    exact Or.inr ⟨reply,regions,hr,rfl⟩

theorem step_attach {t : LoopId} {msg : Bytes} {uffd : Option ℕ} {memory sent : Bool}
    (h : step s (.attach t msg uffd memory sent) = some s') :
    (handleAttach s msg uffd memory = .closed ∧ s' = setConn s t none) ∨
    ∃ ok regions, handleAttach s msg uffd memory = .replied ok regions ∧
      s' = setConn { s with regions := regions } t (afterAttach sent) := by
  simp only [step] at h
  split_ifs at h
  split at h
  · next hr =>
    cases h
    exact Or.inl ⟨hr,rfl⟩
  · cases h
  · next ok regions hr =>
    cases h
    exact Or.inr ⟨ok,regions,hr,rfl⟩

/-- A move works on the regions and on the state of its own connection. -/
theorem step_frame (h : step s l = some s') :
    ∃ regions c, s' = setConn { s with regions := regions } (loopOf l) c := by
  cases l with
  | enter t =>
    simp only [step] at h
    split_ifs at h
    cases h
    exact ⟨s.regions,_,rfl⟩
  | leave t =>
    cases h
    exact ⟨s.regions,_,rfl⟩
  | resolve t msg answer memory replyMemory sent =>
    rcases step_resolve h with ⟨-,rfl⟩ | ⟨reply,regions,-,rfl⟩
    · exact ⟨s.regions,_,rfl⟩
    · exact ⟨regions,_,rfl⟩
  | attach t msg uffd memory sent =>
    rcases step_attach h with ⟨-,rfl⟩ | ⟨ok,regions,-,rfl⟩
    · exact ⟨s.regions,_,rfl⟩
    · exact ⟨regions,_,rfl⟩

theorem step_conn_of_ne {t : LoopId} (h : step s l = some s') (ht : t ≠ loopOf l) :
    s'.conn t = s.conn t := by
  obtain ⟨regions,c,rfl⟩ := step_frame h
  exact setConn_of_ne _ c ht

theorem step_pageSize (h : step s l = some s') : s'.pageSize = s.pageSize := by
  obtain ⟨regions,c,rfl⟩ := step_frame h
  rfl

theorem attachTo_keys (m : Mapping) (rs : List RegionEntry) : keys (attachTo d m rs) = keys rs := by
  induction rs with
  | nil => rfl
  | cons r rs ih =>
    rw [attachTo]
    split_ifs
    · rfl
    · exact congrArg ((r.descriptor,r.table)::·) ih

/-- The move adds a region for a descriptor that had none. -/
def Creates (s : Registry) (l : Label) (d : Bytes) (tbl : ChunkTable) : Prop :=
  ∃ t msg answer memory replyMemory sent, l = .resolve t msg answer memory replyMemory sent ∧
    parseResolve msg = .request d ∧ findRegion s.regions d = none ∧
    createRegion s.pageSize answer memory = .built tbl

theorem Creates.regions (hc : Creates s l d tbl) (h : step s l = some s') :
    s'.regions = ⟨d,tbl,[]⟩::s.regions := by
  obtain ⟨t,msg,answer,memory,replyMemory,sent,rfl,hp,hf,hb⟩ := hc
  simp only [step,handleResolve,hp,hf,hb] at h
  split_ifs at h
  cases h
  rfl

/-- What an answered resolve request has done. -/
theorem handleResolve_replied {msg : Bytes} {answer : Except Bytes RegionRecipe} {memory replyMemory : Bool}
    {reply : Resp} {regions : List RegionEntry}
    (h : handleResolve s msg answer memory replyMemory = .replied reply regions) :
    (regions = s.regions ∧ ((∃ error, reply = .rejected error) ∨
      ∃ d r, parseResolve msg = .request d ∧ findRegion s.regions d = some r ∧
        reply = replyFor r.table replyMemory)) ∨
    ∃ d tbl, parseResolve msg = .request d ∧ findRegion s.regions d = none ∧
      createRegion s.pageSize answer memory = .built tbl ∧ reply = replyFor tbl replyMemory ∧
      regions = ⟨d,tbl,[]⟩::s.regions := by
  unfold handleResolve at h
  cases hp : parseResolve msg with
  | closed =>
    rw [hp] at h
    cases h
  | malformed =>
    rw [hp] at h
    cases h
    exact Or.inl ⟨rfl,Or.inl ⟨none,rfl⟩⟩
  | request d =>
    rw [hp] at h
    simp only at h
    cases hf : findRegion s.regions d with
    | some r =>
      rw [hf] at h
      cases h
      exact Or.inl ⟨rfl,Or.inr ⟨d,r,rfl,hf,rfl⟩⟩
    | none =>
      rw [hf] at h
      simp only at h
      cases hc : createRegion s.pageSize answer memory with
      | rejected error =>
        rw [hc] at h
        cases h
        exact Or.inl ⟨rfl,Or.inl ⟨error,rfl⟩⟩
      | overrun =>
        rw [hc] at h
        cases h
      | built tbl =>
        rw [hc] at h
        cases h
        exact Or.inr ⟨d,tbl,rfl,hf,rfl,rfl,rfl⟩

theorem handleAttach_replied {msg : Bytes} {uffd : Option ℕ} {memory reply : Bool}
    {regions : List RegionEntry} (h : handleAttach s msg uffd memory = .replied reply regions) :
    (reply = false ∧ regions = s.regions) ∨
    ∃ fd base d, parseAttach msg uffd = .request (fd,base,d) ∧ (findRegion s.regions d).isSome = true ∧
      memory = true ∧ reply = true ∧ regions = attachTo d ⟨fd,base⟩ s.regions := by
  unfold handleAttach at h
  cases hp : parseAttach msg uffd with
  | closed =>
    rw [hp] at h
    cases h
  | malformed =>
    rw [hp] at h
    cases h
    exact Or.inl ⟨rfl,rfl⟩
  | request q =>
    obtain ⟨fd,base,d⟩ := q
    rw [hp] at h
    simp only at h
    cases hf : findRegion s.regions d with
    | none =>
      rw [hf] at h
      cases h
      exact Or.inl ⟨rfl,rfl⟩
    | some r =>
      rw [hf] at h
      simp only at h
      split_ifs at h with hm
      · cases h
        exact Or.inr ⟨fd,base,d,rfl,by rw [hf]; rfl,hm,rfl,rfl⟩
      · cases h
        exact Or.inl ⟨rfl,rfl⟩

/-- The move adds a mapping to the region of the descriptor it names. -/
def Attaches (s : Registry) (l : Label) (d : Bytes) (m : Mapping) : Prop :=
  ∃ t msg uffd sent, l = .attach t msg uffd true sent ∧
    parseAttach msg uffd = .request (m.uffd,m.baseAddr,d) ∧ (findRegion s.regions d).isSome = true

/-- All that a move can do to the regions. -/
theorem step_regions (h : step s l = some s') :
    s'.regions = s.regions ∨
    (∃ d tbl, Creates s l d tbl ∧ s'.regions = ⟨d,tbl,[]⟩::s.regions) ∨
    ∃ d m, Attaches s l d m ∧ s'.regions = attachTo d m s.regions := by
  cases l with
  | enter t =>
    simp only [step] at h
    split_ifs at h
    cases h
    exact Or.inl rfl
  | leave t =>
    cases h
    exact Or.inl rfl
  | resolve t msg answer memory replyMemory sent =>
    rcases step_resolve h with ⟨-,rfl⟩ | ⟨reply,regions,hr,rfl⟩
    · exact Or.inl rfl
    · rcases handleResolve_replied hr with ⟨rfl,-⟩ | ⟨d,tbl,hp,hf,hc,-,rfl⟩
      · exact Or.inl rfl
      · exact Or.inr (Or.inl ⟨d,tbl,⟨t,msg,answer,memory,replyMemory,sent,rfl,hp,hf,hc⟩,rfl⟩)
  | attach t msg uffd memory sent =>
    rcases step_attach h with ⟨-,rfl⟩ | ⟨ok,regions,hr,rfl⟩
    · exact Or.inl rfl
    · rcases handleAttach_replied hr with ⟨-,rfl⟩ | ⟨fd,base,d,hp,hf,rfl,-,rfl⟩
      · exact Or.inl rfl
      · exact Or.inr (Or.inr ⟨d,⟨fd,base⟩,⟨t,msg,uffd,sent,rfl,hp,hf⟩,rfl⟩)

/-- Descriptors and layouts are only ever added to. -/
theorem step_keys (h : step s l = some s') :
    keys s'.regions = keys s.regions ∨
    ∃ d tbl, Creates s l d tbl ∧ keys s'.regions = (d,tbl)::keys s.regions := by
  rcases step_regions h with hr | ⟨d,tbl,hc,hr⟩ | ⟨d,m,-,hr⟩
  · exact Or.inl (by rw [hr])
  · exact Or.inr ⟨d,tbl,hc,by rw [hr]; rfl⟩
  · exact Or.inl (by rw [hr,attachTo_keys])

theorem findRegion_none : findRegion s.regions d = none ↔ d ∉ (keys s.regions).map Prod.fst := by
  simp [findRegion,keys]

theorem createRegion_valid {P : ℕ} {answer : Except Bytes RegionRecipe} (hv : validAnswer answer = true)
    (error : Option Bytes) : createRegion P answer true ≠ .rejected error := by
  cases answer with
  | error message => cases hv
  | ok recipe =>
    cases hc : recipe.chunkSizes with
    | none => simp [validAnswer,hc] at hv
    | some sizes =>
      cases hf : recipe.fillChunk with
      | none => simp [validAnswer,hc,hf] at hv
      | some fill =>
        simp only [validAnswer,hc,hf,decide_eq_true_eq] at hv
        obtain ⟨hne,hsum⟩ := hv
        obtain ⟨total,hs⟩ := Option.isSome_iff_exists.mp hsum
        simp only [createRegion,hc,hf]
        by_cases hcount : sizes.length+1 < 2^32
        · rw [ChunkTables.createRegion,storeLayout_valid hne hs hcount]
          simp
        · have hlen := recipe.count sizes hc
          rw [ChunkTables.createRegion,storeLayout_overrun hs (by omega)]
          simp

/-- A region is made of sizes that the validator has passed. -/
theorem createRegion_built {P : ℕ} {answer : Except Bytes RegionRecipe} {memory : Bool}
    (h : createRegion P answer memory = .built tbl) :
    ∃ sizes : List ℕ, sizes.length < 2^32 ∧ (∀ size ∈ sizes, size < 2^64) ∧
      ChunkTables.createRegion P sizes = .created tbl := by
  cases answer with
  | error message => cases h
  | ok recipe =>
    cases hc : recipe.chunkSizes with
    | none => simp [createRegion,hc] at h
    | some sizes =>
      cases hf : recipe.fillChunk with
      | none => simp [createRegion,hc,hf] at h
      | some fill =>
        refine ⟨sizes,recipe.count sizes hc,recipe.widths sizes hc,?_⟩
        simp only [createRegion,hc,hf] at h
        cases ht : ChunkTables.createRegion P sizes with
        | created t =>
          rw [ht] at h
          simp only at h
          split_ifs at h
          cases h
          rfl
        | overrun =>
          rw [ht] at h
          simp only at h
          split_ifs at h
        | misuse => simp [ht] at h
        | einval => simp [ht] at h
        | invalidLayout => simp [ht] at h

/-- A factory that succeeds without an allocation failing makes a region. -/
theorem creates_of_succeeds (h : step s l = some s') (hs : factorySucceeds d (s,l) = true) :
    ∃ tbl, Creates s l d tbl := by
  cases l with
  | resolve t msg answer memory replyMemory sent =>
    cases hp : parseResolve msg with
    | closed => simp [factorySucceeds,hp] at hs
    | malformed => simp [factorySucceeds,hp] at hs
    | request d' =>
      simp only [factorySucceeds,hp,decide_eq_true_eq] at hs
      obtain ⟨rfl,hf,hv,rfl⟩ := hs
      have hf' := Option.isNone_iff_eq_none.mp hf
      cases hc : createRegion s.pageSize answer true with
      | rejected error => exact absurd hc (createRegion_valid hv error)
      | overrun => simp [step,handleResolve,hp,hf',hc] at h
      | built tbl => exact ⟨tbl,t,msg,answer,true,replyMemory,sent,rfl,hp,hf',hc⟩
  | enter t => simp [factorySucceeds] at hs
  | leave t => simp [factorySucceeds] at hs
  | attach t msg uffd memory sent => simp [factorySucceeds] at hs

theorem replyFor_accepted {sizes : List ℕ} {replyMemory : Bool}
    (h : Resp.accepted sizes = replyFor tbl replyMemory) : replySizes tbl = sizes := by
  unfold replyFor at h
  split_ifs at h
  exact (Resp.accepted.inj h).symm

theorem findRegion_key {r : RegionEntry} (h : findRegion s.regions d = some r) :
    (d,r.table) ∈ keys s.regions := by
  have hd : r.descriptor = d := by simpa using List.find?_some h
  rw [← hd]
  exact List.mem_map_of_mem (List.mem_of_find?_eq_some h)

/-- An accepted reply carries the layout of a region that is there afterwards. -/
theorem accepted_key {sizes : List ℕ} (h : step s l = some s') (ha : acceptedReply (s,l) = some (d,sizes)) :
    ∃ tbl, (d,tbl) ∈ keys s'.regions ∧ replySizes tbl = sizes := by
  cases l with
  | resolve t msg answer memory replyMemory sent =>
    simp only [acceptedReply] at ha
    split at ha
    · next d' sizes' regions hp hr =>
      cases ha
      rcases step_resolve h with ⟨hc,-⟩ | ⟨reply,regions,hr',rfl⟩
      · cases hr.symm.trans hc
      cases hr.symm.trans hr'
      rcases handleResolve_replied hr with ⟨rfl,⟨_,hc⟩ | ⟨d₁,r,hp₁,hf,hc⟩⟩ | ⟨d₁,tbl,hp₁,-,-,hc,rfl⟩
      · cases hc
      · rw [hp] at hp₁
        cases hp₁
        exact ⟨r.table,findRegion_key hf,replyFor_accepted hc⟩
      · rw [hp] at hp₁
        cases hp₁
        exact ⟨tbl,List.mem_cons_self,replyFor_accepted hc⟩
    · cases ha
  | enter t => cases ha
  | leave t => cases ha
  | attach t msg uffd memory sent => cases ha

end Steps

/-- Every region keeps the table of a layout that has passed the validator. -/
def TablesStored (s : Registry) : Prop :=
  ∀ key ∈ keys s.regions, ∃ sizes : List ℕ, sizes.length < 2^32 ∧ (∀ size ∈ sizes, size < 2^64) ∧
    ChunkTables.createRegion s.pageSize sizes = .created key.2

theorem step_tablesStored {s s' : Registry} {l : Label} (h : step s l = some s') (ht : TablesStored s) :
    TablesStored s' := by
  intro key hk
  rw [step_pageSize h]
  rcases step_keys h with he | ⟨d,tbl,⟨-,-,answer,memory,-,-,-,-,-,hb⟩,he⟩
  · exact ht key (he ▸ hk)
  · rw [he] at hk
    rcases List.mem_cons.mp hk with rfl | hk
    · exact createRegion_built hb
    · exact ht key hk

theorem run_tablesStored {P : ℕ} {ms : List Moved} {s : Registry}
    (hr : Run Move (registryStart P) ms s) : TablesStored s :=
  (Run.invariant (fun _ hk => absurd hk List.not_mem_nil) (fun h hm => step_tablesStored hm h) hr).1

/-- Sizes that a client will accept. -/
structure Sendable (sizes : List ℕ) : Prop where
  nonempty : sizes ≠ []
  widths : ∀ size ∈ sizes, size < 2^64
  count : sizes.length+1 < 2^32
  summed : ∃ total, sumSizes sizes 0 = some total

theorem replySizes_sendable {P : ℕ} {tbl : ChunkTable} (h : ∃ sizes : List ℕ, sizes.length < 2^32 ∧
    (∀ size ∈ sizes, size < 2^64) ∧ ChunkTables.createRegion P sizes = .created tbl) :
    Sendable (replySizes tbl) := by
  obtain ⟨sizes,hn,hw,hc⟩ := h
  obtain ⟨total,hne,hs,hcount,-⟩ := createRegion_created hn hc
  rw [replySizes_created hn hw hc]
  exact ⟨hne,hw,hcount,total,hs⟩

/-- The sizes of an accepted reply have passed the validator. -/
theorem accepted_sendable {s : Registry} {msg : Bytes} {answer : Except Bytes RegionRecipe}
    {memory replyMemory : Bool} {sizes : List ℕ} {regions : List RegionEntry} (ht : TablesStored s)
    (h : handleResolve s msg answer memory replyMemory = .replied (.accepted sizes) regions) :
    Sendable sizes := by
  rcases handleResolve_replied h with ⟨-,⟨_,hc⟩ | ⟨d,r,-,hf,hc⟩⟩ | ⟨d,tbl,-,-,hb,hc,-⟩
  · cases hc
  · rw [← replyFor_accepted hc]
    exact replySizes_sendable (ht _ (findRegion_key hf))
  · rw [← replyFor_accepted hc]
    exact replySizes_sendable (createRegion_built hb)

/-- What a run has left behind. The second part also says that a factory has not
succeeded yet for a descriptor without a region. -/
structure Recorded (ms : List Moved) (s : Registry) : Prop where
  nodup : ((keys s.regions).map Prod.fst).Nodup
  once : ∀ d, ms.countP (factorySucceeds d) ≤ if d ∈ (keys s.regions).map Prod.fst then 1 else 0
  accepted : ∀ m ∈ ms, ∀ d sizes, acceptedReply m = some (d,sizes) →
    ∃ tbl, (d,tbl) ∈ keys s.regions ∧ replySizes tbl = sizes

theorem Recorded.step {ms : List Moved} {s s' : Registry} {l : Label} (h : Recorded ms s)
    (hm : step s l = some s') : Recorded ((s,l)::ms) s' := by
  have hmono : ∀ key ∈ keys s.regions, key ∈ keys s'.regions := by
    intro key hk
    rcases step_keys hm with he | ⟨d,tbl,-,he⟩
    · rw [he]
      exact hk
    · rw [he]
      exact List.mem_cons_of_mem _ hk
  have hfresh : ∀ d tbl, Creates s l d tbl → d ∉ (keys s.regions).map Prod.fst := by
    rintro d tbl ⟨-,-,-,-,-,-,-,-,hf,-⟩
    exact findRegion_none.mp hf
  refine ⟨?_,?_,?_⟩
  · rcases step_keys hm with he | ⟨d,tbl,hc,he⟩
    · rw [he]
      exact h.nodup
    · rw [he,List.map_cons,List.nodup_cons]
      exact ⟨hfresh d tbl hc,h.nodup⟩
  · intro d
    have hold := h.once d
    rw [List.countP_cons]
    by_cases hs : factorySucceeds d (s,l) = true
    -- The first success for `d`: there was no region before, and there is one now.
    · obtain ⟨tbl,hc⟩ := creates_of_succeeds hm hs
      rw [if_neg (hfresh d tbl hc)] at hold
      have hnow : d ∈ (keys s'.regions).map Prod.fst := by
        rw [hc.regions hm]
        exact List.mem_cons_self
      rw [if_pos hs,if_pos hnow]
      omega
    · rw [if_neg hs,Nat.add_zero]
      refine le_trans hold ?_
      split_ifs with h1 h2
      · exact le_refl _
      · obtain ⟨key,hk,rfl⟩ := List.mem_map.mp h1
        exact absurd (List.mem_map_of_mem (hmono key hk)) h2
      · exact Nat.zero_le _
      · exact le_refl _
  · intro m hmem d sizes ha
    rcases List.mem_cons.mp hmem with rfl | hmem
    · exact accepted_key hm ha
    · obtain ⟨tbl,hk,hr⟩ := h.accepted m hmem d sizes ha
      exact ⟨tbl,hmono _ hk,hr⟩

/-- A factory answer with two chunks. -/
def twoChunks : Except Bytes RegionRecipe := .ok
  { chunkSizes := some [6,4]
    fillChunk := some (fun _ _ => 0)
    count := by rintro _ ⟨⟩; decide
    widths := by rintro _ ⟨⟩; decide }

def resolveMsg (descriptor : Bytes) : Bytes := resolveReqHdr descriptor.length ++ descriptor

/-- The descriptor of the last accepted resolve request on the connection. -/
def lastAccepted (t : LoopId) : List Moved → Option Bytes
  | [] => none
  | (_,.enter u)::ms => if u = t then none else lastAccepted t ms
  | (s,.resolve u msg answer memory replyMemory sent)::ms =>
    if u = t then
      ((acceptedReply (s,.resolve u msg answer memory replyMemory sent)).map Prod.fst).or (lastAccepted t ms)
    else lastAccepted t ms
  | (_,.leave _)::ms => lastAccepted t ms
  | (_,.attach _ _ _ _ _)::ms => lastAccepted t ms

/-- An attach request that does not name the descriptor resolved last on its
connection is refused and changes nothing. -/
def RefusesOthers (s : Registry) (l : Label) (past : List Moved) : Prop :=
  ∀ t msg uffd memory sent fd base d, l = .attach t msg uffd memory sent →
    parseAttach msg uffd = .request (fd,base,d) → lastAccepted t past ≠ some d →
    handleAttach s msg uffd memory = .replied false s.regions

/-- The attach request names the descriptor resolved last on its connection, or
one without a region, or there is no memory for the mapping. -/
def NamesLast (s : Registry) (l : Label) (past : List Moved) : Prop :=
  ∀ t msg uffd memory sent fd base d, l = .attach t msg uffd memory sent →
    parseAttach msg uffd = .request (fd,base,d) →
    lastAccepted t past = some d ∨ findRegion s.regions d = none ∨ memory = false

/-- Every move of a run, with what came before it. -/
def Throughout (Q : Registry → Label → List Moved → Prop) (ms : List Moved) : Prop :=
  ∀ newer s l past, ms = newer ++ (s,l)::past → Q s l past

theorem refusesOthers_iff (s : Registry) (l : Label) (past : List Moved) :
    RefusesOthers s l past ↔ NamesLast s l past := by
  constructor
  · intro h t msg uffd memory sent fd base d hl hp
    by_cases hlast : lastAccepted t past = some d
    · exact Or.inl hlast
    · have hr := h t msg uffd memory sent fd base d hl hp hlast
      simp only [handleAttach,hp] at hr
      cases hf : findRegion s.regions d with
      | none => exact Or.inr (Or.inl rfl)
      | some r =>
        rw [hf] at hr
        simp only at hr
        split_ifs at hr with hm
        · cases hr
        · exact Or.inr (Or.inr (by simpa using hm))
  · intro h t msg uffd memory sent fd base d hl hp hlast
    simp only [handleAttach,hp]
    rcases h t msg uffd memory sent fd base d hl hp with hc | hf | rfl
    · exact absurd hc hlast
    · rw [hf]
    · split
      · rfl
      · rfl

theorem mem_attachTo {d : Bytes} {m : Mapping} {r : RegionEntry} {rs : List RegionEntry}
    (h : r ∈ attachTo d m rs) :
    r ∈ rs ∨ ∃ r₀ ∈ rs, r₀.descriptor = d ∧ r = { r₀ with mappings := m::r₀.mappings } := by
  induction rs with
  | nil => cases h
  | cons r₁ rs ih =>
    rw [attachTo] at h
    split_ifs at h with hd
    · rcases List.mem_cons.mp h with rfl | h
      · exact Or.inr ⟨r₁,List.mem_cons_self,hd,rfl⟩
      · exact Or.inl (List.mem_cons_of_mem _ h)
    · rcases List.mem_cons.mp h with rfl | h
      · exact Or.inl List.mem_cons_self
      · rcases ih h with h | ⟨r₀,h₀,hd₀,he⟩
        · exact Or.inl (List.mem_cons_of_mem _ h)
        · exact Or.inr ⟨r₀,List.mem_cons_of_mem _ h₀,hd₀,he⟩

/-- The mapping was attached over a connection on which its region's descriptor
had been resolved last. -/
def Attributed (ms : List Moved) (r : RegionEntry) (m : Mapping) : Prop :=
  ∃ newer s past t msg uffd memory sent, ms = newer ++ (s,.attach t msg uffd memory sent)::past ∧
    parseAttach msg uffd = .request (m.uffd,m.baseAddr,r.descriptor) ∧
    lastAccepted t past = some r.descriptor

theorem Attributed.later {ms : List Moved} {r r' : RegionEntry} {m : Mapping} (h : Attributed ms r m)
    (hd : r'.descriptor = r.descriptor) (mv : Moved) : Attributed (mv::ms) r' m := by
  obtain ⟨newer,s,past,t,msg,uffd,memory,sent,rfl,hp,hl⟩ := h
  rw [Attributed,hd]
  exact ⟨mv::newer,s,past,t,msg,uffd,memory,sent,rfl,hp,hl⟩

theorem run_attributed {P : ℕ} {ms : List Moved} {s : Registry} (hr : Run Move (registryStart P) ms s)
    (hn : Throughout NamesLast ms) : ∀ r ∈ s.regions, ∀ m ∈ r.mappings, Attributed ms r m := by
  induction hr with
  | start => exact fun r hr => absurd hr List.not_mem_nil
  | @move ms v v' l hrun hm ih =>
    have hold := ih (fun newer s l past he => hn ((v,_)::newer) s l past (by rw [he]; rfl))
    rcases step_regions hm with he | ⟨d,tbl,-,he⟩ | ⟨d,m₁,⟨t,msg,uffd,sent,rfl,hp,hf⟩,he⟩
    · rw [he]
      exact fun r hr m hmem => (hold r hr m hmem).later rfl _
    · rw [he]
      intro r hr m hmem
      rcases List.mem_cons.mp hr with rfl | hr
      · cases hmem
      · exact (hold r hr m hmem).later rfl _
    · rw [he]
      intro r hr m hmem
      rcases mem_attachTo hr with hr | ⟨r₀,hr₀,rfl,rfl⟩
      · exact (hold r hr m hmem).later rfl _
      rcases List.mem_cons.mp hmem with rfl | hmem
      · refine ⟨[],v,ms,t,msg,uffd,true,sent,rfl,hp,?_⟩
        rcases hn [] v _ ms rfl t msg uffd true sent _ _ _ rfl hp with hlast | hnone | hmemory
        · exact hlast
        · rw [hnone] at hf
          cases hf
        · cases hmemory
      · exact (hold r₀ hr₀ m hmem).later rfl _

/-- Attach requests that name another descriptor are refused throughout a run
exactly when no such request names a descriptor that has a region. Then every
mapping there is was attached after its descriptor had been resolved on the same
connection. -/
theorem attaches_name_last_resolved_iff {P : ℕ} {ms : List Moved} {s : Registry}
    (hr : Run Move (registryStart P) ms s) :
    (Throughout RefusesOthers ms ↔ Throughout NamesLast ms) ∧
    (Throughout NamesLast ms → ∀ r ∈ s.regions, ∀ m ∈ r.mappings, Attributed ms r m) := by
  refine ⟨?_,run_attributed hr⟩
  constructor
  · exact fun h newer s l past he => (refusesOthers_iff s l past).mp (h newer s l past he)
  · exact fun h newer s l past he => (refusesOthers_iff s l past).mpr (h newer s l past he)

def attachMsg (base : ℕ) (descriptor : Bytes) : Bytes :=
  attachReqHdr base descriptor.length ++ descriptor

/-- A connection attaches what it has resolved. -/
def resolveAttach : List Label :=
  [.enter 0,.resolve 0 (resolveMsg [1]) twoChunks true true true,
    .attach 0 (attachMsg 4096 [1]) (some 7) true true]

theorem attaches_name_last_resolved_iff_own :
    ∃ ms s, trace step (registryStart 4096) resolveAttach = some (ms,s) ∧
      s.regions.map RegionEntry.mappings = [[⟨7,4096⟩]] ∧
      (Throughout RefusesOthers ms ↔ Throughout NamesLast ms) := by
  have hmap : (trace step (registryStart 4096) resolveAttach).map (fun r =>
      r.2.regions.map RegionEntry.mappings) = some [[⟨7,4096⟩]] := by decide +kernel
  obtain ⟨⟨ms,s⟩,h,he⟩ := Option.map_eq_some_iff.mp hmap
  exact ⟨ms,s,h,he,(attaches_name_last_resolved_iff (trace_run h)).1⟩

/-- Connection 0 resolves one descriptor, connection 1 another one, and
connection 0 attaches to the second. -/
def crossAttach : List Label :=
  [.enter 0,.enter 1,.resolve 0 (resolveMsg [1]) twoChunks true true true,
    .resolve 1 (resolveMsg [2]) twoChunks true true true,
    .attach 0 (attachMsg 4096 [2]) (some 7) true true]

/-- The attach is accepted, though connection 0 never resolved the descriptor. -/
theorem foreign_descriptor_is_attached :
    ¬ ∀ P ms s, Run Move (registryStart P) ms s → Throughout RefusesOthers ms := by
  intro hall
  have hfacts : (trace step (registryStart 4096) crossAttach).map (fun r =>
      (lastAccepted 0 r.1.tail,r.1.head?.bind (fun m => findRegion m.1.regions [2]))) =
      some (some [1],some ⟨[2],⟨2,[0,6,10],10,4096⟩,[]⟩) := by decide +kernel
  obtain ⟨⟨ms,s⟩,h,he⟩ := Option.map_eq_some_iff.mp hfacts
  have hlabels := trace_labels h
  cases ms with
  | nil => cases hlabels
  | cons m past =>
    obtain ⟨v,l⟩ := m
    simp only [List.map_cons,crossAttach,List.reverse_cons,List.reverse_nil,List.nil_append,
      List.cons_append,List.cons.injEq] at hlabels
    obtain ⟨rfl,-⟩ := hlabels
    obtain ⟨h1,h2⟩ := Prod.mk.inj he
    have hnames := (refusesOthers_iff _ _ _).mp (hall 4096 _ s (trace_run h) [] v _ past rfl)
    have hparse : parseAttach (attachMsg 4096 [2]) (some 7) = .request (7,4096,[2]) :=
      parseAttach_hdr (by decide) (by decide) 7
    rcases hnames 0 (attachMsg 4096 [2]) (some 7) true true 7 4096 [2] rfl hparse with hc | hc | hc
    · cases hc.symm.trans h1
    · cases hc.symm.trans h2
    · cases hc

end FaultCache.ServerRegistry
