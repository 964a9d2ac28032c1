import FaultCache.ServerCache
import FaultCache.ServerRegistry

/-!
# The requests of the server with its cache

The server of `ServerMachine` fills and copies chunks between its requests and
keeps a layout for each region; `ServerRegistry` has the requests alone, and the
tables as they are stored. Seen through the regions and connection states, every
step of the first is a step of the second or no step at all, so what the registry
promises over any interleaving of requests holds with fault handling in between.
-/

set_option autoImplicit false

namespace FaultCache.RegistryRefinement
open FaultCache.FixedBytes FaultCache.PageGeometry FaultCache.PoolMachine FaultCache.ChunkTables
open FaultCache.WireFormat FaultCache.ReplyFormat FaultCache.LabelledRuns
open FaultCache.ServerMachine (Server ServerRegion ServerRegionId Recipe LoopId Mapping ConnState)
open FaultCache.ServerRegistry (RegionEntry Registry RegionRecipe Label Move registryStart)

def tableOf (L : Layout) : ChunkTable :=
  ⟨L.nchunks,(List.range (L.nchunks+1)).map L.chunkStart,L.totalSize,L.mappedSize⟩

/-- A layout for accepted sizes is the table the creators store for them. -/
theorem createRegion_tableOf {P total : ℕ} {sizes : List ℕ} (h : Accepted P sizes total) :
    createRegion P sizes = .created (tableOf (Layout.ofSizes P sizes total h)) := by
  obtain ⟨htotal,hlt,-⟩ := sum_sizes_exact sizes 0 total (by decide) h.widths h.summed
  have htable : sizes.scanl sizeAdd 0 = (List.range (sizes.length+1)).map (prefixSum sizes) := by
    apply List.ext_getElem
    · rw [List.length_scanl,List.length_map,List.length_range]
    · intro i hi hi'
      rw [List.length_scanl] at hi
      have hentry := scanl_entry (show sizes.sum < 2^64 by omega) (show i ≤ sizes.length by omega)
      rw [List.getElem?_eq_getElem (by rw [List.length_scanl]; omega)] at hentry
      rw [Option.some.inj hentry,List.getElem_map,List.getElem_range,prefix_sum_exact sizes (by omega)]
  rw [createRegion,storeLayout_valid h.nonempty h.summed h.count,htable]
  rfl

def entryOf (x : ServerRegion) : RegionEntry := ⟨x.descriptor,tableOf x.layout,x.mappings⟩

@[simp] theorem entryOf_descriptor (x : ServerRegion) : (entryOf x).descriptor = x.descriptor := rfl

/-- What requests work on. -/
def registryOf (s : Server) : Registry := ⟨s.pageSize,s.regions.map (fun r => entryOf (s.region r)),s.conn⟩

def recipeOf {P : ℕ} (recipe : Recipe P) : RegionRecipe where
  chunkSizes := recipe.chunkSizes
  fillChunk := recipe.fillChunk
  count := fun sizes h => lt_trans (Nat.lt_succ_self _) (recipe.count sizes h)
  widths := recipe.widths

def answerOf {P : ℕ} : Except String (Recipe P) → Except Bytes RegionRecipe
  | .error message => .error message.toUTF8.toList
  | .ok recipe => .ok (recipeOf recipe)

section Requests
variable {s : Server}

theorem findRegion_registryOf (s : Server) (d : Bytes) :
    ServerRegistry.findRegion (registryOf s).regions d =
      (ServerMachine.findRegion s d).map (fun r => entryOf (s.region r)) := by
  rw [ServerRegistry.findRegion,registryOf,List.find?_map]
  rfl

/-- Both models reject the same answers of a factory and build the same table. -/
theorem createRegion_registryOf {P : ℕ} (hP : 0 < P) (d : Bytes) (answer : Except String (Recipe P))
    (memory : Bool) :
    (∃ e e', ServerMachine.createRegion P hP d answer memory = .error e ∧
      ServerRegistry.createRegion P (answerOf answer) memory = .rejected e') ∨
    ∃ x, ServerMachine.createRegion P hP d answer memory = .ok x ∧
      ServerRegistry.createRegion P (answerOf answer) memory = .built (tableOf x.layout) ∧
      entryOf x = ⟨d,tableOf x.layout,[]⟩ := by
  cases answer with
  | error message => exact Or.inl ⟨_,_,rfl,rfl⟩
  | ok recipe =>
    obtain ⟨chunkSizes,fillChunk,hcount,hwidths,hrounds⟩ := recipe
    cases chunkSizes with
    | none => exact Or.inl ⟨_,_,rfl,rfl⟩
    | some sizes =>
      cases fillChunk with
      | none => exact Or.inl ⟨_,_,rfl,rfl⟩
      | some fill =>
        by_cases hne : sizes = []
        · subst hne
          exact Or.inl ⟨_,_,rfl,rfl⟩
        · simp only [ServerMachine.createRegion,dif_neg hne]
          split
          · next hs =>
            refine Or.inl ⟨_,if memory then some ServerRegistry.invalidLayout else none,rfl,?_⟩
            simp only [answerOf,recipeOf,ServerRegistry.createRegion,createRegion,storeLayout,if_neg hne,hs]
          · next total hs =>
            have hc := createRegion_tableOf ⟨hP,hne,hcount sizes rfl,hwidths sizes rfl,hs,
              hrounds sizes rfl total hs⟩
            simp only [answerOf,recipeOf,ServerRegistry.createRegion,hc]
            cases memory with
            | true => exact Or.inr ⟨_,rfl,rfl,rfl⟩
            | false => exact Or.inl ⟨_,_,rfl,rfl⟩

/-- The first region with the descriptor is the one that is updated. -/
theorem attachTo_registryOf {r : ServerRegionId} {d : Bytes} (m : Mapping) (ids : List ServerRegionId)
    (hnd : ids.Nodup) (hf : ids.find? (fun r => (s.region r).descriptor = d) = some r) :
    ids.map (fun q => entryOf ((s.update r (fun x => { x with mappings := m::x.mappings })).region q)) =
      ServerRegistry.attachTo d m (ids.map (fun q => entryOf (s.region q))) := by
  induction ids with
  | nil => cases hf
  | cons q ids ih =>
    obtain ⟨hq,hnd⟩ := List.nodup_cons.mp hnd
    rw [List.map_cons,List.map_cons,ServerRegistry.attachTo,entryOf_descriptor]
    by_cases hd : (s.region q).descriptor = d
    · rw [List.find?_cons_of_pos (by simpa using hd)] at hf
      cases hf
      rw [if_pos hd]
      congr 1
      · simp [ServerMachine.Server.update,entryOf]
      · apply List.map_congr_left
        intro q' hq'
        have hne : q' ≠ r := fun he => hq (he ▸ hq')
        simp [ServerMachine.Server.update,hne]
    · rw [List.find?_cons_of_neg (by simpa using hd)] at hf
      have hne : q ≠ r := fun he => hq (he ▸ List.mem_of_find?_eq_some hf)
      rw [if_neg hd,ih hnd hf]
      simp [ServerMachine.Server.update,hne]

/-- A new region has a new number, so it goes in front and leaves the others. -/
theorem insertRegion_registryOf (hfresh : ∀ r ∈ s.regions, r < s.nextRegion) (x : ServerRegion) :
    (registryOf (ServerMachine.insertRegion s x)).regions = entryOf x::(registryOf s).regions := by
  have hrest : s.regions.map (fun r => entryOf (Function.update s.region s.nextRegion x r)) =
      s.regions.map (fun r => entryOf (s.region r)) := by
    apply List.map_congr_left
    intro r hr
    rw [Function.update_of_ne (Nat.ne_of_lt (hfresh r hr))]
  simp only [registryOf,ServerMachine.insertRegion,List.map_cons,hrest,Function.update_self]

theorem resolve_registryOf {t : LoopId} (msg : Bytes) (answer : Except String (Recipe s.pageSize))
    (memory replyMemory : Bool) (hc : s.conn t = some .waitResolve)
    (hfresh : ∀ r ∈ s.regions, r < s.nextRegion) :
    Move (registryOf s) (.resolve t msg (answerOf answer) memory replyMemory true)
      (registryOf (ServerMachine.setConn (ServerMachine.handleResolve s msg answer memory replyMemory).2 t
        (ServerMachine.afterResolve (ServerMachine.handleResolve s msg answer memory replyMemory).1))) := by
  have hreply : ∀ L : Layout, ServerRegistry.afterResolve true (ServerRegistry.replyFor (tableOf L) replyMemory) =
      ServerMachine.afterResolve (ServerMachine.replySizes L replyMemory) := by
    intro L
    cases replyMemory with
    | true => rfl
    | false => rfl
  simp only [Move,ServerRegistry.step,if_pos (show (registryOf s).conn t = some .waitResolve from hc),
    ServerRegistry.handleResolve,ServerMachine.handleResolve,findRegion_registryOf]
  cases hp : parseResolve msg with
  | closed => rfl
  | malformed => rfl
  | request d =>
    simp only
    cases hf : ServerMachine.findRegion s d with
    | some r =>
      simp only [Option.map_some,entryOf,hreply]
      rfl
    | none =>
      rcases createRegion_registryOf s.pageSize_pos d answer memory with ⟨e,e',h1,h2⟩ | ⟨x,h1,h2,h3⟩
      · simp only [Option.map_none,h1]
        rw [show (registryOf s).pageSize = s.pageSize from rfl,h2]
        rfl
      · simp only [Option.map_none,h1]
        rw [show (registryOf s).pageSize = s.pageSize from rfl,h2]
        simp only [hreply,← h3]
        rw [← insertRegion_registryOf hfresh x]
        rfl

theorem attach_registryOf {t : LoopId} (msg : Bytes) (uffd : Option ℕ) (memory : Bool)
    (hc : s.conn t = some .waitAttach) (hnd : s.regions.Nodup) :
    Move (registryOf s) (.attach t msg uffd memory true)
      (registryOf (ServerMachine.setConn (ServerMachine.handleAttach s msg uffd memory).2 t
        (ServerMachine.afterAttach (ServerMachine.handleAttach s msg uffd memory).1))) := by
  simp only [Move,ServerRegistry.step,if_pos (show (registryOf s).conn t = some .waitAttach from hc),
    ServerRegistry.handleAttach,ServerMachine.handleAttach,findRegion_registryOf]
  cases hp : parseAttach msg uffd with
  | closed => rfl
  | malformed => rfl
  | request q =>
    obtain ⟨fd,base,d⟩ := q
    simp only
    cases hf : ServerMachine.findRegion s d with
    | none => rfl
    | some r =>
      cases memory with
      | false => rfl
      | true =>
        simp only [Option.map_some,if_true]
        rw [show (registryOf s).regions = s.regions.map (fun q => entryOf (s.region q)) from rfl,
          ← attachTo_registryOf ⟨fd,base⟩ s.regions hnd hf]
        rfl

end Requests

section Steps
variable {s s' : Server}

/-- Updates that keep descriptor, layout and mappings do not show. -/
theorem update_registryOf (s : Server) (r : ServerRegionId) {f : ServerRegion → ServerRegion}
    (hf : entryOf (f (s.region r)) = entryOf (s.region r)) : registryOf (s.update r f) = registryOf s := by
  have hmap : s.regions.map (fun q => entryOf ((s.update r f).region q)) =
      s.regions.map (fun q => entryOf (s.region q)) := by
    apply List.map_congr_left
    intro q hq
    by_cases hqr : q = r
    · subst hqr
      simp only [ServerMachine.Server.update,Function.update_self,hf]
    · simp only [ServerMachine.Server.update,Function.update_of_ne hqr]
  rw [registryOf,show (s.update r f).regions = s.regions from rfl,hmap]
  rfl

/-- Requests are steps of the registry, and handling a fault is none. -/
theorem step_registryOf (hfresh : ∀ r ∈ s.regions, r < s.nextRegion) (hnd : s.regions.Nodup)
    (h : ServerMachine.Step s s') :
    registryOf s' = registryOf s ∨ ∃ l, Move (registryOf s) l (registryOf s') := by
  cases h with
  | enter t hc =>
    refine Or.inr ⟨.enter t,?_⟩
    rw [Move,ServerRegistry.step,if_pos (show (registryOf s).conn t = none from hc)]
    rfl
  | leave t => exact Or.inr ⟨.leave t,rfl⟩
  | resolve t msg answer memory replyMemory hc =>
    exact Or.inr ⟨_,resolve_registryOf msg answer memory replyMemory hc hfresh⟩
  | attach t msg uffd memory hc => exact Or.inr ⟨_,attach_registryOf msg uffd memory hc hnd⟩
  | write t r m off i content => exact Or.inl (update_registryOf s r rfl)
  | endFill t r m off i =>
    left
    show registryOf (s.update r (fun x =>
      { x with content := ServerMachine.filled x i, resolved := Function.update x.resolved i true })) = _
    exact update_registryOf s r rfl
  | event | unread | fault | acquire | skip | beginFill | release | copy => exact Or.inl rfl

theorem step_nodup (hfresh : ∀ r ∈ s.regions, r < s.nextRegion) (hnd : s.regions.Nodup)
    (h : ServerMachine.Step s s') : s'.regions.Nodup := by
  cases h with
  | resolve t msg answer memory replyMemory =>
    rcases ServerCache.handleResolve_cases s msg answer memory replyMemory with he | ⟨x,-,-,he⟩
    · rw [he]
      exact hnd
    · rw [he]
      exact List.nodup_cons.mpr ⟨fun hm => absurd (hfresh _ hm) (lt_irrefl _),hnd⟩
  | attach t msg uffd memory =>
    rcases ServerCache.handleAttach_cases s msg uffd memory with he | ⟨r,-,m,he⟩
    · rw [he]
      exact hnd
    · rw [he]
      exact hnd
  | enter | leave | event | unread | fault | acquire | skip | beginFill | write | endFill | release | copy =>
    exact hnd

/-- Whatever a server with fault handling reaches, the registry reaches with
requests alone. -/
theorem reachable_registryOf (h : ServerMachine.Reachable s) :
    ∃ P ms, Run Move (registryStart P) ms (registryOf s) := by
  obtain ⟨P,hP,hs⟩ := h
  have hrun : ServerCache.ServerInv s ∧ s.regions.Nodup ∧
      ∃ ms, Run Move (registryStart P) ms (registryOf s) := by
    induction hs with
    | refl => exact ⟨ServerCache.start_inv P hP,List.nodup_nil,[],.start⟩
    | tail _ hstep ih =>
      obtain ⟨hinv,hnd,ms,hr⟩ := ih
      refine ⟨ServerCache.step_inv hinv hstep,step_nodup hinv.fresh hnd hstep,?_⟩
      rcases step_registryOf hinv.fresh hnd hstep with he | ⟨l,hm⟩
      · rw [he]
        exact ⟨ms,hr⟩
      · exact ⟨_,hr.move hm⟩
  exact ⟨P,hrun.2.2⟩

end Steps

end FaultCache.RegistryRefinement
