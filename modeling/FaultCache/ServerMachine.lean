import FaultCache.ServerGroups
import FaultCache.WireFormat
import Mathlib.Logic.Function.Basic
import Mathlib.Logic.Relation

/-!
# The server and its connection loops

A server keeps one region for each descriptor it has accepted, with a cache of
the chunks filled so far and the client mappings attached to it. Any number of
`fc_server_run` loops work on it at once. Looking a region or a mapping up,
creating a region and attaching a mapping are sections under the server's lock.
A fault is resolved in several steps: the loop finds the mapping, reads the
event, fills what is missing chunk by chunk under the lock, and only after
letting go of the lock copies the pages into the client.
-/

set_option autoImplicit false

namespace FaultCache.ServerMachine
open FaultCache.FixedBytes FaultCache.PageGeometry FaultCache.PoolMachine FaultCache.ServerGroups
open FaultCache.WireFormat

abbrev LoopId := ℕ
abbrev ServerRegionId := ℕ

structure Mapping where
  uffd : ℕ
  baseAddr : ℕ
  deriving DecidableEq, Repr

structure ServerRegion where
  descriptor : Bytes
  layout : Layout
  resolved : ℕ → Bool
  content : ℕ → UInt8
  fillChunk : ℕ → ℕ → UInt8
  mappings : List Mapping

/-- One `UFFDIO_COPY`: the region and mapping it was issued for, the fault
offset, and the copied bytes with their destination. -/
structure Copy where
  region : ServerRegionId
  mapping : Mapping
  faultOff : ℕ
  dst : ℕ
  len : ℕ
  byte : ℕ → UInt8

inductive ConnState where
  | waitResolve
  | waitAttach
  deriving DecidableEq, Repr

/-- Where a loop stands in the handling of one event. -/
inductive Phase where
  | polling
  | found (r : ServerRegionId) (m : Mapping)
  | resolving (r : ServerRegionId) (m : Mapping) (faultOff : ℕ)
  | filling (r : ServerRegionId) (m : Mapping) (faultOff i : ℕ)
  | writing (r : ServerRegionId) (m : Mapping) (faultOff i : ℕ)
  | copying (r : ServerRegionId) (m : Mapping) (faultOff : ℕ)

/-- `calls` and `copies` record every `fill_chunk` call and every copy, newest
first. A loop without a connection state is not running. -/
structure Server where
  pageSize : ℕ
  pageSize_pos : 0 < pageSize
  lock : Option LoopId
  regions : List ServerRegionId
  region : ServerRegionId → ServerRegion
  nextRegion : ServerRegionId
  conn : LoopId → Option ConnState
  phase : LoopId → Phase
  calls : List (Bytes × ℕ)
  copies : List Copy

/-- What a factory returns for a descriptor it accepts; `none` is a null
pointer. Neither the page rounding nor `nchunks+1` may wrap. -/
structure Recipe (pageSize : ℕ) where
  chunkSizes : Option (List ℕ)
  fillChunk : Option (ℕ → ℕ → UInt8)
  count : ∀ sizes, chunkSizes = some sizes → sizes.length+1 < 2^32
  widths : ∀ sizes, chunkSizes = some sizes → ∀ size ∈ sizes, size < 2^64
  rounds : ∀ sizes, chunkSizes = some sizes → ∀ total, sumSizes sizes 0 = some total →
    total+pageSize-1 < 2^64

def findRegion (s : Server) (descriptor : Bytes) : Option ServerRegionId :=
  s.regions.find? (fun r => (s.region r).descriptor = descriptor)

def invalidLayout : String := "factory returned an invalid chunk layout"

/-- `create_region` for the factory's answer. The error is the message for the
client, if there is one; `memory` is whether the allocations succeed. -/
def createRegion (pageSize : ℕ) (hP : 0 < pageSize) (descriptor : Bytes)
    (answer : Except String (Recipe pageSize)) (memory : Bool) :
    Except (Option String) ServerRegion :=
  match answer with
  | .error message => .error (some message)
  | .ok recipe =>
    match hs : recipe.chunkSizes, recipe.fillChunk with
    | some sizes, some fill =>
      if hne : sizes = [] then .error (some invalidLayout)
      else match ht : sumSizes sizes 0 with
        | none => .error (some invalidLayout)
        | some total =>
          if memory then .ok
            { descriptor := descriptor
              layout := Layout.ofSizes pageSize sizes total ⟨hP,hne,recipe.count sizes hs,
                recipe.widths sizes hs,ht,recipe.rounds sizes hs total ht⟩
              resolved := fun _ => false
              content := fun _ => 0
              fillChunk := fill
              mappings := [] }
          else .error none
    | _, _ => .error (some invalidLayout)

def insertRegion (s : Server) (r : ServerRegion) : Server :=
  { s with
    regions := s.nextRegion::s.regions
    region := Function.update s.region s.nextRegion r
    nextRegion := s.nextRegion+1 }

/-- The answer to a resolve request. -/
inductive ResolveReply where
  | closed
  | rejected (error : Option String)
  | accepted (chunkSizes : List ℕ)

def replySizes (L : Layout) (memory : Bool) : ResolveReply :=
  if memory then .accepted ((List.range L.nchunks).map L.chunkSize) else .rejected none

/-- `handle_resolve`, with what the factory would answer if it is called and
whether the allocations of the region and of the reply succeed. -/
def handleResolve (s : Server) (msg : Bytes) (answer : Except String (Recipe s.pageSize))
    (memory replyMemory : Bool) : ResolveReply × Server :=
  match parseResolve msg with
  | .closed => (.closed,s)
  | .malformed => (.rejected none,s)
  | .request descriptor =>
    match findRegion s descriptor with
    | some r => (replySizes (s.region r).layout replyMemory,s)
    | none =>
      match createRegion s.pageSize s.pageSize_pos descriptor answer memory with
      | .error message => (.rejected message,s)
      | .ok r => (replySizes r.layout replyMemory,insertRegion s r)

def Server.update (s : Server) (r : ServerRegionId) (f : ServerRegion → ServerRegion) : Server :=
  { s with region := Function.update s.region r (f (s.region r)) }

/-- `handle_attach`; the answer is `none` when the peer has closed. -/
def handleAttach (s : Server) (msg : Bytes) (uffd : Option ℕ) (memory : Bool) :
    Option Bool × Server :=
  match parseAttach msg uffd with
  | .closed => (none,s)
  | .malformed => (some false,s)
  | .request (fd,base,descriptor) =>
    match findRegion s descriptor with
    | none => (some false,s)
    | some r =>
      if memory then
        (some true,s.update r (fun x => { x with mappings := ⟨fd,base⟩::x.mappings }))
      else (some false,s)

/-- The search of `fc_server_run` for the mapping behind a file descriptor. -/
def findMapping (s : Server) (fd : ℕ) : Option (ServerRegionId × Mapping) :=
  s.regions.findSome? (fun r =>
    ((s.region r).mappings.find? (fun m => m.uffd = fd)).map (fun m => (r,m)))

def setPhase (s : Server) (t : LoopId) (p : Phase) : Server :=
  { s with phase := Function.update s.phase t p }

def setConn (s : Server) (t : LoopId) (c : Option ConnState) : Server :=
  { s with conn := Function.update s.conn t c }

/-- The next state of the connection after an answered resolve request. -/
def afterResolve : ResolveReply → Option ConnState
  | .closed => none
  | .rejected _ => some .waitResolve
  | .accepted _ => some .waitAttach

def afterAttach : Option Bool → Option ConnState
  | none => none
  | some _ => some .waitResolve

/-- `fill_chunk` has been called on chunk `i` and not yet returned. -/
def beginFill (s : Server) (t : LoopId) (r : ServerRegionId) (m : Mapping) (off i : ℕ) : Server :=
  setPhase { s with calls := ((s.region r).descriptor,i)::s.calls } t (.writing r m off i)

def writeContent (s : Server) (r : ServerRegionId) (content : ℕ → UInt8) : Server :=
  s.update r (fun x => { x with content := content })

/-- The bytes of chunk `i` as its callback leaves them. -/
def filled (x : ServerRegion) (i : ℕ) : ℕ → UInt8 := fun y =>
  if x.layout.chunkStart i ≤ y ∧ y < x.layout.chunkStart (i+1) then
    x.fillChunk i (y-x.layout.chunkStart i)
  else x.content y

/-- The callback has returned and `resolved[i]` is set. -/
def endFill (s : Server) (t : LoopId) (r : ServerRegionId) (m : Mapping) (off i : ℕ) : Server :=
  setPhase (s.update r (fun x =>
    { x with content := filled x i, resolved := Function.update x.resolved i true }))
    t (.filling r m off (i+1))

/-- The copy `resolve_fault` issues once it has let go of the lock. -/
def copyOf (s : Server) (r : ServerRegionId) (m : Mapping) (off : ℕ) : Copy :=
  let g := group (s.region r).layout off
  { region := r
    mapping := m
    faultOff := off
    dst := sizeAdd m.baseAddr g.pageLo
    len := g.pageHi-g.pageLo
    byte := fun k => (s.region r).content (g.pageLo+k) }

def copyPages (s : Server) (t : LoopId) (r : ServerRegionId) (m : Mapping) (off : ℕ) : Server :=
  setPhase { s with copies := copyOf s r m off::s.copies } t .polling

/-- One step of one loop. -/
inductive Step : Server → Server → Prop
  | enter (s : Server) (t : LoopId) (hc : s.conn t = none) :
      Step s (setConn s t (some .waitResolve))
  | leave (s : Server) (t : LoopId) (hp : s.phase t = .polling) : Step s (setConn s t none)
  | resolve (s : Server) (t : LoopId) (msg : Bytes) (answer : Except String (Recipe s.pageSize))
      (memory replyMemory : Bool) (hc : s.conn t = some .waitResolve) (hp : s.phase t = .polling)
      (hl : s.lock = none) :
      Step s (setConn (handleResolve s msg answer memory replyMemory).2 t
        (afterResolve (handleResolve s msg answer memory replyMemory).1))
  /-- Open userfaultfds have distinct numbers. -/
  | attach (s : Server) (t : LoopId) (msg : Bytes) (uffd : Option ℕ) (memory : Bool)
      (hc : s.conn t = some .waitAttach) (hp : s.phase t = .polling) (hl : s.lock = none)
      (hfresh : ∀ fd, uffd = some fd → ∀ r ∈ s.regions, ∀ m ∈ (s.region r).mappings, m.uffd ≠ fd) :
      Step s (setConn (handleAttach s msg uffd memory).2 t
        (afterAttach (handleAttach s msg uffd memory).1))
  | event (s : Server) (t : LoopId) (fd : ℕ) (r : ServerRegionId) (m : Mapping)
      (hc : s.conn t ≠ none) (hp : s.phase t = .polling) (hl : s.lock = none)
      (hfind : findMapping s fd = some (r,m)) : Step s (setPhase s t (.found r m))
  /-- The read failed or was not a page fault. -/
  | unread (s : Server) (t : LoopId) (r : ServerRegionId) (m : Mapping)
      (hp : s.phase t = .found r m) : Step s (setPhase s t .polling)
  /-- The fault lies inside the mapping. -/
  | fault (s : Server) (t : LoopId) (r : ServerRegionId) (m : Mapping) (faultAddr : ℕ)
      (hp : s.phase t = .found r m)
      (hin : sizeSub faultAddr m.baseAddr < (s.region r).layout.mappedSize) :
      Step s (setPhase s t (.resolving r m (sizeSub faultAddr m.baseAddr)))
  | acquire (s : Server) (t : LoopId) (r : ServerRegionId) (m : Mapping) (off : ℕ)
      (hp : s.phase t = .resolving r m off) (hl : s.lock = none) :
      Step s (setPhase { s with lock := some t } t
        (.filling r m off (group (s.region r).layout off).lo))
  | skip (s : Server) (t : LoopId) (r : ServerRegionId) (m : Mapping) (off i : ℕ)
      (hp : s.phase t = .filling r m off i) (hi : i ≤ (group (s.region r).layout off).hi)
      (hr : (s.region r).resolved i = true) : Step s (setPhase s t (.filling r m off (i+1)))
  | beginFill (s : Server) (t : LoopId) (r : ServerRegionId) (m : Mapping) (off i : ℕ)
      (hp : s.phase t = .filling r m off i) (hi : i ≤ (group (s.region r).layout off).hi)
      (hr : (s.region r).resolved i = false) : Step s (beginFill s t r m off i)
  /-- While it runs the callback may leave anything in its own chunk. -/
  | write (s : Server) (t : LoopId) (r : ServerRegionId) (m : Mapping) (off i : ℕ)
      (content : ℕ → UInt8) (hp : s.phase t = .writing r m off i)
      (hc : ∀ x, ¬ (s.region r).layout.Covers i x → content x = (s.region r).content x) :
      Step s (writeContent s r content)
  | endFill (s : Server) (t : LoopId) (r : ServerRegionId) (m : Mapping) (off i : ℕ)
      (hp : s.phase t = .writing r m off i) : Step s (endFill s t r m off i)
  | release (s : Server) (t : LoopId) (r : ServerRegionId) (m : Mapping) (off i : ℕ)
      (hp : s.phase t = .filling r m off i) (hi : (group (s.region r).layout off).hi < i) :
      Step s (setPhase { s with lock := none } t (.copying r m off))
  | copy (s : Server) (t : LoopId) (r : ServerRegionId) (m : Mapping) (off : ℕ)
      (hp : s.phase t = .copying r m off) : Step s (copyPages s t r m off)

abbrev Steps := Relation.ReflTransGen Step

/-- `fc_server_create`. -/
def serverStart (pageSize : ℕ) (hP : 0 < pageSize) : Server where
  pageSize := pageSize
  pageSize_pos := hP
  lock := none
  regions := []
  region := fun _ => ⟨[],default,fun _ => false,fun _ => 0,fun _ _ => 0,[]⟩
  nextRegion := 0
  conn := fun _ => none
  phase := fun _ => .polling
  calls := []
  copies := []

def Reachable (s : Server) : Prop := ∃ pageSize hP, Steps (serverStart pageSize hP) s

end FaultCache.ServerMachine
