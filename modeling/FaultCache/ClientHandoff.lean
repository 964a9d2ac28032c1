import FaultCache.ServerRegistry

/-!
# One client and its connection

`fc_client_region_create` is a resolve round trip followed by an attach round
trip on a connection that keeps messages whole and in order. The client keeps
its place in the exchange on its stack, the server in `conn_state`. A client
makes one call after another. Other connections work on the same server in
between, and either side may fail at any point: the client by a failed
assertion, which ends it, and the server loop by returning. A userfaultfd is
named by its open file, which both processes share, and no signal interrupts the
client's `recv`.
-/

set_option autoImplicit false

namespace FaultCache.ClientHandoff
open FaultCache.FixedBytes FaultCache.PageGeometry FaultCache.PoolMachine FaultCache.ChunkTables
open FaultCache.WireFormat FaultCache.ReplyFormat FaultCache.LabelledRuns FaultCache.ServerRegistry
open FaultCache.ServerMachine (LoopId Mapping ConnState)

/-- Where the client stands. -/
inductive Client where
  | idle
  /-- in `resolve_descriptor`, before the reply -/
  | resolving (descriptor : Bytes)
  /-- in `send_attach`, before the acknowledgement -/
  | acking (descriptor : Bytes) (m : Mapping)
  | aborted
  deriving DecidableEq

/-- A call that has returned: the userfaultfd and base of its handle, or null. -/
structure Call where
  descriptor : Bytes
  handle : Option Mapping
  deriving DecidableEq, Repr

def Call.mapping (c : Call) : Option (Bytes × Mapping) := c.handle.map (fun m => (c.descriptor,m))

/-- A message to the server carries a file descriptor or none. `calls` are the
calls that have returned, `attached` the mappings that the server has added on
this connection, newest first. -/
structure System where
  pageSize : ℕ
  client : Client
  toServer : List (Bytes × Option ℕ)
  toClient : List Bytes
  registry : Registry
  calls : List Call
  attached : List (Bytes × Mapping)

inductive Action where
  | call (descriptor : Bytes)
  /-- the reply to the resolve request, then the local setup and the attach request -/
  | reply (keep : Bool) (uffd base : ℕ)
  | ack
  /-- a failed `FC_ASSERT` -/
  | abort
  /-- `recv` finds the connection closed -/
  | hangUp
  /-- the server handles the next message; `delivered` is whether its file
  descriptor could be installed -/
  | serve (answer : Except Bytes RegionRecipe) (memory replyMemory sent delivered : Bool)
  /-- `fc_server_run` returns -/
  | stop
  | other (l : Label)

/-- The bytes that go back to the peer. -/
def replyBytes (s : Registry) : Label → Option Bytes
  | .resolve _ msg answer memory replyMemory true =>
    match handleResolve s msg answer memory replyMemory with
    | .replied reply _ =>
      match respMsg reply with
      | .sent bytes => some bytes
      | _ => none
    | _ => none
  | .attach _ msg uffd memory true =>
    match handleAttach s msg uffd memory with
    | .replied ok _ => some [if ok then 0 else 1]
    | _ => none
  | _ => none

/-- The mapping that the move adds, with the descriptor of its region. -/
def newMapping (s : Registry) : Label → Option (Bytes × Mapping)
  | .attach _ msg uffd memory _ =>
    match parseAttach msg uffd, handleAttach s msg uffd memory with
    | .request (fd,base,d), .replied true _ => some (d,⟨fd,base⟩)
    | _, _ => none
  | _ => none

/-- How `fc_server_run` takes the next message of its connection. -/
def serveLabel (t : LoopId) (s : System) (answer : Except Bytes RegionRecipe)
    (memory replyMemory sent delivered : Bool) : Option Label :=
  match s.toServer, s.registry.conn t with
  | (msg,_)::_, some .waitResolve => some (.resolve t msg answer memory replyMemory sent)
  | (msg,fd)::_, some .waitAttach => some (.attach t msg (if delivered then fd else none) memory sent)
  | _, _ => none

def returned (s : System) (descriptor : Bytes) (handle : Option Mapping) : System :=
  { s with client := .idle, calls := ⟨descriptor,handle⟩::s.calls }

/-- `fc_client_region_create` from the reply on. The local mapping is set up
between the table and the attach request. -/
def afterReply (s : System) (descriptor : Bytes) (uffd base : ℕ) : Resolved → System
  | .refused _ => returned s descriptor none
  | .layout sizes =>
    match fcClientRegionCreate s.pageSize sizes with
    | .created _ =>
      match sendAttach base descriptor with
      | .sent msg =>
        { s with client := .acking descriptor ⟨uffd,base⟩, toServer := s.toServer ++ [(msg,some uffd)] }
      | _ => { s with client := .aborted }
    | .einval => returned s descriptor none
    | _ => { s with client := .aborted }

/-- One step of either side. -/
def act (t : LoopId) (s : System) : Action → Option System
  | .call descriptor =>
    match s.client with
    | .idle =>
      match resolveDescriptor descriptor with
      | .tooLong => some (returned s descriptor none)
      | .sent msg => some { s with client := .resolving descriptor, toServer := s.toServer ++ [(msg,none)] }
      | _ => some { s with client := .aborted }
    | _ => none
  | .reply keep uffd base =>
    match s.client, s.toClient with
    | .resolving descriptor, msg::rest =>
      if base < 2^64 then
        some (afterReply { s with toClient := rest } descriptor uffd base (readReply msg keep))
      else none
    | _, _ => none
  | .ack =>
    match s.client, s.toClient with
    | .acking descriptor m, msg::rest =>
      some (returned { s with toClient := rest } descriptor (if msg.take 1 = [0] then some m else none))
    | _, _ => none
  | .abort => some { s with client := .aborted }
  | .hangUp =>
    if s.registry.conn t = none ∧ s.toClient = [] then
      match s.client with
      | .resolving descriptor => some (returned s descriptor none)
      | .acking descriptor _ => some (returned s descriptor none)
      | _ => none
    else none
  | .serve answer memory replyMemory sent delivered =>
    (serveLabel t s answer memory replyMemory sent delivered).bind (fun l =>
      (step s.registry l).map (fun registry =>
        { s with
          toServer := s.toServer.tail
          toClient := s.toClient ++ (replyBytes s.registry l).toList
          registry := registry
          attached := (newMapping s.registry l).toList ++ s.attached }))
  | .stop => some { s with registry := setConn s.registry t none }
  | .other l =>
    if loopOf l = t then none
    else (step s.registry l).map (fun registry => { s with registry := registry })

def Act (t : LoopId) (s : System) (a : Action) (s' : System) : Prop := act t s a = some s'

/-- The loop has just started on a server that others may have used before. -/
def handoffStart (t : LoopId) (pageSize : ℕ) (r : Registry) : System :=
  ⟨pageSize,.idle,[],[],setConn r t (some .waitResolve),[],[]⟩

/-- The reply to a resolve request that the server is about to send fits into
the client's buffer. -/
def RepliesFit (t : LoopId) (s : System) : Action → Prop
  | .serve answer memory replyMemory sent delivered =>
    ∀ l bytes, serveLabel t s answer memory replyMemory sent delivered = some l →
      replyBytes s.registry l = some bytes → bytes.length ≤ wireMsgMax
  | _ => True

instance (t : LoopId) (s : System) (a : Action) : Decidable (RepliesFit t s a) :=
  match a with
  | .serve answer memory replyMemory sent delivered =>
    decidable_of_iff (∀ l ∈ serveLabel t s answer memory replyMemory sent delivered,
      ∀ bytes ∈ replyBytes s.registry l, bytes.length ≤ wireMsgMax)
      ⟨fun h l bytes hl hb => h l hl bytes hb,fun h l hl bytes hb => h l bytes hl hb⟩
  | .call _ | .reply _ _ _ | .ack | .abort | .hangUp | .stop | .other _ => isTrue trivial

section Server
variable {s s' : Registry} {l : Label} {t : LoopId} {msg : Bytes} {answer : Except Bytes RegionRecipe}
  {memory replyMemory sent : Bool} {uffd : Option ℕ}

/-- A request after which the loop still runs has been answered. -/
theorem resolve_replied (h : step s (.resolve t msg answer memory replyMemory sent) = some s')
    (hc : s'.conn t ≠ none) :
    ∃ reply regions, handleResolve s msg answer memory replyMemory = .replied reply regions ∧
      sent = true ∧ s'.conn t = afterResolve true reply := by
  rcases step_resolve h with ⟨-,rfl⟩ | ⟨reply,regions,hr,rfl⟩
  · exact absurd (setConn_self s t none) hc
  · rw [setConn_self] at hc ⊢
    cases sent with
    | true => exact ⟨reply,regions,hr,rfl,rfl⟩
    | false =>
      cases reply with
      | rejected error => exact absurd rfl hc
      | accepted sizes => exact absurd rfl hc

theorem attach_replied (h : step s (.attach t msg uffd memory sent) = some s') (hc : s'.conn t ≠ none) :
    ∃ ok regions, handleAttach s msg uffd memory = .replied ok regions ∧
      sent = true ∧ s'.conn t = some .waitResolve := by
  rcases step_attach h with ⟨-,rfl⟩ | ⟨ok,regions,hr,rfl⟩
  · exact absurd (setConn_self s t none) hc
  · rw [setConn_self] at hc ⊢
    cases sent with
    | true => exact ⟨ok,regions,hr,rfl,rfl⟩
    | false => exact absurd rfl hc

end Server

/-- The mappings of the region with the descriptor. -/
def mappingsOf (regions : List RegionEntry) (d : Bytes) : List Mapping :=
  ((findRegion regions d).map RegionEntry.mappings).getD []

theorem findRegion_cons (r : RegionEntry) (rs : List RegionEntry) (d : Bytes) :
    findRegion (r::rs) d = if r.descriptor = d then some r else findRegion rs d := by
  rw [findRegion,List.find?_cons]
  split
  · next h => rw [if_pos (by simpa using h)]
  · next h => rw [if_neg (by simpa using h),findRegion]

theorem mappingsOf_attachTo (d₁ d : Bytes) (m₁ : Mapping) (rs : List RegionEntry)
    (hf : (findRegion rs d₁).isSome = true) :
    mappingsOf (attachTo d₁ m₁ rs) d = if d₁ = d then m₁::mappingsOf rs d else mappingsOf rs d := by
  induction rs with
  | nil => cases hf
  | cons r rs ih =>
    rw [findRegion_cons] at hf
    by_cases hr : r.descriptor = d₁
    · rw [attachTo,if_pos hr,mappingsOf,mappingsOf,findRegion_cons,findRegion_cons,hr]
      split_ifs
      · rfl
      · rfl
    · rw [if_neg hr] at hf
      have hrest := ih hf
      rw [attachTo,if_neg hr]
      simp only [mappingsOf,findRegion_cons] at hrest ⊢
      by_cases hd : r.descriptor = d
      · rw [if_pos hd,if_pos hd,if_neg]
        exact fun he => hr (hd.trans he.symm)
      · rw [if_neg hd,if_neg hd]
        exact hrest

/-- A mapping is added by the move that says so, and no mapping is ever lost. -/
theorem step_mappings {s s' : Registry} {l : Label} (h : step s l = some s') (d : Bytes) (m : Mapping) :
    (mappingsOf s'.regions d).count m =
      (newMapping s l).toList.count (d,m)+(mappingsOf s.regions d).count m := by
  cases l with
  | enter t =>
    simp only [step] at h
    split_ifs at h
    cases h
    simp [newMapping]
  | leave t =>
    cases h
    simp [newMapping]
  | resolve t msg answer memory replyMemory sent =>
    rcases step_regions h with he | ⟨d₁,tbl,⟨-,-,-,-,-,-,-,-,hf,-⟩,he⟩ |
      ⟨d₁,m₁,⟨t₁,msg₁,uffd₁,sent₁,hl,-⟩,-⟩
    · simp [newMapping,he]
    · rw [he,mappingsOf,findRegion_cons]
      split_ifs with hd
      · cases hd
        simp [newMapping,mappingsOf,hf]
      · simp [newMapping,mappingsOf]
    · cases hl
  | attach t msg uffd memory sent =>
    rcases step_attach h with ⟨hr,rfl⟩ | ⟨ok,regions,hr,rfl⟩
    · simp [newMapping,hr]
    · rcases handleAttach_replied hr with ⟨rfl,rfl⟩ | ⟨fd,base,d₁,hp,hf,-,rfl,rfl⟩
      · simp [newMapping,hr]
      · have hn : newMapping s (.attach t msg uffd memory sent) = some (d₁,⟨fd,base⟩) := by
          simp only [newMapping,hp,hr]
        rw [hn,setConn_regions,mappingsOf_attachTo d₁ d _ _ hf]
        by_cases hd : d₁ = d
        · rw [if_pos hd,List.count_cons,hd,Nat.add_comm]
          simp [List.count_singleton]
        · rw [if_neg hd]
          simp [hd]

/-- Every position of the exchange, by what the two sides and the connection
between them hold, with the mapping of the current call if it is there. -/
inductive Position : Client → List (Bytes × Option ℕ) → List Bytes → ConnState →
    List (Bytes × Mapping) → Prop
  | between : Position .idle [] [] .waitResolve []
  | asked {d : Bytes} (fits : d.length+8 ≤ wireMsgMax) :
      Position (.resolving d) [(resolveMsg d,none)] [] .waitResolve []
  | refused {d bytes : Bytes} {error : Option Bytes} (sent : respMsg (.rejected error) = .sent bytes)
      (fits : bytes.length ≤ wireMsgMax) : Position (.resolving d) [] [bytes] .waitResolve []
  | offered {d bytes : Bytes} {sizes : List ℕ} (sent : respMsg (.accepted sizes) = .sent bytes)
      (fits : bytes.length ≤ wireMsgMax) (sizable : Sendable sizes) :
      Position (.resolving d) [] [bytes] .waitAttach []
  | attaching {d : Bytes} {m : Mapping} (fits : d.length+16 ≤ wireMsgMax) (based : m.baseAddr < 2^64) :
      Position (.acking d m) [(attachMsg m.baseAddr d,some m.uffd)] [] .waitAttach []
  | acked {d : Bytes} {m : Mapping} : Position (.acking d m) [] [[0]] .waitResolve [(d,m)]
  | nacked {d : Bytes} {m : Mapping} : Position (.acking d m) [] [[1]] .waitResolve []

/-- The client has aborted, or both sides are at the same position. -/
def InStep (t : LoopId) (s : System) : Prop :=
  s.client = .aborted ∨ ∃ c pending, s.registry.conn t = some c ∧
    s.attached = pending ++ s.calls.filterMap Call.mapping ∧
    Position s.client s.toServer s.toClient c pending

section Moves
variable {t : LoopId} {s s' : System}

/-- A list of sizes in a message that fits is read as it was sent. -/
theorem offered_read {sizes : List ℕ} {bytes : Bytes} {keep : Bool} (hs : Sendable sizes)
    (hb : respMsg (.accepted sizes) = .sent bytes) (hfit : bytes.length ≤ wireMsgMax) :
    readReply bytes keep = .layout sizes := by
  have hcount := hs.count
  rw [respMsg_accepted (by omega)] at hb
  cases hb
  rw [List.length_append,respHdr_length,wordsOf_length] at hfit
  exact readReply_accepted hs.nonempty hs.widths hfit

theorem refused_read {error : Option Bytes} {bytes : Bytes} (keep : Bool)
    (hb : respMsg (.rejected error) = .sent bytes) (hfit : bytes.length ≤ wireMsgMax) :
    ∃ e, readReply bytes keep = .refused e := by
  rw [respMsg_rejected] at hb
  cases hb
  rw [List.length_append,respHdr_length] at hfit
  exact ⟨_,readReply_rejected hfit⟩

theorem call_inStep {d : Bytes} (h : act t s (.call d) = some s') (hi : InStep t s) : InStep t s' := by
  obtain ⟨P,client,toServer,toClient,registry,calls,attached⟩ := s
  cases client with
  | idle =>
    rcases hi with hi | ⟨c,pending,hc,ha,hp⟩
    · cases hi
    cases hp
    simp only [act] at h
    split at h
    · cases h
      exact Or.inr ⟨_,[],hc,ha,.between⟩
    · next msg hmsg =>
      cases h
      obtain ⟨hfits,rfl⟩ := resolveDescriptor_inv hmsg
      exact Or.inr ⟨_,[],hc,ha,.asked hfits⟩
    · cases h
      exact Or.inl rfl
  | resolving d => cases h
  | acking d m => cases h
  | aborted => cases h

/-- A refusal ends the call. A layout leads to the attach request, unless the
descriptor is too long for it, which a failed assertion reports. -/
theorem reply_inStep {keep : Bool} {uffd base : ℕ} (h : act t s (.reply keep uffd base) = some s')
    (hi : InStep t s) : InStep t s' := by
  obtain ⟨P,client,toServer,toClient,registry,calls,attached⟩ := s
  cases client with
  | resolving d =>
    rcases hi with hi | ⟨c,pending,hc,ha,hp⟩
    · cases hi
    cases hp with
    | asked fits => cases h
    | refused sent fits =>
      obtain ⟨e,hread⟩ := refused_read keep sent fits
      simp only [act,hread,afterReply] at h
      split_ifs at h
      cases h
      exact Or.inr ⟨_,[],hc,ha,.between⟩
    | offered sent fits sizable =>
      simp only [act,offered_read sizable sent fits,afterReply] at h
      split_ifs at h with hbase
      obtain ⟨total,hs⟩ := sizable.summed
      rw [fcClientRegionCreate,storeLayout_valid sizable.nonempty hs sizable.count] at h
      simp only at h
      split at h
      · next msg hmsg =>
        cases h
        obtain ⟨hfits,rfl⟩ := sendAttach_inv hmsg
        exact Or.inr ⟨_,[],hc,ha,.attaching (m := ⟨uffd,base⟩) hfits hbase⟩
      · cases h
        exact Or.inl rfl
  | idle => cases h
  | acking d m => cases h
  | aborted => cases h

theorem ack_inStep (h : act t s .ack = some s') (hi : InStep t s) : InStep t s' := by
  obtain ⟨P,client,toServer,toClient,registry,calls,attached⟩ := s
  cases client with
  | acking d m =>
    rcases hi with hi | ⟨c,pending,hc,ha,hp⟩
    · cases hi
    cases hp with
    | attaching fits based => cases h
    | acked =>
      cases h
      exact Or.inr ⟨_,[],hc,ha,.between⟩
    | nacked =>
      cases h
      exact Or.inr ⟨_,[],hc,ha,.between⟩
  | idle => cases h
  | resolving d => cases h
  | aborted => cases h

section Serve
variable {answer : Except Bytes RegionRecipe} {memory replyMemory sent delivered : Bool}

theorem serve_inv (h : act t s (.serve answer memory replyMemory sent delivered) = some s') :
    ∃ l registry, serveLabel t s answer memory replyMemory sent delivered = some l ∧
      step s.registry l = some registry ∧
      s' = { s with
        toServer := s.toServer.tail
        toClient := s.toClient ++ (replyBytes s.registry l).toList
        registry := registry
        attached := (newMapping s.registry l).toList ++ s.attached } := by
  obtain ⟨l,hl,h⟩ := Option.bind_eq_some_iff.mp h
  obtain ⟨registry,hs,rfl⟩ := Option.map_eq_some_iff.mp h
  exact ⟨l,registry,hl,hs,rfl⟩

theorem replyBytes_resolve {registry : Registry} {msg bytes : Bytes} {reply : Resp}
    {regions : List RegionEntry}
    (hr : handleResolve registry msg answer memory replyMemory = .replied reply regions)
    (hb : respMsg reply = .sent bytes) :
    replyBytes registry (.resolve t msg answer memory replyMemory true) = some bytes := by
  simp only [replyBytes,hr,hb]

/-- An answered resolve request leaves its reply with the client, and the server
waits for what the client will send next. -/
theorem resolve_answered {registry registry' : Registry} {d msg : Bytes} (ht : TablesStored registry)
    (hs : step registry (.resolve t msg answer memory replyMemory sent) = some registry')
    (hc : registry'.conn t ≠ none)
    (hfit : ∀ bytes, replyBytes registry (.resolve t msg answer memory replyMemory sent) = some bytes →
      bytes.length ≤ wireMsgMax) :
    ∃ c, registry'.conn t = some c ∧ Position (.resolving d) []
      (replyBytes registry (.resolve t msg answer memory replyMemory sent)).toList c [] := by
  obtain ⟨reply,regions,hr,rfl,hconn⟩ := resolve_replied hs hc
  cases reply with
  | rejected error =>
    have hmsg := respMsg_rejected error
    have hb := replyBytes_resolve (t := t) hr hmsg
    rw [hb]
    exact ⟨_,hconn,.refused hmsg (hfit _ hb)⟩
  | accepted sizes =>
    have hsend := accepted_sendable ht hr
    have hcount := hsend.count
    have hmsg := respMsg_accepted (show sizes.length < 2^32 by omega)
    have hb := replyBytes_resolve (t := t) hr hmsg
    rw [hb]
    exact ⟨_,hconn,.offered hmsg (hfit _ hb) hsend⟩

/-- An answered attach request has added the client's mapping, or none and the
client is told so. -/
theorem attach_answered {registry registry' : Registry} {d : Bytes} {m : Mapping} {uffd : Option ℕ}
    (hlen : d.length+16 ≤ wireMsgMax) (hbase : m.baseAddr < 2^64) (hu : ∀ fd, uffd = some fd → fd = m.uffd)
    (hs : step registry (.attach t (attachMsg m.baseAddr d) uffd memory sent) = some registry')
    (hc : registry'.conn t ≠ none) :
    registry'.conn t = some .waitResolve ∧ Position (.acking d m) []
      (replyBytes registry (.attach t (attachMsg m.baseAddr d) uffd memory sent)).toList .waitResolve
      (newMapping registry (.attach t (attachMsg m.baseAddr d) uffd memory sent)).toList := by
  obtain ⟨ok,regions,hr,rfl,hconn⟩ := attach_replied hs hc
  refine ⟨hconn,?_⟩
  rcases handleAttach_replied hr with ⟨rfl,-⟩ | ⟨fd,base,d',hp,-,-,rfl,-⟩
  · have hn : newMapping registry (.attach t (attachMsg m.baseAddr d) uffd memory true) = none := by
      simp [newMapping,hr]
    have hb : replyBytes registry (.attach t (attachMsg m.baseAddr d) uffd memory true) = some [1] := by
      simp [replyBytes,hr]
    rw [hn,hb]
    exact .nacked
  · cases uffd with
    | none =>
      simp only [parseAttach] at hp
      split_ifs at hp
    | some fd' =>
      have hparse : parseAttach (attachMsg m.baseAddr d) (some m.uffd) = .request (m.uffd,m.baseAddr,d) :=
        parseAttach_hdr hlen hbase m.uffd
      rw [hu fd' rfl] at hr ⊢
      have hn : newMapping registry (.attach t (attachMsg m.baseAddr d) (some m.uffd) memory true) =
          some (d,m) := by
        simp only [newMapping,hparse,hr]
      have hb : replyBytes registry (.attach t (attachMsg m.baseAddr d) (some m.uffd) memory true) =
          some [0] := by
        simp [replyBytes,hr]
      rw [hn,hb]
      exact .acked

theorem serve_inStep (ht : TablesStored s.registry)
    (h : act t s (.serve answer memory replyMemory sent delivered) = some s')
    (hfit : RepliesFit t s (.serve answer memory replyMemory sent delivered))
    (hc : s'.registry.conn t ≠ none) (hi : InStep t s) : InStep t s' := by
  obtain ⟨l,registry,hl,hs,rfl⟩ := serve_inv h
  have hbytes := hfit l
  obtain ⟨P,client,toServer,toClient,registry₀,calls,attached⟩ := s
  rcases hi with hi | ⟨c,pending,hconn,ha,hp⟩
  · exact Or.inl hi
  simp only at hconn ha hp
  -- Only a position with a message on its way to the server lets it work.
  cases hp with
  | asked fits =>
    simp only [serveLabel,hconn] at hl
    cases hl
    obtain ⟨c',hc',hpos⟩ := resolve_answered ht hs hc (fun bytes hb => hbytes bytes (by
      simp only [serveLabel,hconn]) hb)
    exact Or.inr ⟨c',[],hc',ha,hpos⟩
  | attaching fits based =>
    simp only [serveLabel,hconn] at hl
    cases hl
    obtain ⟨hc',hpos⟩ := attach_answered fits based (by
      intro fd hfd
      split_ifs at hfd
      exact (Option.some.inj hfd).symm) hs hc
    exact Or.inr ⟨_,_,hc',by rw [ha]; rfl,hpos⟩
  | between => cases hl
  | refused sent fits => cases hl
  | offered sent fits sizable => cases hl
  | acked => cases hl
  | nacked => cases hl

end Serve

/-- The mapping that another connection adds by the move. -/
def foreign : System × Action → Option (Bytes × Mapping)
  | (s,.other l) => newMapping s.registry l
  | _ => none

theorem afterReply_frame (s : System) (d : Bytes) (uffd base : ℕ) (r : Resolved) :
    (afterReply s d uffd base r).registry = s.registry ∧ (afterReply s d uffd base r).attached = s.attached := by
  unfold afterReply
  split
  · exact ⟨rfl,rfl⟩
  · split
    · split
      · exact ⟨rfl,rfl⟩
      · exact ⟨rfl,rfl⟩
    · exact ⟨rfl,rfl⟩
    · exact ⟨rfl,rfl⟩

/-- All that a step can do to the server. -/
theorem act_server {a : Action} (h : act t s a = some s') :
    (s'.registry = s.registry ∧ s'.attached = s.attached ∧ foreign (s,a) = none) ∨
    ∃ l, step s.registry l = some s'.registry ∧
      ((s.registry.conn t = none → s'.registry.conn t = none) ∧
      ((s'.attached = (newMapping s.registry l).toList ++ s.attached ∧ foreign (s,a) = none) ∨
        s'.attached = s.attached ∧ foreign (s,a) = newMapping s.registry l)) := by
  cases a with
  | call d =>
    simp only [act] at h
    split at h
    · split at h
      · cases h
        exact Or.inl ⟨rfl,rfl,rfl⟩
      · cases h
        exact Or.inl ⟨rfl,rfl,rfl⟩
      · cases h
        exact Or.inl ⟨rfl,rfl,rfl⟩
    · cases h
  | reply keep uffd base =>
    simp only [act] at h
    split at h
    · next d msg rest _ _ =>
      split_ifs at h
      cases h
      obtain ⟨h1,h2⟩ := afterReply_frame { s with toClient := rest } d uffd base (readReply msg keep)
      exact Or.inl ⟨h1,h2,rfl⟩
    · cases h
  | ack =>
    simp only [act] at h
    split at h
    · cases h
      exact Or.inl ⟨rfl,rfl,rfl⟩
    · cases h
  | abort =>
    cases h
    exact Or.inl ⟨rfl,rfl,rfl⟩
  | hangUp =>
    simp only [act] at h
    split_ifs at h
    split at h
    · cases h
      exact Or.inl ⟨rfl,rfl,rfl⟩
    · cases h
      exact Or.inl ⟨rfl,rfl,rfl⟩
    · cases h
  | serve answer memory replyMemory sent delivered =>
    obtain ⟨l,registry,hl,hs,rfl⟩ := serve_inv h
    refine Or.inr ⟨l,hs,?_,Or.inl ⟨rfl,rfl⟩⟩
    intro hc
    simp [serveLabel,hc] at hl
  | stop =>
    cases h
    exact Or.inr ⟨.leave t,rfl,fun _ => setConn_self _ t none,Or.inl ⟨rfl,rfl⟩⟩
  | other l =>
    simp only [act] at h
    split_ifs at h with hl
    obtain ⟨registry,hs,rfl⟩ := Option.map_eq_some_iff.mp h
    refine Or.inr ⟨l,hs,?_,Or.inr ⟨rfl,rfl⟩⟩
    intro hc
    exact (step_conn_of_ne hs (Ne.symm hl)).trans hc

/-- While the loop runs the two sides are in step. -/
structure Synchronised (t : LoopId) (s : System) : Prop where
  tables : TablesStored s.registry
  inStep : s.registry.conn t ≠ none → InStep t s

theorem act_synchronised {a : Action} (hi : Synchronised t s) (h : Act t s a s') (hfit : RepliesFit t s a) :
    Synchronised t s' := by
  constructor
  · rcases act_server h with ⟨he,-⟩ | ⟨l,hs,-⟩
    · rw [he]
      exact hi.tables
    · exact step_tablesStored hs hi.tables
  intro hc
  have hrun : s.registry.conn t ≠ none := by
    rcases act_server h with ⟨he,-⟩ | ⟨l,-,hgone,-⟩
    · rw [← he]
      exact hc
    · exact fun hn => hc (hgone hn)
  have hin := hi.inStep hrun
  cases a with
  | call d => exact call_inStep h hin
  | reply keep uffd base => exact reply_inStep h hin
  | ack => exact ack_inStep h hin
  | abort =>
    cases h
    exact Or.inl rfl
  | hangUp =>
    simp only [Act,act,if_neg (fun hgone : _ ∧ _ => hrun hgone.1)] at h
    cases h
  | serve answer memory replyMemory sent delivered => exact serve_inStep hi.tables h hfit hc hin
  | stop =>
    cases h
    exact absurd (setConn_self _ t none) hc
  | other l =>
    simp only [Act,act] at h
    split_ifs at h with hl
    obtain ⟨registry,hs,rfl⟩ := Option.map_eq_some_iff.mp h
    rcases hin with hin | ⟨c,pending,hconn,ha,hp⟩
    · exact Or.inl hin
    · exact Or.inr ⟨c,pending,(step_conn_of_ne hs (Ne.symm hl)).trans hconn,ha,hp⟩

theorem handoffStart_synchronised {r : Registry} {pageSize : ℕ} (ht : TablesStored r) :
    Synchronised t (handoffStart t pageSize r) :=
  ⟨ht,fun _ => Or.inr ⟨.waitResolve,[],setConn_self r t _,rfl,.between⟩⟩

/-- Each mapping of a region came with the start, over another connection, or
over this one. -/
theorem run_accounted {r : Registry} {pageSize : ℕ} {ms : List (System × Action)}
    (hr : Run (Act t) (handoffStart t pageSize r) ms s) (d : Bytes) (m : Mapping) :
    (mappingsOf s.registry.regions d).count m =
      s.attached.count (d,m)+(ms.filterMap foreign).count (d,m)+(mappingsOf r.regions d).count m := by
  induction hr with
  | start => simp [handoffStart]
  | move _ hm ih =>
    rcases act_server hm with ⟨h1,h2,h3⟩ | ⟨l,hs,-,⟨h2,h3⟩ | ⟨h2,h3⟩⟩
    · rw [h1,h2,List.filterMap_cons_none h3]
      exact ih
    · rw [step_mappings hs,h2,List.filterMap_cons_none h3,List.count_append,ih]
      omega
    · rw [step_mappings hs,h2,ih]
      cases hn : newMapping _ l with
      | none =>
        rw [List.filterMap_cons_none (h3.trans hn)]
        simp
      | some p =>
        rw [List.filterMap_cons_some (h3.trans hn),List.count_cons,Option.toList_some,
          List.count_singleton]
        omega

/-- The server takes the next message for what the client meant by it. An attach
request whose file descriptor is lost is refused. -/
def Understood (s : System) : Label → Prop
  | .resolve _ msg _ _ _ _ => ∃ d, s.client = .resolving d ∧ parseResolve msg = .request d
  | .attach _ msg uffd _ _ => ∃ d m, s.client = .acking d m ∧
      parseAttach msg uffd = if uffd = none then .malformed else .request (m.uffd,m.baseAddr,d)
  | _ => False

theorem InStep.understood {answer : Except Bytes RegionRecipe} {memory replyMemory sent delivered : Bool}
    {l : Label} (hi : InStep t s) (hlive : s.client ≠ .aborted)
    (hl : serveLabel t s answer memory replyMemory sent delivered = some l) : Understood s l := by
  obtain ⟨P,client,toServer,toClient,registry,calls,attached⟩ := s
  rcases hi with hi | ⟨c,pending,hconn,-,hp⟩
  · exact absurd hi hlive
  simp only at hconn hp
  cases hp with
  | asked fits =>
    simp only [serveLabel,hconn] at hl
    cases hl
    exact ⟨_,rfl,parseResolve_hdr fits⟩
  | @attaching d m fits based =>
    simp only [serveLabel,hconn] at hl
    cases hl
    refine ⟨_,_,rfl,?_⟩
    cases delivered with
    | true => exact parseAttach_hdr fits based _
    | false =>
      have hlen : (recvMsg (attachMsg m.baseAddr d)).length ≠ 0 := by
        rw [recvMsg_whole]
        · simp [attachMsg,attachReqHdrSize]
        · simp [attachMsg,attachReqHdrSize]
          omega
      simp [parseAttach,hlen]
  | between => cases hl
  | refused sent fits => cases hl
  | offered sent fits sizable => cases hl
  | acked => cases hl
  | nacked => cases hl

end Moves

/-- One client over one connection, after any number of calls, whatever the
factory, the allocations and the other connections do, and as long as the loop
runs and replies fit. Between two calls nothing is in flight and the server waits
for a resolve request; the regions have gained exactly the mappings whose handles
the calls have returned, besides those of other connections; and no message was
ever taken for one of the other kind. -/
theorem handoff_stays_in_step {P pageSize : ℕ} {before : List Moved} {r : Registry} {t : LoopId}
    {ms : List (System × Action)} {s : System} (h₀ : Run Move (registryStart P) before r)
    (hr : Run (Act t) (handoffStart t pageSize r) ms s) (hfit : ∀ m ∈ ms, RepliesFit t m.1 m.2) :
    (s.client = .idle → s.registry.conn t ≠ none →
      s.toServer = [] ∧ s.toClient = [] ∧ s.registry.conn t = some .waitResolve ∧
      ∀ d m, (mappingsOf s.registry.regions d).count m = (s.calls.filterMap Call.mapping).count (d,m)+
        (ms.filterMap foreign).count (d,m)+(mappingsOf r.regions d).count m) ∧
    ∀ v answer memory replyMemory sent delivered l, (v,.serve answer memory replyMemory sent delivered) ∈ ms →
      serveLabel t v answer memory replyMemory sent delivered = some l → v.client ≠ .aborted →
      Understood v l := by
  obtain ⟨hs,hms⟩ := Run.guarded (RepliesFit t) (handoffStart_synchronised (run_tablesStored h₀))
    (fun hi hm hg => act_synchronised hi hm hg) hr hfit
  constructor
  · intro hidle hc
    have haccount := run_accounted hr
    rcases hs.inStep hc with habort | ⟨c,pending,hconn,ha,hp⟩
    · rw [hidle] at habort
      cases habort
    · rw [hidle] at hp
      generalize hx : s.toServer = x at hp ⊢
      generalize hy : s.toClient = y at hp ⊢
      cases hp
      rw [List.nil_append] at ha
      rw [ha] at haccount
      exact ⟨rfl,rfl,hconn,haccount⟩
  · intro v answer memory replyMemory sent delivered l hmem hl hlive
    have hc : v.registry.conn t ≠ none := by
      intro hn
      simp [serveLabel,hn] at hl
    exact ((hms _ hmem).inStep hc).understood hlive hl

/-- Three calls: a mapping is handed over, the factory rejects, and the attach
request is refused for want of memory. -/
def threeCalls : List Action :=
  [.call [1],.serve twoChunks true true true true,.reply true 7 4096,.serve (.error []) true true true true,.ack,
    .call [2],.serve (.error [9]) true true true true,.reply true 8 8192,
    .call [1],.serve (.error []) true true true true,.reply true 8 8192,
    .serve (.error []) false true true true,.ack]

theorem handoff_stays_in_step_three_calls :
    ∃ ms s, trace (act 0) (handoffStart 0 4096 (registryStart 4096)) threeCalls = some (ms,s) ∧
      s.calls = [⟨[1],none⟩,⟨[2],none⟩,⟨[1],some ⟨7,4096⟩⟩] ∧
      s.toServer = [] ∧ s.toClient = [] ∧ s.registry.conn 0 = some .waitResolve := by
  have hfacts : (trace (act 0) (handoffStart 0 4096 (registryStart 4096)) threeCalls).map (fun r =>
      (r.2.calls,decide (r.2.client = .idle),(r.2.registry.conn 0).isSome,
        r.1.all (fun m => decide (RepliesFit 0 m.1 m.2)))) =
      some ([⟨[1],none⟩,⟨[2],none⟩,⟨[1],some ⟨7,4096⟩⟩],true,true,true) := by decide +kernel
  obtain ⟨⟨ms,s⟩,h,he⟩ := Option.map_eq_some_iff.mp hfacts
  simp only [Prod.mk.injEq,decide_eq_true_eq,List.all_eq_true] at he
  obtain ⟨hcalls,hidle,hconn,hfit⟩ := he
  have hc : s.registry.conn 0 ≠ none := by
    intro hn
    rw [hn] at hconn
    cases hconn
  obtain ⟨h1,h2,h3,-⟩ := (handoff_stays_in_step .start (trace_run h) hfit).1 hidle hc
  exact ⟨ms,s,h,hcalls,h1,h2,h3⟩

end FaultCache.ClientHandoff
