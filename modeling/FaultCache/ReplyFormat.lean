import FaultCache.ChunkTables
import FaultCache.WireFormat

/-!
# The reply to a resolve request

The server answers with a header and a trailer that depends on the status: the
chunk sizes of an accepted descriptor, or the message of a rejection. The server
sends whatever its layout needs. The client receives into a buffer of the wire
cap and checks the length of what it got against the header.
-/

set_option autoImplicit false

namespace FaultCache.ReplyFormat
open FaultCache.FixedBytes FaultCache.PageGeometry FaultCache.PoolMachine FaultCache.ChunkTables
open FaultCache.WireFormat

def respHdrSize : ℕ := 12

/-- `struct fc_resolve_resp_hdr`; the status `-1` is all ones. -/
def respHdr (status nchunks errorLen : ℕ) : Bytes :=
  bytesOf 4 status ++ bytesOf 4 nchunks ++ bytesOf 4 errorLen

@[simp] theorem respHdr_length (s n e : ℕ) : (respHdr s n e).length = respHdrSize := by
  simp [respHdr,respHdrSize]

/-- What `handle_resolve` has decided. A rejection carries the message of the
factory or of the library, if there is one. -/
inductive Resp where
  | rejected (error : Option Bytes)
  | accepted (chunkSizes : List ℕ)
  deriving DecidableEq, Repr

/-- `reply_sizes`, read off the table of the region. -/
def replySizes (t : ChunkTable) : List ℕ :=
  (List.range t.nchunks).map (fun i => sizeSub (t.chunkStart.getD (i+1) 0) (t.chunkStart.getD i 0))

/-- The sending half of `handle_resolve`. The length of the message is stored in
32 bits, and so much of it is copied. -/
def respMsg : Resp → Outcome
  | .accepted chunkSizes =>
    assemble (sizeAdd respHdrSize (chunkSizes.length*8 % 2^64)) (respHdr 0 chunkSizes.length 0)
      (wordsOf 8 chunkSizes)
  | .rejected error =>
    let message := error.getD []
    let errorLen := message.length % 2^32
    assemble (sizeAdd respHdrSize errorLen) (respHdr (2^32-1) 0 errorLen) (message.take errorLen)

/-- What `resolve_descriptor` makes of the reply. -/
inductive Resolved where
  /-- null with `ECONNREFUSED`, and the message handed to the caller -/
  | refused (error : Option Bytes)
  | layout (chunkSizes : List ℕ)
  deriving DecidableEq, Repr

/-- The receiving half of `resolve_descriptor`. `keep` is whether the caller
asked for the message and there is memory for it. -/
def readReply (msg : Bytes) (keep : Bool) : Resolved :=
  let buf := recvMsg msg
  let status := valueOf (buf.take 4)
  let nchunks := valueOf ((buf.drop 4).take 4)
  let errorLen := valueOf ((buf.drop 8).take 4)
  if respHdrSize ≤ buf.length ∧
      (if status = 0 then 0 < nchunks ∧ buf.length = respHdrSize+nchunks*8
        else buf.length = respHdrSize+errorLen) then
    if status ≠ 0 then
      .refused (if keep = true ∧ errorLen ≠ 0 then some ((buf.drop respHdrSize).take errorLen) else none)
    else .layout ((List.range nchunks).map (fun i => valueOf ((buf.drop (respHdrSize+i*8)).take 8)))
  else .refused none

section Fields
variable (status nchunks errorLen : ℕ)

/-- The three fields of a header, at the front of any message. -/
theorem respHdr_fields (hs : status < 2^32) (hn : nchunks < 2^32) (he : errorLen < 2^32) (rest : Bytes) :
    let msg := respHdr status nchunks errorLen ++ rest
    valueOf (msg.take 4) = status ∧ valueOf ((msg.drop 4).take 4) = nchunks ∧
      valueOf ((msg.drop 8).take 4) = errorLen := by
  have h4 : ∀ n, (bytesOf 4 n).length = 4 := bytesOf_length 4
  refine ⟨?_,?_,?_⟩
  · rw [respHdr,List.append_assoc,List.append_assoc,List.take_left' (h4 _)]
    exact valueOf_bytesOf_of_lt hs
  · rw [respHdr,List.append_assoc,List.append_assoc,List.drop_left' (h4 _),List.take_left' (h4 _)]
    exact valueOf_bytesOf_of_lt hn
  · rw [respHdr,List.append_assoc,List.drop_left' (by simp),List.take_left' (h4 _)]
    exact valueOf_bytesOf_of_lt he

/-- The receive buffer cuts the trailer only. -/
theorem recvMsg_respHdr (trailer : Bytes) :
    recvMsg (respHdr status nchunks errorLen ++ trailer) =
      respHdr status nchunks errorLen ++ trailer.take (wireMsgMax-respHdrSize) := by
  rw [recvMsg,List.take_append,respHdr_length,List.take_of_length_le]
  rw [respHdr_length]
  decide

end Fields

section Messages
variable {sizes : List ℕ} {message : Bytes} {keep : Bool}

theorem respMsg_accepted (hn : sizes.length < 2^32) :
    respMsg (.accepted sizes) = .sent (respHdr 0 sizes.length 0 ++ wordsOf 8 sizes) := by
  have hmul : sizes.length*8 % 2^64 = sizes.length*8 := Nat.mod_eq_of_lt (by omega)
  have htotal : sizeAdd respHdrSize (sizes.length*8) =
      (respHdr 0 sizes.length 0).length+(wordsOf 8 sizes).length := by
    rw [respHdr_length,wordsOf_length]
    exact Nat.mod_eq_of_lt (by simp only [respHdrSize]; omega)
  rw [respMsg,hmul,htotal]
  exact assemble_exact

/-- As much of the message as its length field can tell. -/
def sentError (error : Option Bytes) : Bytes := (error.getD []).take ((error.getD []).length % 2^32)

theorem sentError_short {error : Option Bytes} (hm : (error.getD []).length < 2^32) :
    sentError error = error.getD [] := by
  rw [sentError,Nat.mod_eq_of_lt hm,List.take_length]

theorem respMsg_rejected (error : Option Bytes) :
    respMsg (.rejected error) =
      .sent (respHdr (2^32-1) 0 (sentError error).length ++ sentError error) := by
  have hlen : (sentError error).length = (error.getD []).length % 2^32 := by
    rw [sentError,List.length_take,Nat.min_eq_left (Nat.mod_le _ _)]
  have htotal : sizeAdd respHdrSize ((error.getD []).length % 2^32) =
      (respHdr (2^32-1) 0 (sentError error).length).length+(sentError error).length := by
    have hlt := Nat.mod_lt (error.getD []).length (show 0 < 2^32 by decide)
    rw [respHdr_length,hlen]
    exact Nat.mod_eq_of_lt (by simp only [respHdrSize]; omega)
  have hmsg : respMsg (.rejected error) = assemble (sizeAdd respHdrSize ((error.getD []).length % 2^32))
      (respHdr (2^32-1) 0 ((error.getD []).length % 2^32)) (sentError error) := rfl
  rw [hmsg,htotal,← hlen]
  exact assemble_exact

/-- A list of sizes that fits is read back entry by entry. -/
theorem readReply_accepted (hne : sizes ≠ []) (hw : ∀ size ∈ sizes, size < 2^64)
    (hfit : respHdrSize+sizes.length*8 ≤ wireMsgMax) :
    readReply (respHdr 0 sizes.length 0 ++ wordsOf 8 sizes) keep = .layout sizes := by
  have hn : sizes.length < 2^32 := by
    simp only [respHdrSize,wireMsgMax] at hfit
    omega
  obtain ⟨h1,h2,h3⟩ := respHdr_fields 0 sizes.length 0 (by decide) hn (by decide) (wordsOf 8 sizes)
  have hrecv : recvMsg (respHdr 0 sizes.length 0 ++ wordsOf 8 sizes) =
      respHdr 0 sizes.length 0 ++ wordsOf 8 sizes := by
    apply recvMsg_whole
    rw [List.length_append,respHdr_length,wordsOf_length]
    exact hfit
  have hentry : ∀ i, i < sizes.length → valueOf (((respHdr 0 sizes.length 0 ++ wordsOf 8 sizes).drop
      (respHdrSize+i*8)).take 8) = sizes.getD i 0 := by
    intro i hi
    rw [← respHdr_length 0 sizes.length 0,List.drop_length_add_append,wordsOf_at 8 hi,
      List.getD_eq_getElem _ _ hi]
    exact valueOf_bytesOf_of_lt (hw _ (List.getElem_mem hi))
  have hpos := List.length_pos_iff.mpr hne
  simp only [readReply,hrecv,h1,h2,List.length_append,respHdr_length,wordsOf_length,if_true]
  rw [if_pos ⟨by omega,hpos,trivial⟩,if_neg (by simp)]
  congr 1
  apply List.ext_getElem
  · simp
  · intro i hi hi'
    rw [List.getElem_map,List.getElem_range,hentry i hi',List.getD_eq_getElem _ _ hi']

/-- A list of sizes that does not fit arrives cut, and is taken for a refusal. -/
theorem readReply_cut (hn : sizes.length < 2^32) (hcut : wireMsgMax < respHdrSize+sizes.length*8) :
    readReply (respHdr 0 sizes.length 0 ++ wordsOf 8 sizes) keep = .refused none := by
  set rest := (wordsOf 8 sizes).take (wireMsgMax-respHdrSize) with hrest
  obtain ⟨h1,h2,h3⟩ := respHdr_fields 0 sizes.length 0 (by decide) hn (by decide) rest
  have hlen : rest.length < sizes.length*8 := by
    rw [hrest,List.length_take]
    simp only [respHdrSize,wireMsgMax] at hcut ⊢
    omega
  simp only [readReply,recvMsg_respHdr,← hrest,h1,h2,List.length_append,respHdr_length,if_true]
  rw [if_neg]
  rintro ⟨-,-,hc⟩
  omega

theorem readReply_rejected (hfit : respHdrSize+message.length ≤ wireMsgMax) :
    readReply (respHdr (2^32-1) 0 message.length ++ message) keep =
      .refused (if keep = true ∧ message.length ≠ 0 then some message else none) := by
  have hm : message.length < 2^32 := by
    simp only [respHdrSize,wireMsgMax] at hfit
    omega
  obtain ⟨h1,h2,h3⟩ := respHdr_fields (2^32-1) 0 message.length (by decide) (by decide) hm message
  have hrecv : recvMsg (respHdr (2^32-1) 0 message.length ++ message) =
      respHdr (2^32-1) 0 message.length ++ message := by
    apply recvMsg_whole
    rw [List.length_append,respHdr_length]
    exact hfit
  have hdrop : (respHdr (2^32-1) 0 message.length ++ message).drop respHdrSize = message :=
    List.drop_left' (respHdr_length _ _ _)
  simp only [readReply,hrecv,h1,h3,hdrop,List.length_append,respHdr_length,List.take_length]
  rw [if_pos ⟨by omega,by simp⟩,if_pos (by simp)]

end Messages

section Layouts
variable {P : ℕ} {sizes : List ℕ} {t : ChunkTable}

/-- What `create_region` stores, wrapped rounding included. -/
theorem createRegion_created (hn : sizes.length < 2^32) (h : createRegion P sizes = .created t) :
    ∃ total, sizes ≠ [] ∧ sumSizes sizes 0 = some total ∧ sizes.length+1 < 2^32 ∧
      t = ⟨sizes.length,sizes.scanl sizeAdd 0,total,pageCeil total P⟩ := by
  have hne : sizes ≠ [] := by
    rintro rfl
    cases h
  cases hs : sumSizes sizes 0 with
  | none =>
    simp only [createRegion,storeLayout,if_neg hne,hs] at h
    cases h
  | some total =>
    have hcount : sizes.length+1 < 2^32 := by
      by_contra hc
      rw [createRegion,storeLayout_overrun hs (by omega)] at h
      cases h
    rw [createRegion,storeLayout_valid hne hs hcount] at h
    cases h
    exact ⟨total,hne,rfl,hcount,rfl⟩

/-- The reply carries the sizes the factory returned. -/
theorem replySizes_created (hn : sizes.length < 2^32) (hw : ∀ size ∈ sizes, size < 2^64)
    (h : createRegion P sizes = .created t) : replySizes t = sizes := by
  obtain ⟨total,hne,hs,hcount,rfl⟩ := createRegion_created hn h
  obtain ⟨htotal,hlt,hpos⟩ := sum_sizes_exact sizes 0 total (by decide) hw hs
  rw [Nat.zero_add] at htotal
  subst htotal
  apply List.ext_getElem
  · simp [replySizes]
  · intro i hi hi'
    have hsucc := List.sum_take_succ sizes i hi'
    have hle : (sizes.take (i+1)).sum ≤ sizes.sum := (List.take_sublist _ _).sum_le_sum (by simp)
    simp only [replySizes,List.getElem_map,List.getElem_range,List.getD_eq_getElem?_getD,
      scanl_entry hlt (show i ≤ sizes.length by omega),
      scanl_entry hlt (show i+1 ≤ sizes.length by omega),Option.getD_some]
    rw [sizeSub,hsucc]
    have hwi := hw sizes[i] (List.getElem_mem hi')
    have hadd : (sizes.take i).sum+sizes[i]+(2^64-(sizes.take i).sum) = sizes[i]+2^64 := by omega
    rw [hadd,Nat.add_mod_right,Nat.mod_eq_of_lt hwi]

/-- The client reads the sizes of the region out of the reply, and stores the
same table. Its page size is its own. -/
def ReplyDecoded (clientPageSize : ℕ) (sizes : List ℕ) (t : ChunkTable) : Prop :=
  ∃ msg t', respMsg (.accepted (replySizes t)) = .sent msg ∧
    (∀ keep, readReply msg keep = .layout sizes) ∧ sizes.length = t.nchunks ∧
    fcClientRegionCreate clientPageSize sizes = .created t' ∧
    t'.nchunks = t.nchunks ∧ t'.chunkStart = t.chunkStart

theorem decoded_iff_fits (hn : sizes.length < 2^32) (hw : ∀ size ∈ sizes, size < 2^64)
    (h : createRegion P sizes = .created t) (clientPageSize : ℕ) :
    ReplyDecoded clientPageSize sizes t ↔ respHdrSize+sizes.length*8 ≤ wireMsgMax := by
  have hsent : respMsg (.accepted (replySizes t)) =
      .sent (respHdr 0 sizes.length 0 ++ wordsOf 8 sizes) := by
    rw [replySizes_created hn hw h,respMsg_accepted hn]
  obtain ⟨total,hne,hs,hcount,rfl⟩ := createRegion_created hn h
  constructor
  · rintro ⟨msg,t',hmsg,hread,-⟩
    rw [hsent] at hmsg
    cases hmsg
    by_contra hc
    have hrefused := hread true
    rw [readReply_cut hn (by omega)] at hrefused
    cases hrefused
  · intro hfit
    exact ⟨_,_,hsent,fun _ => readReply_accepted hne hw hfit,rfl,storeLayout_valid hne hs hcount,rfl,rfl⟩

theorem rejection_decoded {message : Bytes} (hm : message.length < wireMsgMax-respHdrSize) :
    ∃ msg, respMsg (.rejected (some message)) = .sent msg ∧
      readReply msg true = .refused (if message = [] then none else some message) := by
  have hfit : respHdrSize+message.length ≤ wireMsgMax := by
    simp only [respHdrSize,wireMsgMax] at hm ⊢
    omega
  have hshort : sentError (some message) = message := by
    apply sentError_short
    simp only [Option.getD_some,respHdrSize,wireMsgMax] at hm ⊢
    omega
  refine ⟨_,respMsg_rejected (some message),?_⟩
  rw [hshort,readReply_rejected hfit]
  congr 1
  by_cases hnil : message = []
  · simp [hnil]
  · simp [hnil]

/-- A layout that the server accepts reaches the client exactly when the reply
fits into the client's receive buffer, and every shorter rejection reaches it as
it was written. -/
theorem reply_decoded_iff_fits (hn : sizes.length < 2^32) (hw : ∀ size ∈ sizes, size < 2^64)
    (h : createRegion P sizes = .created t) (clientPageSize : ℕ) :
    (ReplyDecoded clientPageSize sizes t ↔ sizes.length ≤ 131070) ∧
    ∀ message : Bytes, message.length < wireMsgMax-respHdrSize →
      ∃ msg, respMsg (.rejected (some message)) = .sent msg ∧
        readReply msg true = .refused (if message = [] then none else some message) := by
  refine ⟨?_,fun message hm => rejection_decoded hm⟩
  rw [decoded_iff_fits hn hw h,respHdrSize,wireMsgMax]
  omega

theorem reply_decoded_iff_fits_two_chunks :
    createRegion 4096 [6000,100] = .created ⟨2,[0,6000,6100],6100,8192⟩ ∧
    (ReplyDecoded 4096 [6000,100] ⟨2,[0,6000,6100],6100,8192⟩ ↔ [6000,100].length ≤ 131070) := by
  have h : createRegion 4096 [6000,100] = .created ⟨2,[0,6000,6100],6100,8192⟩ := by decide
  exact ⟨h,(reply_decoded_iff_fits (by decide) (by decide) h 4096).1⟩

/-- Chunks of one byte each, accepted by the server and too many for the reply. -/
theorem unit_chunks_not_decoded (P clientPageSize : ℕ) {n : ℕ} (hlong : 131070 < n) (hn : n+1 < 2^32) :
    ∃ t, createRegion P (List.replicate n 1) = .created t ∧
      ¬ ReplyDecoded clientPageSize (List.replicate n 1) t := by
  have hlen : (List.replicate n 1).length = n := List.length_replicate
  have hone : ∀ size ∈ List.replicate n 1, size = 1 := fun size hs => (List.mem_replicate.mp hs).2
  have hs : sumSizes (List.replicate n 1) 0 = some (0+(List.replicate n 1).sum) := by
    apply sum_sizes_some
    · intro size hm
      rw [hone size hm]
      decide
    · rw [List.sum_replicate,Nat.nsmul_eq_mul]
      omega
  have hne : List.replicate n 1 ≠ [] := by
    rw [ne_eq,List.replicate_eq_nil_iff]
    omega
  have hc : createRegion P (List.replicate n 1) = _ := storeLayout_valid hne hs (by rw [hlen]; exact hn)
  refine ⟨_,hc,?_⟩
  rw [decoded_iff_fits (by rw [hlen]; omega) ?_ hc,hlen,respHdrSize,wireMsgMax]
  · omega
  · intro size hm
    rw [hone size hm]
    decide

/-- With one chunk more than the buffer has room for. -/
theorem long_reply_is_refused :
    ¬ ∀ P sizes t clientPageSize, sizes.length < 2^32 → (∀ size ∈ sizes, size < 2^64) →
      createRegion P sizes = .created t → ReplyDecoded clientPageSize sizes t := by
  intro hall
  obtain ⟨t,hc,hbad⟩ := unit_chunks_not_decoded 4096 4096 (n := 131071) (by decide) (by decide)
  refine hbad (hall 4096 _ t 4096 ?_ ?_ hc)
  · rw [List.length_replicate]
    decide
  · intro size hm
    rw [(List.mem_replicate.mp hm).2]
    decide

end Layouts

end FaultCache.ReplyFormat
