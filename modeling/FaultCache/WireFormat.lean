import FaultCache.FixedBytes
import FaultCache.PoolMachine

/-!
# The two requests of a region handoff

A client first sends a descriptor to be resolved and then, once the server has
accepted it, repeats the descriptor in an attach request together with its base
address and its userfaultfd. Both messages are a header followed by the
descriptor, bounded by the same cap; the headers have different sizes. Sizes
are added in `size_t` and stored in a 32-bit field.
-/

set_option autoImplicit false

namespace FaultCache.WireFormat
open FaultCache.FixedBytes FaultCache.PoolMachine

/-- `FC_WIRE_MSG_MAX`. -/
def wireMsgMax : ℕ := 2^20

/-- `struct fc_resolve_req_hdr`: the descriptor size and a reserved word. -/
def resolveReqHdr (descriptorSize : ℕ) : Bytes :=
  bytesOf 4 (descriptorSize % 2^32) ++ bytesOf 4 0

/-- `struct fc_attach_req_hdr`: the base address before the same two words. -/
def attachReqHdr (base descriptorSize : ℕ) : Bytes :=
  bytesOf 8 base ++ bytesOf 4 (descriptorSize % 2^32) ++ bytesOf 4 0

def resolveReqHdrSize : ℕ := 8
def attachReqHdrSize : ℕ := 16

@[simp] theorem resolveReqHdr_length (n : ℕ) : (resolveReqHdr n).length = resolveReqHdrSize := by
  simp [resolveReqHdr,resolveReqHdrSize]

@[simp] theorem attachReqHdr_length (b n : ℕ) : (attachReqHdr b n).length = attachReqHdrSize := by
  simp [attachReqHdr,attachReqHdrSize]

/-- What comes of an attempt to send a request. -/
inductive Outcome where
  /-- refused with `EMSGSIZE`, nothing sent -/
  | tooLong
  | sent (msg : Bytes)
  /-- a copy left the message buffer -/
  | overrun
  /-- a failed `FC_ASSERT` -/
  | aborted

/-- The message buffer of `total` bytes, filled with the header and, unless it
is empty, the descriptor. -/
def assemble (total : ℕ) (hdr descriptor : Bytes) : Outcome :=
  let msg := (memcpy (List.replicate total 0) 0 hdr).bind (fun msg =>
    if descriptor.length = 0 then some msg else memcpy msg hdr.length descriptor)
  match msg with
  | none => .overrun
  | some msg => .sent msg

/-- The sending half of `resolve_descriptor`. -/
def resolveDescriptor (descriptor : Bytes) : Outcome :=
  let total := sizeAdd resolveReqHdrSize descriptor.length
  if total > wireMsgMax then .tooLong
  else assemble total (resolveReqHdr descriptor.length) descriptor

/-- The sending half of `send_attach`. -/
def sendAttach (base : ℕ) (descriptor : Bytes) : Outcome :=
  let total := sizeAdd attachReqHdrSize descriptor.length
  if total ≤ wireMsgMax then assemble total (attachReqHdr base descriptor.length) descriptor
  else .aborted

/-- What the server makes of a message. -/
inductive Parsed (α : Type) where
  | closed
  | malformed
  | request (a : α)

/-- A received message, cut to the receive buffer. -/
def recvMsg (msg : Bytes) : Bytes := msg.take wireMsgMax

/-- The parse of `handle_resolve`. -/
def parseResolve (msg : Bytes) : Parsed Bytes :=
  let buf := recvMsg msg
  let descriptorSize := valueOf (buf.take 4)
  if buf.length = 0 then .closed
  else if resolveReqHdrSize ≤ buf.length ∧ buf.length = resolveReqHdrSize+descriptorSize then
    .request ((buf.drop resolveReqHdrSize).take descriptorSize)
  else .malformed

/-- The parse of `handle_attach`; `uffd` is what came as `SCM_RIGHTS`. -/
def parseAttach (msg : Bytes) (uffd : Option ℕ) : Parsed (ℕ × ℕ × Bytes) :=
  let buf := recvMsg msg
  let base := valueOf (buf.take 8)
  let descriptorSize := valueOf ((buf.drop 8).take 4)
  if buf.length = 0 then .closed
  else match uffd with
    | none => .malformed
    | some fd =>
      if attachReqHdrSize ≤ buf.length ∧ buf.length = attachReqHdrSize+descriptorSize then
        .request (fd,base,(buf.drop attachReqHdrSize).take descriptorSize)
      else .malformed

section Assembly
variable {hdr descriptor : Bytes}

/-- A buffer of exactly the right size ends up as header and descriptor. -/
theorem assemble_exact : assemble (hdr.length+descriptor.length) hdr descriptor =
    .sent (hdr ++ descriptor) := by
  have hfront : memcpy (List.replicate (hdr.length+descriptor.length) 0) 0 hdr =
      some (hdr ++ List.replicate descriptor.length 0) := by
    rw [memcpy_front (by simp),List.drop_replicate,Nat.add_sub_cancel_left]
  by_cases hd : descriptor.length = 0
  · obtain rfl := List.length_eq_zero_iff.mp hd
    rw [assemble,hfront]
    rfl
  · have hback : memcpy (hdr ++ List.replicate descriptor.length 0) hdr.length descriptor =
        some (hdr ++ descriptor) := by
      rw [memcpy_to_end (by simp),List.take_left' rfl]
    rw [assemble,hfront,Option.bind_some,if_neg hd,hback]

/-- Nothing is sent unless both parts fit into the buffer. -/
theorem assemble_sent {total : ℕ} {msg : Bytes} (h : assemble total hdr descriptor = .sent msg) :
    hdr.length+descriptor.length ≤ total := by
  rw [assemble] at h
  cases h1 : memcpy (List.replicate total 0) 0 hdr with
  | none =>
    rw [h1] at h
    cases h
  | some buf =>
    obtain ⟨hle,hlen⟩ := memcpy_some h1
    rw [List.length_replicate] at hle hlen
    rw [h1,Option.bind_some] at h
    by_cases hd : descriptor.length = 0
    · omega
    · rw [if_neg hd] at h
      cases h2 : memcpy buf hdr.length descriptor with
      | none =>
        rw [h2] at h
        cases h
      | some out =>
        have := (memcpy_some h2).1
        omega

end Assembly

section Requests
variable {descriptor : Bytes}

theorem sizeAdd_exact {a b : ℕ} (h : a+b < 2^64) : sizeAdd a b = a+b := Nat.mod_eq_of_lt h

theorem resolveDescriptor_sent (h : descriptor.length+8 ≤ wireMsgMax) :
    resolveDescriptor descriptor = .sent (resolveReqHdr descriptor.length ++ descriptor) := by
  have htotal : sizeAdd resolveReqHdrSize descriptor.length = resolveReqHdrSize+descriptor.length := by
    apply sizeAdd_exact
    simp only [resolveReqHdrSize,wireMsgMax] at h ⊢
    omega
  rw [resolveDescriptor,htotal,if_neg (by simp only [resolveReqHdrSize]; omega)]
  rw [← resolveReqHdr_length descriptor.length]
  exact assemble_exact

theorem sendAttach_sent (base : ℕ) (h : descriptor.length+16 ≤ wireMsgMax) :
    sendAttach base descriptor = .sent (attachReqHdr base descriptor.length ++ descriptor) := by
  have htotal : sizeAdd attachReqHdrSize descriptor.length = attachReqHdrSize+descriptor.length := by
    apply sizeAdd_exact
    simp only [attachReqHdrSize,wireMsgMax] at h ⊢
    omega
  rw [sendAttach,htotal,if_pos (by simp only [attachReqHdrSize]; omega)]
  rw [← attachReqHdr_length base descriptor.length]
  exact assemble_exact

theorem sizeAdd_le (a b : ℕ) : sizeAdd a b ≤ a+b := Nat.mod_le _ _

/-- What is sent is the whole request. -/
theorem resolveDescriptor_inv {msg : Bytes} (h : resolveDescriptor descriptor = .sent msg) :
    descriptor.length+8 ≤ wireMsgMax ∧ msg = resolveReqHdr descriptor.length ++ descriptor := by
  have hfit : descriptor.length+8 ≤ wireMsgMax := by
    simp only [resolveDescriptor] at h
    split_ifs at h with hcap
    have hle := assemble_sent h
    have htotal := sizeAdd_le resolveReqHdrSize descriptor.length
    rw [resolveReqHdr_length] at hle
    simp only [resolveReqHdrSize] at hle htotal hcap
    omega
  rw [resolveDescriptor_sent hfit] at h
  exact ⟨hfit,(Outcome.sent.inj h).symm⟩

theorem sendAttach_inv {base : ℕ} {msg : Bytes} (h : sendAttach base descriptor = .sent msg) :
    descriptor.length+16 ≤ wireMsgMax ∧ msg = attachReqHdr base descriptor.length ++ descriptor := by
  have hfit : descriptor.length+16 ≤ wireMsgMax := by
    simp only [sendAttach] at h
    split_ifs at h with hcap
    have hle := assemble_sent h
    have htotal := sizeAdd_le attachReqHdrSize descriptor.length
    rw [attachReqHdr_length] at hle
    simp only [attachReqHdrSize] at hle htotal hcap
    omega
  rw [sendAttach_sent base hfit] at h
  exact ⟨hfit,(Outcome.sent.inj h).symm⟩

/-- A whole message is received whole. -/
theorem recvMsg_whole {msg : Bytes} (h : msg.length ≤ wireMsgMax) : recvMsg msg = msg :=
  List.take_of_length_le h

theorem size_field_exact (h : descriptor.length+8 ≤ wireMsgMax) :
    valueOf (bytesOf 4 (descriptor.length % 2^32)) = descriptor.length := by
  have hlt : descriptor.length < 2^32 := by
    simp only [wireMsgMax] at h
    omega
  rw [Nat.mod_eq_of_lt hlt]
  exact valueOf_bytesOf_of_lt hlt

theorem parseResolve_hdr (h : descriptor.length+8 ≤ wireMsgMax) :
    parseResolve (resolveReqHdr descriptor.length ++ descriptor) = .request descriptor := by
  set msg := resolveReqHdr descriptor.length ++ descriptor with hmsg
  have hlen : msg.length = resolveReqHdrSize+descriptor.length := by rw [hmsg]; simp
  have hrecv : recvMsg msg = msg := recvMsg_whole (by rw [hlen,resolveReqHdrSize]; omega)
  have hsize : valueOf (msg.take 4) = descriptor.length := by
    rw [hmsg,resolveReqHdr,List.append_assoc,List.take_left' (bytesOf_length 4 _)]
    exact size_field_exact h
  have hdrop : msg.drop resolveReqHdrSize = descriptor :=
    List.drop_left' (resolveReqHdr_length descriptor.length)
  simp only [parseResolve,hrecv,hsize,hlen,hdrop]
  rw [if_neg (by simp only [resolveReqHdrSize]; omega),if_pos ⟨by omega,trivial⟩,List.take_length]

theorem parseAttach_hdr (h : descriptor.length+16 ≤ wireMsgMax) {base : ℕ} (hb : base < 2^64)
    (fd : ℕ) :
    parseAttach (attachReqHdr base descriptor.length ++ descriptor) (some fd) =
      .request (fd,base,descriptor) := by
  set msg := attachReqHdr base descriptor.length ++ descriptor with hmsg
  have hlen : msg.length = attachReqHdrSize+descriptor.length := by rw [hmsg]; simp
  have hrecv : recvMsg msg = msg := recvMsg_whole (by rw [hlen,attachReqHdrSize]; omega)
  have hbase : valueOf (msg.take 8) = base := by
    rw [hmsg,attachReqHdr,List.append_assoc,List.append_assoc,List.take_left' (bytesOf_length 8 _)]
    exact valueOf_bytesOf_of_lt hb
  have hsize : valueOf ((msg.drop 8).take 4) = descriptor.length := by
    rw [hmsg,attachReqHdr,List.append_assoc,List.append_assoc,List.drop_left' (bytesOf_length 8 _),
      List.take_left' (bytesOf_length 4 _)]
    exact size_field_exact (by omega)
  have hdrop : msg.drop attachReqHdrSize = descriptor :=
    List.drop_left' (attachReqHdr_length base descriptor.length)
  simp only [parseAttach,hrecv,hbase,hsize,hlen,hdrop]
  rw [if_neg (by simp only [attachReqHdrSize]; omega),if_pos ⟨by omega,trivial⟩,List.take_length]

end Requests

section Handoff
variable {accepts : Bytes → Bool} {descriptor : Bytes}

end Handoff

end FaultCache.WireFormat
