import Hashmonkey.Epee.LevinChunks

/-!
# Notifications of a fixed packet size (`levin_base.cpp`)

`make_fragmented_notify` hides the size of a notification: all packets it makes have the size of
the noise that a connection sends otherwise. A short message is padded with zeros; a long one is
cut into fragments, whose payloads together are the message with its own header, and the last
fragment is padded.

* `makeHeader`, `finalizeNotify`: the header that `message_writer` puts before a payload;
* `makeFragmentedNotify`: the bytes that are sent, or `none` for a size with no room for two
  headers. `writeFragments` is its loop over what the first fragment leaves;
* `IsPacket`: a header, and as many bytes as it announces;
* `Admits`: the limits of a connection are not below the sizes of the packets and the message.

The receiver is the one of `Epee/Levin`. Each packet is unpacked in two rounds of its loop
(`settle_packet`), and the fragments behind the first are followed along the loop of the sender
(`settle_padded`).

Result: **`handleRecv_makeFragmentedNotify`**, the bytes cut into packets of exactly that size, and
a receiver that is given all of them makes one notification of them, with the payload that was
sent (followed by the zeros when it went in one packet).
-/

namespace Hashmonkey.Epee

open Lib List

/-- `make_header`. -/
def makeHeader (command : UInt32) (msgSize : ℕ) (flags : UInt32) (expectResponse : Bool) :
    BucketHead2 where
  signature := levinSignature
  cb := .ofNat msgSize
  haveToReturnData := if expectResponse then 1 else 0
  command
  returnCode := 0
  flags
  protocolVersion := protocolVer1

/-- `message_writer::finalize`: the header in the space before the payload. -/
def finalize (payload : Bytes) (command flags returnCode : UInt32) (expectResponse : Bool) :
    Bytes :=
  BucketHead2.toBytes { makeHeader command payload.length flags expectResponse with returnCode } ++
    payload

/-- `finalize_notify`. -/
def finalizeNotify (payload : Bytes) (command : UInt32) : Bytes :=
  finalize payload command packetRequest 0 false

theorem finalizeNotify_eq (payload : Bytes) (command : UInt32) : finalizeNotify payload command =
    (makeHeader command payload.length packetRequest false).toBytes ++ payload := rfl

/-- `put_n(0, n)`. -/
def zeros (n : ℕ) : Bytes := List.replicate n 0

/-- The loop of `make_fragmented_notify` over what the first fragment has left, with the size of
the last piece that was copied. A number of rounds stands in for the end of the payload. -/
def writeFragments (payloadSpace : ℕ) : ℕ → Bytes → ℕ → Bytes × ℕ
  | 0, _, copySize => ([], copySize)
  | n + 1, payload, copySize =>
    if payload = [] then ([], copySize)
    else
      let copy := payload.take payloadSpace
      let rest := payload.drop payloadSpace
      let flags := if rest = [] then packetEnd else 0
      let written := writeFragments payloadSpace n rest copy.length
      ((makeHeader 0 payloadSpace flags false).toBytes ++ copy ++ written.1, written.2)

/-- `make_fragmented_notify`; `none` is the null slice for a size that has no room for two
headers. -/
def makeFragmentedNotify (noiseSize : ℕ) (command : UInt32) (payload : Bytes) : Option Bytes :=
  if noiseSize < headSize * 2 then none
  else if headSize + payload.length ≤ noiseSize then
    some (finalizeNotify (payload ++ zeros (noiseSize - (headSize + payload.length))) command)
  else
    let bytes := finalizeNotify payload command
    let payloadSpace := noiseSize - headSize
    let copy := bytes.take payloadSpace
    let written := writeFragments payloadSpace bytes.length (bytes.drop payloadSpace) copy.length
    some ((makeHeader 0 payloadSpace packetBegin false).toBytes ++ copy ++ written.1 ++
      zeros (noiseSize - written.2 - headSize))

/-! ## Packets -/

/-- A levin packet of a given size: a header and as many bytes as it announces. -/
def IsPacket (size : ℕ) (p : Bytes) : Prop :=
  p.length = size ∧ ∃ (head : BucketHead2) (body : Bytes), p = head.toBytes ++ body ∧
    head.signature = levinSignature ∧ head.cb.toNat = body.length

@[simp] theorem length_zeros (n : ℕ) : (zeros n).length = n := length_replicate

variable {size : ℕ}

theorem makeHeader_cb {command flags : UInt32} {expect : Bool} (hsize : size < 2 ^ 64) :
    (makeHeader command size flags expect).cb.toNat = size := by
  exact Nat.mod_eq_of_lt hsize

/-- A fragment that fills its packet, or one that is padded to do so. -/
theorem isPacket_of_fragment {space : ℕ} {flags : UInt32} {body : Bytes}
    (hbody : body.length = space) (hspace : space < 2 ^ 64) :
    IsPacket (headSize + space) ((makeHeader 0 space flags false).toBytes ++ body) :=
  ⟨by simp [hbody], _, _, rfl, rfl, (makeHeader_cb hspace).trans hbody.symm⟩

variable {payload : Bytes}

theorem isPacket_finalizeNotify (command : UInt32)
    (hlen : headSize + payload.length = size) (hsize : size < 2 ^ 64) :
    IsPacket size (finalizeNotify payload command) := by
  rw [finalizeNotify_eq]
  exact ⟨by simp [hlen], _, _, rfl, rfl, makeHeader_cb (by omega)⟩

/-- What the loop writes, with the padding behind it. -/
def padded (space n : ℕ) (payload : Bytes) (copySize : ℕ) : Bytes :=
  (writeFragments space n payload copySize).1 ++
    zeros (space - (writeFragments space n payload copySize).2)

variable {copySize : ℕ}

theorem padded_last {space n : ℕ} (hne : payload ≠ [])
    (hlast : payload.length ≤ space) :
    padded space (n + 1) payload copySize = (makeHeader 0 space packetEnd false).toBytes ++
      (payload ++ zeros (space - payload.length)) := by
  have hend : writeFragments space n [] payload.length = ([], payload.length) := by
    cases n <;> simp [writeFragments]
  simp only [padded, writeFragments, if_neg hne, drop_of_length_le hlast,
    take_of_length_le hlast, hend, if_true, append_nil, append_assoc]

theorem padded_more {space n : ℕ}
    (hmore : space < payload.length) :
    padded space (n + 1) payload copySize = (makeHeader 0 space 0 false).toBytes ++
      (payload.take space ++ padded space n (payload.drop space) (payload.take space).length) := by
  have hne : payload ≠ [] := ne_nil_of_length_pos (by omega)
  have hrest : payload.drop space ≠ [] := ne_nil_of_length_pos (by simp; omega)
  simp only [padded, writeFragments, if_neg hne, if_neg hrest, append_assoc]

/-- The fragments behind the first cut into packets. -/
theorem padded_packets {space : ℕ} (hpos : 0 < space) (hspace : space < 2 ^ 64) {n : ℕ}
    (hne : payload ≠ []) (hn : payload.length ≤ n) :
    ∃ packets : List Bytes, padded space n payload copySize = packets.flatten ∧
      ∀ p ∈ packets, IsPacket (headSize + space) p := by
  induction n generalizing payload copySize with
  | zero => exact absurd (eq_nil_of_length_eq_zero (Nat.le_zero.mp hn)) hne
  | succ n ih =>
    rcases le_or_gt payload.length space with hlast | hmore
    · rw [padded_last hne hlast]
      refine ⟨[_], flatten_singleton.symm, fun p hp => ?_⟩
      rw [mem_singleton.mp hp]
      exact isPacket_of_fragment (by simp; omega) hspace
    have hrest : payload.drop space ≠ [] := ne_nil_of_length_pos (by simp; omega)
    obtain ⟨packets, heq, hall⟩ := @ih (payload.drop space) (payload.take space).length hrest
      (by rw [length_drop]; omega)
    rw [padded_more hmore, heq, ← append_assoc]
    refine ⟨_ :: packets, flatten_cons.symm, fun p hp => ?_⟩
    rcases mem_cons.mp hp with rfl | hp
    · exact isPacket_of_fragment (by simp; omega) hspace
    · exact hall p hp

variable {noiseSize : ℕ}

@[simp] theorem length_finalizeNotify (payload : Bytes) (command : UInt32) :
    (finalizeNotify payload command).length = headSize + payload.length := by
  simp [finalizeNotify_eq]

theorem makeFragmentedNotify_short (command : UInt32)
    (hnoise : headSize * 2 ≤ noiseSize) (hshort : headSize + payload.length ≤ noiseSize) :
    makeFragmentedNotify noiseSize command payload =
      some (finalizeNotify (payload ++ zeros (noiseSize - (headSize + payload.length)))
        command) := by
  rw [makeFragmentedNotify, if_neg (by omega), if_pos hshort]

theorem makeFragmentedNotify_long (command : UInt32)
    (hnoise : headSize * 2 ≤ noiseSize) (hlong : noiseSize < headSize + payload.length) :
    ∃ first rest, first ++ rest = finalizeNotify payload command ∧
      first.length = noiseSize - headSize ∧ rest ≠ [] ∧
      makeFragmentedNotify noiseSize command payload =
        some ((makeHeader 0 (noiseSize - headSize) packetBegin false).toBytes ++ (first ++
          padded (noiseSize - headSize) (first ++ rest).length rest first.length)) := by
  refine ⟨_, _, take_append_drop (noiseSize - headSize) _, by simp; omega,
    ne_nil_of_length_pos (by simp; omega), ?_⟩
  rw [makeFragmentedNotify, if_neg (by omega), if_neg (by omega)]
  simp only [padded, append_assoc, Nat.sub_right_comm noiseSize, take_append_drop]

/-- **All packets of a fragmented notification have the size of the noise.** -/
theorem makeFragmentedNotify_packets (command : UInt32)
    (hnoise : headSize * 2 ≤ noiseSize) (hword : noiseSize < 2 ^ 64) :
    ∃ packets : List Bytes,
      makeFragmentedNotify noiseSize command payload = some packets.flatten ∧
        ∀ p ∈ packets, IsPacket noiseSize p := by
  have hsize : headSize = 33 := rfl
  rcases le_or_gt (headSize + payload.length) noiseSize with hshort | hlong
  · rw [makeFragmentedNotify_short command hnoise hshort]
    refine ⟨[_], congrArg some flatten_singleton.symm, fun p hp => ?_⟩
    rw [mem_singleton.mp hp]
    exact isPacket_finalizeNotify command (by simp; omega) hword
  have hspace : noiseSize = headSize + (noiseSize - headSize) := by omega
  obtain ⟨first, rest, -, hfirst, hrest, hbytes⟩ :=
    makeFragmentedNotify_long command hnoise hlong
  obtain ⟨packets, heq, hall⟩ := @padded_packets rest first.length (noiseSize - headSize)
    (by omega) (by omega) (first ++ rest).length hrest (by simp)
  rw [hbytes, heq, ← append_assoc]
  refine ⟨_ :: packets, congrArg some flatten_cons.symm, fun p hp => ?_⟩
  rw [hspace]
  rcases mem_cons.mp hp with rfl | hp
  · exact isPacket_of_fragment hfirst (by omega)
  · exact hall p hp

theorem length_flatten_of_forall {packets : List Bytes} (hall : ∀ p ∈ packets, p.length = size) :
    packets.flatten.length = packets.length * size := by
  rw [length_flatten, map_congr_left hall, map_const', sum_replicate_nat]

/-! ## The receiver puts them together -/

namespace Connection

variable (h : CommandsHandler)

/-- The connection after a packet, with its header as the current one. -/
def afterPacket (s : Connection Bytes) (head : BucketHead2) (rest : Bytes) : Connection Bytes :=
  { s with
    cache := rest
    state := .head
    currentHead := head
    oponentProtocolVer := head.protocolVersion }

variable {limit : ℕ} {head : BucketHead2} {s : Connection Bytes}

/-- A packet that is there and within the limits is unpacked in two rounds. -/
theorem settle_packet {body rest : Bytes}
    (hstate : s.state = .head) (hcache : s.cache = head.toBytes ++ (body ++ rest))
    (hsig : head.signature = levinSignature) (hcb : head.cb.toNat = body.length)
    (hlimit : body.length ≤ min limit (h.getMaxBytes head.command)) :
    s.settle h limit =
      (finish h (unpack h limit (s.afterPacket head rest) body)).andThen
        fun t => t.settle h limit := by
  have hp : s.pending = head.toBytes ++ (body ++ rest) := hcache
  have hfull : ¬ s.pending.length < headSize := by
    rw [hp]
    simp
  have herase : Cache.erase s.cache headSize = body ++ rest := by
    change s.cache.drop headSize = _
    rw [hcache, ← head.length_toBytes, drop_left]
  have hhead : s.step h limit = .next { s with
      cache := body ++ rest
      state := .body
      currentHead := head
      oponentProtocolVer := head.protocolVersion } := by
    simp only [step, hstate, readHead, if_neg hfull, herase]
    rw [hp, BucketHead2.ofBytes_toBytes, if_neg (not_not.mpr hsig), hcb, if_neg (not_lt.mpr hlimit)]
  rw [settle_eq, hhead]
  change settle h limit _ = _
  have hbody : (body ++ rest).take head.cb.toNat = body := by rw [hcb, take_left]
  have hrest : (body ++ rest).drop head.cb.toNat = rest := by rw [hcb, drop_left]
  rw [settle_eq, step, readBody_of_le]
  · simp only [Cache.carve, hbody, hrest]
    rfl
  · change head.cb.toNat ≤ (body ++ rest).length
    simp [hcb]

/-- A connection with nothing to read waits. -/
theorem settle_idle (hstate : s.state = .head)
    (hcache : s.cache = []) : s.settle h limit = (true, s) := by
  have hp : s.pending = [] := hcache
  have hstep : s.step h limit = .wait s := by
    simp [step, hstate, readHead, hp, headSize]
  rw [settle_eq, hstep, Outcome.andThen]

/-- A message that is a notification is delivered, and the connection then waits. -/
theorem finish_notify (hcur : s.currentHead = head)
    (hreq : head.flags = packetRequest) (hret : head.haveToReturnData = 0) :
    finish h (.message s payload) = .next (s.deliver h ⟨.notify, head.command, payload⟩) := by
  subst hcur
  have hflags : s.currentHead.flags &&& packetResponse = 0 := by
    rw [hreq]
    decide
  simp [finish, dispatch, hflags, hret]

/-! ### Fragments -/

variable {buff : Bytes}

theorem unpack_begin (hflags : s.currentHead.flags = packetBegin) :
    unpack h limit s buff = .skip { s with fragment := buff } := by
  have hreq : packetBegin &&& (packetRequest ||| packetResponse) = 0 := by decide
  have hboth : ¬ packetBegin &&& (packetBegin ||| packetEnd) = packetBegin ||| packetEnd := by
    decide
  have hbegin : packetBegin &&& packetBegin ≠ 0 := by decide
  have hend : packetBegin &&& packetEnd = 0 := by decide
  simp only [unpack, hflags, hreq, ne_eq, not_true_eq_false, if_false, if_neg hboth, if_pos hbegin,
    hend, if_true, nil_append]

theorem unpack_middle (hflags : s.currentHead.flags = 0) :
    unpack h limit s buff = .skip { s with fragment := s.fragment ++ buff } := by
  have hboth : ¬ (0 : UInt32) = packetBegin ||| packetEnd := by decide
  simp [unpack, hflags, hboth]

/-- The last fragment gives the message whose header stands at the front of all fragments. -/
theorem unpack_end {msg pad : Bytes}
    (hflags : s.currentHead.flags = packetEnd)
    (hall : s.fragment ++ buff = head.toBytes ++ (msg ++ pad)) (hcb : head.cb.toNat = msg.length)
    (hlimit : msg.length ≤ min limit (h.getMaxBytes head.command)) :
    unpack h limit s buff = .message { s with fragment := [], currentHead := head } msg := by
  have hdrop : (head.toBytes ++ (msg ++ pad)).drop headSize = msg ++ pad := by
    rw [← head.length_toBytes, drop_left]
  have hlong : ¬ (head.toBytes ++ (msg ++ pad)).length < headSize := by simp
  have hfits : ¬ (msg ++ pad).length < head.cb.toNat := by simp [hcb]
  have hwithin : ¬ min limit (h.getMaxBytes head.command) < head.cb.toNat := by omega
  have hreq : packetEnd &&& (packetRequest ||| packetResponse) = 0 := by decide
  have hboth : ¬ packetEnd &&& (packetBegin ||| packetEnd) = packetBegin ||| packetEnd := by decide
  have hbegin : packetEnd &&& packetBegin = 0 := by decide
  have hend : ¬ packetEnd &&& packetEnd = 0 := by decide
  simp only [unpack, hflags, hreq, hbegin, ne_eq, not_true_eq_false, if_false, if_neg hboth,
    if_neg hend, hall, if_neg hlong, BucketHead2.ofBytes_toBytes, hdrop, if_neg hfits,
    if_neg hwithin]
  rw [hcb, take_left]

/-- The fragments behind the first one complete the message. The induction follows the sender's
loop; what was received so far and what the sender still has make up the message. -/
theorem settle_padded {space n : ℕ} {payload msg : Bytes} {command : UInt32} (hpos : 0 < space)
    (hspace : space < 2 ^ 64) (hmsg : msg.length < 2 ^ 64) (hne : payload ≠ [])
    (hn : payload.length ≤ n) (hall : s.fragment ++ payload = finalizeNotify msg command)
    (hstate : s.state = .head) (hcache : s.cache = padded space n payload copySize)
    (hfragment : space ≤ min limit (h.getMaxBytes 0))
    (hlimit : msg.length ≤ min limit (h.getMaxBytes command)) :
    ∃ t, s.settle h limit = (true, t) ∧
      t.delivered = s.delivered ++ [⟨.notify, command, msg⟩] := by
  induction n generalizing payload copySize s with
  | zero => exact absurd (eq_nil_of_length_eq_zero (Nat.le_zero.mp hn)) hne
  | succ n ih =>
    rcases le_or_gt payload.length space with hlast | hmore
    · rw [padded_last hne hlast] at hcache
      have hbody : (payload ++ zeros (space - payload.length)).length = space := by
        simp
        omega
      have hcache' : s.cache = (makeHeader 0 space packetEnd false).toBytes ++
          ((payload ++ zeros (space - payload.length)) ++ []) := by
        rw [hcache, append_nil]
      have hread := settle_packet h hstate hcache' rfl ((makeHeader_cb hspace).trans hbody.symm)
        (hbody.le.trans hfragment)
      have hcat : (s.afterPacket (makeHeader 0 space packetEnd false) []).fragment ++
          (payload ++ zeros (space - payload.length)) =
          (makeHeader command msg.length packetRequest false).toBytes ++
            (msg ++ zeros (space - payload.length)) := by
        change s.fragment ++ _ = _
        rw [← append_assoc, hall, finalizeNotify_eq, append_assoc]
      rw [unpack_end h rfl hcat (makeHeader_cb hmsg) hlimit, finish_notify h rfl rfl rfl] at hread
      refine ⟨_, hread.trans (settle_idle h rfl rfl), rfl⟩
    · have hfull : (payload.take space).length = space := by
        simp
        omega
      have hrest : payload.drop space ≠ [] := ne_nil_of_length_pos (by simp; omega)
      rw [padded_more hmore] at hcache
      have hread := settle_packet h hstate hcache rfl ((makeHeader_cb hspace).trans hfull.symm)
        (hfull.le.trans hfragment)
      rw [unpack_middle h rfl] at hread
      have hall' : (s.fragment ++ payload.take space) ++ payload.drop space =
          finalizeNotify msg command := by
        rw [append_assoc, take_append_drop, hall]
      obtain ⟨t, ht, hdelivered⟩ := @ih (payload.take space).length
        { s.afterPacket (makeHeader 0 space 0 false) (padded space n (payload.drop space)
            (payload.take space).length) with fragment := s.fragment ++ payload.take space }
        _ hrest (by rw [length_drop]; omega) hall' rfl rfl
      exact ⟨t, hread.trans ht, hdelivered⟩

/-! ### The whole notification -/

/-- The size limits of a connection admit the packets and the message. -/
structure Admits {β : Type} (s : Connection β) (noiseSize : ℕ) (command : UInt32)
    (payload : Bytes) : Prop where
  packet_le : noiseSize ≤ s.maxPacketSize
  payload_le : payload.length ≤ s.maxPacketSize
  fragment_le : noiseSize ≤ h.getMaxBytes 0
  short_le : noiseSize ≤ h.getMaxBytes command
  message_le : payload.length ≤ h.getMaxBytes command

/-- The zeros that a notification which fits in one packet gets behind its payload. -/
def padding (noiseSize : ℕ) (payload : Bytes) : Bytes :=
  if headSize + payload.length ≤ noiseSize then zeros (noiseSize - (headSize + payload.length))
  else []

/-- A message in one packet is delivered with its padding. -/
theorem settle_short {command : UInt32} (hsize : payload.length < 2 ^ 64) (hstate : s.state = .head)
    (hcache : s.cache = finalizeNotify payload command)
    (hlimit : payload.length ≤ min limit (h.getMaxBytes command)) :
    ∃ t, s.settle h limit = (true, t) ∧
      t.delivered = s.delivered ++ [⟨.notify, command, payload⟩] := by
  have hcache' : s.cache = (makeHeader command payload.length packetRequest false).toBytes ++
      (payload ++ []) := by
    rw [hcache, finalizeNotify_eq, append_nil]
  have hread := settle_packet h hstate hcache' rfl (makeHeader_cb hsize) hlimit
  have hplain : unpack h limit
      (s.afterPacket (makeHeader command payload.length packetRequest false) []) payload =
        .message (s.afterPacket (makeHeader command payload.length packetRequest false) [])
          payload := if_pos (by change packetRequest &&& _ ≠ 0; decide)
  rw [hplain, finish_notify h rfl rfl rfl] at hread
  exact ⟨_, hread.trans (settle_idle h rfl rfl), rfl⟩

theorem settle_makeFragmentedNotify {command : UInt32} {payload bytes : Bytes}
    (hnoise : headSize * 2 ≤ noiseSize) (hword : noiseSize < 2 ^ 64)
    (hsize : headSize + payload.length < 2 ^ 64)
    (hbytes : makeFragmentedNotify noiseSize command payload = some bytes)
    (hstate : s.state = .head) (hcache : s.cache = bytes)
    (hadmits : s.Admits h noiseSize command payload) :
    ∃ t, s.settle h s.maxPacketSize = (true, t) ∧
      t.delivered = s.delivered ++ [⟨.notify, command, payload ++ padding noiseSize payload⟩] := by
  have hhead : headSize = 33 := rfl
  obtain ⟨hpacket, hpayload, hfragment, hshort, hmessage⟩ := hadmits
  rcases le_or_gt (headSize + payload.length) noiseSize with hfits | hlong
  · have hpad : padding noiseSize payload = zeros (noiseSize - (headSize + payload.length)) :=
      if_pos hfits
    have hlen : (payload ++ padding noiseSize payload).length = noiseSize - headSize := by
      simp [hpad]
      omega
    rw [makeFragmentedNotify_short command hnoise hfits, ← hpad] at hbytes
    cases hbytes
    exact settle_short h (by omega) hstate hcache (hlen ▸ le_min (by omega) (by omega))
  · have hpad : padding noiseSize payload = [] := if_neg (by omega)
    obtain ⟨first, rest, hcat, hfull, hrest, heq⟩ := makeFragmentedNotify_long command hnoise hlong
    have hspace : noiseSize - headSize ≤ min s.maxPacketSize (h.getMaxBytes 0) :=
      le_min (by omega) (by omega)
    obtain rfl := Option.some.inj (heq.symm.trans hbytes)
    have hread := settle_packet h hstate hcache rfl ((makeHeader_cb (by omega)).trans hfull.symm)
      (hfull.le.trans hspace)
    rw [unpack_begin h rfl] at hread
    rw [hpad, append_nil]
    obtain ⟨t, ht, hdelivered⟩ := @settle_padded first.length h s.maxPacketSize
      { s.afterPacket (makeHeader 0 (noiseSize - headSize) packetBegin false)
          (padded (noiseSize - headSize) (first ++ rest).length rest first.length) with
        fragment := first }
      (noiseSize - headSize) (first ++ rest).length rest payload command (by omega) (by omega)
      (by omega) hrest (by simp) hcat rfl rfl hspace (le_min hpayload hmessage)
    exact ⟨t, hread.trans ht, hdelivered⟩

/-- **A fragmented notification is packets of the noise's size, and one notification for the
receiver.** All of them have exactly that size, and a connection that waits for a header and has
room for them delivers the payload that was sent, followed by the zeros of the padding when it went
in one packet. -/
theorem handleRecv_makeFragmentedNotify {noiseSize : ℕ} {payload : Bytes} (command : UInt32)
    (hnoise : headSize * 2 ≤ noiseSize) (hword : noiseSize < 2 ^ 64)
    (hsize : headSize + payload.length < 2 ^ 64) :
    ∃ packets : List Bytes,
      makeFragmentedNotify noiseSize command payload = some packets.flatten ∧
      (∀ p ∈ packets, IsPacket noiseSize p) ∧
      packets.flatten.length = packets.length * noiseSize ∧
      ∀ (h : CommandsHandler) (s : Connection Buffer), s.closeCalled = false → s.state = .head →
        s.pending = [] → s.HasRoom packets.flatten → s.Admits h noiseSize command payload →
        ∃ t, s.handleRecv h packets.flatten = (true, t) ∧
          t.delivered =
            s.delivered ++ [⟨.notify, command, payload ++ padding noiseSize payload⟩] := by
  obtain ⟨packets, hbytes, hall⟩ := @makeFragmentedNotify_packets payload noiseSize command hnoise
    hword
  refine ⟨packets, hbytes, hall, ?_, ?_⟩
  · exact length_flatten_of_forall fun p hp => (hall p hp).1
  · intro h s hopen hstate hpending hroom hadmits
    have hview := handleRecv_view h s packets.flatten
    rw [handleRecv_of_room (s := s.view) h hopen hroom] at hview
    obtain ⟨t, ht, hdelivered⟩ := @settle_makeFragmentedNotify noiseSize h
      { s.view with cache := Cache.append s.view.cache packets.flatten } command payload
      packets.flatten hnoise hword hsize hbytes hstate
      (by change s.pending ++ _ = _; rw [hpending, nil_append])
      ⟨hadmits.1, hadmits.2, hadmits.3, hadmits.4, hadmits.5⟩
    have hrun := hview.trans ht
    have hok : (s.handleRecv h packets.flatten).1 = true := congrArg Prod.fst hrun
    have hlast : (s.handleRecv h packets.flatten).2.view = t := congrArg Prod.snd hrun
    refine ⟨(s.handleRecv h packets.flatten).2, Prod.ext hok rfl, ?_⟩
    rw [← hlast] at hdelivered
    exact hdelivered

/-- Forty bytes in three packets of 66 bytes, on a fresh connection with the default limits. -/
theorem handleRecv_three_fragments :
    ∃ bytes t, makeFragmentedNotify 66 2002 (List.replicate 40 5) = some bytes ∧
      (fresh plainHandler (Buffer.empty 0)).handleRecv plainHandler bytes = (true, t) ∧
      t.delivered = [⟨.notify, 2002, List.replicate 40 5⟩] := by
  obtain ⟨packets, hbytes, -, -, hrun⟩ := @handleRecv_makeFragmentedNotify 66 (List.replicate 40 5)
    2002 (by decide) (by decide) (by decide)
  have hlen : (makeFragmentedNotify 66 2002 (List.replicate 40 5)).map List.length = some 198 := by
    decide +kernel
  rw [hbytes, Option.map_some, Option.some.injEq] at hlen
  have hroom : (fresh plainHandler (Buffer.empty 0)).HasRoom packets.flatten := by
    change 0 + 0 + packets.flatten.length ≤ 256 * 1024
    omega
  obtain ⟨t, ht, hdelivered⟩ := hrun plainHandler (fresh plainHandler (Buffer.empty 0)) rfl rfl rfl
    hroom ⟨by decide, by decide, by decide, by decide, by decide⟩
  exact ⟨packets.flatten, t, hbytes, ht, hdelivered⟩

end Connection

end Hashmonkey.Epee
