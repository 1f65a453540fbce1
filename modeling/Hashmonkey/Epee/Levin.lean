import Hashmonkey.Crypto.Hash
import Hashmonkey.Lib.Incremental
import Hashmonkey.Lib.LittleEndian

/-!
# The levin protocol: headers, the receive buffer and the receiver

A model of `levin_base.h`, `net/buffer.h` and `handle_recv` in `levin_protocol_handler_async.h`:

* `BucketHead2` is the packed header of 33 bytes with its two directions;
* `Buffer` is the growing vector with a read offset that holds what a connection has received and
  not yet read; `Cache` says what the receiver relies on, and a plain list of bytes is one too;
* `Connection.step` is one round of the loop in `handle_recv`, in either of its two states, and
  `handleRecv` the call for one chunk of bytes.

The commands handler is a parameter: what it answers is a function of the messages it was given
(`CommandsHandler`). Timers run outside the model; whether a response still finds its invoke
waiting is part of that parameter.

Results: the loop ends by itself (`settle_eq`), and a connection over the vector with its offset
does what one over a list of bytes does (`handleRecv_view`).
-/

namespace Hashmonkey.Epee

open Lib

/-! ## Headers -/

/-- `bucket_head2`; the return code is kept as the bits of the `int32_t`. -/
structure BucketHead2 where
  signature : UInt64
  cb : UInt64
  haveToReturnData : UInt8
  command : UInt32
  returnCode : UInt32
  flags : UInt32
  protocolVersion : UInt32
deriving DecidableEq, Repr

/-- `LEVIN_SIGNATURE`. -/
def levinSignature : UInt64 := 0x0101010101012101

/-- `sizeof(bucket_head2)`. -/
def headSize : ℕ := 33

/-- `LEVIN_PACKET_REQUEST`. -/
def packetRequest : UInt32 := 1

/-- `LEVIN_PACKET_RESPONSE`. -/
def packetResponse : UInt32 := 2

/-- `LEVIN_PACKET_BEGIN`. -/
def packetBegin : UInt32 := 4

/-- `LEVIN_PACKET_END`. -/
def packetEnd : UInt32 := 8

/-- `LEVIN_PROTOCOL_VER_1`. -/
def protocolVer1 : UInt32 := 1

namespace BucketHead2

/-- The packed bytes of a header. -/
def toBytes (h : BucketHead2) : Bytes :=
  toLE 8 h.signature.toNat ++ (toLE 8 h.cb.toNat ++ (toLE 1 h.haveToReturnData.toNat ++
    (toLE 4 h.command.toNat ++ (toLE 4 h.returnCode.toNat ++
      (toLE 4 h.flags.toNat ++ toLE 4 h.protocolVersion.toNat)))))

/-- The header in the first 33 bytes. -/
def ofBytes (bs : Bytes) : BucketHead2 where
  signature := .ofNat (fieldLE 0 8 bs)
  cb := .ofNat (fieldLE 8 8 bs)
  haveToReturnData := .ofNat (fieldLE 16 1 bs)
  command := .ofNat (fieldLE 17 4 bs)
  returnCode := .ofNat (fieldLE 21 4 bs)
  flags := .ofNat (fieldLE 25 4 bs)
  protocolVersion := .ofNat (fieldLE 29 4 bs)

@[simp] theorem length_toBytes (h : BucketHead2) : h.toBytes.length = headSize := by
  simp [toBytes, headSize]

theorem ofBytes_toBytes (h : BucketHead2) (rest : Bytes) : ofBytes (h.toBytes ++ rest) = h := by
  obtain ⟨sig, cb, ret, cmd, code, flags, ver⟩ := h
  simp only [ofBytes, toBytes, List.append_assoc, mk.injEq]
  have hsig : sig.toNat < 256 ^ 8 := sig.toNat_lt
  have hcb : cb.toNat < 256 ^ 8 := cb.toNat_lt
  have hret : ret.toNat < 256 ^ 1 := ret.toNat_lt
  have hword (x : UInt32) : x.toNat < 256 ^ 4 := x.toNat_lt
  -- each field stands behind the fields before it
  simp [fieldLE_skip, fieldLE_zero hsig, fieldLE_zero hcb, fieldLE_zero hret,
    fieldLE_zero (hword _)]

end BucketHead2

/-! ## The receive buffer -/

/-- What the receiver does with the bytes it holds, and what it relies on. -/
class Cache (β : Type) where
  bytes : β → Bytes
  append : β → Bytes → β
  erase : β → ℕ → β
  carve : β → ℕ → Bytes × β
  bytes_append : ∀ b data, bytes (append b data) = bytes b ++ data
  bytes_erase : ∀ {b n}, n ≤ (bytes b).length → bytes (erase b n) = (bytes b).drop n
  carve_fst : ∀ {b n}, n ≤ (bytes b).length → (carve b n).1 = (bytes b).take n
  bytes_carve : ∀ {b n}, n ≤ (bytes b).length → bytes (carve b n).2 = (bytes b).drop n

instance : Cache Bytes where
  bytes := id
  append := (· ++ ·)
  erase b n := b.drop n
  carve b n := (b.take n, b.drop n)
  bytes_append _ _ := rfl
  bytes_erase _ := rfl
  carve_fst _ := rfl
  bytes_carve _ := rfl

/-- `net_utils::buffer`: a vector and how much of its front has been read. -/
structure Buffer where
  storage : Bytes
  capacity : ℕ
  offset : ℕ
  offset_le : offset ≤ storage.length
  length_le : storage.length ≤ capacity
deriving DecidableEq, Repr

namespace Buffer

/-- `buffer(reserve)`. -/
def empty (reserve : ℕ) : Buffer := ⟨[], reserve, 0, le_refl _, Nat.zero_le _⟩

/-- `size`. -/
def size (b : Buffer) : ℕ := b.storage.length - b.offset

/-- The unread bytes. -/
def unread (b : Buffer) : Bytes := b.storage.drop b.offset

@[simp] theorem length_unread (b : Buffer) : b.unread.length = b.size := List.length_drop

/-- `memmove` of the unread bytes to the front. -/
def move (b : Buffer) : Buffer where
  storage := b.unread
  capacity := b.capacity
  offset := 0
  offset_le := Nat.zero_le _
  length_le := by
    have := b.length_le
    rw [length_unread, size]
    omega

/-- The unread bytes in a new vector, with room for `sz` more and half as much again. -/
def reallocate (b : Buffer) (sz : ℕ) : Buffer where
  storage := b.unread
  capacity := ((b.size + sz) * 3 / 2 + 4095) / 4096 * 4096
  offset := 0
  offset_le := Nat.zero_le _
  length_le := by
    rw [length_unread]
    omega

/-- The room `append` makes before it writes `sz` bytes behind the vector's end. -/
def makeRoom (b : Buffer) (sz : ℕ) : Buffer :=
  if b.capacity - b.storage.length < sz then
    if b.size + sz ≤ b.capacity then b.move else b.reallocate sz
  else if b.size ≤ 4096 ∧ 4096 * 16 < b.offset ∧ b.capacity / 2 ≤ b.offset then b.move
  else b

theorem unread_makeRoom (b : Buffer) (sz : ℕ) : (b.makeRoom sz).unread = b.unread := by
  unfold makeRoom
  split_ifs <;> simp [move, reallocate, unread]

theorem makeRoom_fits (b : Buffer) (sz : ℕ) :
    (b.makeRoom sz).storage.length + sz ≤ (b.makeRoom sz).capacity := by
  have hl := b.length_le
  unfold makeRoom
  split_ifs with h1 h2 h3
  · simpa [move] using h2
  · simp only [reallocate, length_unread]
    omega
  · simp only [move, length_unread, size] at h3 ⊢
    omega
  · omega

/-- `append`. -/
def append (b : Buffer) (data : Bytes) : Buffer where
  storage := (b.makeRoom data.length).storage ++ data
  capacity := (b.makeRoom data.length).capacity
  offset := (b.makeRoom data.length).offset
  offset_le := by
    have := (b.makeRoom data.length).offset_le
    rw [List.length_append]
    omega
  length_le := by
    rw [List.length_append]
    exact makeRoom_fits b _

/-- `erase`; the vector starts again when all of it has been read. The check that `sz` bytes are
there throws; the receiver has looked before it calls. -/
def erase (b : Buffer) (sz : ℕ) : Buffer :=
  if h : b.offset + sz ≤ b.storage.length then
    if b.offset + sz = b.storage.length then ⟨[], b.capacity, 0, le_refl _, Nat.zero_le _⟩
    else { b with offset := b.offset + sz, offset_le := h }
  else b

/-- `carve`: the front of the unread bytes, which then count as read. -/
def carve (b : Buffer) (sz : ℕ) : Bytes × Buffer :=
  if h : b.offset + sz ≤ b.storage.length then
    ((b.storage.drop b.offset).take sz, { b with offset := b.offset + sz, offset_le := h })
  else ([], b)

theorem unread_append (b : Buffer) (data : Bytes) : (b.append data).unread = b.unread ++ data := by
  rw [← unread_makeRoom b data.length]
  exact List.drop_append_of_le_length (b.makeRoom data.length).offset_le

variable {b : Buffer} {sz : ℕ}

theorem add_le_of_le_unread (h : sz ≤ b.unread.length) : b.offset + sz ≤ b.storage.length := by
  have := b.offset_le
  rw [length_unread, size] at h
  omega

theorem unread_erase (h : sz ≤ b.unread.length) : (b.erase sz).unread = b.unread.drop sz := by
  have hle := add_le_of_le_unread h
  rw [erase, dif_pos hle]
  split_ifs with hall
  · simp [unread, hall]
  · simp [unread]

theorem carve_eq (h : sz ≤ b.unread.length) :
    (b.carve sz).1 = b.unread.take sz ∧ (b.carve sz).2.unread = b.unread.drop sz := by
  rw [carve, dif_pos (add_le_of_le_unread h)]
  exact ⟨rfl, by simp [unread]⟩

instance : Cache Buffer where
  bytes := unread
  append := append
  erase := erase
  carve := carve
  bytes_append := unread_append
  bytes_erase := unread_erase
  carve_fst h := (carve_eq h).1
  bytes_carve h := (carve_eq h).2

end Buffer

/-! ## The receiver -/

/-- What a packet becomes: a call of `invoke` or `notify`, or of the handler that waits for a
response. -/
inductive MessageKind
  | invoke
  | notify
  | response (returnCode : UInt32)
deriving DecidableEq, Repr

/-- A message as it is handed over. -/
structure Message where
  kind : MessageKind
  command : UInt32
  payload : Bytes
deriving DecidableEq, Repr

/-- The front of `m_invoke_response_handlers` when a response comes in: there is none, its timer
has run out, or it still waits. -/
inductive Waiting
  | none
  | expired
  | waiting
deriving DecidableEq, Repr

/-- The application behind a connection and the connection's settings. All answers are functions
of the messages delivered so far. -/
structure CommandsHandler where
  /-- The handler that waits for a response. -/
  waits : List Message → Waiting
  /-- Does the reply to the last message go out (`send_message`)? -/
  sends : List Message → Bool
  /-- `m_connection_context.handshake_complete()` -/
  handshakeComplete : List Message → Bool
  /-- Does the application call `close` while it handles the last message? -/
  closes : List Message → Bool
  /-- `m_connection_context.handshake_command()` -/
  handshakeCommand : UInt32
  /-- `m_connection_context.get_max_bytes(command)` -/
  getMaxBytes : UInt32 → ℕ
  /-- `m_config.m_initial_max_packet_size` -/
  initialMaxPacketSize : ℕ
  /-- `m_config.m_max_packet_size` -/
  maxPacketSize : ℕ

/-- `stream_state_head`, `stream_state_body`. -/
inductive StreamState
  | head
  | body
deriving DecidableEq, Repr

/-- The receiving side of `async_protocol_handler`, with the messages it has delivered. -/
structure Connection (β : Type) where
  cache : β
  fragment : Bytes
  state : StreamState
  currentHead : BucketHead2
  oponentProtocolVer : UInt32
  maxPacketSize : ℕ
  closeCalled : Bool
  delivered : List Message
deriving DecidableEq, Repr

/-- What a packet's body gives: nothing to deliver, a reason to give up, or the payload of the
message whose header is the connection's current one. -/
inductive Unpacked (σ : Type)
  | skip (s : σ)
  | reject (s : σ)
  | message (s : σ) (buff : Bytes)

namespace Connection

variable {β : Type} (h : CommandsHandler)

/-- A call into the application. -/
def deliver (s : Connection β) (m : Message) : Connection β :=
  { s with
    delivered := s.delivered ++ [m]
    closeCalled := s.closeCalled || h.closes (s.delivered ++ [m]) }

/-- Noise and fragments: packets that are neither requests nor responses. The last fragment gives
the message's own header and payload. -/
def unpack (limit : ℕ) (s : Connection β) (buff : Bytes) : Unpacked (Connection β) :=
  let flags := s.currentHead.flags
  if flags &&& (packetRequest ||| packetResponse) ≠ 0 then .message s buff
  else if flags &&& (packetBegin ||| packetEnd) = packetBegin ||| packetEnd then .skip s
  else
    let fragment := (if flags &&& packetBegin ≠ 0 then [] else s.fragment) ++ buff
    if flags &&& packetEnd = 0 then .skip { s with fragment }
    else if fragment.length < headSize then .reject { s with fragment }
    else
      let head := BucketHead2.ofBytes fragment
      let rest := fragment.drop headSize
      let s := { s with fragment := [], currentHead := head }
      if rest.length < head.cb.toNat then .reject s
      else if min limit (h.getMaxBytes head.command) < head.cb.toNat then .reject s
      else .message s (rest.take head.cb.toNat)

/-- The size limit after a request was handled: a completed handshake lifts it. -/
def liftLimit (s : Connection β) : Connection β :=
  if s.currentHead.command = h.handshakeCommand ∧ h.handshakeComplete s.delivered then
    { s with maxPacketSize := h.maxPacketSize }
  else s

/-- A request, and the reply to it. -/
def answer (s : Connection β) (buff : Bytes) : Outcome (Connection β) :=
  let s := (s.deliver h ⟨.invoke, s.currentHead.command, buff⟩).liftLimit h
  if h.sends s.delivered then .next s else .refuse s

/-- The handing over of a message. -/
def dispatch (s : Connection β) (buff : Bytes) : Outcome (Connection β) :=
  let head := s.currentHead
  if s.oponentProtocolVer = protocolVer1 ∧ head.flags &&& packetResponse ≠ 0 then
    match h.waits s.delivered with
    | .none => .refuse s
    | .expired => .next s
    | .waiting => .next (s.deliver h ⟨.response head.returnCode, head.command, buff⟩)
  else if head.haveToReturnData ≠ 0 then s.answer h buff
  else .next (s.deliver h ⟨.notify, head.command, buff⟩)

/-- What becomes of a packet's body. -/
def finish : Unpacked (Connection β) → Outcome (Connection β)
  | .skip s => .next s
  | .reject s => .refuse s
  | .message s buff => s.dispatch h buff

variable [Cache β]

/-- The bytes received and not yet read. -/
def pending (s : Connection β) : Bytes := Cache.bytes s.cache

/-- `case stream_state_body`. -/
def readBody (limit : ℕ) (s : Connection β) : Outcome (Connection β) :=
  let cb := s.currentHead.cb.toNat
  if s.pending.length < cb then .wait s
  else
    let carved := Cache.carve s.cache cb
    finish h (unpack h limit { s with cache := carved.2, state := .head } carved.1)

variable {limit : ℕ} {s : Connection β}

theorem readBody_of_lt
    (hlen : s.pending.length < s.currentHead.cb.toNat) : s.readBody h limit = .wait s :=
  if_pos hlen

theorem readBody_of_le (hlen : s.currentHead.cb.toNat ≤ s.pending.length) :
    s.readBody h limit = finish h (unpack h limit
      { s with cache := (Cache.carve s.cache s.currentHead.cb.toNat).2, state := .head }
      (Cache.carve s.cache s.currentHead.cb.toNat).1) :=
  if_neg (not_lt.mpr hlen)

/-- `case stream_state_head`. -/
def readHead (limit : ℕ) (s : Connection β) : Outcome (Connection β) :=
  if s.pending.length < headSize then
    if 8 ≤ s.pending.length ∧ UInt64.ofNat (fieldLE 0 8 s.pending) ≠ levinSignature then .refuse s
    else .wait s
  else
    let head := BucketHead2.ofBytes s.pending
    if head.signature ≠ levinSignature then .refuse s
    else
      let s := { s with
        cache := Cache.erase s.cache headSize
        currentHead := head
        state := .body
        oponentProtocolVer := head.protocolVersion }
      if min limit (h.getMaxBytes head.command) < head.cb.toNat then .refuse s else .next s

/-- One round of the loop in `handle_recv`: `wait` is the end of the loop, `refuse` its
`return false`. -/
def step (limit : ℕ) (s : Connection β) : Outcome (Connection β) :=
  match s.state with
  | .body => s.readBody h limit
  | .head => s.readHead h limit

/-- A bound on the rounds that are left: two for every byte, one more for a body. -/
def work (s : Connection β) : ℕ :=
  2 * s.pending.length + match s.state with
    | .body => 1
    | .head => 0

/-- The loop to its end. -/
def settle (limit : ℕ) (s : Connection β) : Bool × Connection β :=
  loop (step h limit) (s.work + 1) s

/-- There is room for a chunk under the size limit. -/
def HasRoom (s : Connection β) (data : Bytes) : Prop :=
  s.pending.length + s.fragment.length + data.length ≤ s.maxPacketSize

instance (s : Connection β) (data : Bytes) : Decidable (s.HasRoom data) :=
  inferInstanceAs (Decidable (_ ≤ _))

/-- `handle_recv` for one chunk: what it returns, and the connection after it. The size limit is
read once, before the first round. -/
def handleRecv (s : Connection β) (data : Bytes) : Bool × Connection β :=
  if s.closeCalled then (false, s)
  else
    let limit := s.maxPacketSize
    if limit < s.pending.length then (false, s)
    else if limit - s.pending.length < s.fragment.length then (false, s)
    else if limit - s.pending.length - s.fragment.length < data.length then (false, s)
    else settle h limit { s with cache := Cache.append s.cache data }

/-- A connection that has not received anything. -/
def fresh (h : CommandsHandler) (cache : β) : Connection β where
  cache
  fragment := []
  state := .head
  currentHead := ⟨0, 0, 0, 0, 0, 0, 0⟩
  oponentProtocolVer := 0
  maxPacketSize := h.initialMaxPacketSize
  closeCalled := false
  delivered := []

theorem handleRecv_of_room {data : Bytes} (hopen : s.closeCalled = false) (hroom : s.HasRoom data) :
    s.handleRecv h data =
      settle h s.maxPacketSize { s with cache := Cache.append s.cache data } := by
  unfold HasRoom at hroom
  simp only [handleRecv, hopen, Bool.false_eq_true, if_false]
  rw [if_neg (by omega), if_neg (by omega), if_neg (by omega)]

theorem handleRecv_of_no_room {data : Bytes} (hroom : ¬ s.HasRoom data) :
    s.handleRecv h data = (false, s) := by
  unfold HasRoom at hroom
  simp only [handleRecv]
  split_ifs <;> first | rfl | (exfalso; omega)

/-! ## The loop ends by itself -/

/-- Two connections with the same bytes to read in the same state. -/
def Keeps (s t : Connection β) : Prop := t.cache = s.cache ∧ t.state = s.state

omit [Cache β] in
theorem liftLimit_keeps (s : Connection β) : s.Keeps (s.liftLimit h) := by
  unfold liftLimit
  split_ifs <;> exact ⟨rfl, rfl⟩

variable {t : Connection β} {buff : Bytes}

omit [Cache β] in
theorem answer_next (ht : s.answer h buff = .next t) : s.Keeps t := by
  simp only [answer] at ht
  split_ifs at ht
  cases ht
  exact liftLimit_keeps h (s.deliver h ⟨.invoke, s.currentHead.command, buff⟩)

omit [Cache β] in
theorem dispatch_next (ht : s.dispatch h buff = .next t) : s.Keeps t := by
  simp only [dispatch] at ht
  split_ifs at ht
  · cases hw : h.waits s.delivered <;> rw [hw] at ht <;> cases ht <;> exact ⟨rfl, rfl⟩
  · exact answer_next h ht
  · cases ht
    exact ⟨rfl, rfl⟩

omit [Cache β] in
/-- What is unpacked from a body leaves the bytes behind the body alone. -/
theorem unpack_keeps (limit : ℕ) (s : Connection β) (buff : Bytes) :
    match unpack h limit s buff with
    | .skip t => s.Keeps t
    | .reject t => s.Keeps t
    | .message t _ => s.Keeps t := by
  simp only [unpack]
  split_ifs <;> exact ⟨rfl, rfl⟩

omit [Cache β] in
theorem finish_unpack_next (ht : finish h (unpack h limit s buff) = .next t) : s.Keeps t := by
  have hkeeps := unpack_keeps h limit s buff
  cases hu : unpack h limit s buff with
  | skip u =>
    rw [hu] at ht hkeeps
    cases ht
    exact hkeeps
  | reject u =>
    rw [hu] at ht
    cases ht
  | message u payload =>
    rw [hu] at ht hkeeps
    obtain ⟨hcache, hstate⟩ := dispatch_next h ht
    exact ⟨hcache.trans hkeeps.1, hstate.trans hkeeps.2⟩

/-- A round that goes on has read a header or a body. -/
theorem step_next (ht : s.step h limit = .next t) :
    (s.state = .head ∧ t.state = .body ∧ headSize ≤ s.pending.length ∧
      t.pending = s.pending.drop headSize) ∨
    (s.state = .body ∧ t.state = .head ∧ s.currentHead.cb.toNat ≤ s.pending.length ∧
      t.pending = s.pending.drop s.currentHead.cb.toNat) := by
  unfold step at ht
  cases hstate : s.state with
  | head =>
    simp only [hstate, readHead] at ht
    split_ifs at ht with hlen
    cases ht
    exact .inl ⟨rfl, rfl, not_lt.mp hlen, Cache.bytes_erase (not_lt.mp hlen)⟩
  | body =>
    simp only [hstate] at ht
    rcases lt_or_ge s.pending.length s.currentHead.cb.toNat with hlen | hlen
    · rw [readBody_of_lt h hlen] at ht
      cases ht
    rw [readBody_of_le h hlen] at ht
    obtain ⟨hcache, hhead⟩ := finish_unpack_next h ht
    refine .inr ⟨rfl, hhead, hlen, ?_⟩
    rw [pending, hcache]
    exact Cache.bytes_carve hlen

theorem work_lt_of_next (ht : s.step h limit = .next t) : t.work < s.work := by
  have hsize : headSize = 33 := rfl
  rcases step_next h ht with ⟨hs, ht, hlen, hp⟩ | ⟨hs, ht, hlen, hp⟩ <;>
    simp only [work, hs, ht, hp, List.length_drop] <;> omega

/-- The loop of `handle_recv`, round by round. -/
theorem settle_eq (limit : ℕ) (s : Connection β) :
    s.settle h limit = (s.step h limit).andThen fun t => t.settle h limit := by
  have hwork : ∀ s t : Connection β, step h limit s = .next t → t.work < s.work :=
    fun _ _ => work_lt_of_next h
  exact loop_work_eq work hwork s

end Connection

/-! ## The cache is all that a connection's representation matters for -/

/-- A map of the states in an unpacked body. -/
def Unpacked.map {σ τ : Type} (f : σ → τ) : Unpacked σ → Unpacked τ
  | .skip s => .skip (f s)
  | .reject s => .reject (f s)
  | .message s buff => .message (f s) buff

namespace Connection

variable {β γ : Type} (h : CommandsHandler)

/-- The same connection over another cache. -/
@[simps] def mapCache (f : β → γ) (s : Connection β) : Connection γ where
  cache := f s.cache
  fragment := s.fragment
  state := s.state
  currentHead := s.currentHead
  oponentProtocolVer := s.oponentProtocolVer
  maxPacketSize := s.maxPacketSize
  closeCalled := s.closeCalled
  delivered := s.delivered

/-- What stands in the cache is not looked at while a body is unpacked. -/
theorem unpack_mapCache (f : β → γ) (limit : ℕ) (s : Connection β) (buff : Bytes) :
    (unpack h limit s buff).map (mapCache f) = unpack h limit (s.mapCache f) buff := by
  simp only [unpack, apply_ite (Unpacked.map (mapCache f))]
  rfl

theorem liftLimit_mapCache (f : β → γ) (s : Connection β) :
    (s.liftLimit h).mapCache f = (s.mapCache f).liftLimit h := by
  simp only [liftLimit, apply_ite (mapCache f)]
  rfl

theorem answer_mapCache (f : β → γ) (s : Connection β) (buff : Bytes) :
    (s.answer h buff).map (mapCache f) = (s.mapCache f).answer h buff := by
  have hlift := liftLimit_mapCache h f (s.deliver h ⟨.invoke, s.currentHead.command, buff⟩)
  simp only [answer, apply_ite (Outcome.map (mapCache f)), Outcome.map_next, Outcome.map_refuse,
    hlift]
  have hsame : ((s.deliver h ⟨.invoke, s.currentHead.command, buff⟩).liftLimit h).delivered =
      (((s.deliver h ⟨.invoke, s.currentHead.command, buff⟩).mapCache f).liftLimit
        h).delivered := by
    rw [← hlift, mapCache_delivered]
  rw [hsame]
  rfl

/-- Nor while a message is handed over. -/
theorem dispatch_mapCache (f : β → γ) (s : Connection β) (buff : Bytes) :
    (s.dispatch h buff).map (mapCache f) = (s.mapCache f).dispatch h buff := by
  simp only [dispatch, apply_ite (Outcome.map (mapCache f)), answer_mapCache, mapCache_delivered]
  cases h.waits s.delivered <;> rfl

theorem finish_mapCache (f : β → γ) (u : Unpacked (Connection β)) :
    (finish h u).map (mapCache f) = finish h (u.map (mapCache f)) := by
  cases u with
  | skip s => rfl
  | reject s => rfl
  | message s buff => exact dispatch_mapCache h f s buff

/-! ### A connection over the vector is one over a list of bytes -/

variable [Cache β]

/-- A connection with its unread bytes as a list. -/
def view (s : Connection β) : Connection Bytes := s.mapCache Cache.bytes

theorem readBody_view (limit : ℕ) (s : Connection β) :
    (s.readBody h limit).map view = s.view.readBody h limit := by
  rcases lt_or_ge s.pending.length s.currentHead.cb.toNat with hlen | hlen
  · rw [readBody_of_lt h hlen, readBody_of_lt (s := s.view) h hlen, Outcome.map_wait]
  rw [readBody_of_le h hlen, readBody_of_le (s := s.view) h hlen]
  have hbuff := Cache.carve_fst hlen
  have hcache := Cache.bytes_carve hlen
  change (finish h _).map (mapCache Cache.bytes) = _
  rw [finish_mapCache, unpack_mapCache, hbuff]
  simp only [mapCache, hcache]
  rfl

theorem readHead_view (limit : ℕ) (s : Connection β) :
    (s.readHead h limit).map view = s.view.readHead h limit := by
  unfold readHead
  by_cases hlen : s.pending.length < headSize
  · rw [if_pos hlen, if_pos (show s.view.pending.length < headSize from hlen)]
    exact apply_ite (Outcome.map view) _ _ _
  · have hle : headSize ≤ (Cache.bytes s.cache).length := not_lt.mp hlen
    have hcache := Cache.bytes_erase hle
    simp only [apply_ite (Outcome.map view), Outcome.map_refuse, Outcome.map_next]
    simp only [view, mapCache, hcache]
    rfl

theorem step_view (limit : ℕ) (s : Connection β) :
    (s.step h limit).map view = s.view.step h limit := by
  unfold step
  have hstate : s.view.state = s.state := rfl
  rw [hstate]
  cases s.state with
  | body => exact readBody_view h limit s
  | head => exact readHead_view h limit s

/-- **A connection over the vector with its offset receives what one over a list of bytes
receives.** -/
theorem handleRecv_view (s : Connection β) (data : Bytes) :
    (s.handleRecv h data).map id view = s.view.handleRecv h data := by
  by_cases hclosed : s.closeCalled = true
  · simp [handleRecv, hclosed, view]
  rw [Bool.not_eq_true] at hclosed
  by_cases hroom : s.HasRoom data
  · rw [handleRecv_of_room h hclosed hroom, handleRecv_of_room (s := s.view) h hclosed hroom,
      settle, loop_map (step_view h _)]
    have hview : view { s with cache := Cache.append s.cache data } =
        { s.view with cache := Cache.append s.view.cache data } := by
      simp only [view, mapCache, Cache.bytes_append]
      rfl
    have hwork : { s with cache := Cache.append s.cache data }.work =
        { s.view with cache := Cache.append s.view.cache data }.work := by
      rw [← hview]
      rfl
    rw [hview, hwork]
    rfl
  · rw [handleRecv_of_no_room h hroom, handleRecv_of_no_room (s := s.view) h hroom]
    rfl

end Connection

end Hashmonkey.Epee
