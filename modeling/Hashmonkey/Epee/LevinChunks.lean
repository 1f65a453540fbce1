import Hashmonkey.Epee.Levin

/-!
# A byte stream in chunks (`levin_protocol_handler_async.h`)

The bytes of a connection reach `handle_recv` in chunks that the network cuts. The receiver reads
a header or a body only when all of it is there, so that how the stream was cut should not be seen
in what is delivered.

The rounds themselves do not depend on the bytes behind what they read (`step_more`), which makes
the receiver an incremental machine (`machine`). Two things in a call do depend on where the call
began: the size limit is read once, before the first round, while a completed handshake lifts it in
between; and a `close` by the application takes effect at the next call only.

Result: **`receive_chunks`**, two ways to cut a stream deliver the same messages and agree on
whether the connection is closed, as long as no call runs into those two; `receive_chunks_differ`
shows that they are needed.
-/

namespace Hashmonkey.Epee.Connection

open Lib Buffer

variable {β : Type} [Cache β] (h : CommandsHandler)

/-! ## Runs -/

/-- The chunks of a stream, one call after another. A call that returns `false` closes the
connection, and nothing is received on it any more. -/
def receive : List Bytes → Connection β → Bool × Connection β
  | [], s => (true, s)
  | c :: cs, s =>
    match s.handleRecv h c with
    | (true, t) => receive cs t
    | (false, t) => (false, t)

/-- Is the connection closed at the end of a run? -/
def isClosed (r : Bool × Connection β) : Bool := !r.1 || r.2.closeCalled

/-- Something holds of every call of a run. -/
def EveryCall (P : Connection β → Bytes → Prop) : List Bytes → Connection β → Prop
  | [], _ => True
  | c :: cs, s => P s c ∧
    match s.handleRecv h c with
    | (true, t) => EveryCall P cs t
    | (false, _) => True

instance decidableEveryCall (P : Connection β → Bytes → Prop) [∀ s c, Decidable (P s c)] :
    ∀ cs s, Decidable (EveryCall h P cs s)
  | [], _ => inferInstanceAs (Decidable True)
  | c :: cs, s => by
    have hrest : Decidable (match s.handleRecv h c with
        | (true, t) => EveryCall h P cs t
        | (false, _) => True) :=
      match s.handleRecv h c with
      | (true, t) => decidableEveryCall P cs t
      | (false, _) => inferInstanceAs (Decidable True)
    exact inferInstanceAs (Decidable (P s c ∧ _))

/-- A call fails on the buffer-size limit. -/
def FailsOnSize (s : Connection β) (data : Bytes) : Prop :=
  s.closeCalled = false ∧ ¬ s.HasRoom data

instance (s : Connection β) (data : Bytes) : Decidable (s.FailsOnSize data) :=
  inferInstanceAs (Decidable (_ ∧ _))

/-- The connection with a chunk in its cache. -/
def withChunk (s : Connection β) (data : Bytes) : Connection β :=
  { s with cache := Cache.append s.cache data }

/-- In every round of a call, the size limit that the call began with decides as the limit then in
force does. -/
def LimitCurrent (s : Connection β) (data : Bytes) : Prop :=
  Along (step h s.maxPacketSize)
    (fun t => t.step h s.maxPacketSize = t.step h t.maxPacketSize)
    ((s.withChunk data).work + 1) (s.withChunk data)

instance [DecidableEq β] (s : Connection β) (data : Bytes) : Decidable (s.LimitCurrent h data) :=
  inferInstanceAs (Decidable (Along _ _ _ _))

/-- A call that judges every packet by the limit in force, in which the application does not close
the connection. -/
def Undisturbed (s : Connection β) (data : Bytes) : Prop :=
  s.LimitCurrent h data ∧ (s.handleRecv h data).2.closeCalled = false

instance [DecidableEq β] (s : Connection β) (data : Bytes) : Decidable (s.Undisturbed h data) :=
  inferInstanceAs (Decidable (_ ∧ _))

/-! ## The rounds do not see what comes behind -/

/-- More bytes behind those that are held. -/
def more (data : Bytes) (s : Connection Bytes) : Connection Bytes := s.mapCache (· ++ data)

theorem ofBytes_append {bs : Bytes} (hlen : headSize ≤ bs.length) (rest : Bytes) :
    BucketHead2.ofBytes (bs ++ rest) = BucketHead2.ofBytes bs := by
  unfold headSize at hlen
  unfold BucketHead2.ofBytes
  simp (disch := omega) only [fieldLE_append]

variable {limit : ℕ} {s : Connection Bytes}

theorem readBody_more (hlen : s.currentHead.cb.toNat ≤ s.pending.length) (data : Bytes) :
    (s.more data).readBody h limit = (s.readBody h limit).map (more data) := by
  have hlen' : (s.more data).currentHead.cb.toNat ≤ (s.more data).pending.length := by
    refine hlen.trans ?_
    change s.cache.length ≤ (s.cache ++ data).length
    simp
  rw [readBody_of_le h hlen, readBody_of_le h hlen']
  change _ = (finish h _).map (mapCache (· ++ data))
  rw [finish_mapCache, unpack_mapCache]
  have htake : (s.cache ++ data).take s.currentHead.cb.toNat =
      s.cache.take s.currentHead.cb.toNat := List.take_append_of_le_length hlen
  have hdrop : (s.cache ++ data).drop s.currentHead.cb.toNat =
      s.cache.drop s.currentHead.cb.toNat ++ data := List.drop_append_of_le_length hlen
  simp only [more, mapCache, Cache.carve, htake, hdrop]

theorem readHead_more (hlen : headSize ≤ s.pending.length) (data : Bytes) :
    (s.more data).readHead h limit = (s.readHead h limit).map (more data) := by
  have hp : (s.more data).pending = s.pending ++ data := rfl
  have hlen' : ¬ (s.pending ++ data).length < headSize := by
    rw [List.length_append]
    omega
  have hdrop : (s.cache ++ data).drop headSize = s.cache.drop headSize ++ data :=
    List.drop_append_of_le_length hlen
  simp only [readHead, hp, if_neg hlen', if_neg (not_lt.mpr hlen), ofBytes_append hlen,
    apply_ite (Outcome.map (more data)), Outcome.map_refuse, Outcome.map_next]
  simp only [more, mapCache, Cache.erase, hdrop]

/-- A header with a wrong signature is refused as soon as the signature is there. -/
theorem readHead_more_refuse {t : Connection Bytes}
    (hlen : s.pending.length < headSize) (ht : s.readHead h limit = .refuse t) (data : Bytes) :
    t = s ∧ (s.more data).readHead h limit = .refuse (s.more data) := by
  simp only [readHead, if_pos hlen] at ht
  split_ifs at ht with hsig
  cases ht
  have hp : (s.more data).pending = s.pending ++ data := rfl
  have hfield : fieldLE 0 8 (s.pending ++ data) = fieldLE 0 8 s.pending :=
    fieldLE_append (by omega) data
  have hlen' : 8 ≤ (s.pending ++ data).length := by
    rw [List.length_append]
    omega
  have hhead : (BucketHead2.ofBytes (s.pending ++ data)).signature ≠ levinSignature := by
    simp only [BucketHead2.ofBytes, hfield]
    exact hsig.2
  refine ⟨rfl, ?_⟩
  simp only [readHead, hp, hfield]
  split_ifs with hshort hmismatch
  · rfl
  · exact absurd ⟨hlen', hsig.2⟩ hmismatch
  · rfl

/-- **A round that does not wait is the same with more bytes behind.** -/
theorem step_more (hwait : ∀ t, s.step h limit ≠ .wait t)
    (data : Bytes) : (s.more data).step h limit = (s.step h limit).map (more data) := by
  have hstate' : (s.more data).state = s.state := rfl
  unfold step at hwait ⊢
  rw [hstate']
  cases hstate : s.state with
  | body =>
    simp only [hstate] at hwait
    rcases lt_or_ge s.pending.length s.currentHead.cb.toNat with hlen | hlen
    · exact absurd (readBody_of_lt h hlen) (hwait s)
    · exact readBody_more h hlen data
  | head =>
    simp only [hstate] at hwait
    rcases lt_or_ge s.pending.length headSize with hlen | hlen
    · cases ht : s.readHead h limit with
      | wait t => exact absurd ht (hwait t)
      | next t =>
        simp only [readHead, if_pos hlen] at ht
        split_ifs at ht
      | refuse t =>
        obtain ⟨rfl, hmore⟩ := readHead_more_refuse h hlen ht data
        exact hmore
    · exact readHead_more h hlen data

omit [Cache β] in
theorem dispatch_ne_wait (s t : Connection β) (buff : Bytes) : s.dispatch h buff ≠ .wait t := by
  simp only [dispatch, answer]
  cases h.waits s.delivered <;> split_ifs <;> simp

variable {s : Connection β}

/-- A round that waits changes nothing. -/
theorem wait_eq {t : Connection β} (ht : s.step h limit = .wait t) : t = s := by
  unfold step at ht
  cases hstate : s.state with
  | body =>
    simp only [hstate] at ht
    rcases lt_or_ge s.pending.length s.currentHead.cb.toNat with hlen | hlen
    · rw [readBody_of_lt h hlen] at ht
      exact (Outcome.wait.inj ht).symm
    rw [readBody_of_le h hlen] at ht
    exfalso
    revert ht
    cases unpack h limit _ _ with
    | skip u => nofun
    | reject u => nofun
    | message u payload => exact dispatch_ne_wait h u t payload
  | head =>
    simp only [hstate, readHead] at ht
    split_ifs at ht
    exact (Outcome.wait.inj ht).symm

/-- The receiver as an incremental machine, with every packet judged by the limit in force. -/
def machine : Incremental (Connection Bytes) UInt8 (List Message) where
  step s := s.step h s.maxPacketSize
  more := more
  observe := delivered
  work := work
  work_lt := work_lt_of_next h
  more_nil s := by simp [more, mapCache]
  more_more a b s := by simp [more, mapCache]
  wait_eq := wait_eq h
  next_more {s t} hs a := by
    have hmore : (s.more a).step h s.maxPacketSize = _ := step_more h (by simp [hs]) a
    rw [hs] at hmore
    exact hmore
  refuse_more {s t} hs a := by
    have hmore : (s.more a).step h s.maxPacketSize = _ := step_more h (by simp [hs]) a
    rw [hs] at hmore
    exact ⟨_, hmore, rfl⟩

/-! ## The calls are the machine's -/

theorem view_withChunk (s : Connection β) (data : Bytes) :
    (s.withChunk data).view = s.view.more data := by
  simp only [view, withChunk, more, mapCache, Cache.bytes_append]

/-- A call that nothing disturbs is the machine on the bytes it brings. -/
theorem handleRecv_undisturbed {data : Bytes} (hopen : s.closeCalled = false)
    (hroom : s.HasRoom data) (hlimit : s.LimitCurrent h data) :
    (s.handleRecv h data).map id view = (machine h).settle (s.view.more data) := by
  have hsteps (t : Connection β) :
      (t.step h s.maxPacketSize).map view = t.view.step h s.maxPacketSize := step_view h _ t
  have halong := along_map hsteps
    (Q := fun t => t.step h s.maxPacketSize = t.step h t.maxPacketSize)
    (fun t ht => by rw [← step_view, ht]; exact step_view h t.maxPacketSize t) hlimit
  rw [handleRecv_of_room h hopen hroom, settle, loop_map hsteps]
  rw [← view_withChunk]
  exact loop_congr halong

theorem receive_eq_feed {cs : List Bytes} (hopen : s.closeCalled = false)
    (hcs : EveryCall h (fun s c => ¬ s.FailsOnSize c ∧ s.Undisturbed h c) cs s) :
    (receive h cs s).map id view = (machine h).feed cs s.view ∧
      (receive h cs s).2.closeCalled = false := by
  induction cs generalizing s with
  | nil => exact ⟨rfl, hopen⟩
  | cons c cs ih =>
    obtain ⟨⟨hsize, hlimit, hclose⟩, hrest⟩ := hcs
    have hroom : s.HasRoom c := by
      by_contra hno
      exact hsize ⟨hopen, hno⟩
    have hcall := handleRecv_undisturbed h hopen hroom hlimit
    rw [receive, Incremental.feed]
    have hmore : (machine h).more c s.view = s.view.more c := rfl
    rw [hmore, ← hcall]
    cases hr : s.handleRecv h c with
    | mk ok t =>
      rw [hr] at hrest hclose
      cases ok with
      | true => exact ih hclose hrest
      | false => exact ⟨rfl, hclose⟩

/-- **However a stream is cut into chunks, a fresh connection delivers the same messages and ends
open or closed alike**, if no call fails on the buffer-size limit, judges a packet by a limit that
has changed since the call began, or has the application close the connection. -/
theorem receive_chunks (reserve : ℕ) {cs cs' : List Bytes} (hflat : cs.flatten = cs'.flatten)
    (hcs : EveryCall h (fun s c => ¬ s.FailsOnSize c ∧ s.Undisturbed h c) cs
      (fresh h (empty reserve)))
    (hcs' : EveryCall h (fun s c => ¬ s.FailsOnSize c ∧ s.Undisturbed h c) cs'
      (fresh h (empty reserve))) :
    (receive h cs (fresh h (empty reserve))).2.delivered =
        (receive h cs' (fresh h (empty reserve))).2.delivered ∧
      isClosed (receive h cs (fresh h (empty reserve))) =
        isClosed (receive h cs' (fresh h (empty reserve))) := by
  have hidle : (machine h).settle (fresh h (empty reserve)).view =
      (true, (fresh h (empty reserve)).view) := rfl
  obtain ⟨hrun, hopen⟩ := receive_eq_feed h rfl hcs
  obtain ⟨hrun', hopen'⟩ := receive_eq_feed h rfl hcs'
  have hsame : (machine h).result ((receive h cs (fresh h (empty reserve))).map id view) =
      (machine h).result ((receive h cs' (fresh h (empty reserve))).map id view) := by
    rw [hrun, hrun', Incremental.feed_settle cs hidle, Incremental.feed_settle cs' hidle, hflat]
  have hboth := Prod.ext_iff.mp hsame
  refine ⟨hboth.2, ?_⟩
  have hok : (receive h cs (fresh h (empty reserve))).1 =
      (receive h cs' (fresh h (empty reserve))).1 := hboth.1
  rw [isClosed, isClosed, hopen, hopen', hok]

/-! ### Concrete streams -/

/-- An application that answers every request and takes the first one as its handshake, with the
default limits. -/
def plainHandler : CommandsHandler where
  waits _ := .none
  sends _ := true
  handshakeComplete _ := true
  closes _ := false
  handshakeCommand := 1001
  getMaxBytes command := if command = 1001 then 65536 else 1024 * 1024 * 128
  initialMaxPacketSize := 256 * 1024
  maxPacketSize := 100000000

/-- One that closes the connection with every message. -/
def closingHandler : CommandsHandler := { plainHandler with closes := fun _ => true }

/-- A request without a payload for the handshake command. -/
def handshakePacket : Bytes :=
  BucketHead2.toBytes ⟨levinSignature, 0, 1, 1001, 0, packetRequest, protocolVer1⟩

/-- A notification with two bytes. -/
def notifyPacket : Bytes :=
  BucketHead2.toBytes ⟨levinSignature, 2, 0, 2002, 0, packetRequest, protocolVer1⟩ ++ [7, 8]

/-- The header of a notification that only the limit after a handshake admits. -/
def largeHead : Bytes :=
  BucketHead2.toBytes ⟨levinSignature, 300000, 0, 2002, 0, packetRequest, protocolVer1⟩

/-- A notification in one piece, and cut in the middle of its header. -/
theorem receive_chunks_notify :
    (receive plainHandler [notifyPacket] (fresh plainHandler (empty 0))).2.delivered =
        (receive plainHandler [notifyPacket.take 10, notifyPacket.drop 10]
          (fresh plainHandler (empty 0))).2.delivered ∧
      isClosed (receive plainHandler [notifyPacket] (fresh plainHandler (empty 0))) =
        isClosed (receive plainHandler [notifyPacket.take 10, notifyPacket.drop 10]
          (fresh plainHandler (empty 0))) :=
  receive_chunks plainHandler 0 (by decide) (by decide) (by decide)

/-- Two streams that are not the same in one piece and in two, with no call that fails on the
buffer-size limit. The header behind a handshake is refused when it comes with it in one call, by
the limit from before the handshake. And after the application has closed the connection, a second
notification is still delivered if it came in the same call. -/
theorem receive_chunks_differ :
    (EveryCall plainHandler (fun s c => ¬ s.FailsOnSize c) [handshakePacket ++ largeHead]
        (fresh plainHandler (empty 0)) ∧
      EveryCall plainHandler (fun s c => ¬ s.FailsOnSize c) [handshakePacket, largeHead]
        (fresh plainHandler (empty 0)) ∧
      isClosed (receive plainHandler [handshakePacket ++ largeHead]
        (fresh plainHandler (empty 0))) = true ∧
      isClosed (receive plainHandler [handshakePacket, largeHead]
        (fresh plainHandler (empty 0))) = false) ∧
    (EveryCall closingHandler (fun s c => ¬ s.FailsOnSize c) [notifyPacket ++ notifyPacket]
        (fresh closingHandler (empty 0)) ∧
      EveryCall closingHandler (fun s c => ¬ s.FailsOnSize c) [notifyPacket, notifyPacket]
        (fresh closingHandler (empty 0)) ∧
      (receive closingHandler [notifyPacket ++ notifyPacket]
        (fresh closingHandler (empty 0))).2.delivered.length = 2 ∧
      (receive closingHandler [notifyPacket, notifyPacket]
        (fresh closingHandler (empty 0))).2.delivered.length = 1) := by
  decide

end Hashmonkey.Epee.Connection
