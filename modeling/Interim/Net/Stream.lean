import Interim.Net.Bounds

/-!
# Receiving a TCP stream

What `eth_task` delivers of a peer's byte stream, and what it acknowledges, over
a whole run of frames after a SYN-ACK. The only state is `their_seqnum`, which
every data segment sets to the sequence number after its last byte; a segment is
dropped only when that leaves `their_seqnum` as it was.

Main result: `stream_delivered`. The stream is delivered once and in order, and
acknowledged no further than delivered, in every run whose segments each start
or end where the last one ended (`Arrives`).
-/

namespace Interim.Net

open OnesComplement

/-! ## Runs -/

/-- `eth_task` on one frame after the other. -/
def runFrames (w n : ℕ) : State → List (List UInt8) → Except Stop (List Reply × State)
  | s, [] => .ok ([], s)
  | s, frame :: frames => do
    let (r, s) ← ethTask w n frame.length (ethernetRx s frame)
    let (rs, s) ← runFrames w n s frames
    .ok (r :: rs, s)

/-- The bytes the returned cells deliver; the NUL `eth_task` appends is not one
    of them. -/
def delivered (rs : List Reply) : List UInt8 := rs.flatMap fun r => r.contents.dropLast

/-- A TCP frame of type IP, long enough for both headers, that carries the
    sequence number `seq`. -/
structure TcpFrame (seq : BitVec 32) (frame : List UInt8) : Prop where
  length : 54 ≤ frame.length
  type : wordAt frame 12 = 0x0800
  proto : byteAt frame 23 = protoIpTcp
  seqnum : swap32 (readWord32 (byteAt frame) 38) = seq

/-- The SYN-ACK of a peer whose stream starts at sequence number `isn + 1`. -/
structure SynAck (isn : BitVec 32) (frame : List UInt8) : Prop extends TcpFrame isn frame where
  flags : byteAt frame 47 = 0x12

/-- A data segment with 20-byte headers: the `len` bytes of the stream from
    `off` on. -/
structure Segment (isn : BitVec 32) (stream : List UInt8) (off len : ℕ) (frame : List UInt8) : Prop
    extends TcpFrame (isn + 1 + BitVec.ofNat 32 off) frame where
  headers : headerLength frame = 40
  noSyn : byteAt frame 47 ≠ 0x12
  noFin : byteAt frame 47 &&& 1 ≠ 1
  total : wordAt frame 16 = 40 + len
  pos : 0 < len
  fits : 54 + len ≤ frame.length
  cut : off + len ≤ stream.length
  payload : bytesAt (byteAt frame) 54 len = (stream.drop off).take len

/-- The frames arrive in order after the first `d` bytes of the stream: each
    segment starts where the last one ended, or ends there again. -/
inductive Arrives (isn : BitVec 32) (stream : List UInt8) : ℕ → List (List UInt8) → Prop
  | nil (d : ℕ) : Arrives isn stream d []
  | next {d len : ℕ} {frame : List UInt8} {frames : List (List UInt8)}
      (hseg : Segment isn stream d len frame) (hrest : Arrives isn stream (d + len) frames) :
      Arrives isn stream d (frame :: frames)
  | again {d off len : ℕ} {frame : List UInt8} {frames : List (List UInt8)}
      (hseg : Segment isn stream off len frame) (hend : off + len = d)
      (hrest : Arrives isn stream d frames) : Arrives isn stream d (frame :: frames)

/-- What is asked of the replies and of the acknowledgement numbers sent with
    them: the stream is delivered once and in order, the numbers never decrease
    in sequence arithmetic, and none is beyond what was delivered with it. -/
structure InOrder (isn : BitVec 32) (stream : List UInt8) (rs : List Reply)
    (acks : List (BitVec 32)) : Prop where
  once : delivered rs <+: stream
  nondecreasing : acks.IsChain fun a b => (b - a).toNat < 2 ^ 31
  behind : ∀ i (hi : i < acks.length), ∃ k ≤ (delivered (rs.take (i + 1))).length,
    acks.get ⟨i, hi⟩ = isn + 1 + BitVec.ofNat 32 k

/-! ## One frame -/

/-- A TCP frame reaches the TCP branch. -/
theorem ethTask_tcp {w n : ℕ} {s : State} {frame : List UInt8} {seq : BitVec 32}
    (hf : TcpFrame seq frame) :
    ethTask w n frame.length (ethernetRx s frame) =
      tcpTask w n (((ethernetRx s frame).logRead 12 2).logRead 23 1) := by
  set t := ethernetRx s frame
  have hlen := hf.length
  have hrx : ∀ i < frame.length, t.rxPacket i = byteAt frame i := fun i hi => if_pos hi
  have htype : swap16 (readWord16 t.rxPacket 12) = ethTypeIp := by
    rw [← BitVec.toNat_inj, wordAt_eq hrx (by omega), hf.type]
    rfl
  have h23 : t.rxPacket 23 = protoIpTcp := by rw [hrx 23 (by omega), hf.proto]
  rw [ethTask_eq (by omega), htype, if_neg (by decide), if_pos rfl, h23, if_neg (by decide),
    if_neg (by decide), if_pos rfl]

theorem readWord32_eq {s : State} {frame : List UInt8} {seq : BitVec 32} (hf : TcpFrame seq frame) :
    swap32 (readWord32 (ethernetRx s frame).rxPacket 38) = seq := by
  have hlen := hf.length
  have hrx : ∀ i < frame.length, (ethernetRx s frame).rxPacket i = byteAt frame i :=
    fun i hi => if_pos hi
  rw [← hf.seqnum]
  unfold readWord32
  rw [hrx 38 (by omega), hrx (38 + 1) (by omega), hrx (38 + 2) (by omega), hrx (38 + 3) (by omega)]

/-- A SYN-ACK sets `their_seqnum` to the first sequence number of the stream. -/
theorem synAck_step {w n : ℕ} (hw : 32 ≤ w) (hn : 3 ≤ n) {s : State} {frame : List UInt8}
    {isn : BitVec 32} (hf : SynAck isn frame) :
    ∃ s' frame', ethTask w n frame.length (ethernetRx s frame) = .ok (⟨[], none⟩, s') ∧
      s'.theirSeqnum = isn + 1 ∧ s'.sent = s.sent ++ [frame'] ∧ ackNumber frame' = isn + 1 := by
  have hlen := hf.length
  have h47 : (ethernetRx s frame).rxPacket 47 = 0x12 := by
    rw [ethernetRx_rxPacket (by omega), hf.flags]
  rw [ethTask_tcp hf.toTcpFrame, tcpTask_eq]
  change ∃ s' frame', (if (ethernetRx s frame).rxPacket 47 = 0x12 then _ else _) = _ ∧ _
  rw [if_pos h47]
  obtain ⟨s', hok, -, -, -, hseq, frame', hsent, hack⟩ := tcpSynAck_run hw hn
    (((((ethernetRx s frame).logRead 12 2).logRead 23 1).logRead 16 2).logRead 47 1)
  refine ⟨s', frame', hok, ?_, hsent, ?_⟩
  · rw [hseq]
    change swap32 (readWord32 (ethernetRx s frame).rxPacket 38) + 1 = isn + 1
    rw [readWord32_eq hf.toTcpFrame]
  · rw [hack]
    change swap32 (readWord32 (ethernetRx s frame).rxPacket 38) + 1 = isn + 1
    rw [readWord32_eq hf.toTcpFrame]

/-- A data segment moves `their_seqnum` to its end, acknowledges that, and is
    returned unless `their_seqnum` was there already. -/
theorem segment_step {w n : ℕ} (hw : 32 ≤ w) (hn : 3 ≤ n) {s : State} {frame : List UInt8}
    {isn : BitVec 32} {stream : List UInt8} {off len : ℕ} (hf : Segment isn stream off len frame) :
    ∃ r s' frame', ethTask w n frame.length (ethernetRx s frame) = .ok (r, s') ∧
      r.contents.dropLast = (if s.theirSeqnum ≠ isn + 1 + BitVec.ofNat 32 (off + len) then
        (stream.drop off).take len else []) ∧
      s'.theirSeqnum = isn + 1 + BitVec.ofNat 32 (off + len) ∧ s'.sent = s.sent ++ [frame'] ∧
      ackNumber frame' = isn + 1 + BitVec.ofNat 32 (off + len) := by
  have hlen := hf.length
  have htotal := hf.total
  have hpos := hf.pos
  have hfits := hf.fits
  set t := ethernetRx s frame with ht
  have hrx : ∀ i < frame.length, t.rxPacket i = byteAt frame i := fun i hi => if_pos hi
  have h47 := hrx 47 (by omega)
  have hsize : ((swap16 (readWord16 t.rxPacket 16)).toNat : ℤ) - 20 - 20 = len := by
    rw [wordAt_eq hrx (by omega), htotal]
    omega
  set u := (((t.logRead 12 2).logRead 23 1).logRead 16 2).logRead 47 1 with hu
  have hrun : ethTask w n frame.length t = tcpData w n len u := by
    rw [ethTask_tcp hf.toTcpFrame, tcpTask_eq]
    change (if t.rxPacket 47 = 0x12 then _ else if t.rxPacket 47 &&& 1 = 1 then _
      else if ((swap16 (readWord16 t.rxPacket 16)).toNat : ℤ) - 20 - 20 > 0 then
        tcpData w n (((swap16 (readWord16 t.rxPacket 16)).toNat : ℤ) - 20 - 20) u else _) = _
    rw [h47, hsize, if_neg hf.noSyn, if_neg hf.noFin, if_pos (by omega)]
  have hnext : isn + 1 + BitVec.ofNat 32 (off + len) =
      swap32 (readWord32 u.rxPacket 38) + BitVec.ofNat 32 len := by
    change _ = swap32 (readWord32 t.rxPacket 38) + BitVec.ofNat 32 len
    rw [ht, readWord32_eq hf.toTcpFrame, BitVec.ofNat_add]
    ac_rfl
  obtain ⟨s', A, hok, -, -, -, -, hseq, frame', hsent, hack⟩ := tcpData_run hw hn u len hnext
  refine ⟨_, s', frame', hrun.trans hok, ?_, hseq, hsent, hack⟩
  unfold dataReply
  change (if s.theirSeqnum ≠ _ then _ else _ : Reply).contents.dropLast = _
  split
  · rw [List.dropLast_concat, ← hf.payload]
    apply bytesAt_congr
    intro i _ hi
    exact hrx i (by omega)
  · rfl

/-! ## Whole runs -/

/-- The distance from one position of the stream to a later one. -/
theorem seq_sub (isn : BitVec 32) (d : ℕ) {len : ℕ} (hlen : len < 2 ^ 16) :
    (isn + 1 + BitVec.ofNat 32 (d + len) - (isn + 1 + BitVec.ofNat 32 d)).toNat = len := by
  have h : isn + 1 + BitVec.ofNat 32 (d + len) - (isn + 1 + BitVec.ofNat 32 d) =
      BitVec.ofNat 32 len := by
    rw [BitVec.ofNat_add]
    generalize BitVec.ofNat 32 d = x
    generalize BitVec.ofNat 32 len = y
    rw [← BitVec.add_assoc, BitVec.add_comm (isn + 1 + x) y, BitVec.add_sub_cancel]
  rw [h, BitVec.toNat_ofNat]
  omega

theorem seq_ne (isn : BitVec 32) (d : ℕ) {len : ℕ} (hpos : 0 < len) (hlen : len < 2 ^ 16) :
    isn + 1 + BitVec.ofNat 32 d ≠ isn + 1 + BitVec.ofNat 32 (d + len) := by
  intro h
  have hsub := seq_sub isn d hlen
  rw [← h, BitVec.sub_self, BitVec.toNat_zero] at hsub
  omega

theorem Segment.len_lt {isn : BitVec 32} {stream : List UInt8} {off len : ℕ} {frame : List UInt8}
    (hf : Segment isn stream off len frame) : len < 2 ^ 16 := by
  have hlt : wordAt frame 16 < 2 ^ 16 := by
    have h₁ := (byteAt frame 16).toNat_lt
    have h₂ := (byteAt frame (16 + 1)).toNat_lt
    unfold wordAt
    omega
  rw [hf.total] at hlt
  omega

/-- What a run does after the first `d` bytes of the stream: it delivers the
    bytes that follow, and acknowledges them as they are delivered. -/
structure Continues (isn : BitVec 32) (stream : List UInt8) (d : ℕ) (rs : List Reply)
    (acks : List (BitVec 32)) : Prop where
  once : stream.take d ++ delivered rs <+: stream
  nondecreasing : ((isn + 1 + BitVec.ofNat 32 d) :: acks).IsChain fun a b => (b - a).toNat < 2 ^ 31
  behind : ∀ i (hi : i < acks.length),
    acks.get ⟨i, hi⟩ = isn + 1 + BitVec.ofNat 32 (d + (delivered (rs.take (i + 1))).length)

/-- A reply that delivers the `len` bytes after the first `d`. -/
theorem Continues.cons {isn : BitVec 32} {stream : List UInt8} {d len : ℕ} {r : Reply}
    {rs : List Reply} {acks : List (BitVec 32)} (hc : Continues isn stream (d + len) rs acks)
    (hlen : len < 2 ^ 16) (hcut : d + len ≤ stream.length)
    (hr : r.contents.dropLast = (stream.drop d).take len) :
    Continues isn stream d (r :: rs) ((isn + 1 + BitVec.ofNat 32 (d + len)) :: acks) := by
  have hcons : ∀ rs, delivered (r :: rs) = (stream.drop d).take len ++ delivered rs := by
    intro rs
    unfold delivered
    rw [List.flatMap_cons, hr]
  have hlength : ((stream.drop d).take len).length = len := by
    rw [List.length_take, List.length_drop]
    omega
  constructor
  · rw [hcons, ← List.append_assoc, ← List.take_add]
    exact hc.once
  · rw [List.isChain_cons_cons]
    refine ⟨?_, hc.nondecreasing⟩
    rw [seq_sub isn d hlen]
    omega
  · intro i hi
    cases i with
    | zero =>
      change isn + 1 + BitVec.ofNat 32 (d + len) = _
      rw [List.take_succ_cons, List.take_zero, hcons, List.length_append, hlength]
      rfl
    | succ i =>
      change acks.get ⟨i, _⟩ = _
      rw [hc.behind i, List.take_succ_cons, hcons, List.length_append, hlength, Nat.add_assoc]

theorem runFrames_continues {w n : ℕ} (hw : 32 ≤ w) (hn : 3 ≤ n) {isn : BitVec 32}
    {stream : List UInt8} {d : ℕ} {frames : List (List UInt8)} (ha : Arrives isn stream d frames)
    {s : State} (hs : s.theirSeqnum = isn + 1 + BitVec.ofNat 32 d) :
    ∃ rs s' out, runFrames w n s frames = .ok (rs, s') ∧ s'.sent = s.sent ++ out ∧
      Continues isn stream d rs (out.map ackNumber) := by
  induction ha generalizing s with
  | nil d =>
    refine ⟨[], s, [], rfl, by simp, ?_, ?_, ?_⟩
    · change stream.take d ++ [] <+: stream
      rw [List.append_nil]
      exact List.take_prefix d stream
    · exact List.isChain_singleton _
    · intro i hi
      exact absurd hi (by simp)
  | @next d len frame frames hseg hrest ih =>
    obtain ⟨r, s₁, frame', hok, hr, hseq, hsent, hack⟩ := segment_step hw hn (s := s) hseg
    obtain ⟨rs, s', out, hrun, hsent', hc⟩ := ih hseq
    refine ⟨r :: rs, s', frame' :: out, ?_, ?_, ?_⟩
    · unfold runFrames
      rw [hok, ok_bind]
      dsimp only
      rw [hrun]
      rfl
    · rw [hsent', hsent, List.append_assoc]
      rfl
    · rw [List.map_cons, hack]
      apply hc.cons hseg.len_lt hseg.cut
      rw [hr, hs, if_pos (seq_ne isn d hseg.pos hseg.len_lt)]
  | @again d off len frame frames hseg hend hrest ih =>
    obtain ⟨r, s₁, frame', hok, hr, hseq, hsent, hack⟩ := segment_step hw hn (s := s) hseg
    rw [hend] at hr hseq hack
    obtain ⟨rs, s', out, hrun, hsent', hc⟩ := ih hseq
    refine ⟨r :: rs, s', frame' :: out, ?_, ?_, ?_⟩
    · unfold runFrames
      rw [hok, ok_bind]
      dsimp only
      rw [hrun]
      rfl
    · rw [hsent', hsent, List.append_assoc]
      rfl
    · rw [List.map_cons, hack]
      have hcut := hseg.cut
      apply @Continues.cons isn stream d 0 _ _ _ hc (by norm_num) (by omega)
      rw [hr, hs, if_neg (by simp), List.take_zero]

/-- **The stream is delivered once and in order.** In every run after a SYN-ACK
    whose segments each start or end where the last one ended. -/
theorem stream_delivered {w n : ℕ} (hw : 32 ≤ w) (hn : 3 ≤ n) {isn : BitVec 32}
    {stream : List UInt8} {synAck : List UInt8} (hsyn : SynAck isn synAck)
    {frames : List (List UInt8)} (ha : Arrives isn stream 0 frames) (s : State) :
    ∃ rs s' out, runFrames w n s (synAck :: frames) = .ok (rs, s') ∧ s'.sent = s.sent ++ out ∧
      InOrder isn stream rs (out.map ackNumber) := by
  obtain ⟨s₁, frame', hok, hseq, hsent, hack⟩ := synAck_step hw hn (s := s) hsyn
  have hzero : isn + 1 + BitVec.ofNat 32 0 = isn + 1 := BitVec.add_zero _
  obtain ⟨rs, s', out, hrun, hsent', hc⟩ := runFrames_continues hw hn ha (hseq.trans hzero.symm)
  refine ⟨⟨[], none⟩ :: rs, s', frame' :: out, ?_, ?_, ?_⟩
  · unfold runFrames
    rw [hok, ok_bind]
    dsimp only
    rw [hrun]
    rfl
  · rw [hsent', hsent, List.append_assoc]
    rfl
  · rw [List.map_cons, hack]
    constructor
    · exact hc.once
    · rw [← hzero]
      exact hc.nondecreasing
    · intro i hi
      cases i with
      | zero => exact ⟨0, Nat.zero_le _, hzero.symm⟩
      | succ i =>
        refine ⟨_, le_rfl, ?_⟩
        change (out.map ackNumber).get ⟨i, _⟩ = _
        rw [hc.behind i, Nat.zero_add]
        rfl

/-- A TCP frame with the given flags, low byte of the sequence number and
    payload. -/
def tcpFrame (flags seq : UInt8) (payload : List UInt8) : List UInt8 :=
  List.replicate 12 0 ++ [8, 0] ++ [0x45, 0, 0, UInt8.ofNat (40 + payload.length), 0, 0, 0, 0, 64, 6] ++
    List.replicate 14 0 ++ [0, 0, 0, seq] ++ List.replicate 4 0 ++ [0x50, flags] ++
    List.replicate 6 0 ++ payload

theorem synAck_tcpFrame : SynAck 0 (tcpFrame 0x12 0 []) :=
  ⟨⟨by decide, by decide, by decide, by decide⟩, by decide⟩

/-- The two bytes of the stream `[1, 2]` as segments. -/
theorem segment_first : Segment 0 [1, 2] 0 1 (tcpFrame 0x18 1 [1]) :=
  ⟨⟨by decide, by decide, by decide, by decide⟩, by decide, by decide, by decide, by decide,
    by decide, by decide, by decide, by decide⟩

theorem segment_second : Segment 0 [1, 2] 1 1 (tcpFrame 0x18 2 [2]) :=
  ⟨⟨by decide, by decide, by decide, by decide⟩, by decide, by decide, by decide, by decide,
    by decide, by decide, by decide, by decide⟩

/-- Two segments in order, and the second once more. -/
theorem stream_delivered_twice :
    ∃ rs s' out, runFrames 32 3 start [tcpFrame 0x12 0 [], tcpFrame 0x18 1 [1], tcpFrame 0x18 2 [2],
        tcpFrame 0x18 2 [2]] = .ok (rs, s') ∧ s'.sent = start.sent ++ out ∧
      InOrder 0 [1, 2] rs (out.map ackNumber) :=
  stream_delivered (by decide) (by decide) synAck_tcpFrame
    (.next segment_first (.next segment_second (.again segment_second rfl (.nil 2)))) start

/-- The second segment arrives first: it is delivered, and the first byte of the
    stream acknowledged with it. -/
theorem stream_delivered_reordered :
    (∃ off len, Segment 0 [1, 2] off len (tcpFrame 0x18 2 [2])) ∧
      ¬ ∃ rs s' out, runFrames 32 3 start [tcpFrame 0x12 0 [], tcpFrame 0x18 2 [2]] = .ok (rs, s') ∧
        s'.sent = start.sent ++ out ∧ InOrder 0 [1, 2] rs (out.map ackNumber) := by
  refine ⟨⟨1, 1, segment_second⟩, ?_⟩
  rintro ⟨rs, s', out, hrun, -, hin⟩
  obtain ⟨s₁, -, hok₁, hseq₁, -⟩ :=
    synAck_step (w := 32) (n := 3) (by decide) (by decide) (s := start) synAck_tcpFrame
  obtain ⟨r, s₂, -, hok₂, hr, -⟩ :=
    segment_step (w := 32) (n := 3) (by decide) (by decide) (s := s₁) segment_second
  have hrs : rs = [⟨[], none⟩, r] := by
    have hrun' : runFrames 32 3 start [tcpFrame 0x12 0 [], tcpFrame 0x18 2 [2]] =
        .ok ([⟨[], none⟩, r], s₂) := by
      unfold runFrames
      rw [hok₁, ok_bind]
      dsimp only
      unfold runFrames
      rw [hok₂]
      rfl
    rw [hrun'] at hrun
    exact (Prod.mk.inj (Except.ok.inj hrun)).1.symm
  have hdelivered : delivered rs = [2] := by
    rw [hrs]
    change [] ++ (r.contents.dropLast ++ []) = [2]
    rw [hr, hseq₁, if_pos (by decide)]
    rfl
  have honce := hin.once
  rw [hdelivered] at honce
  exact absurd honce (by decide)

end Interim.Net
