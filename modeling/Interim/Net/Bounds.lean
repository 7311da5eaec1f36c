import Interim.Net.Checksum

/-!
# Bounds of received frames

`eth_task` takes offsets and lengths from the frame without comparing them with
each other or with the length `ethernet_rx` returned.

Main result: `ethTask_within_iff`. `eth_task` stays within the frame, and
returns exactly the payload, precisely on the frames whose fields agree
(`Fits`).
-/

namespace Interim.Net

open OnesComplement

/-! ## What is asked of `eth_task` -/

/-- The recorded accesses lie inside a frame of `len` bytes: reads below `len`,
    writes up to `len`, and no negative size. -/
structure Bounded (len : ℕ) (s : State) : Prop where
  reads : ∀ i ∈ s.reads, i < len
  writes : ∀ i ∈ s.writes, i ≤ len
  allocs : ∀ z ∈ s.allocs, 0 ≤ z

/-- The bytes of a frame, as an array of unbounded length. -/
def byteAt (frame : List UInt8) : Mem := fun i => frame.getD i 0

/-- A big-endian word of a frame. -/
def wordAt (frame : List UInt8) (p : ℕ) : ℕ :=
  (byteAt frame p).toNat * 256 + (byteAt frame (p + 1)).toNat

/-- The length of the IP header in bytes. -/
def ipHeaderLength (frame : List UInt8) : ℕ := 4 * ((byteAt frame 14).toNat % 16)

/-- The length of the transport header in bytes. -/
def transportHeaderLength (frame : List UInt8) : ℕ :=
  if byteAt frame 23 = protoIpUdp then 8
  else 4 * ((byteAt frame (14 + ipHeaderLength frame + 12)).toNat / 16)

/-- The length of both headers. -/
def headerLength (frame : List UInt8) : ℕ := ipHeaderLength frame + transportHeaderLength frame

/-- The indices of the payload: after the headers, up to the IP total length. -/
def payloadIndices (frame : List UInt8) : List ℕ :=
  List.range' (14 + headerLength frame) (wordAt frame 16 - headerLength frame)

/-- A returned packet is the payload; for TCP, `eth_task` appends a NUL. -/
def Exact (frame : List UInt8) (r : Reply) : Prop :=
  ∀ idx, r.source = some idx → idx = payloadIndices frame ∧
    r.contents = idx.map (byteAt frame) ++ if byteAt frame 23 = protoIpUdp then [] else [0]

/-- A run of `eth_task` that stays within the frame and returns its payload. -/
def Within (frame : List UInt8) (x : NetM Reply) (s : State) : Prop :=
  ∃ r s', x s = .ok (r, s') ∧ Bounded frame.length s' ∧ Exact frame r

/-! ## When it holds -/

/-- The sequence number after the data of a TCP frame. -/
def nextSeqnum (frame : List UInt8) : BitVec 32 :=
  swap32 (readWord32 (byteAt frame) 38) + BitVec.ofNat 32 (wordAt frame 16 - 40)

/-- An ARP frame long enough for what is read of it. -/
def FitsArp (frame : List UInt8) : Prop :=
  22 ≤ frame.length ∧ (wordAt frame 20 = 1 → 42 ≤ frame.length)

/-- A UDP frame whose lengths agree: the UDP length covers its header and ends
    in the frame, and the IP header has no options (unless the payload is
    empty) and the IP total length to match. -/
def FitsUdp (frame : List UInt8) : Prop :=
  8 ≤ wordAt frame 38 ∧ 34 + wordAt frame 38 ≤ frame.length ∧
    wordAt frame 38 - 8 = wordAt frame 16 - (ipHeaderLength frame + 8) ∧
    (wordAt frame 38 = 8 ∨ ipHeaderLength frame = 20)

/-- A TCP frame whose lengths agree. Those of data segments: the IP total length
    ends in the frame, and a segment that is returned has no IP or TCP
    options. -/
def FitsTcp (s : State) (frame : List UInt8) : Prop :=
  48 ≤ frame.length ∧
    (byteAt frame 47 ≠ 0x12 → byteAt frame 47 &&& 1 ≠ 1 → 40 < wordAt frame 16 →
      14 + wordAt frame 16 ≤ frame.length ∧
        (s.theirSeqnum ≠ nextSeqnum frame → headerLength frame = 40))

/-- An IP frame that fits. -/
def FitsIp (s : State) (frame : List UInt8) : Prop :=
  24 ≤ frame.length ∧ (byteAt frame 23 = protoIpUdp → FitsUdp frame) ∧
    (byteAt frame 23 = protoIpIcmp → 42 ≤ frame.length) ∧
    (byteAt frame 23 = protoIpTcp → FitsTcp s frame)

/-- A frame whose fields agree with each other and with its length. -/
def Fits (s : State) (frame : List UInt8) : Prop :=
  frame = [] ∨ 14 ≤ frame.length ∧
    (wordAt frame 12 = 0x0806 → FitsArp frame) ∧ (wordAt frame 12 = 0x0800 → FitsIp s frame)

/-! ## Steps -/

variable {frame : List UInt8} {s : State}

/-- The state after a read. -/
def State.logRead (s : State) (p n : ℕ) : State :=
  { s with reads := s.reads ++ List.range' p n }

theorem forall_range'_lt {p n len : ℕ} :
    (∀ i ∈ List.range' p n, i < len) ↔ (0 < n → p + n ≤ len) := by
  constructor
  · intro h hn
    have := h (p + (n - 1)) (List.mem_range'.mpr ⟨n - 1, by omega, by omega⟩)
    omega
  · intro h i hi
    obtain ⟨k, hk, rfl⟩ := List.mem_range'.mp hi
    omega

/-- What more accesses ask for. -/
theorem bounded_extend {len : ℕ} {s' : State} {R W : List ℕ} {A : List ℤ}
    (hr : s'.reads = s.reads ++ R) (hw : s'.writes = s.writes ++ W)
    (ha : s'.allocs = s.allocs ++ A) :
    Bounded len s' ↔ Bounded len s ∧ (∀ i ∈ R, i < len) ∧ (∀ i ∈ W, i ≤ len) ∧ ∀ z ∈ A, 0 ≤ z := by
  constructor
  · rintro ⟨h₁, h₂, h₃⟩
    rw [hr] at h₁
    rw [hw] at h₂
    rw [ha] at h₃
    refine ⟨⟨?_, ?_, ?_⟩, ?_, ?_, ?_⟩
    · exact fun i hi => h₁ i (List.mem_append_left _ hi)
    · exact fun i hi => h₂ i (List.mem_append_left _ hi)
    · exact fun z hz => h₃ z (List.mem_append_left _ hz)
    · exact fun i hi => h₁ i (List.mem_append_right _ hi)
    · exact fun i hi => h₂ i (List.mem_append_right _ hi)
    · exact fun z hz => h₃ z (List.mem_append_right _ hz)
  · rintro ⟨⟨h₁, h₂, h₃⟩, hR, hW, hA⟩
    constructor
    · intro i hi
      rw [hr] at hi
      exact (List.mem_append.mp hi).elim (h₁ i) (hR i)
    · intro i hi
      rw [hw] at hi
      exact (List.mem_append.mp hi).elim (h₂ i) (hW i)
    · intro z hz
      rw [ha] at hz
      exact (List.mem_append.mp hz).elim (h₃ z) (hA z)

theorem bounded_logRead {len p n : ℕ} :
    Bounded len (s.logRead p n) ↔ Bounded len s ∧ (0 < n → p + n ≤ len) := by
  rw [bounded_extend (s := s) (R := List.range' p n) (W := []) (A := []) rfl (by simp [State.logRead])
    (by simp [State.logRead]), forall_range'_lt]
  simp

/-- A step that returns is taken. -/
theorem run_bind {α β : Type} {x : NetM α} {f : α → NetM β} {a : α} {s' : State}
    (hx : x s = .ok (a, s')) : (x >>= f) s = f a s' := by
  change (x s >>= fun p => f p.1 p.2) = f a s'
  rw [hx]
  rfl

theorem run_lift {α : Type} {x : Except Stop α} {a : α} (hx : x = .ok a) :
    (liftM x : NetM α) s = .ok (a, s) := by
  rw [hx]
  rfl

theorem within_bind {α : Type} {x : NetM α} {f : α → NetM Reply} {a : α} {s' : State}
    (hx : x s = .ok (a, s')) : Within frame (x >>= f) s ↔ Within frame (f a) s' := by
  unfold Within
  rw [run_bind hx]

/-- A run that returns, by its record. -/
theorem within_of_run {x : NetM Reply} {r : Reply} {s' : State} {R W : List ℕ} {A : List ℤ}
    (hx : x s = .ok (r, s')) (hr : s'.reads = s.reads ++ R) (hw : s'.writes = s.writes ++ W)
    (ha : s'.allocs = s.allocs ++ A) :
    Within frame x s ↔ (Bounded frame.length s ∧ (∀ i ∈ R, i < frame.length) ∧
      (∀ i ∈ W, i ≤ frame.length) ∧ ∀ z ∈ A, 0 ≤ z) ∧ Exact frame r := by
  rw [← bounded_extend hr hw ha]
  constructor
  · rintro ⟨r', s'', hok, hb, he⟩
    rw [hx] at hok
    obtain ⟨rfl, rfl⟩ := Prod.mk.inj (Except.ok.inj hok)
    exact ⟨hb, he⟩
  · rintro ⟨hb, he⟩
    exact ⟨r, s', hx, hb, he⟩

theorem exact_none : Exact frame ⟨[], none⟩ := fun _ hidx => absurd hidx (by simp)

/-- The empty reply asks for nothing more. -/
theorem within_noPacket : Within frame noPacket s ↔ Bounded frame.length s := by
  have hb : Bounded frame.length { s with allocs := s.allocs ++ [0] } ↔ Bounded frame.length s := by
    rw [bounded_extend (s := s) (R := []) (W := []) (A := [0]) (by simp) (by simp) rfl]
    simp
  constructor
  · rintro ⟨r, s', hok, hb', -⟩
    obtain ⟨rfl, rfl⟩ := Prod.mk.inj (Except.ok.inj hok)
    exact hb.mp hb'
  · intro hs
    refine ⟨⟨[], none⟩, _, rfl, hb.mpr hs, fun idx hidx => ?_⟩
    exact absurd hidx (by simp)

/-- The bytes of the frame are where `ethernet_rx` puts them. -/
theorem ethernetRx_rxPacket {i : ℕ} (hi : i < frame.length) :
    (ethernetRx s frame).rxPacket i = byteAt frame i := if_pos hi

theorem wordAt_eq {p : ℕ} (hrx : ∀ i < frame.length, s.rxPacket i = byteAt frame i)
    (hp : p + 2 ≤ frame.length) : (swap16 (readWord16 s.rxPacket p)).toNat = wordAt frame p := by
  rw [swap16_readWord16, hrx p (by omega), hrx (p + 1) (by omega)]
  rfl

/-! ## UDP -/

/-- `printf("%s")` stops at the first NUL. -/
theorem takeWhile_length_le {l : List UInt8} {k : ℕ} (hk : l.getD k 0 = 0) :
    (l.takeWhile fun c => c ≠ 0).length ≤ k := by
  induction l generalizing k with
  | nil => exact Nat.zero_le k
  | cons c l ih =>
    rw [List.takeWhile_cons]
    by_cases hc : c = 0
    · simp [hc]
    · cases k with
      | zero => exact absurd hk hc
      | succ k =>
        have := ih (k := k) hk
        simpa [hc] using this

/-- The UDP branch up to the copy of the payload. -/
theorem udpTask_eq (s : State) (size : ℤ)
    (hsize : ((swap16 (readWord16 s.rxPacket 38)).toNat : ℤ) - 8 = size) :
    udpTask s = (copyRx 42 size >>= fun payload =>
      (return ⟨payload, some (List.range' 42 size.toNat)⟩ : NetM Reply))
      { s with
        theirMac := Vector.ofFn fun k => s.rxPacket (6 + k)
        rxPacket := Function.update s.rxPacket (42 + size).toNat 0
        reads := s.reads ++ List.range' 6 6 ++ List.range' 38 2 ++ List.range' 26 4 ++
          List.range' 42 ((bytesAt (Function.update s.rxPacket (42 + size).toNat 0) 42
            (packetSize - 42)).takeWhile fun c => c ≠ 0).length
        writes := s.writes ++ [(42 + size).toNat]
        allocs := s.allocs ++ [size] } := by
  subst hsize
  rfl

/-- A UDP length below 8 makes the size of the copy negative. -/
theorem udpTask_negative {s : State} (hsize : (swap16 (readWord16 s.rxPacket 38)).toNat < 8) :
    udpTask s = .error .fault := by
  have hneg : ((swap16 (readWord16 s.rxPacket 38)).toNat : ℤ) - 8 < 0 := by omega
  rw [udpTask_eq s _ rfl, copyRx, if_pos hneg]
  rfl

/-- The payload is copied from index 42 on, as many bytes as the UDP length
    says. -/
theorem udpTask_run (s : State) {len : ℕ}
    (hlen : (swap16 (readWord16 s.rxPacket 38)).toNat = 8 + len) :
    ∃ m' slen mac, slen ≤ len ∧ (∀ i < 42 + len, m' i = s.rxPacket i) ∧
      udpTask s = .ok (⟨bytesAt m' 42 len, some (List.range' 42 len)⟩,
        { s with
          theirMac := mac
          rxPacket := m'
          reads := s.reads ++ List.range' 6 6 ++ List.range' 38 2 ++ List.range' 26 4 ++
            List.range' 42 slen ++ List.range' 42 len
          writes := s.writes ++ [42 + len]
          allocs := s.allocs ++ [(len : ℤ)] }) := by
  have hsize : ((swap16 (readWord16 s.rxPacket 38)).toNat : ℤ) - 8 = len := by
    rw [hlen]
    omega
  set m' := Function.update s.rxPacket (42 + len) 0 with hm'
  refine ⟨m', ((bytesAt m' 42 (packetSize - 42)).takeWhile fun c => c ≠ 0).length,
    Vector.ofFn fun k => s.rxPacket (6 + k), ?_, ?_, ?_⟩
  · apply takeWhile_length_le
    by_cases hin : len < packetSize - 42
    · simp [bytesAt, hin, hm']
    · simp [bytesAt, hin]
  · intro i hi
    exact Function.update_of_ne (by omega) _ _
  · have hnat : ((42 : ℤ) + len).toNat = 42 + len := by omega
    have hcopy : ¬ (len : ℤ) < 0 := by omega
    rw [udpTask_eq s len hsize, hnat, copyRx, if_neg hcopy, Int.toNat_natCast]
    rfl

/-- A copied region is the payload when its indices are. -/
theorem bytesAt_eq_map {m : Mem} {p n : ℕ}
    (hm : ∀ i, p ≤ i → i < p + n → m i = byteAt frame i) :
    bytesAt m p n = (List.range' p n).map (byteAt frame) := by
  rw [List.range'_eq_map_range, List.map_map]
  apply List.map_congr_left
  intro k hk
  rw [List.mem_range] at hk
  exact hm (p + k) (by omega) (by omega)

theorem within_udp (hrx : ∀ i < frame.length, s.rxPacket i = byteAt frame i)
    (hudp : 24 ≤ frame.length → byteAt frame 23 = protoIpUdp) :
    Within frame udpTask s ↔ Bounded frame.length s ∧ FitsUdp frame := by
  by_cases hsize : 8 ≤ (swap16 (readWord16 s.rxPacket 38)).toNat
  · obtain ⟨len, hlen⟩ := Nat.exists_eq_add_of_le hsize
    obtain ⟨m', slen, mac, hslen, hm', hrun⟩ := udpTask_run s hlen
    -- the record of the run, in terms of the lengths alone
    have hbounded : ∀ s' : State, s'.reads = s.reads ++ List.range' 6 6 ++ List.range' 38 2 ++
        List.range' 26 4 ++ List.range' 42 slen ++ List.range' 42 len →
        s'.writes = s.writes ++ [42 + len] → s'.allocs = s.allocs ++ [(len : ℤ)] →
        (Bounded frame.length s' ↔ Bounded frame.length s ∧ 42 + len ≤ frame.length) := by
      intro s' hr hw ha
      rw [List.append_assoc, List.append_assoc, List.append_assoc, List.append_assoc] at hr
      rw [bounded_extend hr hw ha]
      simp only [List.forall_mem_append, forall_range'_lt, List.mem_singleton, forall_eq]
      constructor
      · rintro ⟨hb, -, hw, -⟩
        exact ⟨hb, hw⟩
      · rintro ⟨hb, hw⟩
        refine ⟨hb, ⟨?_, ?_, ?_, ?_, ?_⟩, hw, ?_⟩ <;> omega
    have hindices : 24 ≤ frame.length → (List.range' 42 len = payloadIndices frame ↔
        len = wordAt frame 16 - (ipHeaderLength frame + 8) ∧
          (len = 0 ∨ ipHeaderLength frame = 20)) := by
      intro h
      have hheader : headerLength frame = ipHeaderLength frame + 8 := by
        rw [headerLength, transportHeaderLength, if_pos (hudp h)]
      rw [payloadIndices, hheader, List.range'_inj]
      omega
    constructor
    · rintro ⟨r, s', hok, hb, he⟩
      rw [hrun] at hok
      obtain ⟨rfl, rfl⟩ := Prod.mk.inj (Except.ok.inj hok)
      obtain ⟨hbs, hend⟩ := (hbounded _ rfl rfl rfl).mp hb
      have hword : wordAt frame 38 = 8 + len := by
        rw [← hlen, wordAt_eq hrx (by omega)]
      obtain ⟨htotal, hihl⟩ := (hindices (by omega)).mp (he _ rfl).1
      refine ⟨hbs, ?_⟩
      unfold FitsUdp
      omega
    · rintro ⟨hbs, hlow, hend, htotal, hihl⟩
      have hword : wordAt frame 38 = 8 + len := by
        rw [← hlen, wordAt_eq hrx (by omega)]
      refine ⟨_, _, hrun, (hbounded _ rfl rfl rfl).mpr ⟨hbs, by omega⟩, ?_⟩
      rintro idx hidx
      obtain rfl := Option.some.inj hidx
      refine ⟨(hindices (by omega)).mpr ⟨by omega, by omega⟩, ?_⟩
      rw [if_pos (hudp (by omega)), List.append_nil]
      apply bytesAt_eq_map
      intro i _ hi
      rw [hm' i hi, hrx i (by omega)]
  · constructor
    · rintro ⟨r, s', hok, -⟩
      rw [udpTask_negative (not_le.mp hsize)] at hok
      exact absurd hok (by simp)
    · rintro ⟨-, hlow, hend, -⟩
      rw [wordAt_eq hrx (by omega)] at hsize
      exact absurd hlow hsize

/-! ## ARP and ICMP -/

theorem arpReply_run (s : State) :
    ∃ tx mac sent, arpReply s = .ok ((),
      { (s.logRead 22 10).logRead 6 6 with txPacket := tx, theirMac := mac, sent := sent }) := by
  have hok := @assign_ok [(0, bytesAt s.rxPacket 22 6), (6, s.myMac.toList),
    (12, bytes16 (swap16 ethTypeArp)), (14, bytes16 (swap16 1#16)),
    (16, bytes16 (swap16 0x800#16)), (18, [6]), (19, [4]), (20, bytes16 (swap16 2#16)),
    (22, s.myMac.toList), (28, bytesAt s.rxPacket 38 4), (32, bytesAt s.rxPacket 22 6),
    (38, bytesAt s.rxPacket 28 4)] (by simp [packetSize, bytes16]) s.txPacket
  set tx := puts s.txPacket _
  refine ⟨tx, Vector.ofFn fun k => s.rxPacket (6 + k), s.sent ++ [bytesAt tx 0 (14 + 28)], ?_⟩
  unfold arpReply
  rw [run_bind (x := readRx 22 10) (a := s.rxPacket) rfl, run_bind rfl]
  exact (run_bind (run_lift hok)).trans rfl

theorem arpTask_eq (s : State) :
    arpTask s =
      if swap16 (readWord16 s.rxPacket 20) = 1 then
        if bytesAt s.rxPacket 38 4 = s.myIp.toList then
          arpReply (((s.logRead 20 2).logRead 28 4).logRead 38 4)
        else .ok ((), ((s.logRead 20 2).logRead 28 4).logRead 38 4)
      else .ok ((), s.logRead 20 2) := by
  unfold arpTask
  change (ite _ _ _ : NetM Unit) _ = _
  split
  · change (ite _ _ _ : NetM Unit) _ = _
    split
    · rfl
    · rfl
  · rfl

/-- A state that differs in nothing the record is about. -/
theorem bounded_congr {len : ℕ} {s s' : State} (hr : s'.reads = s.reads)
    (hw : s'.writes = s.writes) (ha : s'.allocs = s.allocs) : Bounded len s' ↔ Bounded len s := by
  rw [bounded_extend (s := s) (R := []) (W := []) (A := []) (by simpa using hr) (by simpa using hw)
    (by simpa using ha)]
  simp

theorem within_arp (hrx : ∀ i < frame.length, s.rxPacket i = byteAt frame i) :
    Within frame (arpTask >>= fun _ => noPacket) s ↔ Bounded frame.length s ∧ FitsArp frame := by
  have hopcode : 22 ≤ frame.length →
      (swap16 (readWord16 s.rxPacket 20) = 1 ↔ wordAt frame 20 = 1) := by
    intro hlen
    rw [← wordAt_eq hrx hlen, ← BitVec.toNat_inj]
    rfl
  have hrun := arpTask_eq s
  by_cases hreq : swap16 (readWord16 s.rxPacket 20) = 1
  · rw [if_pos hreq] at hrun
    have hstop : Bounded frame.length (((s.logRead 20 2).logRead 28 4).logRead 38 4) ↔
        Bounded frame.length s ∧ FitsArp frame := by
      rw [bounded_logRead, bounded_logRead, bounded_logRead]
      constructor
      · rintro ⟨⟨⟨hb, h₁⟩, -⟩, h₂⟩
        exact ⟨hb, h₁ (by norm_num), fun _ => h₂ (by norm_num)⟩
      · rintro ⟨hb, h₁, h₂⟩
        have := h₂ ((hopcode h₁).mp hreq)
        exact ⟨⟨⟨hb, fun _ => h₁⟩, fun _ => by omega⟩, fun _ => this⟩
    by_cases hip : bytesAt s.rxPacket 38 4 = s.myIp.toList
    · rw [if_pos hip] at hrun
      obtain ⟨tx, mac, sent, hreply⟩ := arpReply_run (((s.logRead 20 2).logRead 28 4).logRead 38 4)
      rw [hreply] at hrun
      generalize ((s.logRead 20 2).logRead 28 4).logRead 38 4 = t at hstop hrun
      rw [within_bind hrun, within_noPacket, ← hstop]
      refine Iff.trans (bounded_congr (s := (t.logRead 22 10).logRead 6 6) ?_ ?_ ?_) ?_
      · rfl
      · rfl
      · rfl
      rw [bounded_logRead, bounded_logRead]
      constructor
      · rintro ⟨⟨hb, -⟩, -⟩
        exact hb
      · intro hb
        have hlen : 22 ≤ frame.length := (hstop.mp hb).2.1
        have := (hstop.mp hb).2.2 ((hopcode hlen).mp hreq)
        exact ⟨⟨hb, fun _ => by omega⟩, fun _ => by omega⟩
    · rw [if_neg hip] at hrun
      rw [within_bind hrun, within_noPacket, hstop]
  · rw [if_neg hreq] at hrun
    rw [within_bind hrun, within_noPacket, bounded_logRead]
    constructor
    · rintro ⟨hb, h₁⟩
      exact ⟨hb, h₁ (by norm_num), fun h => absurd ((hopcode (h₁ (by norm_num))).mpr h) hreq⟩
    · rintro ⟨hb, h₁, -⟩
      exact ⟨hb, fun _ => h₁⟩

theorem icmpTask_run (s : State) :
    icmpTask s = .ok ((), ((s.logRead 26 8).logRead 34 1).logRead 38 4) := rfl

theorem within_icmp :
    Within frame (icmpTask >>= fun _ => noPacket) s ↔
      Bounded frame.length s ∧ 42 ≤ frame.length := by
  rw [within_bind (icmpTask_run s), within_noPacket, bounded_logRead, bounded_logRead,
    bounded_logRead]
  constructor
  · rintro ⟨⟨⟨hb, -⟩, -⟩, h⟩
    exact ⟨hb, h (by norm_num)⟩
  · rintro ⟨hb, h⟩
    exact ⟨⟨⟨hb, fun _ => by omega⟩, fun _ => by omega⟩, fun _ => by omega⟩

/-! ## TCP -/

/-- What a TCP reply changes. -/
structure Replied (s s' : State) : Prop where
  reads : s'.reads = s.reads ++ List.range' 34 4
  writes : s'.writes = s.writes
  allocs : s'.allocs = s.allocs
  rxPacket : s'.rxPacket = s.rxPacket
  theirSeqnum : s'.theirSeqnum = s.theirSeqnum
  sent : ∃ frame', s'.sent = s.sent ++ [frame'] ∧ ackNumber frame' = s.theirSeqnum

theorem replyTcp_run {w n : ℕ} (hw : 32 ≤ w) (hn : 3 ≤ n) (s : State) (flags : UInt8) :
    ∃ s', replyTcp w n flags s = .ok ((), s') ∧ Replied s s' := by
  obtain ⟨m, frame', hok, -, hack⟩ := @sendTcpPacket_ok w n hw hn (s.logRead 34 4)
    ((swap16 (readWord16 s.rxPacket 36)).setWidth 32)
    ((swap16 (readWord16 s.rxPacket 34)).setWidth 32) flags s.mySeqnum s.theirSeqnum []
    (by decide) (by decide)
  refine ⟨{ s.logRead 34 4 with
    txPacket := m
    theirMac := #v[0x84, 0xa8, 0xe4, 0x67, 0x08, 0x12]
    sent := s.sent ++ [frame'] }, ?_, ⟨rfl, rfl, rfl, rfl, rfl, frame', rfl, hack.acknum⟩⟩
  unfold replyTcp
  rw [run_bind (x := readRx 34 4) (a := s.rxPacket) rfl, run_bind rfl]
  exact (run_bind (run_lift hok)).trans rfl

theorem tcpSynAck_run {w n : ℕ} (hw : 32 ≤ w) (hn : 3 ≤ n) (s : State) :
    ∃ s', tcpSynAck w n s = .ok (⟨[], none⟩, s') ∧
      s'.reads = s.reads ++ (List.range' 38 4 ++ List.range' 34 4) ∧ s'.writes = s.writes ++ [] ∧
      s'.allocs = s.allocs ++ [0] ∧
      s'.theirSeqnum = swap32 (readWord32 s.rxPacket 38) + 1 ∧
      ∃ frame', s'.sent = s.sent ++ [frame'] ∧
        ackNumber frame' = swap32 (readWord32 s.rxPacket 38) + 1 := by
  obtain ⟨s', hok, hrep⟩ := replyTcp_run hw hn
    { s.logRead 38 4 with
      mySeqnum := s.mySeqnum + 1
      theirSeqnum := swap32 (readWord32 s.rxPacket 38) + 1 } 0x10
  refine ⟨{ s' with allocs := s'.allocs ++ [0] }, ?_, ?_, ?_, ?_, hrep.theirSeqnum, hrep.sent⟩
  · unfold tcpSynAck
    rw [run_bind rfl, run_bind rfl, run_bind rfl]
    exact (run_bind hok).trans rfl
  · rw [hrep.reads, ← List.append_assoc]
    rfl
  · rw [List.append_nil]
    exact hrep.writes
  · rw [hrep.allocs]
    rfl

theorem tcpFin_run {w n : ℕ} (hw : 32 ≤ w) (hn : 3 ≤ n) (s : State) :
    ∃ s', tcpFin w n s = .ok (⟨[], none⟩, s') ∧
      s'.reads = s.reads ++ List.range' 34 4 ∧ s'.writes = s.writes ++ [] ∧
      s'.allocs = s.allocs ++ [0] := by
  obtain ⟨s', hok, hrep⟩ := replyTcp_run hw hn s 4
  refine ⟨{ s' with mySeqnum := s'.mySeqnum + 1, allocs := s'.allocs ++ [0] }, ?_, hrep.reads,
    ?_, ?_⟩
  · unfold tcpFin
    exact (run_bind hok).trans rfl
  · rw [List.append_nil]
    exact hrep.writes
  · rw [hrep.allocs]

/-- The packet a data segment gives, when it does not end at `theirSeqnum`. -/
def dataReply (s : State) (next : BitVec 32) (len : ℕ) : Reply :=
  if s.theirSeqnum ≠ next then ⟨bytesAt s.rxPacket 54 len ++ [0], some (List.range' 54 len)⟩
  else ⟨[], none⟩

theorem tcpData_run {w n : ℕ} (hw : 32 ≤ w) (hn : 3 ≤ n) (s : State) (len : ℕ) {next : BitVec 32}
    (hnext : next = swap32 (readWord32 s.rxPacket 38) + BitVec.ofNat 32 len) :
    ∃ s' A, tcpData w n len s = .ok (dataReply s next len, s') ∧
      s'.reads = s.reads ++ (List.range' 38 4 ++ (List.range' 34 4 ++ List.range' 54 len)) ∧
      s'.writes = s.writes ++ [] ∧ s'.allocs = s.allocs ++ A ∧ (∀ z ∈ A, 0 ≤ z) ∧
      s'.theirSeqnum = next ∧
      ∃ frame', s'.sent = s.sent ++ [frame'] ∧ ackNumber frame' = next := by
  obtain ⟨s', hok, hrep⟩ := replyTcp_run hw hn { s.logRead 38 4 with theirSeqnum := next } 0x10
  have hcopy : ¬ (len : ℤ) < 0 := by omega
  have hint : swap32 (readWord32 s.rxPacket 38) + BitVec.ofInt 32 (len : ℤ) = next := by
    rw [hnext, BitVec.ofInt_natCast]
  have hrun : tcpData w n len s = (if s.theirSeqnum ≠ next then
      (return ⟨bytesAt s'.rxPacket 54 len ++ [0], some (List.range' 54 len)⟩ : NetM Reply)
      else noPacket)
      { s' with
        allocs := s'.allocs ++ [(len : ℤ) + 1]
        reads := s'.reads ++ List.range' 54 len } := by
    unfold tcpData copyRx
    rw [if_neg hcopy, run_bind rfl, run_bind (x := readRx 38 4) (a := s.rxPacket) rfl, hint,
      run_bind rfl]
    exact (run_bind hok).trans rfl
  have hreads : s'.reads ++ List.range' 54 len =
      s.reads ++ (List.range' 38 4 ++ (List.range' 34 4 ++ List.range' 54 len)) := by
    rw [hrep.reads, ← List.append_assoc, ← List.append_assoc]
    rfl
  have hwrites : s'.writes = s.writes ++ [] := by
    rw [List.append_nil]
    exact hrep.writes
  rw [hrun, hrep.rxPacket]
  unfold dataReply
  by_cases hdup : s.theirSeqnum ≠ next
  · rw [if_pos hdup, if_pos hdup]
    refine ⟨_, [(len : ℤ) + 1], rfl, hreads, hwrites, ?_, ?_, hrep.theirSeqnum, hrep.sent⟩
    · rw [hrep.allocs]
      rfl
    · intro z hz
      rw [List.mem_singleton] at hz
      omega
  · rw [if_neg hdup, if_neg hdup]
    refine ⟨_, [(len : ℤ) + 1, 0], rfl, hreads, hwrites, ?_, ?_, hrep.theirSeqnum, hrep.sent⟩
    · change s'.allocs ++ [(len : ℤ) + 1] ++ [0] = _
      rw [hrep.allocs, List.append_assoc]
      rfl
    · intro z hz
      simp only [List.mem_cons, List.not_mem_nil, or_false] at hz
      omega

/-- A data segment is returned exactly, unless it has options. -/
theorem exact_dataReply {next : BitVec 32} {len : ℕ} (htcp : byteAt frame 23 ≠ protoIpUdp)
    (hlen : wordAt frame 16 = 40 + len) (hpos : 0 < len)
    (hrx : ∀ i, 54 ≤ i → i < 54 + len → s.rxPacket i = byteAt frame i) :
    Exact frame (dataReply s next len) ↔ (s.theirSeqnum ≠ next → headerLength frame = 40) := by
  unfold dataReply
  by_cases hdup : s.theirSeqnum ≠ next
  · rw [if_pos hdup]
    have hindices : List.range' 54 len = payloadIndices frame ↔ headerLength frame = 40 := by
      rw [payloadIndices, List.range'_inj]
      omega
    constructor
    · intro he _
      exact hindices.mp (he _ rfl).1
    · intro h idx hidx
      obtain rfl := Option.some.inj hidx
      refine ⟨hindices.mpr (h hdup), ?_⟩
      rw [if_neg htcp, bytesAt_eq_map hrx]
  · rw [if_neg hdup]
    exact ⟨fun _ h => absurd h hdup, fun _ => exact_none⟩

theorem tcpTask_eq {w n : ℕ} (s : State) :
    tcpTask w n s =
      if s.rxPacket 47 = 0x12 then tcpSynAck w n ((s.logRead 16 2).logRead 47 1)
      else if s.rxPacket 47 &&& 1 = 1 then tcpFin w n ((s.logRead 16 2).logRead 47 1)
      else if ((swap16 (readWord16 s.rxPacket 16)).toNat : ℤ) - 20 - 20 > 0 then
        tcpData w n (((swap16 (readWord16 s.rxPacket 16)).toNat : ℤ) - 20 - 20)
          ((s.logRead 16 2).logRead 47 1)
      else noPacket ((s.logRead 16 2).logRead 47 1) := by
  unfold tcpTask
  change (ite _ _ _ : NetM Reply) _ = _
  split
  · rfl
  · split
    · rfl
    · split
      · rfl
      · rfl

theorem within_congr {x y : NetM Reply} {t : State} (h : x s = y t) :
    Within frame x s ↔ Within frame y t := by
  unfold Within
  rw [h]

theorem nextSeqnum_eq (hrx : ∀ i < frame.length, s.rxPacket i = byteAt frame i)
    (hlen : 42 ≤ frame.length) : nextSeqnum frame =
      swap32 (readWord32 s.rxPacket 38) + BitVec.ofNat 32 (wordAt frame 16 - 40) := by
  unfold nextSeqnum readWord32
  rw [hrx 38 (by omega), hrx (38 + 1) (by omega), hrx (38 + 2) (by omega), hrx (38 + 3) (by omega)]

theorem within_tcp {w n : ℕ} (hw : 32 ≤ w) (hn : 3 ≤ n)
    (hrx : ∀ i < frame.length, s.rxPacket i = byteAt frame i)
    (htcp : 24 ≤ frame.length → byteAt frame 23 = protoIpTcp) :
    Within frame (tcpTask w n) s ↔ Bounded frame.length s ∧ FitsTcp s frame := by
  set t := (s.logRead 16 2).logRead 47 1 with ht
  have hshared : Bounded frame.length t ↔ Bounded frame.length s ∧ 48 ≤ frame.length := by
    rw [ht, bounded_logRead, bounded_logRead]
    constructor
    · rintro ⟨⟨hb, -⟩, h⟩
      exact ⟨hb, h (by norm_num)⟩
    · rintro ⟨hb, h⟩
      exact ⟨⟨hb, fun _ => by omega⟩, fun _ => h⟩
  have hrun := tcpTask_eq (w := w) (n := n) s
  rw [← ht] at hrun
  have h47 : 48 ≤ frame.length → s.rxPacket 47 = byteAt frame 47 := fun h => hrx 47 (by omega)
  have h16 : 48 ≤ frame.length → (swap16 (readWord16 s.rxPacket 16)).toNat = wordAt frame 16 :=
    fun h => wordAt_eq hrx (by omega)
  unfold FitsTcp
  by_cases hsyn : s.rxPacket 47 = 0x12
  · rw [if_pos hsyn] at hrun
    obtain ⟨s', hok, hr, hw', ha, -⟩ := tcpSynAck_run hw hn t
    rw [within_congr hrun, within_of_run hok hr hw' ha, hshared]
    simp only [List.forall_mem_append, forall_range'_lt]
    constructor
    · rintro ⟨⟨⟨hb, hlen⟩, -⟩, -⟩
      exact ⟨hb, hlen, fun h => absurd ((h47 hlen).symm.trans hsyn) h⟩
    · rintro ⟨hb, hlen, -⟩
      exact ⟨⟨⟨hb, hlen⟩, ⟨fun _ => by omega, fun _ => by omega⟩, by simp, by simp⟩, exact_none⟩
  rw [if_neg hsyn] at hrun
  by_cases hfin : s.rxPacket 47 &&& 1 = 1
  · rw [if_pos hfin] at hrun
    obtain ⟨s', hok, hr, hw', ha⟩ := tcpFin_run hw hn t
    rw [within_congr hrun, within_of_run hok hr hw' ha, hshared, forall_range'_lt]
    constructor
    · rintro ⟨⟨⟨hb, hlen⟩, -⟩, -⟩
      exact ⟨hb, hlen, fun _ h => absurd (h47 hlen ▸ hfin) h⟩
    · rintro ⟨hb, hlen, -⟩
      exact ⟨⟨⟨hb, hlen⟩, fun _ => by omega, by simp, by simp⟩, exact_none⟩
  rw [if_neg hfin] at hrun
  by_cases hdata : 40 < (swap16 (readWord16 s.rxPacket 16)).toNat
  · rw [if_pos (by omega)] at hrun
    obtain ⟨len, hword⟩ := Nat.exists_eq_add_of_lt hdata
    have hsize : ((swap16 (readWord16 s.rxPacket 16)).toNat : ℤ) - 20 - 20 = (len + 1 : ℕ) := by
      omega
    rw [hsize] at hrun
    obtain ⟨s', A, hok, hr, hw', ha, hA, -, -⟩ := tcpData_run hw hn t (len + 1) rfl
    rw [within_congr hrun, within_of_run hok hr hw' ha, hshared]
    simp only [List.forall_mem_append, forall_range'_lt]
    constructor
    · rintro ⟨⟨⟨hb, hlen⟩, ⟨-, -, hend⟩, -, -⟩, he⟩
      have hend' := hend (by omega)
      have htotal : wordAt frame 16 = 40 + (len + 1) := by
        rw [← h16 hlen, hword]
        omega
      rw [exact_dataReply (s := t) (by rw [htcp (by omega)]; decide) htotal (by omega)
        fun i _ hi => hrx i (by omega)] at he
      refine ⟨hb, hlen, fun _ _ _ => ⟨by omega, fun hdup => he ?_⟩⟩
      rw [nextSeqnum_eq hrx (by omega), htotal, Nat.add_sub_cancel_left] at hdup
      exact hdup
    · rintro ⟨hb, hlen, h⟩
      have htotal : wordAt frame 16 = 40 + (len + 1) := by
        rw [← h16 hlen, hword]
        omega
      rw [h47 hlen] at hsyn hfin
      obtain ⟨hend, hexact⟩ := h hsyn hfin (by omega)
      refine ⟨⟨⟨hb, hlen⟩, ⟨fun _ => by omega, fun _ => by omega, fun _ => by omega⟩, by simp, hA⟩, ?_⟩
      rw [exact_dataReply (s := t) (by rw [htcp (by omega)]; decide) htotal (by omega)
        fun i _ hi => hrx i (by omega)]
      intro hdup
      apply hexact
      rw [nextSeqnum_eq hrx (by omega), htotal, Nat.add_sub_cancel_left]
      exact hdup
  · rw [if_neg (by omega)] at hrun
    rw [within_congr hrun, within_noPacket, hshared]
    constructor
    · rintro ⟨hb, hlen⟩
      exact ⟨hb, hlen, fun _ _ h => absurd (by rw [h16 hlen]; exact h) hdata⟩
    · rintro ⟨hb, hlen, -⟩
      exact ⟨hb, hlen⟩

/-! ## The whole frame -/

theorem ethTask_eq {w n len : ℕ} (hlen : len ≠ 0) (s : State) :
    ethTask w n len s =
      if swap16 (readWord16 s.rxPacket 12) = ethTypeArp then
        (arpTask >>= fun _ => noPacket) (s.logRead 12 2)
      else if swap16 (readWord16 s.rxPacket 12) = ethTypeIp then
        if s.rxPacket 23 = protoIpUdp then udpTask ((s.logRead 12 2).logRead 23 1)
        else if s.rxPacket 23 = protoIpIcmp then
          (icmpTask >>= fun _ => noPacket) ((s.logRead 12 2).logRead 23 1)
        else if s.rxPacket 23 = protoIpTcp then tcpTask w n ((s.logRead 12 2).logRead 23 1)
        else noPacket ((s.logRead 12 2).logRead 23 1)
      else noPacket (s.logRead 12 2) := by
  unfold ethTask
  rw [if_neg hlen]
  change (ite _ _ _ : NetM Reply) _ = _
  split
  · rfl
  · split
    · change (ite _ _ _ : NetM Reply) _ = _
      split
      · rfl
      · split
        · rfl
        · split
          · rfl
          · rfl
    · rfl

theorem within_ip {w n : ℕ} (hw : 32 ≤ w) (hn : 3 ≤ n) {t : State}
    (hrx : ∀ i < frame.length, t.rxPacket i = byteAt frame i) {x : NetM Reply} {u : State}
    (hx : x u = if t.rxPacket 23 = protoIpUdp then udpTask (t.logRead 23 1)
      else if t.rxPacket 23 = protoIpIcmp then (icmpTask >>= fun _ => noPacket) (t.logRead 23 1)
      else if t.rxPacket 23 = protoIpTcp then tcpTask w n (t.logRead 23 1)
      else noPacket (t.logRead 23 1)) :
    Within frame x u ↔ Bounded frame.length t ∧ FitsIp t frame := by
  have h23 : 24 ≤ frame.length → t.rxPacket 23 = byteAt frame 23 := fun h => hrx 23 (by omega)
  have hshared : Bounded frame.length (t.logRead 23 1) ↔
      Bounded frame.length t ∧ 24 ≤ frame.length := by
    rw [bounded_logRead]
    simp
  -- the protocols exclude each other
  have hne₁ : protoIpIcmp ≠ protoIpUdp := by decide
  have hne₂ : protoIpTcp ≠ protoIpUdp := by decide
  have hne₃ : protoIpTcp ≠ protoIpIcmp := by decide
  unfold FitsIp
  by_cases hudp : t.rxPacket 23 = protoIpUdp
  · rw [if_pos hudp] at hx
    rw [within_congr hx, within_udp (s := t.logRead 23 1) hrx fun h => h23 h ▸ hudp, hshared]
    constructor
    · rintro ⟨⟨hb, hlen⟩, h⟩
      have heq := (h23 hlen).symm.trans hudp
      rw [heq]
      exact ⟨hb, hlen, fun _ => h, fun h' => absurd h'.symm hne₁, fun h' => absurd h'.symm hne₂⟩
    · rintro ⟨hb, hlen, h, -⟩
      exact ⟨⟨hb, hlen⟩, h ((h23 hlen).symm.trans hudp)⟩
  rw [if_neg hudp] at hx
  by_cases hicmp : t.rxPacket 23 = protoIpIcmp
  · rw [if_pos hicmp] at hx
    rw [within_congr hx, within_icmp, hshared]
    constructor
    · rintro ⟨⟨hb, hlen⟩, h⟩
      have heq := (h23 hlen).symm.trans hicmp
      rw [heq]
      exact ⟨hb, hlen, fun h' => absurd h' hne₁, fun _ => h, fun h' => absurd h'.symm hne₃⟩
    · rintro ⟨hb, hlen, -, h, -⟩
      exact ⟨⟨hb, hlen⟩, h ((h23 hlen).symm.trans hicmp)⟩
  rw [if_neg hicmp] at hx
  by_cases htcp : t.rxPacket 23 = protoIpTcp
  · rw [if_pos htcp] at hx
    rw [within_congr hx, within_tcp hw hn (s := t.logRead 23 1) hrx fun h => h23 h ▸ htcp, hshared]
    constructor
    · rintro ⟨⟨hb, hlen⟩, h⟩
      have heq := (h23 hlen).symm.trans htcp
      rw [heq]
      exact ⟨hb, hlen, fun h' => absurd h' hne₂, fun h' => absurd h' hne₃, fun _ => h⟩
    · rintro ⟨hb, hlen, -, -, h⟩
      exact ⟨⟨hb, hlen⟩, h ((h23 hlen).symm.trans htcp)⟩
  rw [if_neg htcp] at hx
  rw [within_congr hx, within_noPacket, hshared]
  constructor
  · rintro ⟨hb, hlen⟩
    rw [h23 hlen] at hudp hicmp htcp
    exact ⟨hb, hlen, fun h => absurd h hudp, fun h => absurd h hicmp, fun h => absurd h htcp⟩
  · rintro ⟨hb, hlen, -⟩
    exact ⟨hb, hlen⟩

/-- **Bounds of received frames.** For every frame, `eth_task` reads `rx_packet`
    only below its length, writes at most up to its length, passes no negative
    size to `alloc_num_bytes` and returns exactly the payload, if and only if
    the fields of the frame agree. -/
theorem ethTask_within_iff {w n : ℕ} (hw : 32 ≤ w) (hn : 3 ≤ n) (s : State) (frame : List UInt8) :
    Within frame (ethTask w n frame.length) (ethernetRx s frame) ↔ Fits s frame := by
  set t := ethernetRx s frame with ht
  have hrx : ∀ i < frame.length, t.rxPacket i = byteAt frame i := fun i hi => if_pos hi
  have hstart : Bounded frame.length t :=
    ⟨fun i hi => absurd hi List.not_mem_nil, fun i hi => absurd hi List.not_mem_nil,
      fun z hz => absurd hz List.not_mem_nil⟩
  by_cases hnil : frame = []
  · have hrun : ethTask w n frame.length t = noPacket t := by
      rw [hnil]
      rfl
    rw [within_congr hrun, within_noPacket]
    exact ⟨fun _ => Or.inl hnil, fun _ => hstart⟩
  have hshared : Bounded frame.length (t.logRead 12 2) ↔ 14 ≤ frame.length := by
    rw [bounded_logRead]
    simp [hstart]
  have htype : ∀ v : BitVec 16, 14 ≤ frame.length →
      (swap16 (readWord16 t.rxPacket 12) = v ↔ wordAt frame 12 = v.toNat) := by
    intro v hlen
    rw [← wordAt_eq hrx hlen, ← BitVec.toNat_inj]
  have hfits : Fits s frame ↔ 14 ≤ frame.length ∧ (wordAt frame 12 = 0x0806 → FitsArp frame) ∧
      (wordAt frame 12 = 0x0800 → FitsIp s frame) := by
    unfold Fits
    simp [hnil]
  have hrun := @ethTask_eq w n frame.length (by simpa using hnil) t
  rw [hfits]
  by_cases harp : swap16 (readWord16 t.rxPacket 12) = ethTypeArp
  · rw [if_pos harp] at hrun
    rw [within_congr hrun, within_arp (s := t.logRead 12 2) hrx, hshared]
    constructor
    · rintro ⟨hlen, h⟩
      have heq := (htype _ hlen).mp harp
      exact ⟨hlen, fun _ => h, fun h' => absurd (heq.symm.trans h') (by decide)⟩
    · rintro ⟨hlen, h, -⟩
      exact ⟨hlen, h ((htype _ hlen).mp harp)⟩
  rw [if_neg harp] at hrun
  by_cases hip : swap16 (readWord16 t.rxPacket 12) = ethTypeIp
  · rw [if_pos hip] at hrun
    rw [within_ip hw hn (t := t.logRead 12 2) hrx hrun, hshared]
    constructor
    · rintro ⟨hlen, h⟩
      have heq := (htype _ hlen).mp hip
      exact ⟨hlen, fun h' => absurd (heq.symm.trans h') (by decide), fun _ => h⟩
    · rintro ⟨hlen, -, h⟩
      exact ⟨hlen, h ((htype _ hlen).mp hip)⟩
  rw [if_neg hip] at hrun
  rw [within_congr hrun, within_noPacket, hshared]
  constructor
  · intro hlen
    refine ⟨hlen, fun h => absurd ((htype ethTypeArp hlen).mpr h) harp, fun h => ?_⟩
    exact absurd ((htype ethTypeIp hlen).mpr h) hip
  · rintro ⟨hlen, -⟩
    exact hlen

/-- A UDP frame with the payload `[104, 105]`. -/
def udpFrame : List UInt8 :=
  List.replicate 12 0 ++ [8, 0] ++ [0x45, 0, 0, 30, 0, 0, 0, 0, 64, 17] ++ List.replicate 10 0 ++
    [15, 160, 15, 161, 0, 10, 0, 0] ++ [104, 105]

theorem ethTask_within_udpFrame :
    Fits start udpFrame ∧ Within udpFrame (ethTask 32 3 udpFrame.length) (ethernetRx start udpFrame) := by
  have hfits : Fits start udpFrame := by
    refine Or.inr ⟨by decide, fun h => absurd h (by decide), fun _ => ⟨by decide, fun _ => ?_,
      fun h => absurd h (by decide), fun h => absurd h (by decide)⟩⟩
    unfold FitsUdp
    decide
  exact ⟨hfits, (ethTask_within_iff (by decide) (by decide) start udpFrame).mpr hfits⟩

/-- A UDP frame of 42 bytes whose UDP length is zero. -/
def zeroLengthFrame : List UInt8 :=
  List.replicate 12 0 ++ [8, 0] ++ List.replicate 9 0 ++ [17] ++ List.replicate 18 0

/-- `eth_task` passes `-8` to `alloc_num_bytes` and to `memcpy`. -/
theorem ethTask_within_zeroLength :
    zeroLengthFrame.length = 42 ∧
      ¬ Within zeroLengthFrame (ethTask 32 3 42) (ethernetRx start zeroLengthFrame) := by
  refine ⟨by decide, ?_⟩
  have hrun : ethTask 32 3 42 (ethernetRx start zeroLengthFrame) = .error .fault := by
    rw [ethTask_eq (by decide), if_neg (by decide), if_pos (by decide), if_pos (by decide)]
    exact udpTask_negative (by decide)
  rintro ⟨r, s', hok, -⟩
  rw [hrun] at hok
  exact absurd hok (by simp)

end Interim.Net
