import Interim.Net.MiniIp

/-!
# Checksums of emitted packets

The packets `send_tcp_packet` and `machine_send_udp` give to `ethernet_tx`
carry checksums that verify: the IPv4 header, and the segment with its pseudo
header, have one's-complement sum `0xFFFF`. The accumulators stay below `2^31`,
so nothing depends on whether `long` has 32 or 64 bits, and the folds inside
the loops never happen.

Main result: `checksums_verify`. `tx_packet` has 64 KiB for the whole frame, so
the 14 bytes of the Ethernet header are missing for the largest segments: the
packets are built exactly when the frame fits.
-/

namespace Interim.Net

open OnesComplement

/-! ## Byte order -/

theorem swap16_or (a b : BitVec 8) :
    swap16 (a.setWidth 16 ||| (b.setWidth 16 <<< 8)) = b.setWidth 16 ||| (a.setWidth 16 <<< 8) := by
  unfold swap16
  ext i hi
  simp only [BitVec.getElem_or, BitVec.getElem_shiftLeft, BitVec.getElem_ushiftRight,
    BitVec.getLsbD_and, BitVec.getLsbD_or]
  interval_cases i <;> simp

theorem toNat_or_shift (a b : BitVec 8) :
    (b.setWidth 16 ||| (a.setWidth 16 <<< 8)).toNat = a.toNat * 256 + b.toNat := by
  have ha := a.isLt
  have hb := b.isLt
  rw [BitVec.toNat_or, BitVec.toNat_shiftLeft, BitVec.toNat_setWidth, BitVec.toNat_setWidth,
    Nat.mod_eq_of_lt (by omega : b.toNat < 2 ^ 16), Nat.mod_eq_of_lt (by omega : a.toNat < 2 ^ 16),
    Nat.shiftLeft_eq, Nat.mod_eq_of_lt (by omega), Nat.or_comm, ← Nat.shiftLeft_eq,
    ← Nat.shiftLeft_add_eq_or_of_lt hb, Nat.shiftLeft_eq]

/-- A swapped load reads the word most significant byte first. -/
theorem swap16_readWord16 (m : Mem) (p : ℕ) :
    (swap16 (readWord16 m p)).toNat = (m p).toNat * 256 + (m (p + 1)).toNat := by
  unfold readWord16
  rw [swap16_or, toNat_or_shift]
  rfl

theorem swap16_byte (b : BitVec 8) : (swap16 (b.setWidth 16)).toNat = b.toNat * 256 := by
  have h := swap16_or b 0#8
  have hzero : b.setWidth 16 ||| ((0#8).setWidth 16 <<< 8) = b.setWidth 16 := by simp
  rw [hzero] at h
  rw [h, toNat_or_shift, BitVec.toNat_zero, Nat.add_zero]

theorem byteOf_toNat {w : ℕ} (v : BitVec w) (k : ℕ) :
    (byteOf v k).toNat = v.toNat / 2 ^ (8 * k) % 256 := by
  change ((v >>> (8 * k)).setWidth 8).toNat = _
  rw [BitVec.toNat_setWidth, BitVec.toNat_ushiftRight, Nat.shiftRight_eq_div_pow]

/-- A swapped word is stored most significant byte first. -/
theorem bytes16_swap16 (v : BitVec 16) : bytes16 (swap16 v) = [byteOf v 1, byteOf v 0] := by
  have h₀ : byteOf (swap16 v) 0 = byteOf v 1 := by
    unfold byteOf swap16
    congr 1
    ext i hi
    interval_cases i <;> simp
  have h₁ : byteOf (swap16 v) 1 = byteOf v 0 := by
    unfold byteOf swap16
    congr 1
    ext i hi
    interval_cases i <;> simp
  rw [bytes16, h₀, h₁]

theorem byteOf_word (v : BitVec 16) :
    (byteOf v 1).toNat * 256 + (byteOf v 0).toNat = v.toNat := by
  have h := v.isLt
  rw [byteOf_toNat, byteOf_toNat]
  omega

/-! ## Assignments -/

/-- The memory after a store. -/
def put (m : Mem) (off : ℕ) (bs : List UInt8) : Mem := fun i =>
  if off ≤ i ∧ i < off + bs.length then bs.getD (i - off) 0 else m i

/-- The memory after some assignments. -/
def puts (m : Mem) (as : List (ℕ × List UInt8)) : Mem := as.foldl (fun m a => put m a.1 a.2) m

theorem store_eq (m : Mem) (off : ℕ) (bs : List UInt8) :
    store m off bs = if off + bs.length ≤ packetSize then .ok (put m off bs) else .error .fault :=
  rfl

theorem assign_ok {as : List (ℕ × List UInt8)} (hfit : ∀ a ∈ as, a.1 + a.2.length ≤ packetSize)
    (m : Mem) : assign m as = .ok (puts m as) := by
  induction as generalizing m with
  | nil => rfl
  | cons a as ih =>
    have ha := hfit a List.mem_cons_self
    unfold assign at ih ⊢
    rw [List.foldlM_cons, store_eq, if_pos ha]
    exact ih (fun b hb => hfit b (List.mem_cons_of_mem a hb)) (put m a.1 a.2)

theorem assign_fault {as : List (ℕ × List UInt8)} {a : ℕ × List UInt8} (ha : a ∈ as)
    (hfault : ¬ a.1 + a.2.length ≤ packetSize) (m : Mem) : assign m as = .error .fault := by
  induction as generalizing m with
  | nil => exact absurd ha List.not_mem_nil
  | cons b as ih =>
    unfold assign at ih ⊢
    rw [List.foldlM_cons, store_eq]
    by_cases hb : b.1 + b.2.length ≤ packetSize
    · rw [if_pos hb]
      rcases List.mem_cons.mp ha with rfl | ha
      · exact absurd hb hfault
      · exact ih ha (put m b.1 b.2)
    · rw [if_neg hb]
      rfl

theorem put_of_lt {m : Mem} {off i : ℕ} {bs : List UInt8} (hi : i < off) : put m off bs i = m i :=
  if_neg (by omega)

theorem put_of_ge {m : Mem} {off i : ℕ} {bs : List UInt8} (hi : off + bs.length ≤ i) :
    put m off bs i = m i :=
  if_neg (by omega)

/-- Assignments above an index leave it alone. -/
theorem puts_of_lt {as : List (ℕ × List UInt8)} {i : ℕ} (hi : ∀ a ∈ as, i < a.1) (m : Mem) :
    puts m as i = m i := by
  induction as generalizing m with
  | nil => rfl
  | cons a as ih =>
    change puts (put m a.1 a.2) as i = m i
    rw [ih (fun b hb => hi b (List.mem_cons_of_mem a hb)), put_of_lt (hi a List.mem_cons_self)]

theorem bytesAt_put (m : Mem) (off : ℕ) (bs : List UInt8) :
    bytesAt (put m off bs) off bs.length = bs := by
  apply List.ext_getElem
  · exact bytesAt_length _ _ _
  · intro k hk hk'
    simp [bytesAt, put, hk']

theorem bytesAt_put_ip (m : Mem) (off : ℕ) (ip : Ip) :
    bytesAt (put m off ip.toList) off 4 = ip.toList := by
  have h := bytesAt_put m off ip.toList
  rwa [ip.length_toList] at h

/-! ## The accumulators -/

theorem fold_natCast (a : ℕ) : fold (a : ℤ) = ((a % 2 ^ 16 + a / 2 ^ 16 : ℕ) : ℤ) := by
  unfold fold
  rw [Int.shiftRight_eq_div_pow]
  push_cast
  rfl

theorem foldHigh_of_lt {a : ℕ} (ha : a < 2 ^ 31) : foldHigh (a : ℤ) = a := by
  unfold foldHigh
  rw [if_neg]
  omega

theorem addLong_of_lt {w a b : ℕ} (hw : 32 ≤ w) (hab : a + b < 2 ^ 31) :
    addLong w (a : ℤ) (b : ℤ) = .ok ((a + b : ℕ) : ℤ) := by
  have hle : (2 : ℤ) ^ 31 ≤ 2 ^ (w - 1) := by
    apply pow_le_pow_right₀ (by norm_num)
    omega
  unfold addLong
  rw [if_pos]
  · push_cast
    rfl
  · omega

theorem loadSwapped_of_le {m : Mem} {p : ℕ} (hp : p + 2 ≤ packetSize) :
    loadSwapped m p = .ok (swap16 (readWord16 m p)) := if_pos hp

/-- The loops compute the sum of the words, as long as it stays below `2^31`. -/
theorem sumWords_ok {w : ℕ} (hw : 32 ≤ w) (m : Mem) (p len sum : ℕ)
    (hp : p + len ≤ packetSize) (hsum : sum + wordSum m p len < 2 ^ 31) :
    sumWords w m p len sum = .ok ((sum + wordSum m p len : ℕ) : ℤ) := by
  induction len using Nat.strong_induction_on generalizing p sum with
  | _ len ih =>
    match len with
    | 0 => rfl
    | 1 =>
      rw [wordSum_one] at hsum ⊢
      unfold sumWords loadLast
      rw [if_pos hp]
      change addLong w sum ((swap16 ((m p).toBitVec.setWidth 16)).toNat : ℤ) = _
      rw [swap16_byte]
      exact addLong_of_lt hw hsum
    | len + 2 =>
      have hp₂ : p + 2 ≤ packetSize := by omega
      rw [wordSum_add_two] at hsum ⊢
      have hnext : sum + ((m p).toNat * 256 + (m (p + 1)).toNat) < 2 ^ 31 :=
        lt_of_le_of_lt (by omega) hsum
      unfold sumWords
      rw [loadSwapped_of_le hp₂]
      change (addLong w sum ((swap16 (readWord16 m p)).toNat : ℤ) >>= _) = _
      rw [swap16_readWord16, addLong_of_lt hw hnext]
      change sumWords w m (p + 2) len (foldHigh _) = _
      rw [foldHigh_of_lt hnext, ih len (by omega) _ _ (by omega) (by omega)]
      congr 2
      omega

/-- Three tests are enough to fold a sum below `2^31` into a word. The word is
    the sum modulo `0xFFFF`, and is zero only for the sum zero. -/
theorem foldLoop_ok {n a : ℕ} (hn : 3 ≤ n) (ha : a < 2 ^ 31) :
    ∃ r : ℕ, foldLoop n a = .ok (r : ℤ) ∧ r < 2 ^ 16 ∧ r % 65535 = a % 65535 ∧
      (r = 0 ↔ a = 0) := by
  have hshift : ∀ b : ℕ, (b : ℤ) >>> (16 : ℕ) = ((b / 2 ^ 16 : ℕ) : ℤ) := by
    intro b
    rw [Int.shiftRight_eq_div_pow]
    push_cast
    rfl
  have hstep : ∀ (k b : ℕ), foldLoop (k + 1) (b : ℤ) =
      if b < 2 ^ 16 then .ok (b : ℤ) else foldLoop k ((b % 2 ^ 16 + b / 2 ^ 16 : ℕ) : ℤ) := by
    intro k b
    rw [foldLoop, hshift, fold_natCast]
    by_cases hb : b < 2 ^ 16
    · rw [if_pos hb, if_pos (by exact_mod_cast Nat.div_eq_of_lt hb)]
    · rw [if_neg hb, if_neg]
      norm_cast
      omega
  obtain ⟨k, rfl⟩ : ∃ k, n = k + 3 := ⟨n - 3, by omega⟩
  rw [hstep]
  by_cases h₁ : a < 2 ^ 16
  · rw [if_pos h₁]
    exact ⟨a, rfl, h₁, rfl, Iff.rfl⟩
  rw [if_neg h₁, hstep]
  by_cases h₂ : a % 2 ^ 16 + a / 2 ^ 16 < 2 ^ 16
  · rw [if_pos h₂]
    exact ⟨_, rfl, h₂, by omega, by omega⟩
  rw [if_neg h₂, hstep, if_pos (by omega)]
  exact ⟨_, rfl, by omega, by omega, by omega⟩

/-- The checksum completes the sum to a positive multiple of `0xFFFF`. -/
theorem complement_completes {r a : ℕ} (hr : r < 2 ^ 16) (hmod : r % 65535 = a % 65535)
    (hzero : r = 0 ↔ a = 0) :
    0 < a + (complement (r : ℤ)).toNat ∧ 2 ^ 16 - 1 ∣ a + (complement (r : ℤ)).toNat := by
  have hc : (complement (r : ℤ)).toNat = 65535 - r := by
    unfold complement
    rw [BitVec.toNat_not, BitVec.ofInt_natCast, BitVec.toNat_ofNat]
    omega
  rw [hc, Nat.dvd_iff_mod_eq_zero]
  omega

theorem cksum_ok {w n : ℕ} (hw : 32 ≤ w) (hn : 3 ≤ n) {m : Mem} {ip len : ℕ}
    (hp : ip + len ≤ packetSize) (hsum : wordSum m ip len < 2 ^ 31) :
    ∃ c, cksum w n m ip len = .ok c ∧ 0 < wordSum m ip len + c.toNat ∧
      2 ^ 16 - 1 ∣ wordSum m ip len + c.toNat := by
  obtain ⟨r, hr, hlt, hmod, hzero⟩ := foldLoop_ok hn hsum
  refine ⟨complement r, ?_, complement_completes hlt hmod hzero⟩
  have hs := sumWords_ok hw m ip len 0 hp (by omega)
  rw [Nat.zero_add] at hs
  unfold cksum
  rw [show ((0 : ℤ)) = ((0 : ℕ) : ℤ) from rfl, hs]
  change (foldLoop n _ >>= _) = _
  rw [hr]
  rfl

/-- The sum of the pseudo header's words and those of the segment at offset 34,
    with the addresses in the header at offset 14. -/
def transportSum (m : Mem) (protocol : BitVec 16) (len : ℕ) : ℕ :=
  wordSum m 34 len + wordSum m 26 8 + protocol.toNat + len

/-- The largest segment and its pseudo header stay below `2^31`. -/
theorem transportSum_lt (m : Mem) (protocol : BitVec 16) {len : ℕ} (hlen : len ≤ 65515) :
    transportSum m protocol len < 2 ^ 31 := by
  have h₁ := wordSum_le m 34 len
  have h₂ := wordSum_le m 26 8
  have h₃ := protocol.isLt
  have h₄ : (len + 1) / 2 * 65535 ≤ 32758 * 65535 := Nat.mul_le_mul_right _ (by omega)
  unfold transportSum
  omega

theorem transportCksum_ok {w n : ℕ} (hw : 32 ≤ w) (hn : 3 ≤ n) {m : Mem} (protocol : BitVec 16)
    {len : ℕ} (hlen : len ≤ 65515) (hfit : 34 + len ≤ packetSize) :
    ∃ c, transportCksum w n m 34 protocol 14 (BitVec.ofNat 16 len) = .ok c ∧
      0 < transportSum m protocol len + c.toNat ∧
      2 ^ 16 - 1 ∣ transportSum m protocol len + c.toNat := by
  have hlt := transportSum_lt m protocol hlen
  obtain ⟨r, hr, hrlt, hmod, hzero⟩ := foldLoop_ok hn hlt
  refine ⟨complement r, ?_, complement_completes hrlt hmod hzero⟩
  have htoNat : (BitVec.ofNat 16 len).toNat = len := by
    rw [BitVec.toNat_ofNat, Nat.mod_eq_of_lt (by omega)]
  have haddr : wordSum m 26 8 = (swap16 (readWord16 m 26)).toNat +
      ((swap16 (readWord16 m 28)).toNat + ((swap16 (readWord16 m 30)).toNat +
        (swap16 (readWord16 m 32)).toNat)) := by
    simp only [wordSum_add_two, wordSum_zero, swap16_readWord16, Nat.reduceAdd, Nat.add_zero]
  have hload : ∀ p, p ≤ 32 → loadSwapped m p = .ok (swap16 (readWord16 m p)) := by
    intro p hp
    exact loadSwapped_of_le (show p + 2 ≤ 64 * 1024 by omega)
  have hadd : ∀ a b : ℕ, a + b < 2 ^ 31 → addLong w (a : ℤ) (b : ℤ) = .ok ((a + b : ℕ) : ℤ) :=
    fun a b hab => addLong_of_lt hw hab
  unfold transportSum at hlt hr
  rw [haddr] at hlt hr
  have hs := sumWords_ok hw m 34 len 0 hfit (by omega)
  rw [Nat.zero_add] at hs
  unfold transportCksum
  rw [htoNat, show ((0 : ℤ)) = ((0 : ℕ) : ℤ) from rfl, hs]
  simp (disch := omega) only [ok_bind, hload, Nat.reduceAdd]
  generalize (swap16 (readWord16 m 26)).toNat = a at hlt hr ⊢
  generalize (swap16 (readWord16 m 28)).toNat = b at hlt hr ⊢
  generalize (swap16 (readWord16 m 30)).toNat = c at hlt hr ⊢
  generalize (swap16 (readWord16 m 32)).toNat = d at hlt hr ⊢
  generalize protocol.toNat = e at hlt hr ⊢
  generalize wordSum m 34 len = f at hlt hr ⊢
  have hassoc : f + a + b + c + d + e + len = f + (a + (b + (c + d))) + e + len := by omega
  simp (disch := omega) only [ok_bind, hadd]
  rw [hassoc, hr]
  rfl

/-! ## The packets -/

/-- Storing a checksum adds it to the sum of the region around it. -/
theorem wordSum_put_checksum {m : Mem} {off n k : ℕ} (c : BitVec 16) (hk : 2 * k + 2 ≤ n)
    (hzero : m (off + 2 * k) = 0 ∧ m (off + 2 * k + 1) = 0) :
    wordSum (put m (off + 2 * k) (bytes16 (swap16 c))) off n = wordSum m off n + c.toNat := by
  rw [bytes16_swap16]
  apply wordSum_store hk hzero
  · rw [← byteOf_word c]
    simp [put]
  · intro i h₁ h₂
    unfold put
    rw [if_neg]
    simp only [List.length_cons, List.length_nil]
    omega

/-- What both senders have in `tx_packet` after the headers. -/
structure Headers (s : State) (m : Mem) : Prop where
  pos : 0 < wordSum m 14 20
  dvd : 2 ^ 16 - 1 ∣ wordSum m 14 20
  src : bytesAt m 26 4 = s.myIp.toList
  dest : bytesAt m 30 4 = s.theirIp.toList

theorem writeHeaders_ok {w n : ℕ} (hw : 32 ≤ w) (hn : 3 ≤ n) (s : State) (proto : UInt8)
    (size : BitVec 16) : ∃ m, writeHeaders w n s proto size = .ok m ∧ Headers s m ∧
      bytesAt m 16 2 = bytes16 (swap16 size) := by
  have hsize : ∀ k, k ≤ 100 → k ≤ packetSize := fun k hk => le_trans hk (by decide)
  have hip : ∀ ip : Ip, ip.toList.length = 4 := fun ip => ip.length_toList
  unfold writeHeaders
  rw [assign_ok (by simp [packetSize, bytes16]), ok_bind]
  generalize hm : puts s.txPacket _ = m
  have hzero : m 24 = 0 ∧ m 25 = 0 := by
    rw [← hm]
    exact ⟨rfl, rfl⟩
  have htotal : bytesAt m 16 2 = bytes16 (swap16 size) := by
    rw [← hm]
    rfl
  rw [store_eq, if_pos (hsize _ (by rw [hip]; norm_num)), ok_bind, store_eq,
    if_pos (hsize _ (by rw [hip]; norm_num)), ok_bind]
  set m' := put (put m 26 s.myIp.toList) 30 s.theirIp.toList with hm'
  have hbelow : ∀ i < 26, m' i = m i := by
    intro i hi
    rw [hm', put_of_lt (by omega), put_of_lt hi]
  have hsum : wordSum m' 14 20 < 2 ^ 31 := lt_of_le_of_lt (wordSum_le m' 14 20) (by norm_num)
  obtain ⟨c, hc, hpos, hdvd⟩ := cksum_ok hw hn (hsize _ (by norm_num)) hsum
  rw [hc, ok_bind, store_eq, if_pos (hsize _ (by simp [bytes16]))]
  have hput : wordSum (put m' 24 (bytes16 (swap16 c))) 14 20 = wordSum m' 14 20 + c.toNat :=
    @wordSum_put_checksum m' 14 20 5 c (by norm_num)
      ⟨(hbelow 24 (by norm_num)).trans hzero.1, (hbelow 25 (by norm_num)).trans hzero.2⟩
  have habove : ∀ i, 26 ≤ i → put m' 24 (bytes16 (swap16 c)) i = m' i := by
    intro i hi
    exact put_of_ge (by simpa [bytes16] using hi)
  refine ⟨_, rfl, ⟨by rw [hput]; exact hpos, by rw [hput]; exact hdvd, ?_, ?_⟩, ?_⟩
  · rw [bytesAt_congr fun i hi _ => habove i hi,
      bytesAt_congr fun i _ hi => put_of_lt (show i < 30 from hi)]
    exact bytesAt_put_ip m 26 s.myIp
  · rw [bytesAt_congr fun i hi _ => habove i (by omega)]
    exact bytesAt_put_ip _ 30 s.theirIp
  · rw [← htotal]
    apply bytesAt_congr
    intro i _ hi
    rw [put_of_lt (by omega), hbelow i (by omega)]

theorem Headers.congr {s : State} {m m' : Mem} (hh : Headers s m) (hm : ∀ i < 34, m' i = m i) :
    Headers s m' where
  pos := by
    rw [wordSum_congr fun i _ hi => hm i hi]
    exact hh.pos
  dvd := by
    rw [wordSum_congr fun i _ hi => hm i hi]
    exact hh.dvd
  src := by
    rw [bytesAt_congr fun i _ hi => hm i (by omega)]
    exact hh.src
  dest := by
    rw [bytesAt_congr fun i _ hi => hm i hi]
    exact hh.dest

/-- The pseudo header of a segment of `len` bytes. -/
def pseudoHeader (src dest : Ip) (proto : UInt8) (len : ℕ) : List UInt8 :=
  src.toList ++ dest.toList ++ [0, proto, UInt8.ofNat (len / 256), UInt8.ofNat len]

/-- The checksums of a frame whose segment has `len` bytes verify. -/
structure Verifies (s : State) (proto : UInt8) (len : ℕ) (frame : List UInt8) : Prop where
  length : frame.length = 34 + len
  header : sum (words ((frame.drop 14).take 20)) = 0xFFFF
  segment : sum (words (pseudoHeader s.myIp s.theirIp proto len ++ frame.drop 34)) = 0xFFFF

/-- The sum over pseudo header and segment is the one `transport_cksum`
    computes. -/
theorem sum_pseudoHeader {s : State} {m : Mem} (hh : Headers s m) (proto : UInt8) {len : ℕ}
    (hlen : len ≤ 65515) :
    (words (pseudoHeader s.myIp s.theirIp proto len ++ bytesAt m 34 len)).sum =
      transportSum m (proto.toBitVec.setWidth 16) len := by
  have hproto : (proto.toBitVec.setWidth 16).toNat = proto.toNat := by
    have h := proto.toNat_lt
    change (proto.toBitVec.setWidth 16).toNat = proto.toBitVec.toNat
    rw [BitVec.toNat_setWidth, Nat.mod_eq_of_lt]
    exact lt_trans h (by norm_num)
  have haddr : s.myIp.toList ++ s.theirIp.toList = bytesAt m 26 8 := by
    rw [← hh.src, ← hh.dest, ← bytesAt_add]
  have hdiv : (UInt8.ofNat (len / 256)).toNat = len / 256 := by
    rw [UInt8.toNat_ofNat']
    omega
  have hmod : (UInt8.ofNat len).toNat = len % 256 := UInt8.toNat_ofNat'
  unfold pseudoHeader transportSum
  rw [haddr, List.append_assoc, words_append _ _ (by rw [bytesAt_length]; norm_num),
    List.sum_append, hproto]
  change wordSum m 26 8 + (words (0 :: proto :: UInt8.ofNat (len / 256) :: UInt8.ofNat len ::
    bytesAt m 34 len)).sum = _
  rw [words, words, List.sum_cons, List.sum_cons, hdiv, hmod]
  change wordSum m 26 8 + (0 * 256 + proto.toNat + (len / 256 * 256 + len % 256 +
    wordSum m 34 len)) = _
  omega

/-- The end of both senders: the checksum goes into the segment, where two
    zeros were, and the frame is emitted. -/
theorem emit_verifies {w n : ℕ} (hw : 32 ≤ w) (hn : 3 ≤ n) {s : State} {m : Mem}
    (hh : Headers s m) (proto : UInt8) {len k : ℕ} (hlen : len ≤ 65515)
    (hfit : 34 + len ≤ packetSize) (hk : 2 * k + 2 ≤ len)
    (hzero : m (34 + 2 * k) = 0 ∧ m (34 + 2 * k + 1) = 0) :
    ∃ c m', transportCksum w n m 34 (proto.toBitVec.setWidth 16) 14 (BitVec.ofNat 16 len) = .ok c ∧
      store m (34 + 2 * k) (bytes16 (swap16 c)) = .ok m' ∧
      (∀ i, i < 34 + 2 * k ∨ 34 + 2 * k + 2 ≤ i → m' i = m i) ∧
      Verifies s proto len (bytesAt m' 0 (34 + len)) := by
  obtain ⟨c, hc, hpos, hdvd⟩ :=
    transportCksum_ok hw hn (m := m) (proto.toBitVec.setWidth 16) hlen hfit
  refine ⟨c, put m (34 + 2 * k) (bytes16 (swap16 c)), hc, ?_, ?_, ?_⟩
  · rw [store_eq, if_pos]
    change 34 + 2 * k + 2 ≤ packetSize
    omega
  · rintro i (hi | hi)
    · exact put_of_lt hi
    · exact put_of_ge hi
  set m' := put m (34 + 2 * k) (bytes16 (swap16 c)) with hm'
  have hh' : Headers s m' := by
    apply hh.congr
    intro i hi
    exact put_of_lt (by omega)
  have hsum : transportSum m' (proto.toBitVec.setWidth 16) len =
      transportSum m (proto.toBitVec.setWidth 16) len + c.toNat := by
    have haddr : wordSum m' 26 8 = wordSum m 26 8 :=
      wordSum_congr fun i _ hi => put_of_lt (by omega)
    unfold transportSum
    rw [haddr, hm', wordSum_put_checksum c hk hzero]
    omega
  have hsegment : (bytesAt m' 0 (34 + len)).drop 34 = bytesAt m' 34 len := by
    rw [bytesAt_add, List.drop_left' (bytesAt_length _ _ _), Nat.zero_add]
  have hheader : ((bytesAt m' 0 (34 + len)).drop 14).take 20 = bytesAt m' 14 20 := by
    rw [bytesAt_add, show 34 = 14 + 20 from rfl, bytesAt_add, List.append_assoc,
      List.drop_left' (bytesAt_length _ _ _), List.take_left' (bytesAt_length _ _ _), Nat.zero_add]
  constructor
  · exact bytesAt_length _ _ _
  · rw [hheader]
    exact (sum_eq_max_iff (words_lt _)).mpr ⟨hh'.pos, hh'.dvd⟩
  · rw [hsegment]
    apply (sum_eq_max_iff (words_lt _)).mpr
    rw [sum_pseudoHeader hh' proto hlen, hsum]
    exact ⟨hpos, hdvd⟩

/-- The acknowledgement number of a frame. -/
def ackNumber (frame : List UInt8) : BitVec 32 := swap32 (readWord32 (fun i => frame.getD i 0) 42)

/-- What a TCP frame carries: the total length of its IPv4 header, its sequence
    and acknowledgement numbers, and its payload. -/
structure Carries (frame : List UInt8) (seqnum acknum : BitVec 32) (data : List UInt8) : Prop where
  totalLength : (swap16 (readWord16 (fun i => frame.getD i 0) 16)).toNat = 40 + data.length
  seqnum : swap32 (readWord32 (fun i => frame.getD i 0) 38) = seqnum
  acknum : ackNumber frame = acknum
  payload : frame.drop 54 = data

/-- The memory a frame was sent from, read back from the frame. -/
theorem bytesAt_getD (m : Mem) {p n len : ℕ} (hp : p + n ≤ len) :
    bytesAt (fun i => (bytesAt m 0 len).getD i 0) p n = bytesAt m p n := by
  apply bytesAt_congr
  intro i _ hi
  simp [bytesAt, List.getD_eq_getElem?_getD, show i < len by omega]

theorem readWord16_bytes16 {m : Mem} {p : ℕ} {v : BitVec 16} (hm : bytesAt m p 2 = bytes16 v) :
    readWord16 m p = v := by
  obtain ⟨h₀, h₁⟩ : m p = byteOf v 0 ∧ m (p + 1) = byteOf v 1 := by
    simpa [bytesAt, List.range_succ, bytes16] using hm
  unfold readWord16
  rw [h₀, h₁]
  unfold byteOf
  ext i hi
  interval_cases i <;> simp

theorem swap16_swap16 (v : BitVec 16) : swap16 (swap16 v) = v := by
  unfold swap16
  ext i hi
  interval_cases i <;> simp

theorem readWord32_bytes32 {m : Mem} {p : ℕ} {v : BitVec 32} (hm : bytesAt m p 4 = bytes32 v) :
    readWord32 m p = v := by
  obtain ⟨h₀, h₁, h₂, h₃⟩ : m p = byteOf v 0 ∧ m (p + 1) = byteOf v 1 ∧ m (p + 2) = byteOf v 2 ∧
      m (p + 3) = byteOf v 3 := by
    simpa [bytesAt, List.range_succ, bytes32] using hm
  unfold readWord32
  rw [h₀, h₁, h₂, h₃]
  unfold byteOf
  ext i hi
  interval_cases i <;> simp

theorem swap32_swap32 (v : BitVec 32) : swap32 (swap32 v) = v := by
  unfold swap32
  ext i hi
  interval_cases i <;> simp

/-- Only the low 16 bits of a length reach `send_tcp_packet`. -/
theorem sendTcpPacket_take {w n : ℕ} (s : State) (srcport port : BitVec 32) (flags : UInt8)
    (seqnum acknum : BitVec 32) (data : List UInt8) :
    sendTcpPacket w n s srcport port flags seqnum acknum data =
      sendTcpPacket w n s srcport port flags seqnum acknum (data.take (data.length % 2 ^ 16)) := by
  have hlen : (data.take (data.length % 2 ^ 16)).length = data.length % 2 ^ 16 := by
    rw [List.length_take]
    exact min_eq_left (Nat.mod_le _ _)
  unfold sendTcpPacket
  simp only [hlen, Nat.mod_mod, List.take_take, min_self]

/-- What `send_tcp_packet` does when the frame fits. -/
theorem sendTcpPacket_ok {w n : ℕ} (hw : 32 ≤ w) (hn : 3 ≤ n) (s : State)
    (srcport port : BitVec 32) (flags : UInt8) (seqnum acknum : BitVec 32) {data : List UInt8}
    (hlen : 40 + data.length ≤ 65535) (hfit : 54 + data.length ≤ packetSize) :
    ∃ m frame, sendTcpPacket w n s srcport port flags seqnum acknum data =
        .ok { s with
          txPacket := m
          theirMac := #v[0x84, 0xa8, 0xe4, 0x67, 0x08, 0x12]
          sent := s.sent ++ [frame] } ∧
      Verifies s protoIpTcp (20 + data.length) frame ∧ Carries frame seqnum acknum data := by
  have hsize : ∀ k, k ≤ 100 → k ≤ packetSize := fun k hk => le_trans hk (by decide)
  have hlow : data.length % 2 ^ 16 = data.length := Nat.mod_eq_of_lt (by omega)
  obtain ⟨m, hm, hh, htotal⟩ := writeHeaders_ok hw hn
    { s with txPacket := fun _ => 0, theirMac := #v[0x84, 0xa8, 0xe4, 0x67, 0x08, 0x12] }
    protoIpTcp (BitVec.ofNat 16 (20 + 20 + data.length))
  unfold sendTcpPacket
  rw [hlow]
  dsimp only
  rw [List.take_length, hm, ok_bind, assign_ok, ok_bind]
  swap
  · intro a ha
    simp only [List.mem_cons, List.not_mem_nil, or_false] at ha
    rcases ha with rfl | rfl | rfl | rfl | rfl | rfl | rfl | rfl | rfl | rfl
    all_goals first | exact hfit | exact hsize _ (by simp [bytes16, bytes32])
  generalize hm' : puts m _ = m'
  have hh' : Headers s m' := by
    refine Headers.congr (s := s) ⟨hh.pos, hh.dvd, hh.src, hh.dest⟩ fun i hi => ?_
    rw [← hm']
    apply puts_of_lt
    intro a ha
    simp only [List.mem_cons, List.not_mem_nil, or_false] at ha
    rcases ha with rfl | rfl | rfl | rfl | rfl | rfl | rfl | rfl | rfl | rfl
    all_goals dsimp only; omega
  have hzero : m' 50 = 0 ∧ m' 51 = 0 := by
    rw [← hm']
    exact ⟨by simp [puts, put, bytes16, byteOf], by simp [puts, put, bytes16, byteOf]⟩
  have hnumbers : bytesAt m' 38 4 = bytes32 (swap32 seqnum) ∧
      bytesAt m' 42 4 = bytes32 (swap32 acknum) := by
    rw [← hm']
    change [_, _, _, _] = [_, _, _, _] ∧ [_, _, _, _] = [_, _, _, _]
    exact ⟨rfl, rfl⟩
  have hdata : bytesAt m' 54 data.length = data := by
    rw [← hm']
    exact bytesAt_put _ 54 data
  have htotal' : bytesAt m' 16 2 = bytes16 (swap16 (BitVec.ofNat 16 (20 + 20 + data.length))) := by
    rw [← htotal, ← hm']
    apply bytesAt_congr
    intro i _ hi
    apply puts_of_lt
    intro a ha
    simp only [List.mem_cons, List.not_mem_nil, or_false] at ha
    rcases ha with rfl | rfl | rfl | rfl | rfl | rfl | rfl | rfl | rfl | rfl
    all_goals dsimp only; omega
  obtain ⟨c, m'', hc, hs, hsame, hv⟩ := @emit_verifies w n hw hn _ _ hh' protoIpTcp
    (20 + data.length) 8 (by omega) (by omega) (by omega) hzero
  rw [show data.length + 5 * 4 = 20 + data.length by omega, hc, ok_bind, hs, ok_bind]
  have hread : ∀ p k, p + k ≤ 34 + 2 * 8 ∨ 34 + 2 * 8 + 2 ≤ p →
      bytesAt m'' p k = bytesAt m' p k := by
    intro p k hp
    apply bytesAt_congr
    intro i h₁ h₂
    exact hsame i (by omega)
  refine ⟨m'', bytesAt m'' 0 (34 + (20 + data.length)), ?_, hv, ⟨?_, ?_, ?_, ?_⟩⟩
  · unfold State.ethernetTx
    dsimp only
    rw [show 20 + data.length + 20 + 14 = 34 + (20 + data.length) by omega]
  · rw [readWord16_bytes16 (v := swap16 (BitVec.ofNat 16 (20 + 20 + data.length))), swap16_swap16,
      BitVec.toNat_ofNat, Nat.mod_eq_of_lt (by omega)]
    rw [bytesAt_getD m'' (by omega), hread 16 2 (by omega), htotal']
  · rw [readWord32_bytes32 (v := swap32 seqnum), swap32_swap32]
    rw [bytesAt_getD m'' (by omega), hread 38 4 (by omega), hnumbers.1]
  · unfold ackNumber
    rw [readWord32_bytes32 (v := swap32 acknum), swap32_swap32]
    rw [bytesAt_getD m'' (by omega), hread 42 4 (by omega), hnumbers.2]
  · rw [show 34 + (20 + data.length) = 54 + data.length by omega, bytesAt_add,
      List.drop_left' (bytesAt_length _ _ _), Nat.zero_add, hread 54 _ (by omega), hdata]

/-- `send_tcp_packet` overruns `tx_packet` when the frame does not fit. -/
theorem sendTcpPacket_fault {w n : ℕ} (hw : 32 ≤ w) (hn : 3 ≤ n) (s : State)
    (srcport port : BitVec 32) (flags : UInt8) (seqnum acknum : BitVec 32) {data : List UInt8}
    (hlen : data.length < 2 ^ 16) (hfit : ¬ 54 + data.length ≤ packetSize) :
    sendTcpPacket w n s srcport port flags seqnum acknum data = .error .fault := by
  obtain ⟨m, hm, -⟩ := writeHeaders_ok hw hn
    { s with txPacket := fun _ => 0, theirMac := #v[0x84, 0xa8, 0xe4, 0x67, 0x08, 0x12] }
    protoIpTcp (BitVec.ofNat 16 (20 + 20 + data.length))
  unfold sendTcpPacket
  rw [Nat.mod_eq_of_lt hlen]
  dsimp only
  rw [List.take_length, hm, ok_bind, assign_fault (a := (54, data)) (by simp) hfit]
  rfl

theorem sendUdp_ok {w n : ℕ} (hw : 32 ≤ w) (hn : 3 ≤ n) (s : State) {data : List UInt8}
    (hlen : 28 + data.length ≤ 65535) (hfit : 42 + data.length ≤ packetSize) :
    ∃ m frame, sendUdp w n s data = .ok { s with txPacket := m, sent := s.sent ++ [frame] } ∧
      Verifies s protoIpUdp (8 + data.length) frame := by
  have hsize : ∀ k, k ≤ 100 → k ≤ packetSize := fun k hk => le_trans hk (by decide)
  obtain ⟨m, hm, hh, -⟩ :=
    writeHeaders_ok hw hn s protoIpUdp (BitVec.ofNat 16 (20 + 8 + data.length))
  unfold sendUdp
  dsimp only
  rw [hm, ok_bind, assign_ok, ok_bind]
  swap
  · intro a ha
    simp only [List.mem_cons, List.not_mem_nil, or_false] at ha
    rcases ha with rfl | rfl | rfl | rfl | rfl
    all_goals first | exact hfit | exact hsize _ (by simp [bytes16])
  generalize hm' : puts m _ = m'
  have hh' : Headers s m' := by
    refine hh.congr fun i hi => ?_
    rw [← hm']
    apply puts_of_lt
    intro a ha
    simp only [List.mem_cons, List.not_mem_nil, or_false] at ha
    rcases ha with rfl | rfl | rfl | rfl | rfl
    all_goals dsimp only; omega
  have hzero : m' 40 = 0 ∧ m' 41 = 0 := by
    rw [← hm']
    exact ⟨by simp [puts, put, bytes16, byteOf], by simp [puts, put, bytes16, byteOf]⟩
  obtain ⟨c, m'', hc, hs, -, hv⟩ := @emit_verifies w n hw hn _ _ hh' protoIpUdp
    (8 + data.length) 3 (by omega) (by omega) (by omega) hzero
  rw [show data.length + 8 = 8 + data.length by omega, hc, ok_bind, hs, ok_bind]
  refine ⟨m'', bytesAt m'' 0 (34 + (8 + data.length)), ?_, hv⟩
  unfold State.ethernetTx
  dsimp only
  rw [show 8 + data.length + 20 + 14 = 34 + (8 + data.length) by omega]

theorem sendUdp_fault {w n : ℕ} (hw : 32 ≤ w) (hn : 3 ≤ n) (s : State) {data : List UInt8}
    (hfit : ¬ 42 + data.length ≤ packetSize) : sendUdp w n s data = .error .fault := by
  obtain ⟨m, hm, -⟩ :=
    writeHeaders_ok hw hn s protoIpUdp (BitVec.ofNat 16 (20 + 8 + data.length))
  unfold sendUdp
  dsimp only
  rw [hm, ok_bind, assign_fault (a := (42, data)) (by simp) hfit]
  rfl

/-- **Checksums verify.** For every payload whose IP total length is at most
    65535, the packet is emitted and both its checksums verify, with a `long`
    of 32 bits or more and three tests in each fold loop, exactly when the
    frame fits into `tx_packet`. -/
theorem checksums_verify {w n : ℕ} (hw : 32 ≤ w) (hn : 3 ≤ n) (s : State) :
    (∀ srcport port flags seqnum acknum data, 40 + data.length ≤ 65535 →
      ((∃ s' frame, sendTcpPacket w n s srcport port flags seqnum acknum data = .ok s' ∧
        s'.sent = s.sent ++ [frame] ∧ Verifies s protoIpTcp (20 + data.length) frame) ↔
        14 + (40 + data.length) ≤ packetSize)) ∧
    (∀ tag data, tag = tagBytes ∨ tag = tagStr → 28 + data.length ≤ 65535 →
      ((∃ s' frame, machineSendUdp w n s (some (tag, data)) = .ok (.one, s') ∧
        s'.sent = s.sent ++ [frame] ∧ Verifies s protoIpUdp (8 + data.length) frame) ↔
        14 + (28 + data.length) ≤ packetSize)) := by
  constructor
  · intro srcport port flags seqnum acknum data hlen
    constructor
    · rintro ⟨s', frame, hok, -⟩
      by_contra hfit
      rw [sendTcpPacket_fault hw hn s srcport port flags seqnum acknum (by omega) (by omega)] at hok
      exact absurd hok (by simp)
    · intro hfit
      obtain ⟨m, frame, hok, hv, -⟩ :=
        sendTcpPacket_ok hw hn s srcport port flags seqnum acknum hlen (by omega)
      exact ⟨_, frame, hok, rfl, hv⟩
  · intro tag data htag hlen
    have hudp : machineSendUdp w n s (some (tag, data)) =
        (sendUdp w n s data >>= fun s' => .ok (.one, s')) :=
      if_neg (by tauto)
    rw [hudp]
    constructor
    · rintro ⟨s', frame, hok, -⟩
      by_contra hfit
      rw [sendUdp_fault hw hn s (by omega)] at hok
      exact absurd hok (by simp [bind, Except.bind])
    · intro hfit
      obtain ⟨m, frame, hok, hv⟩ := sendUdp_ok hw hn s hlen (by omega)
      exact ⟨_, frame, by rw [hok, ok_bind], rfl, hv⟩

/-- Sending two bytes right after `init_mini_ip`, with 32-bit `long`s. -/
theorem checksums_verify_twoBytes :
    ∃ s' frame, sendTcpPacket 32 3 start 5000 8000 0x18 23 0 [104, 105] = .ok s' ∧
      s'.sent = start.sent ++ [frame] ∧ Verifies start protoIpTcp 22 frame :=
  ((checksums_verify (by decide) (by decide) start).1 5000 8000 0x18 23 0 [104, 105]
    (by decide)).mpr (by decide)

/-- A segment of IP total length 65535 does not fit. -/
theorem checksums_verify_largest :
    40 + (List.replicate 65495 (0 : UInt8)).length = 65535 ∧
      ¬ ∃ s' frame, sendTcpPacket 32 3 start 5000 8000 0x18 23 0 (List.replicate 65495 0) = .ok s' ∧
        s'.sent = start.sent ++ [frame] ∧ Verifies start protoIpTcp (20 + 65495) frame := by
  refine ⟨by rw [List.length_replicate], ?_⟩
  rintro ⟨s', frame, hok, -⟩
  rw [sendTcpPacket_fault (by decide) (by decide) start 5000 8000 0x18 23 0
    (by rw [List.length_replicate]; norm_num)
    (by rw [List.length_replicate]; decide)] at hok
  exact absurd hok (by simp)

end Interim.Net
