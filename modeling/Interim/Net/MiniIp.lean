import Interim.Minilisp
import Interim.Library.OnesComplement

/-!
# `mini-ip`

Model of `devices/mini-ip.c`: the checksums, the packets `machine_send_udp` and
`send_tcp_packet` build in `tx_packet`, and `eth_task`, which parses the frame
in `rx_packet`. The host is little-endian.

`tx_packet` is a block of 64 KiB and stores beyond it are faults. Accesses to
`rx_packet` do not fault here: `eth_task` takes the indices it uses from the
frame, so each of them is recorded, and what the indices have to satisfy is a
statement about the record. The cells `eth_task` returns are modelled by their
contents.
-/

namespace Interim.Net

open OnesComplement (bytesAt)

/-! ## Words in memory -/

/-- The contents of a block, from its first byte on. -/
abbrev Mem := ℕ → UInt8

/-- `malloc(64*1024)`: the size of `tx_packet` and of `rx_packet`. -/
def packetSize : ℕ := 64 * 1024

/-- `swap16` (lines 95–99). -/
def swap16 (v : BitVec 16) : BitVec 16 := v <<< 8 ||| ((v &&& 0xff00#16) >>> 8)

/-- `swap32` (lines 101–105). -/
def swap32 (v : BitVec 32) : BitVec 32 :=
  v <<< 24 ||| ((v &&& 0xff00#32) <<< 8) ||| ((v &&& 0xff0000#32) >>> 8) |||
    ((v &&& 0xff000000#32) >>> 24)

/-- The byte `k` of a word, from the least significant one on. -/
def byteOf {w : ℕ} (v : BitVec w) (k : ℕ) : UInt8 := ⟨(v >>> (8 * k)).setWidth 8⟩

/-- The bytes of a `uint16_t` in memory. -/
def bytes16 (v : BitVec 16) : List UInt8 := [byteOf v 0, byteOf v 1]

/-- The bytes of a `uint32_t` in memory. -/
def bytes32 (v : BitVec 32) : List UInt8 := [byteOf v 0, byteOf v 1, byteOf v 2, byteOf v 3]

/-- `read_word16` (lines 141–144), and the load of a `uint16_t`. -/
def readWord16 (m : Mem) (p : ℕ) : BitVec 16 :=
  (m p).toBitVec.setWidth 16 ||| ((m (p + 1)).toBitVec.setWidth 16 <<< 8)

/-- `read_word32` (lines 146–149). -/
def readWord32 (m : Mem) (p : ℕ) : BitVec 32 :=
  (m p).toBitVec.setWidth 32 ||| ((m (p + 1)).toBitVec.setWidth 32 <<< 8) |||
    ((m (p + 2)).toBitVec.setWidth 32 <<< 16) ||| ((m (p + 3)).toBitVec.setWidth 32 <<< 24)

/-- `memcpy(tx_packet + off, bs, |bs|)`, and assignments to the fields of a
    packet. -/
def store (m : Mem) (off : ℕ) (bs : List UInt8) : Except Stop Mem :=
  if off + bs.length ≤ packetSize then
    .ok fun i => if off ≤ i ∧ i < off + bs.length then bs.getD (i - off) 0 else m i
  else .error .fault

/-- A sequence of assignments. -/
def assign (m : Mem) (as : List (ℕ × List UInt8)) : Except Stop Mem :=
  as.foldlM (fun m a => store m a.1 a.2) m

/-! ## Checksums -/

/-- The sum of two `long`s of `w` bits; overflow is undefined. -/
def addLong (w : ℕ) (a b : ℤ) : Except Stop ℤ :=
  if -2 ^ (w - 1) ≤ a + b ∧ a + b < 2 ^ (w - 1) then .ok (a + b) else .error .fault

/-- `(sum & 0xFFFF) + (sum >> 16)`. -/
def fold (sum : ℤ) : ℤ := sum % 2 ^ 16 + sum >>> (16 : ℕ)

/-- The test and the fold inside the loops: `if (sum & 0x80000000)`. -/
def foldHigh (sum : ℤ) : ℤ := if 2 ^ 31 ≤ sum % 2 ^ 32 then fold sum else sum

/-- `swap16(*p)`, which must lie inside the packet. -/
def loadSwapped (m : Mem) (p : ℕ) : Except Stop (BitVec 16) :=
  if p + 2 ≤ packetSize then .ok (swap16 (readWord16 m p)) else .error .fault

/-- `swap16((uint16_t)*(unsigned char*)p)`. -/
def loadLast (m : Mem) (p : ℕ) : Except Stop (BitVec 16) :=
  if p + 1 ≤ packetSize then .ok (swap16 ((m p).toBitVec.setWidth 16)) else .error .fault

/-- The loops over the words of a packet, with the left over byte (lines
    315–326 and 338–350): `len` more bytes from `p` on. -/
def sumWords (w : ℕ) (m : Mem) : ℕ → ℕ → ℤ → Except Stop ℤ
  | _, 0, sum => .ok sum
  | p, 1, sum => do
    let word ← loadLast m p
    addLong w sum word.toNat
  | p, len + 2, sum => do
    let word ← loadSwapped m p
    let sum ← addLong w sum word.toNat
    sumWords w m (p + 2) len (foldHigh sum)

/-- `while (sum>>16) sum = (sum & 0xFFFF) + (sum >> 16);`, at most `n` tests. -/
def foldLoop : ℕ → ℤ → Except Stop ℤ
  | 0, _ => .error .fuel
  | n + 1, sum => if sum >>> (16 : ℕ) = 0 then .ok sum else foldLoop n (fold sum)

/-- `return ~sum` as a `uint16_t`. -/
def complement (sum : ℤ) : BitVec 16 := ~~~ BitVec.ofInt 16 sum

/-- `cksum(ip, len)` (lines 312–333), with `long` of `w` bits. -/
def cksum (w n : ℕ) (m : Mem) (ip len : ℕ) : Except Stop (BitVec 16) := do
  let sum ← sumWords w m ip len 0
  let sum ← foldLoop n sum
  .ok (complement sum)

/-- `transport_cksum(packet, protocol, i4, len)` (lines 335–371). -/
def transportCksum (w n : ℕ) (m : Mem) (packet : ℕ) (protocol : BitVec 16) (i4 : ℕ)
    (len : BitVec 16) : Except Stop (BitVec 16) := do
  let sum ← sumWords w m packet len.toNat 0
  let sum ← addLong w sum (← loadSwapped m (i4 + 12)).toNat
  let sum ← addLong w sum (← loadSwapped m (i4 + 14)).toNat
  let sum ← addLong w sum (← loadSwapped m (i4 + 16)).toNat
  let sum ← addLong w sum (← loadSwapped m (i4 + 18)).toNat
  let sum ← addLong w sum protocol.toNat
  let sum ← addLong w sum len.toNat
  let sum ← foldLoop n sum
  .ok (complement sum)

/-! ## State -/

abbrev Ip := Vector UInt8 4

abbrev Mac := Vector UInt8 6

/-- The globals of `mini-ip.c`, the frames given to `ethernet_tx`, and the
    record of what `eth_task` does with `rx_packet` and `alloc_num_bytes`. -/
structure State where
  txPacket : Mem
  rxPacket : Mem
  myMac : Mac
  theirMac : Mac
  myIp : Ip
  theirIp : Ip
  mySeqnum : BitVec 32
  theirSeqnum : BitVec 32
  sent : List (List UInt8)
  reads : List ℕ
  writes : List ℕ
  allocs : List ℤ

/-- The globals after `init_mini_ip`. -/
def start : State where
  txPacket := fun _ => 0
  rxPacket := fun _ => 0
  myMac := #v[0xde, 0xad, 0xbe, 0xef, 0x02, 0x42]
  theirMac := #v[0xff, 0xff, 0xff, 0xff, 0xff, 0xff]
  myIp := #v[192, 168, 1, 242]
  theirIp := #v[192, 168, 1, 1]
  mySeqnum := 23
  theirSeqnum := 0
  sent := []
  reads := []
  writes := []
  allocs := []

/-- `ethernet_tx(tx_packet, len)`. -/
def State.ethernetTx (s : State) (len : ℕ) : State :=
  { s with sent := s.sent ++ [bytesAt s.txPacket 0 len] }

/-! ## Sending -/

def ethTypeArp : BitVec 16 := 0x0806#16
def ethTypeIp : BitVec 16 := 0x0800#16
def protoIpUdp : UInt8 := 0x11
def protoIpTcp : UInt8 := 0x6
def protoIpIcmp : UInt8 := 0x1

/-- The Ethernet and IPv4 headers, as both senders write them: the fields, then
    the checksum of the IPv4 header. -/
def writeHeaders (w n : ℕ) (s : State) (proto : UInt8) (size : BitVec 16) : Except Stop Mem := do
  let m ← assign s.txPacket [(0, s.theirMac.toList), (6, s.myMac.toList),
    (12, bytes16 (swap16 ethTypeIp)),
    (14, [0x45]), (15, [0]), (16, bytes16 (swap16 size)), (18, bytes16 (swap16 0xbeef#16)),
    (20, [0x40]), (21, [0]), (22, [64]), (23, [proto]), (24, bytes16 0)]
  let m ← store m 26 s.myIp.toList
  let m ← store m 30 s.theirIp.toList
  let checksum ← cksum w n m 14 20
  store m 24 (bytes16 (swap16 checksum))

/-- What `machine_send_udp` sends for a buffer of `data.length` bytes (lines
    376–415). -/
def sendUdp (w n : ℕ) (s : State) (data : List UInt8) : Except Stop State := do
  let len := data.length
  let m ← writeHeaders w n s protoIpUdp (BitVec.ofNat 16 (20 + 8 + len))
  let m ← assign m [(36, bytes16 (swap16 4001#16)), (34, bytes16 (swap16 4000#16)),
    (38, bytes16 (swap16 (BitVec.ofNat 16 (len + 8)))), (40, bytes16 0), (42, data)]
  let checksum ← transportCksum w n m 34 (protoIpUdp.toBitVec.setWidth 16) 14
    (BitVec.ofNat 16 (len + 8))
  let m ← store m 40 (bytes16 (swap16 checksum))
  .ok ({ s with txPacket := m }.ethernetTx (len + 8 + 20 + 14))

/-- What `machine_send_udp` returns: `alloc_error(ERR_INVALID_PARAM_TYPE)` or
    `alloc_int(1)`. -/
inductive Sent
  | invalidParamType
  | one
  deriving DecidableEq, Repr

/-- `machine_send_udp(data_cell)` (lines 373–418) for the tag and the contents
    of the cell. -/
def machineSendUdp (w n : ℕ) (s : State) : Option (ℕ × List UInt8) → Except Stop (Sent × State)
  | none => .ok (.invalidParamType, s)
  | some (tag, data) =>
    if tag ≠ tagBytes ∧ tag ≠ tagStr then .ok (.invalidParamType, s)
    else do
      let s ← sendUdp w n s data
      .ok (.one, s)

/-- `send_tcp_packet(srcport, port, flags, seqnum, acknum, data, size)` (lines
    423–477), with `size` the length of `data` as a `uint16_t`. -/
def sendTcpPacket (w n : ℕ) (s : State) (srcport port : BitVec 32) (flags : UInt8)
    (seqnum acknum : BitVec 32) (data : List UInt8) : Except Stop State := do
  let len := data.length % 2 ^ 16
  let s := { s with
    txPacket := fun _ => 0
    theirMac := #v[0x84, 0xa8, 0xe4, 0x67, 0x08, 0x12] }
  let m ← writeHeaders w n s protoIpTcp (BitVec.ofNat 16 (20 + 20 + len))
  let m ← assign m [(36, bytes16 (swap16 (port.setWidth 16))),
    (34, bytes16 (swap16 (srcport.setWidth 16))), (38, bytes32 (swap32 seqnum)),
    (42, bytes32 (swap32 acknum)), (46, [0x50]), (47, [flags]), (48, bytes16 (swap16 0x7210#16)),
    (52, bytes16 0), (50, bytes16 0), (54, data.take len)]
  let checksum ← transportCksum w n m 34 (protoIpTcp.toBitVec.setWidth 16) 14
    (BitVec.ofNat 16 (len + 5 * 4))
  let m ← store m 50 (bytes16 (swap16 checksum))
  .ok ({ s with txPacket := m }.ethernetTx (len + 5 * 4 + 20 + 14))

/-! ## Receiving -/

/-- What `eth_task` returns: the contents of the cell and, for a received
    packet, the indices of `rx_packet` its payload was copied from. -/
structure Reply where
  contents : List UInt8
  source : Option (List ℕ)
  deriving DecidableEq, Repr

/-- Computations on the globals. -/
abbrev NetM := StateT State (Except Stop)

/-- Read `n` bytes of `rx_packet` from `p` on. -/
def readRx (p n : ℕ) : NetM Mem := do
  modify fun s => { s with reads := s.reads ++ List.range' p n }
  return (← get).rxPacket

/-- `rx_packet[p] = v`. -/
def writeRx (p : ℕ) (v : UInt8) : NetM Unit :=
  modify fun s => { s with
    writes := s.writes ++ [p]
    rxPacket := Function.update s.rxPacket p v }

/-- `printf("%s", rx_packet + p)`: the characters before the terminator are
    read. -/
def printString (p : ℕ) : NetM Unit := do
  let m := (← get).rxPacket
  let len := ((bytesAt m p (packetSize - p)).takeWhile fun c => c ≠ 0).length
  let _ ← readRx p len

/-- `alloc_num_bytes(size)`, with the size as the `int` that is passed. -/
def allocNumBytes (size : ℤ) : NetM Unit :=
  modify fun s => { s with allocs := s.allocs ++ [size] }

/-- `memcpy(packet->ar.addr, rx_packet + p, size)`. A negative `size` is a
    `size_t` beyond any block. -/
def copyRx (p : ℕ) (size : ℤ) : NetM (List UInt8) :=
  if size < 0 then throw .fault
  else do
    let m ← readRx p size.toNat
    return bytesAt m p size.toNat

/-- `return alloc_num_bytes(0)`. -/
def noPacket : NetM Reply := do
  allocNumBytes 0
  return ⟨[], none⟩

/-- The reply to an ARP request for our address (lines 202–221). -/
def arpReply : NetM Unit := do
  let m ← readRx 22 10
  let s ← get
  let tx ← assign s.txPacket [(0, bytesAt m 22 6), (6, s.myMac.toList),
    (12, bytes16 (swap16 ethTypeArp)), (14, bytes16 (swap16 1#16)),
    (16, bytes16 (swap16 0x800#16)), (18, [6]), (19, [4]), (20, bytes16 (swap16 2#16)),
    (22, s.myMac.toList), (28, bytesAt m 38 4), (32, bytesAt m 22 6), (38, bytesAt m 28 4)]
  modify fun s => { s with txPacket := tx }.ethernetTx (14 + 28)
  let m ← readRx 6 6
  modify fun s => { s with theirMac := Vector.ofFn fun k => m (6 + k) }

/-- The ARP branch (lines 188–226). -/
def arpTask : NetM Unit := do
  let m ← readRx 20 2
  if swap16 (readWord16 m 20) = 1 then do
    let _ ← readRx 28 4
    let m ← readRx 38 4
    if bytesAt m 38 4 = (← get).myIp.toList then arpReply

/-- The UDP branch (lines 232–251). -/
def udpTask : NetM Reply := do
  let m ← readRx 6 6
  modify fun s => { s with theirMac := Vector.ofFn fun k => m (6 + k) }
  let m ← readRx 38 2
  let size : ℤ := (swap16 (readWord16 m 38)).toNat - 8
  let _ ← readRx 26 4
  writeRx (42 + size).toNat 0
  printString 42
  allocNumBytes size
  let payload ← copyRx 42 size
  return ⟨payload, some (List.range' 42 size.toNat)⟩

/-- The ICMP branch (lines 252–259), which only prints. -/
def icmpTask : NetM Unit := do
  let _ ← readRx 26 8
  let _ ← readRx 34 1
  let _ ← readRx 38 4

/-- `send_tcp_packet(swap16(rxt->dest_port), swap16(rxt->src_port), flags,
    my_seqnum, their_seqnum, NULL, 0)`. -/
def replyTcp (w n : ℕ) (flags : UInt8) : NetM Unit := do
  let m ← readRx 34 4
  let s ← get
  let s ← sendTcpPacket w n s ((swap16 (readWord16 m 36)).setWidth 32)
    ((swap16 (readWord16 m 34)).setWidth 32) flags s.mySeqnum s.theirSeqnum []
  set s

/-- A SYN-ACK (lines 267–282). -/
def tcpSynAck (w n : ℕ) : NetM Reply := do
  modify fun s => { s with mySeqnum := s.mySeqnum + 1 }
  let m ← readRx 38 4
  modify fun s => { s with theirSeqnum := swap32 (readWord32 m 38) + 1 }
  replyTcp w n 0x10
  noPacket

/-- A FIN (lines 283–287). -/
def tcpFin (w n : ℕ) : NetM Reply := do
  replyTcp w n 4
  modify fun s => { s with mySeqnum := s.mySeqnum + 1 }
  noPacket

/-- A segment with data (lines 288–305): it is acknowledged and copied, and
    returned unless it ends where the last one did. -/
def tcpData (w n : ℕ) (payloadSize : ℤ) : NetM Reply := do
  let oldSeqnum := (← get).theirSeqnum
  let m ← readRx 38 4
  let theirSeqnum := swap32 (readWord32 m 38) + BitVec.ofInt 32 payloadSize
  modify fun s => { s with theirSeqnum := theirSeqnum }
  replyTcp w n 0x10
  allocNumBytes (payloadSize + 1)
  let payload ← copyRx 54 payloadSize
  if oldSeqnum ≠ theirSeqnum then
    return ⟨payload ++ [0], some (List.range' 54 payloadSize.toNat)⟩
  else noPacket

/-- The TCP branch (lines 260–305). -/
def tcpTask (w n : ℕ) : NetM Reply := do
  let m ← readRx 16 2
  let payloadSize : ℤ := (swap16 (readWord16 m 16)).toNat - 20 - 20
  let m ← readRx 47 1
  if m 47 = 0x12 then tcpSynAck w n
  else if m 47 &&& 1 = 1 then tcpFin w n
  else if payloadSize > 0 then tcpData w n payloadSize
  else noPacket

/-- `ethernet_rx(rx_packet)`: a frame arrives, and a new record starts. -/
def ethernetRx (s : State) (frame : List UInt8) : State :=
  { s with
    rxPacket := fun i => if i < frame.length then frame.getD i 0 else s.rxPacket i
    reads := []
    writes := []
    allocs := [] }

/-- `eth_task()` (lines 173–307) on the frame in `rx_packet`, of length `len`. -/
def ethTask (w n len : ℕ) : NetM Reply := do
  if len = 0 then noPacket
  else do
    let m ← readRx 12 2
    if swap16 (readWord16 m 12) = ethTypeArp then do
      arpTask
      noPacket
    else if swap16 (readWord16 m 12) = ethTypeIp then do
      let m ← readRx 23 1
      if m 23 = protoIpUdp then udpTask
      else if m 23 = protoIpIcmp then do
        icmpTask
        noPacket
      else if m 23 = protoIpTcp then tcpTask w n
      else noPacket
    else noPacket

end Interim.Net
