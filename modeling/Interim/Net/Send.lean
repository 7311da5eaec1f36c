import Interim.Net.Checksum

/-!
# Sending a TCP stream

Model of `connect_tcp` and `send_tcp` (`devices/mini-ip.c`, lines 479–508), and
what the segments of a run of calls account for. The length of a data cell is
passed to `send_tcp_packet` as a `uint16_t`, and added to `my_seqnum` in full.

Main result: `accounts_iff`. In every run of calls, each `send_tcp` emits a frame
inside `tx_packet`, and the frames carry the data in adjacent ranges of sequence
numbers, exactly when every data cell sent has at most 65482 bytes, what is left
of `tx_packet` after the headers.
-/

namespace Interim.Net

open OnesComplement

/-! ## Calls -/

/-- The globals of `mini-ip.c` with the ports of the connection. -/
structure Connection extends State where
  myTcpPort : BitVec 32
  theirTcpPort : BitVec 32

/-- The globals after `init_mini_ip`. -/
def Connection.start : Connection := { Net.start with myTcpPort := 5000, theirTcpPort := 8000 }

/-- `connect_tcp(host_ip, port)` (lines 481–499): a RST from the old port, and a
    SYN from the next one. -/
def connectTcp (w n : ℕ) (c : Connection) (hostIp : Ip) (port : BitVec 32) :
    Except Stop Connection := do
  let c := { c with theirTcpPort := port, theirIp := hostIp, mySeqnum := c.mySeqnum + 1 }
  let s ← sendTcpPacket w n c.toState c.myTcpPort port 4 c.mySeqnum 0 []
  let c := { c with toState := s, myTcpPort := c.myTcpPort + 1 }
  let c := { c with mySeqnum := c.mySeqnum + 10 }
  let s ← sendTcpPacket w n c.toState c.myTcpPort port 2 c.mySeqnum 0 []
  .ok { c with toState := s }

/-- `send_tcp(data_cell)` (lines 501–508) for the tag and the contents of the
    cell. -/
def sendTcp (w n : ℕ) (c : Connection) : Option (ℕ × List UInt8) → Except Stop (Sent × Connection)
  | none => .ok (.invalidParamType, c)
  | some (tag, data) =>
    if tag ≠ tagBytes ∧ tag ≠ tagStr then .ok (.invalidParamType, c)
    else do
      let s ← sendTcpPacket w n c.toState c.myTcpPort c.theirTcpPort 0x18 c.mySeqnum c.theirSeqnum
        data
      let c := { c with toState := s }
      .ok (.one, { c with mySeqnum := c.mySeqnum + BitVec.ofNat 32 data.length })

/-- A call of the program. -/
inductive TcpCall
  | connect (hostIp : Ip) (port : BitVec 32)
  | send (cell : Option (ℕ × List UInt8))

def runCall (w n : ℕ) (c : Connection) : TcpCall → Except Stop Connection
  | .connect hostIp port => connectTcp w n c hostIp port
  | .send cell => do
    let (_, c) ← sendTcp w n c cell
    .ok c

def runCalls (w n : ℕ) (c : Connection) (calls : List TcpCall) : Except Stop Connection :=
  calls.foldlM (runCall w n) c

/-! ## Accounting -/

/-- The bytes a call asks to send: the contents of a data cell. -/
def TcpCall.data : TcpCall → List UInt8
  | .send (some (tag, data)) => if tag = tagBytes ∨ tag = tagStr then data else []
  | _ => []

/-- The payload of a TCP frame with 20-byte headers. -/
def payload (frame : List UInt8) : List UInt8 := frame.drop 54

/-- The frames carry adjacent ranges of sequence numbers, from `seq` on and up
    to `last`. -/
inductive Adjacent : BitVec 32 → List (List UInt8) → BitVec 32 → Prop
  | nil (seq : BitVec 32) : Adjacent seq [] seq
  | cons {seq ack last : BitVec 32} {frame : List UInt8} {frames : List (List UInt8)}
      (hframe : Carries frame seq ack (payload frame))
      (hrest : Adjacent (seq + BitVec.ofNat 32 (payload frame).length) frames last) :
      Adjacent seq (frame :: frames) last

/-- What is asked of a run of calls. The run gets to its end; `send_tcp` of a data
    cell emits one frame that lies inside `tx_packet`, whose IP total length is 40
    plus its payload, and `my_seqnum` advances by that payload; and the frames of
    consecutive sends carry all their data, in adjacent ranges. -/
structure Accounts (w n : ℕ) (c : Connection) (calls : List TcpCall) : Prop where
  runs : ∃ c', runCalls w n c calls = .ok c'
  frame : ∀ pre post tag data, calls = pre ++ .send (some (tag, data)) :: post →
    tag = tagBytes ∨ tag = tagStr → ∃ c₁ c₂ frame, runCalls w n c pre = .ok c₁ ∧
      sendTcp w n c₁ (some (tag, data)) = .ok (.one, c₂) ∧ c₂.sent = c₁.sent ++ [frame] ∧
      frame.length ≤ packetSize ∧ Carries frame c₁.mySeqnum c₁.theirSeqnum (payload frame) ∧
      c₂.mySeqnum = c₁.mySeqnum + BitVec.ofNat 32 (payload frame).length
  covers : ∀ pre (sends : List (Option (ℕ × List UInt8))) post,
    calls = pre ++ sends.map TcpCall.send ++ post → ∃ c₁ c₂ frames,
      runCalls w n c pre = .ok c₁ ∧
      runCalls w n c₁ (sends.map TcpCall.send) = .ok c₂ ∧ c₂.sent = c₁.sent ++ frames ∧
      Adjacent c₁.mySeqnum frames c₂.mySeqnum ∧
      frames.flatMap payload = (sends.map TcpCall.send).flatMap TcpCall.data

/-- Every data cell that is sent leaves room for the headers. -/
def Fitting (calls : List TcpCall) : Prop :=
  ∀ call ∈ calls, 54 + call.data.length ≤ packetSize

/-! ## One call -/

theorem runCalls_cons {w n : ℕ} {c c' : Connection} {call : TcpCall}
    (hc : runCall w n c call = .ok c') (calls : List TcpCall) :
    runCalls w n c (call :: calls) = runCalls w n c' calls := by
  unfold runCalls
  rw [List.foldlM_cons, hc]
  rfl

theorem runCall_of_sendTcp {w n : ℕ} {c c' : Connection} {cell : Option (ℕ × List UInt8)} {r : Sent}
    (h : sendTcp w n c cell = .ok (r, c')) : runCall w n c (.send cell) = .ok c' := by
  change (sendTcp w n c cell >>= _) = _
  rw [h]
  rfl

theorem connectTcp_ok {w n : ℕ} (hw : 32 ≤ w) (hn : 3 ≤ n) (c : Connection) (hostIp : Ip)
    (port : BitVec 32) : ∃ c', connectTcp w n c hostIp port = .ok c' := by
  unfold connectTcp
  dsimp only
  obtain ⟨m, frame, hrst, -⟩ := @sendTcpPacket_ok w n hw hn
    { c.toState with theirIp := hostIp, mySeqnum := c.mySeqnum + 1 } c.myTcpPort port 4
    (c.mySeqnum + 1) 0 [] (by decide) (by decide)
  rw [hrst, ok_bind]
  generalize { c.toState with theirIp := hostIp, mySeqnum := c.mySeqnum + 1 } = s
  obtain ⟨m', frame', hsyn, -⟩ := @sendTcpPacket_ok w n hw hn
    { s with
      txPacket := m
      theirMac := #v[0x84, 0xa8, 0xe4, 0x67, 0x08, 0x12]
      sent := s.sent ++ [frame]
      mySeqnum := s.mySeqnum + 10 } (c.myTcpPort + 1) port 2 (s.mySeqnum + 10) 0 []
    (by decide) (by decide)
  rw [hsyn, ok_bind]
  exact ⟨_, rfl⟩

/-- A data cell that fits is sent in one frame, which carries all of it. -/
theorem sendTcp_ok {w n : ℕ} (hw : 32 ≤ w) (hn : 3 ≤ n) (c : Connection) {tag : ℕ}
    (htag : tag = tagBytes ∨ tag = tagStr) {data : List UInt8}
    (hfit : 54 + data.length ≤ packetSize) :
    ∃ c' frame, sendTcp w n c (some (tag, data)) = .ok (.one, c') ∧ c'.sent = c.sent ++ [frame] ∧
      frame.length ≤ packetSize ∧ Carries frame c.mySeqnum c.theirSeqnum data ∧
      c'.mySeqnum = c.mySeqnum + BitVec.ofNat 32 data.length := by
  have hsize : packetSize = 65536 := rfl
  obtain ⟨m, frame, hok, hv, hc⟩ := @sendTcpPacket_ok w n hw hn c.toState c.myTcpPort
    c.theirTcpPort 0x18 c.mySeqnum c.theirSeqnum data (by omega) hfit
  have hlen : frame.length ≤ packetSize := by
    rw [hv.length]
    omega
  have hsend : sendTcp w n c (some (tag, data)) = _ := if_neg (by tauto)
  rw [hsend, hok, ok_bind]
  exact ⟨_, frame, rfl, rfl, hlen, hc, rfl⟩

/-- Any other argument is refused. -/
theorem sendTcp_refused {w n : ℕ} (c : Connection) {cell : Option (ℕ × List UInt8)}
    (hcell : ∀ tag data, cell = some (tag, data) → ¬ (tag = tagBytes ∨ tag = tagStr)) :
    sendTcp w n c cell = .ok (.invalidParamType, c) ∧ (TcpCall.send cell).data = [] := by
  cases cell with
  | none => exact ⟨rfl, rfl⟩
  | some p =>
    obtain ⟨tag, data⟩ := p
    have htag := hcell tag data rfl
    exact ⟨if_pos (by tauto), if_neg htag⟩

/-- What a send that fits leaves: the frames it emits carry its data, from
    `my_seqnum` on. -/
theorem runCall_send {w n : ℕ} (hw : 32 ≤ w) (hn : 3 ≤ n) (c : Connection)
    {cell : Option (ℕ × List UInt8)} (hfit : 54 + (TcpCall.send cell).data.length ≤ packetSize) :
    ∃ c' frames, runCall w n c (.send cell) = .ok c' ∧ c'.sent = c.sent ++ frames ∧
      frames.flatMap payload = (TcpCall.send cell).data ∧
      ∀ rest last, Adjacent c'.mySeqnum rest last → Adjacent c.mySeqnum (frames ++ rest) last := by
  by_cases hcell : ∃ tag data, cell = some (tag, data) ∧ (tag = tagBytes ∨ tag = tagStr)
  · obtain ⟨tag, data, rfl, htag⟩ := hcell
    have hdata : (TcpCall.send (some (tag, data))).data = data := if_pos htag
    rw [hdata] at hfit ⊢
    obtain ⟨c', frame, hok, hsent, -, hcarries, hseq⟩ := sendTcp_ok hw hn c htag hfit
    have hpayload : payload frame = data := hcarries.payload
    refine ⟨c', [frame], runCall_of_sendTcp hok, hsent, ?_, ?_⟩
    · rw [List.flatMap_singleton, hpayload]
    · intro rest last hrest
      rw [hseq, ← hpayload] at hrest
      rw [← hpayload] at hcarries
      exact .cons hcarries hrest
  · obtain ⟨hok, hdata⟩ := @sendTcp_refused w n c cell
      fun tag data hc ht => hcell ⟨tag, data, hc, ht⟩
    exact ⟨c, [], runCall_of_sendTcp hok, (List.append_nil _).symm, hdata.symm,
      fun _ _ hrest => hrest⟩

/-! ## Runs -/

theorem runCalls_ok {w n : ℕ} (hw : 32 ≤ w) (hn : 3 ≤ n) {calls : List TcpCall}
    (hfit : Fitting calls) (c : Connection) : ∃ c', runCalls w n c calls = .ok c' := by
  induction calls generalizing c with
  | nil => exact ⟨c, rfl⟩
  | cons call calls ih =>
    have hcall : ∃ c₁, runCall w n c call = .ok c₁ := by
      cases call with
      | connect hostIp port => exact connectTcp_ok hw hn c hostIp port
      | send cell =>
        obtain ⟨c₁, -, hrun, -⟩ := runCall_send hw hn c (hfit _ List.mem_cons_self)
        exact ⟨c₁, hrun⟩
    obtain ⟨c₁, hrun⟩ := hcall
    rw [runCalls_cons hrun]
    exact ih (fun call' hmem => hfit call' (List.mem_cons_of_mem _ hmem)) c₁

/-- Consecutive sends emit their data in adjacent ranges. -/
theorem runCalls_sends {w n : ℕ} (hw : 32 ≤ w) (hn : 3 ≤ n)
    {sends : List (Option (ℕ × List UInt8))} (hfit : Fitting (sends.map TcpCall.send))
    (c : Connection) :
    ∃ c' frames, runCalls w n c (sends.map TcpCall.send) = .ok c' ∧ c'.sent = c.sent ++ frames ∧
      Adjacent c.mySeqnum frames c'.mySeqnum ∧
      frames.flatMap payload = (sends.map TcpCall.send).flatMap TcpCall.data := by
  induction sends generalizing c with
  | nil => exact ⟨c, [], rfl, (List.append_nil _).symm, .nil _, rfl⟩
  | cons cell sends ih =>
    obtain ⟨c₁, frames₁, hrun, hsent, hdata, hadj⟩ :=
      runCall_send hw hn c (hfit _ List.mem_cons_self)
    obtain ⟨c', frames, hrest, hsent', hadj', hdata'⟩ :=
      ih (fun call hmem => hfit call (List.mem_cons_of_mem _ hmem)) c₁
    refine ⟨c', frames₁ ++ frames, ?_, ?_, hadj _ _ hadj', ?_⟩
    · rw [List.map_cons, runCalls_cons hrun, hrest]
    · rw [hsent', hsent, List.append_assoc]
    · rw [List.flatMap_append, hdata, hdata', List.map_cons, List.flatMap_cons]

/-- A run that accounts for its data sends no cell that does not fit. -/
theorem Accounts.fitting {w n : ℕ} {c : Connection} {calls : List TcpCall}
    (h : Accounts w n c calls) : Fitting calls := by
  intro call hmem
  by_cases hdata : call.data = []
  · rw [hdata]
    decide
  obtain ⟨tag, data, rfl, htag⟩ : ∃ tag data, call = .send (some (tag, data)) ∧
      (tag = tagBytes ∨ tag = tagStr) := by
    match call, hdata with
    | .send (some (tag, data)), hdata =>
      refine ⟨tag, data, rfl, ?_⟩
      by_contra htag
      exact hdata (if_neg htag)
  obtain ⟨pre, post, rfl⟩ := List.append_of_mem hmem
  obtain ⟨c₁, c₂, frame, hpre, hsend, hsent, hlen, -⟩ := h.frame pre post tag data rfl htag
  obtain ⟨d₁, d₂, frames, hpre', hrun, hsent', -, hcover⟩ :=
    h.covers pre [some (tag, data)] post (by simp)
  -- the one frame is the only one, so it carries the whole cell
  obtain rfl : c₁ = d₁ := by
    rw [hpre] at hpre'
    exact Except.ok.inj hpre'
  obtain rfl : c₂ = d₂ := by
    have hone : runCalls w n c₁ [.send (some (tag, data))] = .ok c₂ :=
      runCalls_cons (runCall_of_sendTcp hsend) []
    rw [List.map_singleton, hone] at hrun
    exact Except.ok.inj hrun
  obtain rfl : frames = [frame] := by
    rw [hsent] at hsent'
    exact (List.append_cancel_left hsent').symm
  rw [List.flatMap_singleton, List.map_singleton, List.flatMap_singleton] at hcover
  rw [← hcover]
  have hpos : 0 < (payload frame).length := by
    rw [hcover]
    exact List.length_pos_iff.mpr hdata
  unfold payload at hpos ⊢
  rw [List.length_drop] at hpos ⊢
  omega

theorem Fitting.accounts {w n : ℕ} (hw : 32 ≤ w) (hn : 3 ≤ n) {calls : List TcpCall}
    (hfit : Fitting calls) (c : Connection) : Accounts w n c calls where
  runs := runCalls_ok hw hn hfit c
  frame := by
    rintro pre post tag data rfl htag
    obtain ⟨c₁, hpre⟩ := runCalls_ok hw hn
      (fun call hmem => hfit call (List.mem_append_left _ hmem)) c
    have hdata : (TcpCall.send (some (tag, data))).data = data := if_pos htag
    have hlen : 54 + data.length ≤ packetSize := by
      have h := hfit (.send (some (tag, data))) (by simp)
      rwa [hdata] at h
    obtain ⟨c₂, frame, hok, hsent, hframe, hcarries, hseq⟩ := sendTcp_ok hw hn c₁ htag hlen
    have hpayload : payload frame = data := hcarries.payload
    rw [← hpayload] at hcarries hseq
    exact ⟨c₁, c₂, frame, hpre, hok, hsent, hframe, hcarries, hseq⟩
  covers := by
    rintro pre sends post rfl
    obtain ⟨c₁, hpre⟩ := runCalls_ok hw hn
      (fun call hmem => hfit call (List.mem_append_left _ (List.mem_append_left _ hmem))) c
    obtain ⟨c₂, frames, hrun, hsent, hadj, hcover⟩ := runCalls_sends hw hn
      (fun call hmem => hfit call (List.mem_append_left _ (List.mem_append_right _ hmem))) c₁
    exact ⟨c₁, c₂, frames, hpre, hrun, hsent, hadj, hcover⟩

/-- **TCP send accounting.** A run of `connect_tcp` and `send_tcp` calls accounts
    for its data exactly when no data cell is longer than `tx_packet` without the
    headers, 65482 bytes. -/
theorem accounts_iff {w n : ℕ} (hw : 32 ≤ w) (hn : 3 ≤ n) (c : Connection)
    (calls : List TcpCall) :
    Accounts w n c calls ↔ ∀ call ∈ calls, call.data.length ≤ 65482 := by
  have hsize : packetSize = 54 + 65482 := rfl
  constructor
  · intro h call hmem
    have hfit := h.fitting call hmem
    omega
  · intro hlen
    apply Fitting.accounts hw hn
    intro call hmem
    have h := hlen call hmem
    omega

/-- A connection to 10.0.0.1, port 80, and two bytes sent on it. -/
theorem accounts_twoBytes :
    Accounts 32 3 Connection.start
      [.connect #v[10, 0, 0, 1] 80, .send (some (tagStr, [104, 105]))] :=
  (accounts_iff (by decide) (by decide) _ _).mpr (by simp [TcpCall.data])

/-- A cell of 65536 bytes: none of them is sent, and `my_seqnum` is 65536 further. -/
theorem accounts_truncated :
    (∃ c' frame, runCalls 32 3 Connection.start
        [.send (some (tagBytes, List.replicate 65536 0))] = .ok c' ∧ c'.sent = [frame] ∧
      payload frame = [] ∧ c'.mySeqnum = Connection.start.mySeqnum + 65536) ∧
    ¬ Accounts 32 3 Connection.start [.send (some (tagBytes, List.replicate 65536 0))] := by
  constructor
  · obtain ⟨m, frame, hok, -, hc⟩ := @sendTcpPacket_ok 32 3 (by decide) (by decide)
      Net.start 5000 8000 0x18 23 0 [] (by decide) (by decide)
    have hsend : sendTcp 32 3 Connection.start (some (tagBytes, List.replicate 65536 0)) =
        (sendTcpPacket 32 3 Net.start 5000 8000 0x18 23 0 (List.replicate 65536 0) >>= _) := rfl
    rw [sendTcpPacket_take, List.length_replicate, show 65536 % 2 ^ 16 = 0 from rfl,
      List.take_zero, hok, ok_bind] at hsend
    refine ⟨_, frame, runCalls_cons (runCall_of_sendTcp hsend) [], rfl, hc.payload, rfl⟩
  · intro h
    have hfit := h.fitting _ List.mem_cons_self
    have hdata : (TcpCall.send (some (tagBytes, List.replicate 65536 0))).data =
        List.replicate 65536 0 := by
      unfold TcpCall.data
      exact if_pos (Or.inl rfl)
    rw [hdata, List.length_replicate] at hfit
    exact absurd hfit (by decide)

end Interim.Net
