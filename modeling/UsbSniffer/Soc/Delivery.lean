/-
  Soc/Delivery.lean --- captured traffic at the host.

  The capture path is a queue of bytes up to the sender's buffer, and the sender and its
  packetizer put the words of the buffer on the link in packets.  The host takes the
  packets off the link and reads the records in their payloads: what it gets is what the
  transceiver has received since the reset, as far as it is not on the way.
-/
import UsbSniffer.Soc.Capture
import UsbSniffer.Dram.Reset
import UsbSniffer.Iti.Stream
import UsbSniffer.Host.Receive

set_option autoImplicit false

namespace UsbSniffer.Usb.Framing

open UsbSniffer.Sync

variable {C : Config}

/-! ## The words on the link -/

/-- The words sent are the packets of `done` and the first `k` words of the packet of
`cur`, whose other payload words are at the front of the buffer. -/
structure OnLink (s : State C) (tr : List (In × Out)) (done : List (List (BitVec 32)))
    (cur : List (BitVec 32)) (k : Nat) : Prop where
  sent : moved sentWord tr =
    packets C.Sender.identifier done ++ (packet C.Sender.identifier cur).take k
  popped : moved poppedWord tr = done.flatten ++ cur.take (k - 3)
  rest : cur.drop (k - 3) <+: C.Sender.Buf.contents s.sender.buf
  bursts : ∀ p ∈ done, IsBurst C p
  unfinished : k < 3 + cur.length
  fits : k < 3 + (C.Sender.depth + 1)
  started : 0 < k → C.Sender.Buf.contents s.sender.buf ≠ []

/-- The packet that has begun, with the payload that the buffer has for it. -/
theorem exists_current {s : State C} (hInv : WrapSender.Inv s.sender) (hbusy : Busy s)
    {part sent : List (BitVec 32)} (hin : InPacket s part sent) :
    ∃ cur, part = (packet C.Sender.identifier cur).take part.length ∧
      sent = cur.take (part.length - 3) ∧
      cur.drop (part.length - 3) <+: C.Sender.Buf.contents s.sender.buf ∧
      part.length < 3 + cur.length ∧ part.length < 3 + (C.Sender.depth + 1) ∧
      (0 < part.length → C.Sender.Buf.contents s.sender.buf ≠ []) := by
  obtain ⟨cur, hpart, hsent, hrest, -⟩ := exists_completes hInv hbusy hin
  have hpos := WrapSender.beatsLeft_pos s.sender.count
  have hfull : s.packetizer.fsm ≠ .idle → C.Sender.Buf.contents s.sender.buf ≠ [] := by
    intro hne hnil
    have hburst := hInv.burst (hbusy hne)
    rw [hnil, List.length_nil] at hburst
    omega
  cases hfsm : s.packetizer.fsm with
  | idle =>
    simp only [InPacket, hfsm] at hin
    obtain ⟨-, rfl, rfl⟩ := hin
    exact ⟨[], rfl, rfl, List.nil_prefix, by simp, Nat.lt_add_right _ (Nat.zero_lt_succ 2), by simp⟩
  | insertHeader =>
    simp only [InPacket, hfsm] at hin
    obtain ⟨hlt, hwords, -⟩ := hin
    have hlen : part.length ≤ 2 := by
      rw [hwords]
      exact List.length_take_le' _ _
    exact ⟨cur, hpart, hsent, hrest, by omega, by omega, fun _ => hfull (by simp [hfsm])⟩
  | copy =>
    have hburst := hInv.burst (hbusy (by simp [hfsm]))
    simp only [InPacket, hfsm] at hin
    obtain ⟨-, -, hle, hwords⟩ := hin
    -- the packet is the one that the header promises
    have hlen : part.length = 3 + sent.length := by
      rw [hwords, List.length_append]
      rfl
    have hcur : (sent ++ (C.Sender.Buf.contents s.sender.buf).take
        (WrapSender.beatsLeft s.sender.count)).length =
        sent.length + WrapSender.beatsLeft s.sender.count := by
      simp only [List.length_append, List.length_take]
      omega
    refine ⟨sent ++ (C.Sender.Buf.contents s.sender.buf).take
      (WrapSender.beatsLeft s.sender.count), ?_, ?_, ?_, by omega, by omega,
      fun _ => hfull (by simp [hfsm])⟩
    · rw [hlen, packet_take, hcur, List.take_left, hwords]
    · rw [hlen, Nat.add_sub_cancel_left, List.take_left]
    · rw [hlen, Nat.add_sub_cancel_left, List.drop_left]
      exact List.take_prefix _ _

/-- Every run of the sender without a reset puts packets on the link. -/
theorem onLink_run (is : List In) :
    ∃ done cur k, OnLink ((machine C).run init is) ((machine C).trace init is) done cur k := by
  obtain ⟨hInv, hbusy, done, part, sent, hdone, hin, hsent, hpopped⟩ :=
    (machine C).history_induction_always
      (fun s tr => WrapSender.Inv s.sender ∧ Busy s ∧ Framed s tr)
      ⟨WrapSender.inv_init, by simp [Busy, init, USBPacketizer.init], framed_init⟩
      (by
        rintro s tr i ⟨hInv, hbusy, hframed⟩
        exact ⟨WrapSender.inv_next hInv _ _ _, busy_next i hInv hbusy,
          framed_next i hInv (hbusy.lengthLive i) hframed⟩)
      is
  obtain ⟨cur, hpart, htake, hrest, hshort, hfits, hstarted⟩ := exists_current hInv hbusy hin
  exact ⟨done, cur, part.length, by rw [hsent, ← hpart], by rw [hpopped, ← htake], hrest, hdone,
    hshort, hfits, hstarted⟩

/-- The packets of the sender are written as the host's own ones. -/
theorem packets_bytes (identifier : BitVec 8) (payloads : List (List (BitVec 32))) :
    (packets identifier payloads).flatMap (bytes 4) =
      Host.sentPackets (payloads.map fun p => (identifier.setWidth 32, p.flatMap (bytes 4))) := by
  unfold packets Host.sentPackets
  rw [List.flatMap_assoc, List.flatMap_map]
  refine List.flatMap_congr fun p _ => ?_
  unfold packet headerOf Host.ubarSendPacket
  rw [Host.length_flatMap_bytes, List.flatMap_append]
  simp only [List.flatMap_cons, List.flatMap_nil, List.append_nil, List.append_assoc]

end UsbSniffer.Usb.Framing

namespace UsbSniffer.Soc.Capture

open UsbSniffer.Sync UsbSniffer.Iti UsbSniffer.Dram UsbSniffer.Usb

variable {C : Config}

/-! ## From the transceiver to the link -/

/-- The sender of the path, from reset. -/
theorem onLink_run (mem : Nat → Vector (BitVec 32) C.DramFifo.ratio) (is : List (In C)) :
    ∃ done cur k, Framing.OnLink ((machine C).run (init mem) is).wrapcore0
      (((machine C).trace (init mem) is).map fun c => c.2.wrapcore0) done cur k := by
  have hrun := wrapcore0.proj_run (init mem : State C) is
  have htrace := wrapcore0.trace_eq (init mem : State C) is
  obtain ⟨done, cur, k, honLink⟩ :=
    Framing.onLink_run (C := C.usb) (wrapcore0.inputs (init mem : State C) is)
  refine ⟨done, cur, k, ?_⟩
  change Framing.OnLink (wrapcore0.proj ((machine C).run (init mem) is))
    (((machine C).trace (init mem) is).map wrapcore0.view) done cur k
  rw [hrun, ← htrace]
  exact honLink

/-- The records carry what the transceiver has received. -/
theorem captured_records (s : State C) (is : List (In C)) :
    (moved recordBeat ((machine C).trace s is)).flatMap ITICore.captured =
      moved sinkBeat ((machine C).trace s is) := by
  unfold moved
  rw [List.flatMap_assoc]
  refine List.flatMap_congr fun c hc => ?_
  have hcycle : ∀ c ∈ (machine C).trace s is,
      (recordBeat c).flatMap ITICore.captured = sinkBeat c :=
    (machine C).trace_forall
      (fun s i => ITICore.captured_cycle s.iticore0 (iticore0In s i)) s is
  exact hcycle c hc

/-- What is on the link: the payloads `done` of whole packets, and `k` words of the packet
of `cur`; and what of the records is not. -/
structure OnWay (s : State C) (tr : List (In C × Out C)) (done : List (List (BitVec 32)))
    (cur : List (BitVec 32)) (k : Nat) : Prop where
  sent : moved linkWord tr =
    Framing.packets ulpi0 done ++ (Framing.packet ulpi0 cur).take k
  records : (moved recordBeat tr).flatMap Beat.bytes =
    (done.flatten ++ cur.take (k - 3)).flatMap (bytes 4) ++ inside s
  rest : cur.drop (k - 3) <+: buffered s
  bursts : ∀ p ∈ done, 1 ≤ p.length ∧ p.length ≤ 129
  unfinished : k < 3 + cur.length
  fits : k < 3 + 129
  settled : inside s = [] → k = 0

theorem onWay_run (mem : Nat → Vector (BitVec 32) C.DramFifo.ratio) (is : List (In C)) :
    ∃ done cur k,
      OnWay ((machine C).run (init mem) is) ((machine C).trace (init mem) is) done cur k := by
  obtain ⟨done, cur, k, honLink⟩ := onLink_run mem is
  have hqueue := refinesQueue.run (inv_init mem) is
    ((machine C).allSteps_of_forall (fun _ _ => trivial) (init mem) is)
  have hpopped : moved poppedBytes ((machine C).trace (init mem) is) =
      (moved Framing.poppedWord (((machine C).trace (init mem) is).map
        fun c => c.2.wrapcore0)).flatMap (bytes 4) := by
    unfold moved
    rw [List.flatMap_map, List.flatMap_assoc]
    rfl
  have hrecords : moved (fun c => (recordBeat c).flatMap Beat.bytes)
      ((machine C).trace (init mem) is) =
      (moved recordBeat ((machine C).trace (init mem) is)).flatMap Beat.bytes :=
    List.flatMap_assoc.symm
  have hsent : moved linkWord ((machine C).trace (init mem) is) =
      moved Framing.sentWord (((machine C).trace (init mem) is).map fun c => c.2.wrapcore0) := by
    unfold moved
    rw [List.flatMap_map]
    rfl
  rw [inside_init, List.nil_append, hpopped, honLink.popped, hrecords] at hqueue
  refine ⟨done, cur, k, hsent.trans honLink.sent, hqueue, honLink.rest, honLink.bursts,
    honLink.unfinished, honLink.fits, fun hempty => ?_⟩
  by_contra hk
  have hbuffered : (buffered ((machine C).run (init mem) is)).flatMap (bytes 4) = [] :=
    (List.append_eq_nil_iff.mp hempty).1
  have hlength := congrArg List.length hbuffered
  rw [Host.length_flatMap_bytes, List.length_nil] at hlength
  refine honLink.started (by omega) (List.eq_nil_of_length_eq_zero ?_)
  change (buffered ((machine C).run (init mem) is)).length = 0
  omega

/-- **The traffic is on the link, in packets, or on the way.**  The words on the link are
whole packets and the start of one more; their payload bytes, and then the bytes on the
way, are the records that the capture core has sent, and these carry the bytes taken from
the transceiver. -/
theorem traffic_on_link (mem : Nat → Vector (BitVec 32) C.DramFifo.ratio) (is : List (In C)) :
    let s := (machine C).run (init mem) is
    let tr := (machine C).trace (init mem) is
    ∃ (done : List (List (BitVec 32))) (cur : List (BitVec 32)) (k : Nat),
      moved linkWord tr =
          Framing.packets ulpi0 done ++ (Framing.packet ulpi0 cur).take k ∧
        (moved recordBeat tr).flatMap Beat.bytes =
          (done.flatten ++ cur.take (k - 3)).flatMap (bytes 4) ++ inside s ∧
        (moved recordBeat tr).flatMap ITICore.captured = moved sinkBeat tr ∧
        cur.drop (k - 3) <+: buffered s ∧ (∀ p ∈ done, 1 ≤ p.length ∧ p.length ≤ 129) ∧
        k < 3 + cur.length ∧ k < 3 + 129 ∧ (inside s = [] → k = 0) := by
  intro s tr
  obtain ⟨done, cur, k, hway⟩ := onWay_run mem is
  exact ⟨done, cur, k, hway.sent, hway.records, captured_records (init mem) is, hway.rest,
    hway.bursts, hway.unfinished, hway.fits, hway.settled⟩

/-- The records of the core are records and patterns. -/
theorem exists_pieces (mem : Nat → Vector (BitVec 32) C.DramFifo.ratio) (is : List (In C)) :
    ∃ ps : List Piece,
      moved recordBeat ((machine C).trace (init mem) is) = ps.map Piece.beat := by
  obtain ⟨ps, hps⟩ :=
    (ITICore.blocks_run (iticore0.inputs (init mem : State C) is)).2.pieces
  refine ⟨ps, ?_⟩
  rw [← hps]
  exact (iticore0.moved_view ITICore.sourceBeat (init mem : State C) is).symm

/-! ## From the link to the reader -/

/-- **The host reads the captured traffic.**  From a link that brings the words, however
it cuts them up, it receives the whole packets, and the records in their payloads give the
bytes that the transceiver has received, in order, up to those that are on the way. -/
theorem host_reads_traffic (mem : Nat → Vector (BitVec 32) C.DramFifo.ratio)
    (is : List (In C)) (link : List Host.Arrival) (hlink : .failed ∉ link)
    (hwords : Host.pending link =
      (moved linkWord ((machine C).trace (init mem) is)).flatMap (bytes 4)) :
    let s := (machine C).run (init mem) is
    let traffic := moved sinkBeat ((machine C).trace (init mem) is)
    ∃ (payloads : List (List (BitVec 8))) (link' : List Host.Arrival),
      Host.recvPackets payloads.length link =
          .ok (payloads.map fun p => (ulpi0.setWidth 32, p), link') ∧
        (Host.pending link').length < 4 * (3 + 129) ∧
        decode payloads.flatten <+: traffic ∧
        (inside s = [] → decode payloads.flatten = traffic) := by
  intro s traffic
  obtain ⟨done, cur, k, hway⟩ := onWay_run mem is
  have hsent := hway.sent
  have hrecords := hway.records
  have hfits := hway.fits
  have hcaptured := captured_records (init mem) is
  obtain ⟨ps, hps⟩ := exists_pieces mem is
  rw [hsent, List.flatMap_append, Framing.packets_bytes] at hwords
  -- the packets are short enough for the buffer of the host
  have hsize : ∀ p ∈ done.map fun p => ((ulpi0.setWidth 32 : BitVec 32), p.flatMap (bytes 4)),
      p.2.length ≤ 32768 := by
    intro p hp
    obtain ⟨q, hq, rfl⟩ := List.mem_map.mp hp
    have := (hway.bursts q hq).2
    change (q.flatMap (bytes 4)).length ≤ 32768
    rw [Host.length_flatMap_bytes]
    omega
  obtain ⟨link', hrecv, hrest⟩ := Host.recvPackets_sent hsize hlink hwords
  have hflatten : (done.map fun p => p.flatMap (bytes 4)).flatten =
      done.flatten.flatMap (bytes 4) := by
    rw [← List.flatMap_def, ← List.flatMap_id, List.flatMap_assoc]
    rfl
  rw [hps, flatMap_bytes_map_beat, List.flatMap_append, List.append_assoc, ← hflatten] at hrecords
  have hpart : (done.map fun p => p.flatMap (bytes 4)).flatten <+: ps.flatMap Piece.bytes :=
    ⟨_, hrecords.symm⟩
  obtain ⟨hstart, hwhole⟩ := decode_of_prefix hpart
  rw [← hps, hcaptured] at hstart hwhole
  refine ⟨done.map fun p => p.flatMap (bytes 4), link', ?_, ?_, hstart, fun hempty => hwhole ?_⟩
  · rw [List.length_map, List.map_map]
    rwa [List.length_map] at hrecv
  · rw [hrest, Host.length_flatMap_bytes, List.length_take]
    omega
  · rw [hrecords, hempty, hway.settled hempty]
    simp

deriving instance Inhabited for Iti.Beat

/-- The blocks of the path, with queues, counters and registers. -/
def soc0 : Config where
  Fifo := SyncFIFO.queue Iti.Beat 16
  HugeFifo := SyncFIFO.queue (BitVec 32) 512
  DramFifo := LiteDRAMFIFO.dramfifo
  Buf := SyncFIFO.queue (BitVec 32) 129
  Timer := WaitTimer.counter 1000000 WrapSender.period_pos
  HeaderUnpack := Serializer.mux 3

/-- A cycle in which a byte is received, with a willing memory and a willing host. -/
def dataCycle (byte : BitVec 8) : In soc0 where
  sinkValid := true
  sinkData := byte
  sinkCmd := false
  overflowReset := false
  enable := true
  eventRe := false
  eventR := 0
  startPattern := false
  writeCmdReady := true
  wdataWilling := true
  readCmdReady := true
  rdataWilling := true
  rdataUnknown := LiteDRAMFIFO.zeros 0
  sourceReady := true

/-- A thousand bytes. -/
def thousand : List (In soc0) := List.replicate 1000 (dataCycle 0xa5)

/-- The words that the link takes of them, as bytes. -/
def thousandBytes : List (BitVec 8) :=
  (moved linkWord ((machine soc0).trace (init LiteDRAMFIFO.zeros) thousand)).flatMap (bytes 4)

theorem host_reads_thousand :
    ∃ (payloads : List (List (BitVec 8))) (link' : List Host.Arrival),
      Host.recvPackets payloads.length [.data thousandBytes] =
          .ok (payloads.map fun p => (ulpi0.setWidth 32, p), link') ∧
        (Host.pending link').length < 4 * (3 + 129) ∧
        decode payloads.flatten <+:
          moved sinkBeat ((machine soc0).trace (init LiteDRAMFIFO.zeros) thousand) ∧
        (inside ((machine soc0).run (init LiteDRAMFIFO.zeros) thousand) = [] →
          decode payloads.flatten =
            moved sinkBeat ((machine soc0).trace (init LiteDRAMFIFO.zeros) thousand)) :=
  host_reads_traffic (C := soc0) LiteDRAMFIFO.zeros thousand [.data thousandBytes]
    (Host.not_failed_single _) (Host.pending_single thousandBytes)

/-! ## What the transceiver has to hold back -/

/-- The transceiver offers a byte in this cycle. -/
def offered (c : In C × Out C) : Bool := c.1.sinkValid

/-- The cycles behind the last one with the strobe of the meter. -/
def sinceReset (tr : List (In C × Out C)) : List (In C × Out C) :=
  tr.rtakeWhile fun c => !c.2.overflow0.1.reset

/-- A byte that is offered is captured, or the meter counts the cycle. -/
theorem stalled_or_captured (s : State C) (i : In C) :
    (offered (i, out s i)).toNat =
      (OverflowMeter.stalled (out s i).overflow0).toNat + (sinkBeat (i, out s i)).length := by
  change i.sinkValid.toNat = (i.sinkValid && !(iticore0Out s i).sinkReady).toNat +
    (beat i.sinkValid (iticore0Out s i).sinkReady (i.sinkCmd, i.sinkData)).length
  cases i.sinkValid <;> cases (iticore0Out s i).sinkReady <;> rfl

theorem countP_offered {tr : List (In C × Out C)}
    (h : ∀ c ∈ tr, (offered c).toNat =
      (OverflowMeter.stalled c.2.overflow0).toNat + (sinkBeat c).length) :
    tr.countP offered =
      tr.countP (fun c => OverflowMeter.stalled c.2.overflow0) + (moved sinkBeat tr).length := by
  induction tr with
  | nil => rfl
  | cons c tr ih =>
    have htail := ih fun d hd => h d (List.mem_cons_of_mem c hd)
    have hhead := h c List.mem_cons_self
    rw [countP_cons_toNat, countP_cons_toNat, moved_cons, List.length_append, htail, hhead]
    omega

/-- **The meter accounts for the cycles offered.**  Since its last reset it shows, modulo
`2 ^ 32`, the cycles in which a byte was offered less the bytes captured. -/
theorem meter_accounts (mem : Nat → Vector (BitVec 32) C.DramFifo.ratio) (is : List (In C)) :
    let since := sinceReset ((machine C).trace (init mem) is)
    ((machine C).run (init mem) is).overflow0.toNat =
      (since.countP offered - (moved sinkBeat since).length) % 2 ^ 32 := by
  intro since
  have hcount := OverflowMeter.count_run (overflow0.inputs (init mem : State C) is)
  have hrun : ((machine C).run (init mem) is).overflow0 = _ :=
    overflow0.proj_run (init mem : State C) is
  have htrace : (OverflowMeter.machine _).trace OverflowMeter.init _ = _ :=
    overflow0.trace_eq (init mem : State C) is
  have hsince : OverflowMeter.sinceReset (((machine C).trace (init mem) is).map overflow0.view) =
      since.map fun c => c.2.overflow0 := by
    unfold since sinceReset OverflowMeter.sinceReset List.rtakeWhile
    rw [← List.map_reverse, List.takeWhile_map, List.map_reverse]
    rfl
  have hcycles : ∀ c ∈ (machine C).trace (init mem) is, (offered c).toNat =
      (OverflowMeter.stalled c.2.overflow0).toNat + (sinkBeat c).length :=
    (machine C).trace_forall stalled_or_captured (init mem) is
  have hsub : ∀ c ∈ since, c ∈ (machine C).trace (init mem) is := fun c hc =>
    (List.rtakeWhile_suffix _ _).subset hc
  have hoffered := countP_offered fun c hc => hcycles c (hsub c hc)
  rw [htrace, hsince, List.countP_map] at hcount
  rw [hrun, hoffered, Nat.add_sub_cancel]
  exact hcount

end UsbSniffer.Soc.Capture
