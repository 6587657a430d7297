/-
  Etherbone/Record.lean --- Etherbone records in their packets, and the whole core
  (gateware/etherbone.py).

  A record has a header of one word inside the packet.  Its words go over the wire
  high byte first, so that they are turned around on both ways.
-/
import UsbSniffer.Etherbone.Packet
import UsbSniffer.Etherbone.Sender
import UsbSniffer.Etherbone.Master

set_option autoImplicit false

namespace UsbSniffer.Etherbone

open UsbSniffer.Sync

/-- `etherbone_record_header.length`. -/
def recordHeaderLength : BitVec 32 := 4

namespace EtherboneRecord

/-- What the depacketizer gives to the receiver. -/
def decode (header : List (BitVec 32)) (last : Bool) (sink : PacketBeat) : RecordBeat where
  data := reverseBytes sink.data
  last := last
  byteEnable := byte (header.getD 0 0) 1
  wcount := byte (header.getD 0 0) 2
  rcount := byte (header.getD 0 0) 3

/-- The header in front of what the sender gives, with none of the flags. -/
def header (sink : RecordBeat) : List (BitVec 32) :=
  [cat (cat (cat (0 : BitVec 8) sink.byteEnable) sink.wcount) sink.rcount]

/-- `source.length`, from what the sender gives in the same cycle. -/
def length (sink : RecordBeat) : BitVec 32 :=
  recordHeaderLength + (if sink.wcount ≠ 0 then 4 else 0) + sink.wcount.setWidth 32 * 4 +
    (if sink.rcount ≠ 0 then 4 else 0) + sink.rcount.setWidth 32 * 4

/-- The packetizer behind the sender. -/
def format : Packetizer.Format RecordBeat PacketBeat where
  header := header
  word x := reverseBytes x.data
  isLast := RecordBeat.last
  emit w last sink :=
    { pf := false, pr := false, nr := false, length := length sink, data := w, last := last }

end EtherboneRecord

/-! ## The core -/

/-- The blocks that the core is made of, and the stream that it answers to. -/
structure Config where
  identifier : BitVec 8
  packetDepacketizer : Depacketizer 2
  recordDepacketizer : Depacketizer 1
  receiver : EtherboneRecordReceiver.Config
  sender : EtherboneRecordSender.Config
  recordPacketizer : Packetizer
  packetPacketizer : Packetizer

namespace Config

variable (E : Config)

/-- From the packets of the host to the accesses. -/
def decoder : Stage Bool UserBeat MmapBeat :=
  ((EtherbonePacketRX.stage E.packetDepacketizer Bool).comp
    (E.recordDepacketizer.stage Bool PacketBeat.data PacketBeat.last EtherboneRecord.decode)).comp
      (EtherboneRecordReceiver.stage E.receiver Bool)

/-- From the answers of the bus to the packets for the host. -/
def encoder : Stage Bool MmapBeat UserBeat :=
  (EtherboneRecordSender.stage E.sender Bool).comp
    ((E.recordPacketizer.stage Bool EtherboneRecord.format).comp
      (EtherbonePacketTX.stage E.packetPacketizer E.identifier Bool))

/-- The core in front of a bus. -/
def stage (answer : List Access → BitVec 32) : Stage Bool UserBeat UserBeat :=
  E.decoder.comp ((EtherboneWishboneMaster.stage answer).comp E.encoder)

/-- The accesses that the bus has acknowledged. -/
def log {answer : List Access → BitVec 32} (s : (E.stage answer).State) : List Access :=
  s.2.1.log

/-! ## Streams -/

/-- `stream` are the words of the records. -/
def decoderSimulation (stream : List RecordBeat) : Simulation E.decoder :=
  (((E.packetDepacketizer.simulation Bool UserBeat.data UserBeat.last
      EtherbonePacketRX.decode).comp (EtherbonePacketRX.simulation Bool)).comp
    (E.recordDepacketizer.simulation Bool PacketBeat.data PacketBeat.last
      EtherboneRecord.decode)).comp
      (EtherboneRecordReceiver.simulation E.receiver Bool stream)

/-- The blocks behind the master turn its beats into packets. -/
def encoderSimulation : Simulation E.encoder :=
  (EtherboneRecordSender.simulation E.sender Bool).comp
    ((E.recordPacketizer.simulation Bool EtherboneRecord.format (fun _ => rfl)
        Nat.zero_lt_one).comp
      ((E.packetPacketizer.simulation Bool (EtherbonePacketTX.format E.identifier)
        (fun _ => rfl) Nat.zero_lt_two).comp (EtherbonePacketTX.simulation Bool)))

/-- `all` are the accesses that the bus is to make. -/
def simulation (answer : List Access → BitVec 32) (all : List Access)
    (stream : List RecordBeat) : Simulation (E.stage answer) :=
  (E.decoderSimulation stream).comp
    ((EtherboneWishboneMaster.simulation answer all).comp E.encoderSimulation)

variable {E}

/-- In every run the bus has made a part of its accesses, and all of them in the end. -/
theorem log_of_rel {answer : List Access → BitVec 32} {all : List Access}
    {stream : List RecordBeat} {s : (E.stage answer).State} {c d : Chan UserBeat} {k : Nat}
    (h : (E.simulation answer all stream).rel s c d k) :
    E.log s <+: all ∧ (k = 0 → E.log s = all) := by
  obtain ⟨m, j, l, -, ⟨m', j', l', hmaster, -, hl⟩, hk⟩ := h
  refine ⟨EtherboneWishboneMaster.Rel.log_prefix hmaster, ?_⟩
  rintro rfl
  obtain rfl : j' = 0 := by omega
  exact (EtherboneWishboneMaster.Rel.done hmaster).2.2

end Config

end UsbSniffer.Etherbone
