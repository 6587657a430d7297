/-
  Ulpi/Core.lean --- the core that uses a ULPI transceiver, and the crossing to the clock
  of the transceiver (gateware/ulpi.py, ULPIEncoder, ULPICore and ULPIPHY).

  The core runs with the clock of the system.  It passes the packets of both directions,
  and reads and writes the registers of the transceiver: a read first drops what has been
  received for as many cycles as `rx_fifo` is deep, and then takes the next byte that is
  received for the answer.
-/
import UsbSniffer.Ulpi.Phy

set_option autoImplicit false

namespace UsbSniffer.Ulpi

open UsbSniffer.Sync

variable {δ : Type}

/-! ## The core -/

namespace ULPIEncoder

/-- A word of `sink`. -/
structure Beat where
  first : Bool
  data : BitVec 8
  last : Bool
  deriving DecidableEq, Repr, Inhabited

/-- `source`: the first byte becomes the command for a packet with this PID. -/
def source (sink : Beat) : TxBeat where
  data := if sink.first then 0x40#8 ||| (sink.data &&& 0x0f#8) else sink.data
  last := sink.last

end ULPIEncoder

namespace ULPICore

/-- The states of `ULPICore`. -/
inductive Fsm
  | idle
  | writeRegAdr
  | writeRegDat
  | readFlush
  | readRegAdr
  | readRegDat
  deriving DecidableEq, Repr

/-- The registers of the core. -/
structure State (δ : Type) where
  fsm : Fsm
  flushcnt : BitVec 2
  /-- `reg_dat_r.status`. -/
  regDatR : δ

/-- No command is under way. -/
def init [Inhabited δ] : State δ := ⟨.idle, 0, default⟩

/-- The registers that the software writes, and the streams of the user. -/
structure In where
  regAdr : BitVec 6
  regDatW : BitVec 8
  /-- `reg_write.re` and `reg_read.re`. -/
  regWrite : Bool
  regRead : Bool
  enableSource : Bool
  sinkValid : Bool
  sink : ULPIEncoder.Beat
  sourceReady : Bool
  deriving DecidableEq, Repr, Inhabited

/-- In IDLE, without a request. -/
def passes (s : State δ) (i : In) : Bool := s.fsm == .idle && !i.regWrite && !i.regRead

/-- `reg_done.status`. -/
def regDone (s : State δ) : Bool := s.fsm == .idle

/-- `phy.sink.valid`. -/
def phySinkValid (s : State δ) (i : In) : Bool :=
  match s.fsm with
  | .idle => passes s i && i.sinkValid
  | .writeRegAdr | .writeRegDat | .readRegAdr => true
  | .readFlush | .readRegDat => false

/-- `phy.sink`. -/
def phySink (s : State δ) (i : In) : TxBeat :=
  match s.fsm with
  | .idle => if passes s i then ULPIEncoder.source i.sink else ⟨0, false⟩
  | .writeRegAdr => ⟨0x80#8 ||| i.regAdr.setWidth 8, false⟩
  | .writeRegDat => ⟨i.regDatW, true⟩
  | .readRegAdr => ⟨0xc0#8 ||| i.regAdr.setWidth 8, false⟩
  | .readFlush | .readRegDat => ⟨0, false⟩

/-- `sink.ready`. -/
def sinkReady (s : State δ) (i : In) (phySinkReady : Bool) : Bool := passes s i && phySinkReady

/-- `source.valid`. -/
def sourceValid (s : State δ) (i : In) (phySourceValid : Bool) : Bool :=
  passes s i && i.enableSource && phySourceValid

/-- `phy.source.ready`. -/
def phySourceReady (s : State δ) (i : In) : Bool :=
  match s.fsm with
  | .idle => passes s i && (!i.enableSource || i.sourceReady)
  | .readFlush | .readRegDat => true
  | .writeRegAdr | .writeRegDat | .readRegAdr => false

/-- The state after the clock edge. -/
def nextFsm (s : State δ) (i : In) (phySinkReady phySourceValid : Bool) : Fsm :=
  match s.fsm with
  | .idle => if i.regWrite then .writeRegAdr else if i.regRead then .readFlush else .idle
  | .writeRegAdr => if phySinkReady then .writeRegDat else .writeRegAdr
  | .writeRegDat => if phySinkReady then .idle else .writeRegDat
  | .readFlush => if s.flushcnt == 3 then .readRegAdr else .readFlush
  | .readRegAdr => if phySinkReady then .readRegDat else .readRegAdr
  | .readRegDat => if phySourceValid then .idle else .readRegDat

/-- The clock edge. -/
def next (s : State δ) (i : In) (phySinkReady phySourceValid : Bool) (phySource : RxBeat δ) :
    State δ where
  fsm := nextFsm s i phySinkReady phySourceValid
  flushcnt :=
    match s.fsm with
    | .idle => 0
    | .readFlush => if s.flushcnt == 3 then s.flushcnt else s.flushcnt + 1
    | _ => s.flushcnt
  regDatR := if s.fsm == .readRegDat && phySourceValid then phySource.data else s.regDatR

end ULPICore

/-! ## Both clocks -/

namespace ULPIPHY

/-- The FIFOs of the design. -/
structure Config (δ : Type) where
  fifoSink : AsyncFIFO TxBeat 4
  fifoSource : AsyncFIFO (RxBeat δ) 4
  phy : ULPIPHYS7.Config δ

/-- The registers of both clock domains. -/
structure State (F : Config δ) where
  core : ULPICore.State δ
  fifoSink : F.fifoSink.State
  phy : ULPIPHYS7.State F.phy
  fifoSource : F.fifoSource.State

/-- The clock edges of an instant, each with what comes from outside: the system's, with the
inputs of the core, and the transceiver's, with its pads. -/
structure Edges (δ : Type) where
  sys : Option ULPICore.In
  ulpi : Option (Pads δ)
  deriving DecidableEq, Repr, Inhabited

variable {F : Config δ}

/-- The registers at a reset. -/
def init [Inhabited δ] : State F where
  core := ULPICore.init
  fifoSink := F.fifoSink.init
  phy := ULPIPHYS7.init
  fifoSource := F.fifoSource.init

/-- What ULPIPHYS7 sees in a cycle of its clock. -/
def phyIn (s : State F) (pads : Pads δ) : ULPIPHYS7.In δ where
  pads := pads
  sinkValid := F.fifoSink.readable s.fifoSink
  sink := F.fifoSink.dout s.fifoSink
  sourceReady := F.fifoSource.writable s.fifoSource

/-- The registers of both domains after the edges of an instant. -/
def next (s : State F) (e : Edges δ) : State F where
  core := e.sys.elim s.core fun i =>
    ULPICore.next s.core i (F.fifoSink.writable s.fifoSink) (F.fifoSource.readable s.fifoSource)
      (F.fifoSource.dout s.fifoSource)
  fifoSink := F.fifoSink.next s.fifoSink
    (e.sys.map fun i => (ULPICore.phySinkValid s.core i, ULPICore.phySink s.core i))
    (e.ulpi.map fun pads => (ULPIPHYS7.out s.phy (phyIn s pads)).sinkReady)
  phy := e.ulpi.elim s.phy fun pads => ULPIPHYS7.next s.phy (phyIn s pads)
  fifoSource := F.fifoSource.next s.fifoSource
    (e.ulpi.map fun pads =>
      ((ULPIPHYS7.out s.phy (phyIn s pads)).sourceValid, (ULPIPHYS7.out s.phy (phyIn s pads)).source))
    (e.sys.map fun i => ULPICore.phySourceReady s.core i)

end ULPIPHY

end UsbSniffer.Ulpi
