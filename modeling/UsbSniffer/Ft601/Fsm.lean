/-
  Ft601/Fsm.lean --- the bus machine of gateware/ft601.py in its `usb` domain.

  One state machine serves both directions of the half-duplex FT601 bus.  The
  strobes and the write data leave through output registers, so the chip samples
  at the end of a cycle what the machine drove in the cycle before it; `_wr_n`,
  `_rd_n` and `_data_w` are these registers.  A word that the chip did not take
  is kept in `tempsendval`, and a word that the read buffer had no room for is
  kept in `tempreadval`.

  The strobes are active low and a branch that does not assign one drives it low.
-/
import Mathlib.Data.BitVec
import UsbSniffer.Sync.Bits
import UsbSniffer.Sync.Queue

set_option autoImplicit false

namespace UsbSniffer.FT601Sync

open UsbSniffer.Sync

/-- The states of the bus machine. -/
inductive Fsm
  | idle
  | write
  | rdwait
  | read
  deriving DecidableEq, Repr

/-- The registers, for words of `dw` bits and a given `timeout`. -/
structure State (dw timeout : Nat) where
  /-- `_data_w`. -/
  dataW : BitVec dw
  /-- `_rd_n`. -/
  rdN : Bool
  /-- `_wr_n`. -/
  wrN : Bool
  /-- `_oe_n`. -/
  oeN : Bool
  tempsendval : BitVec dw
  temptosend : Bool
  tempreadval : BitVec dw
  temptoread : Bool
  /-- `Signal(max=timeout+1)`. -/
  cntWrite : BitVec (bitsFor timeout)
  /-- `Signal(max=timeout+1)`. -/
  cntRead : BitVec (bitsFor timeout)
  firstWrite : Bool
  fsm : Fsm
  deriving DecidableEq, Repr

/-- What the chip, `write_fifo` and `read_buffer` drive in a cycle. -/
structure In (dw : Nat) where
  txeN : Bool
  rxfN : Bool
  /-- The bus, as read from the pads. -/
  dataR : BitVec dw
  /-- `write_fifo.source.valid`. -/
  writeValid : Bool
  /-- `write_fifo.source.data`. -/
  writeData : BitVec dw
  /-- `read_buffer.sink.ready`. -/
  readReady : Bool
  deriving DecidableEq, Repr

/-- The pads as they are driven next, and the signals to the FIFOs. -/
structure Out (dw : Nat) where
  rdN : Bool
  wrN : Bool
  oeN : Bool
  dataW : BitVec dw
  /-- `write_fifo.source.ready`. -/
  writeReady : Bool
  /-- `read_buffer.sink.valid`. -/
  readValid : Bool
  /-- `read_buffer.sink.data`. -/
  readData : BitVec dw
  /-- What the output registers show the chip at the end of the cycle. -/
  padsRdN : Bool
  padsWrN : Bool
  padsDataW : BitVec dw
  deriving DecidableEq, Repr

variable {dw timeout : Nat}

/-- The registers at a reset: the strobes are high, and no word is kept. -/
def init : State dw timeout where
  dataW := 0
  rdN := true
  wrN := true
  oeN := true
  tempsendval := 0
  temptosend := false
  tempreadval := 0
  temptoread := false
  cntWrite := 0
  cntRead := 0
  firstWrite := false
  fsm := .idle

/-- `wants_read`: the chip has a word, and none waits for the read buffer. -/
def wantsRead (s : State dw timeout) (i : In dw) : Bool := !s.temptoread && !i.rxfN

/-- `wants_write`: there is a word for the chip, and it has room. -/
def wantsWrite (s : State dw timeout) (i : In dw) : Bool :=
  (s.temptosend || i.writeValid) && !i.txeN

/-- The bus wires that the state machine drives. -/
structure Drive (dw : Nat) where
  rdN : Bool
  wrN : Bool
  oeN : Bool
  dataW : BitVec dw
  writeReady : Bool
  deriving DecidableEq, Repr

/-- The `comb` part of the four states. -/
def drive (s : State dw timeout) (i : In dw) : Drive dw :=
  match s.fsm with
  | .idle =>
      { rdN := true
        wrN := true
        oeN := if wantsWrite s i then true else if wantsRead s i then false else true
        dataW := 0
        writeReady := false }
  | .write =>
      if i.txeN then
        { rdN := true, wrN := true, oeN := true, dataW := 0, writeReady := false }
      else if s.temptosend then
        { rdN := true, wrN := false, oeN := true, dataW := s.tempsendval,
          writeReady := false }
      else if s.cntWrite.toNat > timeout then
        -- `wr_n` and `data_w` are not assigned here
        { rdN := true, wrN := false, oeN := false, dataW := 0, writeReady := false }
      else if i.writeValid then
        { rdN := true, wrN := false, oeN := true, dataW := i.writeData, writeReady := true }
      else { rdN := true, wrN := true, oeN := true, dataW := 0, writeReady := false }
  | .rdwait => { rdN := false, wrN := true, oeN := false, dataW := 0, writeReady := false }
  | .read =>
      if i.rxfN then
        { rdN := true, wrN := true, oeN := false, dataW := 0, writeReady := false }
      else if s.cntRead.toNat > timeout then
        -- `rd_n` is not assigned here
        { rdN := false, wrN := true, oeN := true, dataW := 0, writeReady := false }
      else
        { rdN := !i.readReady, wrN := true, oeN := false, dataW := 0, writeReady := false }

/-- `read_buffer.sink.valid`: the word on the bus in READ, else the kept one. -/
def readValid (s : State dw timeout) (i : In dw) : Bool :=
  match s.fsm with
  | .read => !i.rxfN && !decide (s.cntRead.toNat > timeout)
  | _ => s.temptoread

/-- `read_buffer.sink.data`. -/
def readData (s : State dw timeout) (i : In dw) : BitVec dw :=
  match s.fsm with
  | .read => if !i.rxfN && !decide (s.cntRead.toNat > timeout) then i.dataR else 0
  | _ => if s.temptoread then s.tempreadval else 0

/-- The outputs in a cycle. -/
def out (s : State dw timeout) (i : In dw) : Out dw :=
  let d := drive s i
  { rdN := d.rdN
    wrN := d.wrN
    oeN := d.oeN
    dataW := d.dataW
    writeReady := d.writeReady
    readValid := readValid s i
    readData := readData s i
    padsRdN := s.rdN
    padsWrN := s.wrN
    padsDataW := s.dataW }

/-- The clock edge: the output registers, the drain of the kept word outside READ,
and the `NextValue` and `NextState` of the four states. -/
def next (s : State dw timeout) (i : In dw) : State dw timeout :=
  let d := drive s i
  let registered := { s with dataW := d.dataW, rdN := d.rdN, wrN := d.wrN, oeN := d.oeN }
  let drained := { registered with temptoread := s.temptoread && !i.readReady }
  match s.fsm with
  | .idle =>
      if wantsWrite s i then
        { drained with cntWrite := 0, firstWrite := true, fsm := .write }
      else if wantsRead s i then { drained with fsm := .rdwait }
      else drained
  | .write =>
      let counted :=
        { drained with
          cntWrite := if wantsRead s i then s.cntWrite + 1 else s.cntWrite
          firstWrite := false }
      if i.txeN then
        { counted with
          temptosend := if i.writeValid && !s.firstWrite then true else s.temptosend
          fsm := .idle }
      else if s.temptosend then { counted with temptosend := false }
      else if s.cntWrite.toNat > timeout then { counted with fsm := .rdwait }
      else if i.writeValid then
        { counted with tempsendval := i.writeData, temptosend := false }
      else { counted with temptosend := false, fsm := .idle }
  | .rdwait => { drained with cntRead := 0, fsm := .read }
  | .read =>
      let counted :=
        { registered with
          cntRead := if wantsWrite s i then s.cntRead + 1 else s.cntRead }
      if i.rxfN then { counted with fsm := .idle }
      else if s.cntRead.toNat > timeout then
        { counted with cntWrite := 0, firstWrite := true, fsm := .write }
      else if i.readReady then { counted with tempreadval := i.dataR }
      else { counted with tempreadval := i.dataR, temptoread := true, fsm := .idle }

/-- The bus machine in its clock domain. -/
def machine (dw timeout : Nat) : Machine (State dw timeout) (In dw) (Out dw) where
  out := out
  next := next

/-! ## What the chip does -/

/-- The chip takes the word on the output register at the end of a cycle in which
the strobe on its pin is low, `txe_n` is low and the bus is driven from here
(`data_oe` is `oe_n`). -/
def takenByChip (c : In dw × Out dw) : List (BitVec dw) :=
  beat (!c.2.padsWrN) (!c.1.txeN && c.2.oeN) c.2.padsDataW

/-- The word popped from `write_fifo` in a cycle. -/
def poppedWord (c : In dw × Out dw) : List (BitVec dw) :=
  beat c.1.writeValid c.2.writeReady c.1.writeData

/-- The chip pops its head word, which is on the bus, at the end of a cycle in which
the strobe on its pin and `rxf_n` are low. -/
def poppedByChip (c : In dw × Out dw) : List (BitVec dw) :=
  beat (!c.2.padsRdN) (!c.1.rxfN) c.1.dataR

/-- The word accepted by `read_buffer` in a cycle. -/
def bufferedWord (c : In dw × Out dw) : List (BitVec dw) :=
  beat c.2.readValid c.1.readReady c.2.readData

end UsbSniffer.FT601Sync
