/-
  Dram/Fifo.lean --- the FIFO of gateware/dramfifo.py.

  Words go from the latch straight to the output until the latch is full; then the
  router sends them through the memory, until nothing is left there.  The writer
  gathers them into words of the memory controller and the reader takes these
  apart again, each with one command outstanding at a time.

  The FIFO is the one without `preserve_first_last` and with the default thresholds.
-/
import UsbSniffer.Dram.Ctrl
import UsbSniffer.Dram.Latch
import UsbSniffer.Dram.Port

set_option autoImplicit false

namespace UsbSniffer.Dram

open UsbSniffer.Sync

/-! ## The writer -/

namespace LiteDRAMFIFOWriter

/-- The writer has a command to give, or data. -/
structure State where
  sendcmd : Bool
  senddata : Bool
  deriving DecidableEq, Repr

/-- The command comes first. -/
def init : State where
  sendcmd := true
  senddata := false

/-- `cmd.valid`. -/
def cmdValid (s : State) (sinkValid writable : Bool) : Bool :=
  sinkValid && writable && s.sendcmd

/-- `wdata.valid`. -/
def wdataValid (s : State) (sinkValid writable : Bool) : Bool :=
  sinkValid && writable && s.senddata

/-- The clock edge, with the command and the data that are accepted. -/
def next (s : State) (cmd wdata : Bool) : State where
  sendcmd := if wdata then true else if cmd then false else s.sendcmd
  senddata := if wdata then false else if cmd then true else s.senddata

end LiteDRAMFIFOWriter

/-! ## The reader -/

namespace LiteDRAMFIFOReader

variable {α : Type} {F : SyncFIFO α 2}

/-- The blocks that have been read, and whether the next one is to be asked for. -/
structure State (F : SyncFIFO α 2) where
  fifo : F.State
  sendcmd : Bool

/-- Nothing has been read. -/
def init : State F where
  fifo := F.init
  sendcmd := true

/-- What a reset leaves. -/
def clear (s : State F) : State F where
  fifo := F.clear s.fifo
  sendcmd := true

/-- `cmd.valid`. -/
def cmdValid (s : State F) (readable : Bool) : Bool := readable && s.sendcmd

/-- `rdata.ready`. -/
def rdataReady (s : State F) : Bool := F.writable s.fifo

/-- `source.valid`. -/
def sourceValid (s : State F) : Bool := F.readable s.fifo

/-- The clock edge, with the command that is accepted. -/
def next (s : State F) (cmd rdataValid : Bool) (rdataData : α) (sourceReady : Bool) :
    State F where
  fifo := F.next s.fifo rdataValid rdataData sourceReady
  sendcmd := if sourceValid s && sourceReady then true else if cmd then false else s.sendcmd

end LiteDRAMFIFOReader

/-! ## The FIFO -/

namespace LiteDRAMFIFO

/-- The parameters and the library blocks; `ratio` words make one of the controller.  The
constructor refuses the smallest of them: one word to a block, and one block. -/
structure Config (dw : Nat) where
  ratio : Nat
  ratio_pos : 0 < ratio
  depth : Nat
  depth_pos : 0 < depth
  base : Nat
  Latch : SyncFIFO (BitVec dw) (2 * ratio)
  ReadFifo : SyncFIFO (Vector (BitVec dw) ratio) 2
  ConvW : UpConverter (BitVec dw) ratio
  ConvR : Serializer ratio

variable {dw : Nat} {C : Config dw}

/-- `ctrl_depth`, the blocks in the memory. -/
def Config.ctrlDepth (C : Config dw) : Nat := (C.depth - 1) / C.ratio + 1

/-- `ctrl`, with the default thresholds. -/
def Config.ctrl (C : Config dw) : LiteDRAMFIFOCtrl.Config where
  base := C.base
  depth := C.ctrlDepth
  readThreshold := 0
  writeThreshold := C.ctrlDepth

/-- The states of `_LiteDRAMFIFORouter`. -/
inductive Fsm
  | bypass
  | dram
  deriving DecidableEq, Repr

/-- The registers of the modules in the FIFO. -/
structure State (C : Config dw) where
  ctrl : LiteDRAMFIFOCtrl.State
  writer : LiteDRAMFIFOWriter.State
  reader : LiteDRAMFIFOReader.State C.ReadFifo
  latch : LiteDRAMFIFOLatch.State C.Latch
  /-- `router.fsm`. -/
  fsm : Fsm
  convW : C.ConvW.State
  convR : C.ConvR.State
  /-- The memory controller, which is not part of the FIFO. -/
  ports : Ports.State (Vector (BitVec dw) C.ratio)

/-- Any contents of the memory, and nothing outstanding. -/
def init (mem : Nat → Vector (BitVec dw) C.ratio) : State C where
  ctrl := LiteDRAMFIFOCtrl.init
  writer := LiteDRAMFIFOWriter.init
  reader := LiteDRAMFIFOReader.init
  latch := LiteDRAMFIFOLatch.init
  fsm := .bypass
  convW := C.ConvW.init
  convR := C.ConvR.init
  ports := Ports.init mem

/-- The words given and taken, and what the controller does at its ports. -/
structure In (C : Config dw) where
  sinkValid : Bool
  sinkData : BitVec dw
  sourceReady : Bool
  /-- `write_port.cmd.ready`. -/
  writeCmdReady : Bool
  /-- The controller takes the data of an outstanding write. -/
  wdataWilling : Bool
  /-- `read_port.cmd.ready`. -/
  readCmdReady : Bool
  /-- The controller returns the data of an outstanding read. -/
  rdataWilling : Bool
  /-- What it returns for a read that was overtaken by a write. -/
  rdataUnknown : Vector (BitVec dw) C.ratio

/-- The answer to the word given, the word to be taken, and what `ctrl` counts. -/
structure Out (dw : Nat) where
  sinkReady : Bool
  sourceValid : Bool
  sourceData : BitVec dw
  /-- `ctrl.level`. -/
  level : Nat
  /-- `ctrl.read`. -/
  read : Bool
  deriving DecidableEq, Repr

/-! ### Wires -/

/-- `latch.en`. -/
def en (s : State C) : Bool := s.fsm == .dram

/-- `latch.source`. -/
def latchValid (s : State C) : Bool := LiteDRAMFIFOLatch.sourceValid s.latch (en s)

/-- `latch.source.data`. -/
def latchData (s : State C) : BitVec dw := LiteDRAMFIFOLatch.sourceData s.latch (en s)

/-- `router.source1`, which is the sink of `conv_w`. -/
def source1Valid (s : State C) : Bool := en s && latchValid s

/-- `source1.data`, which is zero around the memory. -/
def source1Data (s : State C) : BitVec dw := if en s then latchData s else 0

/-- `writer.sink.valid`, which is also `ctrl.pending`. -/
def pending (s : State C) : Bool := C.ConvW.sourceValid s.convW (source1Valid s)

/-- `writer.sink.data`. -/
def writeData (s : State C) : Vector (BitVec dw) C.ratio :=
  C.ConvW.sourceData s.convW (source1Data s)

/-- `ctrl.writable`. -/
def writable (s : State C) : Bool := LiteDRAMFIFOCtrl.writable C.ctrl s.ctrl

/-- `ctrl.readable`. -/
def readable (s : State C) : Bool := LiteDRAMFIFOCtrl.readable C.ctrl s.ctrl

/-- The write command is accepted. -/
def writeCmd (s : State C) (i : In C) : Bool :=
  LiteDRAMFIFOWriter.cmdValid s.writer (pending s) (writable s) && i.writeCmdReady

/-- The write data is accepted: `ctrl.write`, and the ready of the writer's sink. -/
def write (s : State C) (i : In C) : Bool :=
  LiteDRAMFIFOWriter.wdataValid s.writer (pending s) (writable s) &&
    Ports.wdataReady s.ports i.wdataWilling

/-- `router.source1.ready`. -/
def source1Ready (s : State C) (i : In C) : Bool := C.ConvW.sinkReady s.convW (write s i)

/-- The read command is accepted. -/
def readCmd (s : State C) (i : In C) : Bool :=
  LiteDRAMFIFOReader.cmdValid s.reader (readable s) && i.readCmdReady

/-- `rdata.valid`. -/
def rdataValid (s : State C) (i : In C) : Bool := Ports.rdataValid s.ports i.rdataWilling

/-- `reader.source`, which is the sink of `conv_r`; `conv_r.source` is valid with it. -/
def convRValid (s : State C) : Bool := LiteDRAMFIFOReader.sourceValid s.reader

/-- The word at the head of the reader's FIFO. -/
def readWord (s : State C) : Vector (BitVec dw) C.ratio := C.ReadFifo.dout s.reader.fifo

/-- `conv_r.source.data`, the chunk that is on offer. -/
def convRData (s : State C) : BitVec dw :=
  (readWord s).toList.getD (C.ConvR.pos s.convR) 0

/-- `router.sink1.ready`. -/
def sink1Ready (s : State C) (i : In C) : Bool := en s && i.sourceReady

/-- `conv_r.sink.ready`. -/
def convRReady (s : State C) (i : In C) : Bool :=
  C.ConvR.sinkReady s.convR (sink1Ready s i)

/-- `ctrl.read`. -/
def read (s : State C) (i : In C) : Bool := convRValid s && convRReady s i

/-- `latch.source.ready`. -/
def latchReady (s : State C) (i : In C) : Bool :=
  match s.fsm with
  | .bypass => i.sourceReady
  | .dram => source1Ready s i

/-- `source.valid`. -/
def sourceValid (s : State C) : Bool :=
  match s.fsm with
  | .bypass => latchValid s
  | .dram => convRValid s

/-- `source.data`. -/
def sourceData (s : State C) : BitVec dw :=
  match s.fsm with
  | .bypass => latchData s
  | .dram => convRData s

/-- What moves on the ports. -/
def moves (s : State C) (i : In C) : Ports.Moves (Vector (BitVec dw) C.ratio) where
  writeCmd := writeCmd s i
  writeAddr := C.base + s.ctrl.writeAddress
  wdata := write s i
  wdataData := writeData s
  readCmd := readCmd s i
  readAddr := C.base + s.ctrl.readAddress
  rdata := rdataValid s i && LiteDRAMFIFOReader.rdataReady s.reader

/-! ### The machine -/

/-- The outputs in a cycle. -/
def out (s : State C) (i : In C) : Out dw where
  sinkReady := LiteDRAMFIFOLatch.writable s.latch
  sourceValid := sourceValid s
  sourceData := sourceData s
  level := s.ctrl.level
  read := read s i

/-- The clock edge, for all of the modules. -/
def next (s : State C) (i : In C) : State C where
  ctrl := LiteDRAMFIFOCtrl.next C.ctrl s.ctrl (write s i) (read s i)
  writer := LiteDRAMFIFOWriter.next s.writer (writeCmd s i) (write s i)
  reader := LiteDRAMFIFOReader.next s.reader (readCmd s i) (rdataValid s i)
    (Ports.rdataData s.ports i.rdataUnknown) (convRReady s i)
  latch := LiteDRAMFIFOLatch.next s.latch (en s) i.sinkValid i.sinkData (latchReady s i)
  fsm :=
    match s.fsm with
    | .bypass => if !LiteDRAMFIFOLatch.writable s.latch then .dram else .bypass
    | .dram => if !latchValid s && !pending s && !readable s then .bypass else .dram
  convW := C.ConvW.next s.convW (source1Valid s) (source1Data s) (write s i)
  convR := C.ConvR.next s.convR (convRValid s) (sink1Ready s i)
  ports := Ports.next s.ports (moves s i)

/-- `LiteDRAMFIFO` without `preserve_first_last`. -/
def machine (C : Config dw) : Machine (State C) (In C) (Out dw) where
  out := out
  next := next

/-- The word accepted on `sink` in a cycle. -/
def sinkWord (c : In C × Out dw) : List (BitVec dw) :=
  beat c.1.sinkValid c.2.sinkReady c.1.sinkData

/-- The word accepted on `source` in a cycle. -/
def sourceWord (c : In C × Out dw) : List (BitVec dw) :=
  beat c.2.sourceValid c.1.sourceReady c.2.sourceData

end LiteDRAMFIFO

end UsbSniffer.Dram
