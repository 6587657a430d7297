/-
  Soc/Capture.lean --- the capture path of usbsniffer.py.

  What the transceiver receives goes through the overflow meter into the capture core;
  its records go through a small FIFO into the byte repacker, and the words of this one
  through a FIFO and the DRAM FIFO to the sender, which puts them on the USB link.  The
  modules are connected as `USBSnifferSoC` connects them, each source to the next sink.

  Each of them is a queue, so the path is one queue of bytes.  A run begins at a reset and
  has no other one.  The link is the packetizer's own: the arbiter of the crossbar, which
  also serves Etherbone, is left out here.
-/
import UsbSniffer.Sync.Component
import UsbSniffer.Storage
import UsbSniffer.Iti.Core
import UsbSniffer.Iti.Conv4032
import UsbSniffer.Dram.Lossless
import UsbSniffer.Usb.FramingReset

set_option autoImplicit false

namespace UsbSniffer.Soc.Capture

open UsbSniffer.Sync UsbSniffer.Iti UsbSniffer.Dram UsbSniffer.Usb

/-! ## The modules together -/

/-- The FIFOs, and the library blocks of the DRAM FIFO and of the sender. -/
structure Config where
  Fifo : SyncFIFO Beat 16
  HugeFifo : SyncFIFO (BitVec 32) 512
  DramFifo : LiteDRAMFIFO.Config 32
  Buf : SyncFIFO (BitVec 32) 129
  Timer : WaitTimer
  HeaderUnpack : Serializer 3

/-- `usb_map["ulpi0"]`. -/
def ulpi0 : BitVec 8 := 1

/-- `wrapcore0` and the packetizer of `usb_core`. -/
def Config.usb (C : Config) : Framing.Config :=
  Framing.wrapCore ulpi0 C.Buf C.Timer C.HeaderUnpack

/-- The registers of the modules on the path. -/
structure State (C : Config) where
  overflow0 : OverflowMeter.State
  iticore0 : ITICore.State
  fifo0 : C.Fifo.State
  conv40320 : Conv4032.State
  hugefifo : C.HugeFifo.State
  dramfifo : LiteDRAMFIFO.State C.DramFifo
  wrapcore0 : Framing.State C.usb

variable {C : Config}

/-- Any contents of the memory, and nothing on the way. -/
def init (mem : Nat → Vector (BitVec 32) C.DramFifo.ratio) : State C where
  overflow0 := OverflowMeter.init
  iticore0 := ITICore.init
  fifo0 := C.Fifo.init
  conv40320 := Conv4032.init
  hugefifo := C.HugeFifo.init
  dramfifo := LiteDRAMFIFO.init mem
  wrapcore0 := Framing.init

/-- What the path is given in a cycle, at both ends and by the memory. -/
structure In (C : Config) where
  /-- `ulpi_core0.source`. -/
  sinkValid : Bool
  sinkData : BitVec 8
  sinkCmd : Bool
  /-- The strobe `overflow0.reset.re`. -/
  overflowReset : Bool
  /-- The registers of `iticore0`. -/
  enable : Bool
  eventRe : Bool
  eventR : BitVec 8
  startPattern : Bool
  /-- The memory controller. -/
  writeCmdReady : Bool
  wdataWilling : Bool
  readCmdReady : Bool
  rdataWilling : Bool
  rdataUnknown : Vector (BitVec 32) C.DramFifo.ratio
  /-- The link takes the word of the packetizer. -/
  sourceReady : Bool

/-- The wires of each module in a cycle. -/
structure Out (C : Config) where
  overflow0 : OverflowMeter.In (Bool × BitVec 8) × OverflowMeter.Out (Bool × BitVec 8)
  iticore0 : ITICore.In × ITICore.Out
  fifo0 : SyncFIFO.In Beat × SyncFIFO.Out Beat
  conv40320 : Conv4032.In × Conv4032.Out
  hugefifo : SyncFIFO.In (BitVec 32) × SyncFIFO.Out (BitVec 32)
  dramfifo : LiteDRAMFIFO.In C.DramFifo × LiteDRAMFIFO.Out 32
  wrapcore0 : Framing.In × Framing.Out

/-! ### Wires

A source is valid by the registers of its module, or of the modules in front of it, and
a sink is ready by those of its module, or of the modules behind it. -/

/-- `hugefifo.source` on `dramfifo.sink`, and `dramfifo.source` on `wrapcore0.sink`. -/
def dramfifoIn (s : State C) (i : In C) : LiteDRAMFIFO.In C.DramFifo where
  sinkValid := C.HugeFifo.readable s.hugefifo
  sinkData := C.HugeFifo.dout s.hugefifo
  sourceReady := WrapSender.sinkReady s.wrapcore0.sender
  writeCmdReady := i.writeCmdReady
  wdataWilling := i.wdataWilling
  readCmdReady := i.readCmdReady
  rdataWilling := i.rdataWilling
  rdataUnknown := i.rdataUnknown

/-- What `dramfifo` shows. -/
def dramfifoOut (s : State C) (i : In C) : LiteDRAMFIFO.Out 32 :=
  LiteDRAMFIFO.out s.dramfifo (dramfifoIn s i)

/-- `wrapcore0` gets the words of `dramfifo`. -/
def wrapcore0In (s : State C) (i : In C) : Framing.In where
  sinkValid := (dramfifoOut s i).sourceValid
  sinkData := (dramfifoOut s i).sourceData
  sourceReady := i.sourceReady

/-- `fifo0.source` on `conv40320.sink`, and `conv40320.source` on `hugefifo.sink`. -/
def conv40320In (s : State C) : Conv4032.In where
  sinkValid := C.Fifo.readable s.fifo0
  sinkData := (C.Fifo.dout s.fifo0).data
  sinkLen := (C.Fifo.dout s.fifo0).len
  sourceReady := C.HugeFifo.writable s.hugefifo

/-- What `conv40320` shows. -/
def conv40320Out (s : State C) : Conv4032.Out := Conv4032.out s.conv40320 (conv40320In s)

/-- `hugefifo` gets the words of `conv40320`. -/
def hugefifoIn (s : State C) (i : In C) : SyncFIFO.In (BitVec 32) where
  we := (conv40320Out s).sourceValid
  din := (conv40320Out s).sourceData
  re := (dramfifoOut s i).sinkReady

/-- `overflow0.source` on `iticore0.sink`, and `iticore0.source` on `fifo0.sink`. -/
def iticore0In (s : State C) (i : In C) : ITICore.In where
  enable := i.enable
  eventRe := i.eventRe
  eventR := i.eventR
  startPattern := i.startPattern
  sinkValid := i.sinkValid
  sinkData := i.sinkData
  sinkCmd := i.sinkCmd
  sourceReady := C.Fifo.writable s.fifo0

/-- What `iticore0` shows. -/
def iticore0Out (s : State C) (i : In C) : ITICore.Out :=
  ITICore.out s.iticore0 (iticore0In s i)

/-- `fifo0` gets the records of `iticore0`. -/
def fifo0In (s : State C) (i : In C) : SyncFIFO.In Beat where
  we := (iticore0Out s i).sourceValid
  din := (iticore0Out s i).source
  re := (conv40320Out s).sinkReady

/-- `overflow0` gets what the transceiver receives. -/
def overflow0In (s : State C) (i : In C) : OverflowMeter.In (Bool × BitVec 8) where
  sinkValid := i.sinkValid
  sinkData := (i.sinkCmd, i.sinkData)
  sourceReady := (iticore0Out s i).sinkReady
  reset := i.overflowReset

/-! ### The machine -/

/-- The wires of all the modules in a cycle. -/
def out (s : State C) (i : In C) : Out C where
  overflow0 := (overflow0In s i, OverflowMeter.out (overflow0In s i))
  iticore0 := (iticore0In s i, iticore0Out s i)
  fifo0 := (fifo0In s i, C.Fifo.out s.fifo0)
  conv40320 := (conv40320In s, conv40320Out s)
  hugefifo := (hugefifoIn s i, C.HugeFifo.out s.hugefifo)
  dramfifo := (dramfifoIn s i, dramfifoOut s i)
  wrapcore0 := (wrapcore0In s i, Framing.out s.wrapcore0 (wrapcore0In s i))

/-- The clock edge, for all of them. -/
def next (s : State C) (i : In C) : State C where
  overflow0 := OverflowMeter.next s.overflow0 (overflow0In s i)
  iticore0 := ITICore.next s.iticore0 (iticore0In s i)
  fifo0 := C.Fifo.next s.fifo0 (fifo0In s i).we (fifo0In s i).din (fifo0In s i).re
  conv40320 := Conv4032.next s.conv40320 (conv40320In s)
  hugefifo := C.HugeFifo.next s.hugefifo (hugefifoIn s i).we (hugefifoIn s i).din
    (hugefifoIn s i).re
  dramfifo := LiteDRAMFIFO.next s.dramfifo (dramfifoIn s i)
  wrapcore0 := Framing.next s.wrapcore0 (wrapcore0In s i)

/-- The path. -/
def machine (C : Config) : Machine (State C) (In C) (Out C) where
  out := out
  next := next

/-! ## The parts -/

/-- The meter in its place. -/
def overflow0 : Component (machine C) (OverflowMeter.machine (Bool × BitVec 8)) where
  proj := State.overflow0
  view c := c.2.overflow0
  out_eq _ _ := rfl
  next_eq _ _ := rfl

/-- The capture core in its place. -/
def iticore0 : Component (machine C) ITICore.machine where
  proj := State.iticore0
  view c := c.2.iticore0
  out_eq _ _ := rfl
  next_eq _ _ := rfl

/-- The small FIFO in its place. -/
def fifo0 : Component (machine C) C.Fifo.machine where
  proj := State.fifo0
  view c := c.2.fifo0
  out_eq _ _ := rfl
  next_eq _ _ := rfl

/-- The repacker in its place. -/
def conv40320 : Component (machine C) Conv4032.machine where
  proj := State.conv40320
  view c := c.2.conv40320
  out_eq _ _ := rfl
  next_eq _ _ := rfl

/-- The FIFO of words in its place. -/
def hugefifo : Component (machine C) C.HugeFifo.machine where
  proj := State.hugefifo
  view c := c.2.hugefifo
  out_eq _ _ := rfl
  next_eq _ _ := rfl

/-- The DRAM FIFO in its place. -/
def dramfifo : Component (machine C) (LiteDRAMFIFO.machine C.DramFifo) where
  proj := State.dramfifo
  view c := c.2.dramfifo
  out_eq _ _ := rfl
  next_eq _ _ := rfl

/-- The sender in its place. -/
def wrapcore0 : Component (machine C) (Framing.machine C.usb) where
  proj := State.wrapcore0
  view c := c.2.wrapcore0
  out_eq _ _ := rfl
  next_eq _ _ := rfl

/-! ## The path as a queue -/

/-- The captured beat accepted from the transceiver in a cycle. -/
def sinkBeat (c : In C × Out C) : List (Bool × BitVec 8) := ITICore.sinkBeat c.2.iticore0

/-- The record accepted from the capture core. -/
def recordBeat (c : In C × Out C) : List Beat := ITICore.sourceBeat c.2.iticore0

/-- The bytes that leave the buffer of the sender. -/
def poppedBytes (c : In C × Out C) : List (BitVec 8) :=
  (Framing.poppedWord c.2.wrapcore0).flatMap (bytes 4)

/-- The word accepted by the link. -/
def linkWord (c : In C × Out C) : List (BitVec 32) := Framing.sentWord c.2.wrapcore0

/-- The words in the buffer of the sender. -/
def buffered (s : State C) : List (BitVec 32) := C.Buf.contents s.wrapcore0.sender.buf

/-- The bytes on the way, the oldest first. -/
def inside (s : State C) : List (BitVec 8) :=
  (buffered s).flatMap (bytes 4) ++
    ((LiteDRAMFIFO.held s.dramfifo).flatMap (bytes 4) ++
      ((C.HugeFifo.contents s.hugefifo).flatMap (bytes 4) ++
        (Conv4032.held s.conv40320 ++ (C.Fifo.contents s.fifo0).flatMap Beat.bytes)))

/-- The invariants of the parts. -/
def Inv (s : State C) : Prop :=
  ((C.Fifo.Bounded s.fifo0 ∧ Conv4032.Inv s.conv40320) ∧ C.HugeFifo.Bounded s.hugefifo) ∧
    LiteDRAMFIFO.Inv s.dramfifo

theorem inv_init (mem : Nat → Vector (BitVec 32) C.DramFifo.ratio) : Inv (init mem : State C) :=
  ⟨⟨⟨C.Fifo.bounded_init, Conv4032.inv_init⟩, C.HugeFifo.bounded_init⟩,
    LiteDRAMFIFO.inv_init mem⟩

theorem inside_init (mem : Nat → Vector (BitVec 32) C.DramFifo.ratio) :
    inside (init mem : State C) = [] := by
  have hbuffered : buffered (init mem : State C) = [] := C.Buf.contents_init
  rw [inside, hbuffered]
  simp only [init, LiteDRAMFIFO.held_init, SyncFIFO.contents_init]
  rfl

/-- A beat that the converter takes is read as a record of the FIFO. -/
theorem fifo0_conv40320 (s : State C) (i : In C) :
    (SyncFIFO.sourceWord (out s i).fifo0).flatMap Beat.bytes =
      Conv4032.sinkBytes (out s i).conv40320 := by
  change (beat (C.Fifo.readable s.fifo0) (conv40320Out s).sinkReady
      (C.Fifo.dout s.fifo0)).flatMap Beat.bytes =
    (beat (C.Fifo.readable s.fifo0) (conv40320Out s).sinkReady
      (C.Fifo.dout s.fifo0).data).flatMap (bytes ((C.Fifo.dout s.fifo0).len.toNat + 2))
  cases hfire : C.Fifo.readable s.fifo0 && (conv40320Out s).sinkReady with
  | false => rw [beat_of_quiet hfire, beat_of_quiet hfire]; rfl
  | true => rw [beat_of_fire hfire, beat_of_fire hfire]; rfl

/-- **The capture path is a queue of bytes**, from the records of the capture core to the
words that the sender takes for the link: each part hands on what it gives out. -/
theorem refinesQueue : RefinesQueue (machine C) (fun _ _ => True) Inv inside
    (fun c => (recordBeat c).flatMap Beat.bytes) poppedBytes := by
  have hfifo := (C.Fifo.refinesQueue.part fifo0).flatMap Beat.bytes
  have hconv := Conv4032.refinesQueue.part (conv40320 (C := C))
  have hhuge := (C.HugeFifo.refinesQueue.part hugefifo).flatMap (bytes 4)
  have hdram := (LiteDRAMFIFO.refinesQueue.part (dramfifo (C := C))).flatMap (bytes 4)
  have hbuf := (Framing.refinesQueue.part (wrapcore0 (C := C))).flatMap (bytes 4)
  have hpath := (((hfifo.chain hconv fifo0_conv40320).chain hhuge fun _ _ => rfl).chain hdram
    fun _ _ => rfl).chain hbuf fun _ _ => rfl
  simp only [and_true] at hpath
  exact hpath.ins_eq fun _ _ => rfl

end UsbSniffer.Soc.Capture
