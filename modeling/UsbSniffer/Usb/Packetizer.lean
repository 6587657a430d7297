/-
  Usb/Packetizer.lean --- the packetizer of gateware/usb.py.

  In front of each packet of its sink it inserts a header of three words: the
  preamble, the stream identifier and the length of the payload in bytes.  The
  header is read from the wires of the sink while it is sent.
-/
import UsbSniffer.Usb.Wrapper

set_option autoImplicit false

namespace UsbSniffer.Usb

open UsbSniffer.Sync

/-- The word that every packet starts with. -/
def preamble : BitVec 32 := 0x5aa55aa5

namespace USBPacketizer

/-- The library block `Unpack` for the words of the header. -/
structure Config where
  HeaderUnpack : Serializer 3

/-- The states of `USBPacketizer`. -/
inductive Fsm
  | idle
  | insertHeader
  | copy
  deriving DecidableEq, Repr

/-- The converter of the header, and the state. -/
structure State (P : Config) where
  headerUnpack : P.HeaderUnpack.State
  fsm : Fsm

variable {P : Config}

/-- No packet is there. -/
def init : State P where
  headerUnpack := P.HeaderUnpack.init
  fsm := .idle

/-- The chunks of the header. -/
def header (sink : UserSource) : List (BitVec 32) :=
  [preamble, sink.dst.setWidth 32, sink.length]

/-- The chunk that `header_unpack.source` offers. -/
def headerWord (s : State P) (sink : UserSource) : BitVec 32 :=
  (header sink).getD (P.HeaderUnpack.pos s.headerUnpack) 0

/-- The answer to the beat, and the word. -/
structure Out where
  sinkReady : Bool
  sourceValid : Bool
  sourceData : BitVec 32
  deriving DecidableEq, Repr

/-- The outputs in a cycle. -/
def out (s : State P) (sink : UserSource) (sourceReady : Bool) : Out :=
  match s.fsm with
  | .idle => { sinkReady := false, sourceValid := false, sourceData := 0 }
  | .insertHeader =>
      { sinkReady := false, sourceValid := true, sourceData := headerWord s sink }
  | .copy =>
      { sinkReady := sourceReady, sourceValid := sink.valid, sourceData := sink.data }

/-- The clock edge. -/
def next (s : State P) (sink : UserSource) (sourceReady : Bool) : State P :=
  match s.fsm with
  | .idle =>
      { headerUnpack := P.HeaderUnpack.next s.headerUnpack false false
        fsm := if sink.valid then .insertHeader else .idle }
  | .insertHeader =>
      { headerUnpack := P.HeaderUnpack.next s.headerUnpack true sourceReady
        fsm := if P.HeaderUnpack.sinkReady s.headerUnpack sourceReady then .copy
          else .insertHeader }
  | .copy =>
      { headerUnpack := P.HeaderUnpack.next s.headerUnpack false false
        fsm := if sourceReady && sink.valid && sink.last then .idle else .copy }

end USBPacketizer

end UsbSniffer.Usb
