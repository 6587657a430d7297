/-
  Ulpi/Phy.lean --- the pads of a ULPI transceiver (gateware/ulpi.py, ULPIPHYS7).

  Words for the transceiver wait in `tx_fifo`, and one is taken in every cycle in which
  the bus is driven from here (`dir` low) and `nxt` is high.  While `dir` is high the
  transceiver drives the bus; what it sends goes into `rx_fifo` a cycle later, with the
  first cycle after a turn of the bus left out.

  Nothing here looks at the data that is received, so that it has any type.
-/
import UsbSniffer.Sync.Parts
import UsbSniffer.Sync.Packet

set_option autoImplicit false

namespace UsbSniffer.Ulpi

open UsbSniffer.Sync

/-- A word for the transceiver. -/
structure TxBeat where
  data : BitVec 8
  last : Bool
  deriving DecidableEq, Repr, Inhabited

/-- What is received in a cycle. -/
structure RxBeat (δ : Type) where
  data : δ
  cmd : Bool
  last : Bool
  deriving DecidableEq, Repr, Inhabited

/-- The pads that the transceiver drives. -/
structure Pads (δ : Type) where
  dir : Bool
  nxt : Bool
  data : δ
  deriving DecidableEq, Repr, Inhabited

namespace ULPIPHYS7

/-- The FIFOs of the design. -/
structure Config (δ : Type) where
  txFifo : SyncFIFO TxBeat 4
  rxFifo : SyncFIFO (RxBeat δ) 4

variable {δ : Type}

/-- The FIFOs and the registers of the PHY. -/
structure State (F : Config δ) where
  tx : F.txFifo.State
  rx : F.rxFifo.State
  last : Bool
  odir : Bool
  /-- the output of the input registers, the pads of the cycle before -/
  dataI : δ
  /-- `rx_fifo.sink.cmd`. -/
  rxCmd : Bool
  /-- `rx_fifo.sink.valid`. -/
  rxValid : Bool

/-- The pads, the command offered, and the answer to what is received. -/
structure In (δ : Type) where
  pads : Pads δ
  sinkValid : Bool
  sink : TxBeat
  sourceReady : Bool
  deriving DecidableEq, Repr

/-- The pads that are driven, and what passes through the FIFOs. -/
structure Out (δ : Type) where
  stp : Bool
  /-- `data_t.oe` and `data_t.o`. -/
  dataOe : Bool
  dataO : BitVec 8
  /-- `tx_fifo.source`. -/
  txValid : Bool
  txReady : Bool
  txSource : TxBeat
  /-- `rx_fifo.sink`. -/
  rxValid : Bool
  rxReady : Bool
  rxSink : RxBeat δ
  sinkReady : Bool
  sourceValid : Bool
  source : RxBeat δ
  deriving DecidableEq, Repr

variable {F : Config δ}

/-- The registers at a reset. -/
def init [Inhabited δ] : State F where
  tx := F.txFifo.init
  rx := F.rxFifo.init
  last := false
  odir := false
  dataI := default
  rxCmd := false
  rxValid := false

/-- `tx_fifo.source.ready`. -/
def txReady (pads : Pads δ) : Bool := !pads.dir && pads.nxt

/-- `rx_fifo.sink`: the mark of the last word is not delayed. -/
def rxSink (s : State F) (pads : Pads δ) : RxBeat δ where
  data := s.dataI
  cmd := s.rxCmd
  last := s.odir && !pads.dir

/-- The outputs in a cycle. -/
def out (s : State F) (i : In δ) : Out δ where
  stp := !i.pads.dir && s.last
  dataOe := !s.odir
  dataO := if F.txFifo.readable s.tx then (F.txFifo.dout s.tx).data else 0
  txValid := F.txFifo.readable s.tx
  txReady := txReady i.pads
  txSource := F.txFifo.dout s.tx
  rxValid := s.rxValid
  rxReady := F.rxFifo.writable s.rx
  rxSink := rxSink s i.pads
  sinkReady := F.txFifo.writable s.tx
  sourceValid := F.rxFifo.readable s.rx
  source := F.rxFifo.dout s.rx

/-- The clock edge.  `last` looks at the front of `tx_fifo`, whether there is a word or
not, and whatever the direction of the bus. -/
def next (s : State F) (i : In δ) : State F where
  tx := F.txFifo.next s.tx i.sinkValid i.sink (txReady i.pads)
  rx := F.rxFifo.next s.rx s.rxValid (rxSink s i.pads) i.sourceReady
  last := i.pads.nxt && (F.txFifo.dout s.tx).last
  odir := i.pads.dir
  dataI := i.pads.data
  rxCmd := !i.pads.nxt
  rxValid := s.odir && i.pads.dir

/-- The PHY in its clock domain. -/
def machine (F : Config δ) : Machine (State F) (In δ) (Out δ) where
  out := out
  next := next

/-! ## The end of a packet -/

/-- A word with its mark is taken from `tx_fifo` in this cycle. -/
def takesLast (c : In δ × Out δ) : Bool := c.2.txValid && c.2.txReady && c.2.txSource.last

/-- `stp` is high only after a cycle that took a marked word, and it is high after such
a cycle unless the bus has been turned. -/
def StpEnds (c c' : In δ × Out δ) : Prop :=
  (c'.2.stp = true → takesLast c = true) ∧
    (takesLast c = true → c'.1.pads.dir = false → c'.2.stp = true)

/-- `stp` is low in the first cycle, and right in all others. -/
def StpExact (tr : List (In δ × Out δ)) : Prop :=
  (∀ c ∈ tr.head?, c.2.stp = false) ∧ List.IsChain StpEnds tr

/-- With `nxt` high and a mark at the front of `tx_fifo`, the bus is driven from here and
the front is a word, or the bus is driven by the transceiver in the next cycle. -/
def NoStaleMark (c c' : In δ × Out δ) : Prop :=
  c.1.pads.nxt = true → c.2.txSource.last = true →
    c.1.pads.dir = false ∧ c.2.txValid = true ∨ c'.1.pads.dir = true

/-- What `stp` shows of the cycle before. -/
theorem stp_next (s : State F) (i j : In δ) :
    (out (next s i) j).stp = (!j.pads.dir && (i.pads.nxt && (out s i).txSource.last)) := rfl

theorem stpEnds_iff (s : State F) (i j : In δ) :
    StpEnds (i, out s i) (j, out (next s i) j) ↔
      NoStaleMark (i, out s i) (j, out (next s i) j) := by
  have hready : (out s i).txReady = (!i.pads.dir && i.pads.nxt) := rfl
  unfold StpEnds NoStaleMark takesLast
  rw [stp_next, hready]
  cases i.pads.dir <;> cases i.pads.nxt <;> cases j.pads.dir <;>
    cases (out s i).txValid <;> cases (out s i).txSource.last <;> simp

/-- **`stp` ends a packet exactly in the runs without a stale mark.** -/
theorem stpExact_iff [Inhabited δ] (is : List (In δ)) :
    StpExact ((machine F).trace init is) ↔
      List.IsChain NoStaleMark ((machine F).trace init is) := by
  have hchain : List.IsChain StpEnds ((machine F).trace init is) ↔
      List.IsChain NoStaleMark ((machine F).trace init is) :=
    (machine F).isChain_trace_iff (fun s i j => stpEnds_iff s i j) init is
  have hfirst : ∀ c ∈ ((machine F).trace init is).head?, c.2.stp = false := by
    cases is with
    | nil => intro c hc; cases hc
    | cons i is =>
      intro c hc
      obtain rfl := Option.some.inj hc
      exact Bool.and_false _
  exact ⟨fun h => hchain.mp h.2, fun h => ⟨hfirst, hchain.mpr h⟩⟩

/-- FIFOs that are lists. -/
def Config.queues (δ : Type) [Inhabited δ] : Config δ where
  txFifo := SyncFIFO.queue TxBeat 4
  rxFifo := SyncFIFO.queue (RxBeat δ) 4

/-- A cycle with the given pads, in which a packet of one word may be queued. -/
def padsCycle (dir nxt queued : Bool) : In (BitVec 8) where
  pads := ⟨dir, nxt, 0⟩
  sinkValid := queued
  sink := ⟨0x42, true⟩
  sourceReady := true

/-- The transceiver begins to send while a packet of one word waits, and stops. -/
def waitingPacket : List (In (BitVec 8)) :=
  [padsCycle false false true, padsCycle true true false, padsCycle true true false,
    padsCycle false false false]

/-- `stp` ends the bus turn of the transceiver, and the word is still there. -/
theorem stp_after_receive :
    ¬ StpExact ((machine (Config.queues (BitVec 8))).trace init waitingPacket) ∧
      ((machine (Config.queues (BitVec 8))).run init waitingPacket).tx = [⟨0x42, true⟩] := by
  refine ⟨fun h => ?_, rfl⟩
  obtain ⟨-, h⟩ := List.isChain_cons_cons.mp h.2
  obtain ⟨-, h⟩ := List.isChain_cons_cons.mp h
  obtain ⟨h, -⟩ := List.isChain_cons_cons.mp h
  exact absurd (h.1 (by decide)) (by decide)

end ULPIPHYS7

end UsbSniffer.Ulpi
