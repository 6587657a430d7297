/-
  Soc/Loopback.lean --- the loopback design of usbsniffer.py.

  What the host writes comes out of the physical layer, goes through a FIFO of 2048 words,
  and back into it.
-/
import UsbSniffer.Ft601.Phy

set_option autoImplicit false

namespace UsbSniffer.Soc.Loopback

open UsbSniffer.Sync UsbSniffer.FT601Sync

/-- The blocks of the design, for words of `dw` bits. -/
structure Config (dw : Nat) where
  UsbPhy : Phy.Config dw
  LoopbackFifo : SyncFIFO (BitVec dw) 2048

/-- The registers of the PHY, and the loopback FIFO. -/
structure State {dw : Nat} (C : Config dw) (timeout : Nat) where
  usbPhy : Phy.State C.UsbPhy timeout
  loopbackFifo : C.LoopbackFifo.State

variable {dw timeout : Nat} {C : Config dw}

/-- The registers at a reset. -/
def init : State C timeout where
  usbPhy := Phy.init
  loopbackFifo := C.LoopbackFifo.init

/-- The clock edges of an instant, the one of `usb` with the pads. -/
structure Edges (dw : Nat) where
  usb : Option (Phy.Pads dw)
  sys : Bool
  deriving DecidableEq, Repr

/-- The wires of both. -/
structure Out (dw : Nat) where
  usbPhy : Phy.Edges dw × Phy.Out dw
  loopbackFifo : Option (SyncFIFO.In (BitVec dw)) × Option (SyncFIFO.Out (BitVec dw))

/-- `usb_loopback_fifo.source` on `usb_phy.sink`. -/
def usbPhyIn (s : State C timeout) (e : Edges dw) : Phy.Edges dw where
  usb := e.usb
  sys :=
    if e.sys then
      some
        { sinkValid := C.LoopbackFifo.readable s.loopbackFifo
          sinkData := C.LoopbackFifo.dout s.loopbackFifo
          sourceReady := C.LoopbackFifo.writable s.loopbackFifo }
    else none

/-- `usb_phy.source` on `usb_loopback_fifo.sink`. -/
def loopbackFifoIn (s : State C timeout) : SyncFIFO.In (BitVec dw) where
  we := C.UsbPhy.ReadFifo.readable s.usbPhy.readFifo
  din := C.UsbPhy.ReadFifo.dout s.usbPhy.readFifo
  re := C.UsbPhy.WriteFifo.writable s.usbPhy.writeFifo

/-- The wires at an instant. -/
def out (s : State C timeout) (e : Edges dw) : Out dw where
  usbPhy := (usbPhyIn s e, Phy.out s.usbPhy (usbPhyIn s e))
  loopbackFifo :=
    if e.sys then (some (loopbackFifoIn s), some (C.LoopbackFifo.out s.loopbackFifo))
    else (none, none)

/-- The registers after the edges of an instant. -/
def next (s : State C timeout) (e : Edges dw) : State C timeout where
  usbPhy := Phy.next s.usbPhy (usbPhyIn s e)
  loopbackFifo :=
    if e.sys then
      C.LoopbackFifo.next s.loopbackFifo (loopbackFifoIn s).we (loopbackFifoIn s).din
        (loopbackFifoIn s).re
    else s.loopbackFifo

/-- The design `with_loopback`. -/
def machine (C : Config dw) (timeout : Nat) : Machine (State C timeout) (Edges dw) (Out dw) where
  out := out
  next := next

/-! ## The parts -/

/-- The PHY in its place. -/
def usbPhy : Component (machine C timeout) (Phy.machine C.UsbPhy timeout) where
  proj := State.usbPhy
  view c := c.2.usbPhy
  out_eq _ _ := rfl
  next_eq _ _ := rfl

/-- The loopback FIFO in its place. -/
def loopbackFifo : Component (machine C timeout) C.LoopbackFifo.machine.gated where
  proj := State.loopbackFifo
  view c := c.2.loopbackFifo
  out_eq _ e := by obtain ⟨_, _ | _⟩ := e <;> rfl
  next_eq _ e := by obtain ⟨_, _ | _⟩ := e <;> rfl

/-! ## The echo -/

/-- The word that the host's chip gives. -/
def chipGives (c : Edges dw × Out dw) : List (BitVec dw) := Phy.chipGives c.2.usbPhy

/-- The word that it takes. -/
def chipTakes (c : Edges dw × Out dw) : List (BitVec dw) := Phy.chipTakes c.2.usbPhy

/-- The words on their way round. -/
def inside (s : State C timeout) : List (BitVec dw) :=
  Phy.toSend s.usbPhy ++
    (C.LoopbackFifo.contents s.loopbackFifo ++ Phy.received s.usbPhy)

/-- The step is none of those in which the bus machine loses a word. -/
def KeepsAll (s : State C timeout) (e : Edges dw) : Prop :=
  Phy.ReceivesAll s.usbPhy (usbPhyIn s e) ∧ Phy.SendsAll s.usbPhy (usbPhyIn s e)

instance (s : State C timeout) (e : Edges dw) : Decidable (KeepsAll s e) :=
  inferInstanceAs (Decidable (_ ∧ _))

/-- The invariants of the modules. -/
def Inv (s : State C timeout) : Prop :=
  (((ReceiveInv s.usbPhy.bus ∧ C.UsbPhy.ReadBuffer.Bounded s.usbPhy.readBuffer) ∧
      C.UsbPhy.ReadFifo.Bounded s.usbPhy.readFifo) ∧
    C.LoopbackFifo.Bounded s.loopbackFifo) ∧
  (C.UsbPhy.WriteFifo.Bounded s.usbPhy.writeFifo ∧ TransmitInv s.usbPhy.bus)

theorem inv_init : Inv (init : State C timeout) :=
  ⟨⟨⟨⟨receiveInv_init, C.UsbPhy.ReadBuffer.bounded_init⟩, C.UsbPhy.ReadFifo.bounded_init⟩,
    C.LoopbackFifo.bounded_init⟩, C.UsbPhy.WriteFifo.bounded_init, transmitInv_init⟩

/-- The way round is a queue. -/
theorem refinesQueue :
    RefinesQueue (machine C timeout) KeepsAll Inv inside chipGives chipTakes := by
  have hreceive : RefinesQueue (machine C timeout) KeepsAll _ _ _ _ :=
    Phy.received_refinesQueue.component usbPhy fun _ _ h => h.1
  have hloop : RefinesQueue (machine C timeout) KeepsAll _ _ _ _ :=
    C.LoopbackFifo.refinesQueue.gated.component loopbackFifo fun _ _ _ _ _ => trivial
  have hsend : RefinesQueue (machine C timeout) KeepsAll _ _ _ _ :=
    Phy.toSend_refinesQueue.component usbPhy fun _ _ h => h.2
  refine (hreceive.chain hloop fun s e => ?_).chain hsend fun s e => ?_
  · obtain ⟨usb, sys⟩ := e
    cases sys with
    | false => exact beat_false_right _ _
    | true => rfl
  · obtain ⟨usb, sys⟩ := e
    cases sys <;> rfl

theorem inside_init : inside (init : State C timeout) = [] := by
  unfold inside Phy.toSend Phy.received
  simp only [init, Phy.init, C.UsbPhy.WriteFifo.contents_init, C.UsbPhy.ReadFifo.contents_init,
    C.UsbPhy.ReadBuffer.contents_init, C.LoopbackFifo.contents_init]
  rfl

/-- **The host gets what it has sent.**  Whatever the two clocks and the chip do, in runs
without the steps in which the bus machine loses a word, the chip has taken the words that
it gave, in order, but for at most 2310 on their way. -/
theorem echo (es : List (Edges dw)) (hok : (machine C timeout).AllSteps KeepsAll init es) :
    let s := (machine C timeout).run init es
    let tr := (machine C timeout).trace init es
    moved chipGives tr = moved chipTakes tr ++ inside s ∧ (inside s).length ≤ 2310 := by
  intro s tr
  have hrun := refinesQueue.run inv_init es hok
  rw [inside_init, List.nil_append] at hrun
  have hInv := (machine C timeout).invariant_run refinesQueue.inv inv_init es hok
  refine ⟨hrun, ?_⟩
  have hsend := Phy.length_toSend_le hInv.2.1
  have hreceive := Phy.length_received_le hInv.1.1.1.2 hInv.1.1.2
  have hloop : (C.LoopbackFifo.contents s.loopbackFifo).length ≤ 2048 := hInv.1.2
  unfold inside
  rw [List.length_append, List.length_append]
  change (Phy.toSend s.usbPhy).length ≤ 129 at hsend
  change (Phy.received s.usbPhy).length ≤ 133 at hreceive
  omega

/-- The design, with queues and FIFOs between the clocks. -/
def blocks : Config 32 where
  UsbPhy :=
    { ReadFifo := AsyncFIFO.synchronized (BitVec 32) 128
      WriteFifo := AsyncFIFO.synchronized (BitVec 32) 128
      ReadBuffer := SyncFIFO.queue (BitVec 32) 4 }
  LoopbackFifo := SyncFIFO.queue (BitVec 32) 2048

/-- An instant with edges of both clocks. -/
def instant (txeN rxfN : Bool) (dataR : BitVec 32) : Edges 32 := ⟨some ⟨txeN, rxfN, dataR⟩, true⟩

/-- The chip gives two words, and takes them when they come back. -/
def twoWords : List (Edges 32) :=
  [instant true false 0, instant true false 0, instant true false 7, instant true false 8,
    instant true true 0] ++ List.replicate 16 (instant false true 0)

theorem echo_twoWords :
    let s := (machine blocks 1024).run init twoWords
    let tr := (machine blocks 1024).trace init twoWords
    moved chipGives tr = moved chipTakes tr ++ inside s ∧ (inside s).length ≤ 2310 :=
  echo twoWords (by decide +kernel)

end UsbSniffer.Soc.Loopback
