/-
  Ft601/Phy.lean --- both directions of gateware/ft601.py, with its FIFOs.

  The bus machine runs with the clock of the chip.  A FIFO between the clocks brings it
  the words to send, and behind the read buffer another one takes the words received to
  the clock of the system.  Each direction is one queue, in runs that meet none of the
  steps in which the bus machine loses a word.  In the loopback design the words received
  go back to the chip, and the host gets what it has sent.
-/
import UsbSniffer.Ft601.Transmit
import UsbSniffer.Ft601.Receive
import UsbSniffer.Sync.Component

set_option autoImplicit false

namespace UsbSniffer.FT601Sync.Phy

open UsbSniffer.Sync

/-! ## The modules together -/

/-- The FIFOs, for words of `dw` bits. -/
structure Config (dw : Nat) where
  ReadFifo : AsyncFIFO (BitVec dw) 128
  WriteFifo : AsyncFIFO (BitVec dw) 128
  ReadBuffer : SyncFIFO (BitVec dw) 4

/-- The registers of both clock domains. -/
structure State {dw : Nat} (C : Config dw) (timeout : Nat) where
  bus : FT601Sync.State dw timeout
  writeFifo : C.WriteFifo.State
  readBuffer : C.ReadBuffer.State
  readFifo : C.ReadFifo.State

variable {dw timeout : Nat} {C : Config dw}

/-- The registers at a reset. -/
def init : State C timeout where
  bus := FT601Sync.init
  writeFifo := C.WriteFifo.init
  readBuffer := C.ReadBuffer.init
  readFifo := C.ReadFifo.init

/-- The pads at an edge of the `usb` clock. -/
structure Pads (dw : Nat) where
  txeN : Bool
  rxfN : Bool
  /-- The bus. -/
  dataR : BitVec dw
  deriving DecidableEq, Repr

/-- `sink` and `source.ready` at an edge of the `sys` clock. -/
structure User (dw : Nat) where
  sinkValid : Bool
  sinkData : BitVec dw
  sourceReady : Bool
  deriving DecidableEq, Repr

/-- The clock edges of an instant. -/
structure Edges (dw : Nat) where
  usb : Option (Pads dw)
  sys : Option (User dw)
  deriving DecidableEq, Repr

/-- The wires of each module. -/
structure Out (dw : Nat) where
  bus : Option (FT601Sync.In dw) × Option (FT601Sync.Out dw)
  writeFifo : AsyncFIFO.In (BitVec dw) × AsyncFIFO.Out (BitVec dw)
  readBuffer : Option (SyncFIFO.In (BitVec dw)) × Option (SyncFIFO.Out (BitVec dw))
  readFifo : AsyncFIFO.In (BitVec dw) × AsyncFIFO.Out (BitVec dw)

/-! ### Wires -/

/-- What the bus machine sees of the chip and of its FIFOs. -/
def busIn (s : State C timeout) (pads : Pads dw) : FT601Sync.In dw where
  txeN := pads.txeN
  rxfN := pads.rxfN
  dataR := pads.dataR
  writeValid := C.WriteFifo.readable s.writeFifo
  writeData := C.WriteFifo.dout s.writeFifo
  readReady := C.ReadBuffer.writable s.readBuffer

/-- What the bus machine does at an edge. -/
def busOut (s : State C timeout) (pads : Pads dw) : FT601Sync.Out dw :=
  FT601Sync.out s.bus (busIn s pads)

/-- The words of the user go in, and the bus machine takes them out. -/
def writeFifoIn (s : State C timeout) (e : Edges dw) : AsyncFIFO.In (BitVec dw) where
  write := e.sys.map fun user => (user.sinkValid, user.sinkData)
  read := e.usb.map fun pads => (busOut s pads).writeReady

/-- The words that the bus machine has captured go in. -/
def readBufferIn (s : State C timeout) (pads : Pads dw) : SyncFIFO.In (BitVec dw) where
  we := (busOut s pads).readValid
  din := (busOut s pads).readData
  re := C.ReadFifo.writable s.readFifo

/-- The words of the buffer go in, and the user takes them out. -/
def readFifoIn (s : State C timeout) (e : Edges dw) : AsyncFIFO.In (BitVec dw) where
  write := e.usb.map fun _ => (C.ReadBuffer.readable s.readBuffer, C.ReadBuffer.dout s.readBuffer)
  read := e.sys.map fun user => user.sourceReady

/-! ### The machine -/

/-- The wires at an instant. -/
def out (s : State C timeout) (e : Edges dw) : Out dw where
  bus := (e.usb.map (busIn s), e.usb.map (busOut s))
  writeFifo := (writeFifoIn s e, C.WriteFifo.out s.writeFifo)
  readBuffer := (e.usb.map (readBufferIn s), e.usb.map fun _ => C.ReadBuffer.out s.readBuffer)
  readFifo := (readFifoIn s e, C.ReadFifo.out s.readFifo)

/-- The registers after the edges of an instant. -/
def next (s : State C timeout) (e : Edges dw) : State C timeout where
  bus := e.usb.elim s.bus fun pads => FT601Sync.next s.bus (busIn s pads)
  writeFifo := C.WriteFifo.next s.writeFifo (writeFifoIn s e).write (writeFifoIn s e).read
  readBuffer := e.usb.elim s.readBuffer fun pads => C.ReadBuffer.next s.readBuffer
    (readBufferIn s pads).we (readBufferIn s pads).din (readBufferIn s pads).re
  readFifo := C.ReadFifo.next s.readFifo (readFifoIn s e).write (readFifoIn s e).read

/-- `FT601Sync` with its FIFOs. -/
def machine (C : Config dw) (timeout : Nat) : Machine (State C timeout) (Edges dw) (Out dw) where
  out := out
  next := next

/-! ## The parts -/

/-- The bus machine in its place. -/
def bus : Component (machine C timeout) (FT601Sync.machine dw timeout).gated where
  proj := State.bus
  view c := c.2.bus
  out_eq _ e := by obtain ⟨_ | _, _⟩ := e <;> rfl
  next_eq _ e := by obtain ⟨_ | _, _⟩ := e <;> rfl

/-- The FIFO of the words to send in its place. -/
def writeFifo : Component (machine C timeout) C.WriteFifo.machine where
  proj := State.writeFifo
  view c := c.2.writeFifo
  out_eq _ _ := rfl
  next_eq _ _ := rfl

/-- The buffer of the words received in its place. -/
def readBuffer : Component (machine C timeout) C.ReadBuffer.machine.gated where
  proj := State.readBuffer
  view c := c.2.readBuffer
  out_eq _ e := by obtain ⟨_ | _, _⟩ := e <;> rfl
  next_eq _ e := by obtain ⟨_ | _, _⟩ := e <;> rfl

/-- The FIFO behind it in its place. -/
def readFifo : Component (machine C timeout) C.ReadFifo.machine where
  proj := State.readFifo
  view c := c.2.readFifo
  out_eq _ _ := rfl
  next_eq _ _ := rfl

/-! ## The two queues -/

/-- The word accepted on `sink` at an instant. -/
def sinkWord (c : Edges dw × Out dw) : List (BitVec dw) := AsyncFIFO.sinkWord c.2.writeFifo

/-- The word taken from `source`. -/
def sourceWord (c : Edges dw × Out dw) : List (BitVec dw) := AsyncFIFO.sourceWord c.2.readFifo

/-- The word that the chip takes. -/
def chipTakes (c : Edges dw × Out dw) : List (BitVec dw) :=
  Machine.atEdge takenByChip c.2.bus

/-- The word that the chip gives. -/
def chipGives (c : Edges dw × Out dw) : List (BitVec dw) :=
  Machine.atEdge poppedByChip c.2.bus

/-- The words to send, the oldest first. -/
def toSend (s : State C timeout) : List (BitVec dw) :=
  pending s.bus ++ C.WriteFifo.contents s.writeFifo

/-- The words received. -/
def received (s : State C timeout) : List (BitVec dw) :=
  C.ReadFifo.contents s.readFifo ++ (C.ReadBuffer.contents s.readBuffer ++ kept s.bus)

/-- The step is not one in which the bus machine loses a word that it sends. -/
def SendsAll (s : State C timeout) (e : Edges dw) : Prop :=
  Machine.whenEdge KeepsInFlight s.bus (e.usb.map (busIn s))

/-- The step is not the one in which it loses a word that it receives. -/
def ReceivesAll (s : State C timeout) (e : Edges dw) : Prop :=
  Machine.whenEdge CapturesRead s.bus (e.usb.map (busIn s))

instance (s : State C timeout) (e : Edges dw) : Decidable (SendsAll s e) :=
  inferInstanceAs (Decidable (Machine.whenEdge _ _ _))

instance (s : State C timeout) (e : Edges dw) : Decidable (ReceivesAll s e) :=
  inferInstanceAs (Decidable (Machine.whenEdge _ _ _))

/-- What is to be sent is a queue. -/
theorem toSend_refinesQueue : RefinesQueue (machine C timeout) SendsAll
    (fun s => C.WriteFifo.Bounded s.writeFifo ∧ TransmitInv s.bus) toSend sinkWord chipTakes := by
  have hfifo : RefinesQueue (machine C timeout) SendsAll _ _ _ _ :=
    C.WriteFifo.refinesQueue.component writeFifo fun _ _ _ => trivial
  have hbus : RefinesQueue (machine C timeout) SendsAll _ _ _ _ :=
    transmit_refinesQueue.gated.component bus fun _ _ h => h
  refine hfifo.chain hbus fun s e => ?_
  obtain ⟨usb, sys⟩ := e
  cases usb with
  | none => exact beat_false_right _ _
  | some pads => rfl

/-- What is received is a queue. -/
theorem received_refinesQueue : RefinesQueue (machine C timeout) ReceivesAll
    (fun s => (ReceiveInv s.bus ∧ C.ReadBuffer.Bounded s.readBuffer) ∧
      C.ReadFifo.Bounded s.readFifo) received chipGives sourceWord := by
  have hbus : RefinesQueue (machine C timeout) ReceivesAll _ _ _ _ :=
    receive_refinesQueue.gated.component bus fun _ _ h => h
  have hbuffer : RefinesQueue (machine C timeout) ReceivesAll _ _ _ _ :=
    C.ReadBuffer.refinesQueue.gated.component readBuffer fun _ _ _ _ _ => trivial
  have hfifo : RefinesQueue (machine C timeout) ReceivesAll _ _ _ _ :=
    C.ReadFifo.refinesQueue.component readFifo fun _ _ _ => trivial
  exact (hbus.chain hbuffer fun s e => by obtain ⟨_ | _, _⟩ := e <;> rfl).chain hfifo
    fun s e => by obtain ⟨_ | _, _⟩ := e <;> rfl

theorem length_toSend_le {s : State C timeout} (h : C.WriteFifo.Bounded s.writeFifo) :
    (toSend s).length ≤ 129 := by
  have hpending : (pending s.bus).length ≤ 1 := by
    unfold pending
    split_ifs <;> simp
  unfold AsyncFIFO.Bounded at h
  unfold toSend
  rw [List.length_append]
  omega

theorem length_received_le {s : State C timeout} (hbuffer : C.ReadBuffer.Bounded s.readBuffer)
    (hfifo : C.ReadFifo.Bounded s.readFifo) : (received s).length ≤ 133 := by
  have hkept : (kept s.bus).length ≤ 1 := by
    unfold kept
    split_ifs <;> simp
  unfold SyncFIFO.Bounded at hbuffer
  unfold AsyncFIFO.Bounded at hfifo
  unfold received
  rw [List.length_append, List.length_append]
  omega

/-- **Neither direction loses, duplicates or reorders a word**, whatever the two clocks,
the chip and the user do, in runs without the steps in which the bus machine loses one: the
words of the user are those that the chip has taken and at most 129 more, and the words of
the chip are those that the user has taken and at most 133 more. -/
theorem both_directions (es : List (Edges dw)) :
    let s := (machine C timeout).run init es
    let tr := (machine C timeout).trace init es
    ((machine C timeout).AllSteps SendsAll init es →
        moved sinkWord tr = moved chipTakes tr ++ toSend s ∧ (toSend s).length ≤ 129) ∧
      ((machine C timeout).AllSteps ReceivesAll init es →
        moved chipGives tr = moved sourceWord tr ++ received s ∧ (received s).length ≤ 133) := by
  intro s tr
  constructor
  · intro hok
    have hinit : C.WriteFifo.Bounded (init : State C timeout).writeFifo ∧
        TransmitInv (init : State C timeout).bus :=
      ⟨C.WriteFifo.bounded_init, transmitInv_init⟩
    have hempty : toSend (init : State C timeout) = [] := by
      unfold toSend
      simp only [init, C.WriteFifo.contents_init]
      rfl
    have hrun := toSend_refinesQueue.run hinit es hok
    rw [hempty, List.nil_append] at hrun
    exact ⟨hrun, length_toSend_le
      ((machine C timeout).invariant_run toSend_refinesQueue.inv hinit es hok).1⟩
  · intro hok
    have hinit : (ReceiveInv (init : State C timeout).bus ∧
        C.ReadBuffer.Bounded (init : State C timeout).readBuffer) ∧
        C.ReadFifo.Bounded (init : State C timeout).readFifo :=
      ⟨⟨receiveInv_init, C.ReadBuffer.bounded_init⟩, C.ReadFifo.bounded_init⟩
    have hempty : received (init : State C timeout) = [] := by
      unfold received
      simp only [init, C.ReadFifo.contents_init, C.ReadBuffer.contents_init]
      rfl
    have hrun := received_refinesQueue.run hinit es hok
    rw [hempty, List.nil_append] at hrun
    have hInv := (machine C timeout).invariant_run received_refinesQueue.inv hinit es hok
    exact ⟨hrun, length_received_le hInv.1.2 hInv.2⟩

/-- Queues, and FIFOs between the clocks. -/
def fifos : Config 32 where
  ReadFifo := AsyncFIFO.synchronized (BitVec 32) 128
  WriteFifo := AsyncFIFO.synchronized (BitVec 32) 128
  ReadBuffer := SyncFIFO.queue (BitVec 32) 4

/-- An edge of the clock of the chip. -/
def chipEdge (txeN rxfN : Bool) (dataR : BitVec 32) : Option (Pads 32) := some ⟨txeN, rxfN, dataR⟩

/-- An edge of the clock of the user, who takes what has come and may have a word. -/
def userEdge (word : Option (BitVec 32)) : Option (User 32) := some ⟨word.isSome, word.getD 0, true⟩

/-- The user has two words for the chip, and the chip has two for the user. -/
def twoEach : List (Edges 32) :=
  [⟨none, userEdge (some 5)⟩, ⟨chipEdge true false 0, userEdge (some 6)⟩,
    ⟨chipEdge true false 0, none⟩, ⟨chipEdge true false 7, userEdge none⟩,
    ⟨chipEdge true false 8, none⟩, ⟨chipEdge true true 0, none⟩] ++
    List.replicate 12 ⟨chipEdge false true 0, userEdge none⟩

theorem both_directions_twoEach :
    let s := (machine fifos 1024).run init twoEach
    let tr := (machine fifos 1024).trace init twoEach
    (moved sinkWord tr = moved chipTakes tr ++ toSend s ∧ (toSend s).length ≤ 129) ∧
      (moved chipGives tr = moved sourceWord tr ++ received s ∧ (received s).length ≤ 133) ∧
      moved chipTakes tr = [5, 6] ∧ moved sourceWord tr = [7, 8] :=
  ⟨(both_directions twoEach).1 (by decide +kernel), (both_directions twoEach).2 (by decide +kernel),
    by decide +kernel, by decide +kernel⟩

end UsbSniffer.FT601Sync.Phy
