/-
  Iti/Packer.lean --- the time stamp counter, the event register and the packer
  of gateware/iti.py.

  `ITIPacker` merges three producers onto one stream: the overflow of the time
  stamp counter, the event register and the captured bytes, in this order of
  priority.  A beat of its source is one record: a header byte, zero to three
  further time stamp bytes and, unless the record is of type NONE, a payload
  byte; `len` is the number of bytes less two.
-/
import Mathlib.Data.BitVec
import UsbSniffer.Clocker
import UsbSniffer.Sync.Bits

set_option autoImplicit false

namespace UsbSniffer.Iti

open UsbSniffer.Sync

/-- The type of an overflow record. -/
def PAYLOAD_NONE : BitVec 2 := 0

/-- The type of an event. -/
def PAYLOAD_EVENT : BitVec 2 := 1

/-- The type of a byte of data. -/
def PAYLOAD_DATA : BitVec 2 := 2

/-- The type of a command of the transceiver. -/
def PAYLOAD_RXCMD : BitVec 2 := 3

/-- A beat of the layout `[("data", 40), ("len", 2)]`. -/
structure Beat where
  data : BitVec 40
  len : BitVec 2
  deriving DecidableEq, Repr

/-- The bytes of a beat: the low `len + 2` bytes of its data. -/
def Beat.bytes (b : Beat) : List (BitVec 8) := Sync.bytes (b.len.toNat + 2) b.data

/-! ## ITITime -/

namespace ITITime

/-- The ticks since the last record, the overflow that waits, and the clocker. -/
structure State where
  diff : BitVec 28
  overflow : Bool
  tune : TuneClocker.State
  deriving DecidableEq, Repr

/-- The registers at a reset. -/
def init : State where
  diff := 0
  overflow := false
  tune := TuneClocker.init

/-- `int((60/100)*2**32)`, for a 60 MHz tick out of the 100 MHz clock. -/
def tuningWord : Nat := 2576980377

/-- How many more bytes are required to send the full time increment. -/
def len (diff : BitVec 28) : BitVec 2 :=
  if diff.toNat > 2 ^ 20 - 1 then 3
  else if diff.toNat > 2 ^ 12 - 1 then 2
  else if diff.toNat > 2 ^ 4 - 1 then 1
  else 0

/-- The clock edge, with `enable.storage`, `next` and `clear`. -/
def step (s : State) (enable next clear : Bool) : State :=
  let tune := TuneClocker.next tuningWord s.tune
  if !enable then { diff := 0, overflow := false, tune }
  else if next then { diff := 0, overflow := false, tune }
  else
    { diff := if s.tune.en then s.diff + 1 else s.diff
      overflow :=
        -- max value reached, trigger overflow; else acknowledge it
        if s.diff = BitVec.ofNat 28 (2 ^ 28 - 1) then true
        else if clear then false
        else s.overflow
      tune }

/-- The clocker runs on, whatever the counter does. -/
@[simp] theorem step_tune (s : State) (enable next clear : Bool) :
    (step s enable next clear).tune = TuneClocker.next tuningWord s.tune := by
  unfold step
  split_ifs <;> rfl

end ITITime

/-! ## ITIEvent -/

namespace ITIEvent

/-- The byte of the event, and whether it waits to be sent. -/
structure State where
  data : BitVec 8
  new : Bool
  deriving DecidableEq, Repr

/-- No event waits. -/
def init : State where
  data := 0
  new := false

/-- The clock edge, with the write strobe `event.re`, its value `event.r` and
`ack`. -/
def step (s : State) (re : Bool) (r : BitVec 8) (ack : Bool) : State :=
  if re then { data := r, new := true }
  else if !re && ack then { s with new := false }
  else s

end ITIEvent

/-! ## ITIPacker -/

namespace ITIPacker

/-- The registers of the packer. -/
structure State where
  time : ITITime.State
  ev : ITIEvent.State
  deriving DecidableEq, Repr

/-- The registers at a reset. -/
def init : State where
  time := ITITime.init
  ev := ITIEvent.init

/-- The registers written by the host, the byte offered, and the answer to the record. -/
structure In where
  /-- `time.enable.storage`. -/
  enable : Bool
  eventRe : Bool
  eventR : BitVec 8
  sinkValid : Bool
  sinkData : BitVec 8
  sinkCmd : Bool
  sourceReady : Bool
  deriving DecidableEq, Repr

/-- The wires of the first `comb` block. -/
structure Mux where
  payload : BitVec 8
  payloadType : BitVec 2
  diff : BitVec 28
  length : BitVec 2
  sourceValid : Bool
  clear : Bool
  next : Bool
  ack : Bool
  sinkReady : Bool
  deriving DecidableEq, Repr

/-- The branch that the packer is in: an overflow goes before an event, and an event before a
byte. -/
def mux (s : State) (i : In) : Mux :=
  if s.time.overflow then
    -- priority to overflow
    { payload := 0
      payloadType := PAYLOAD_NONE
      diff := BitVec.ofNat 28 (2 ^ 28 - 1)
      length := 3
      sourceValid := true
      clear := i.sourceReady
      next := false
      ack := false
      sinkReady := false }
  else if s.ev.new then
    -- received event
    { payload := s.ev.data
      payloadType := PAYLOAD_EVENT
      diff := s.time.diff
      length := ITITime.len s.time.diff
      sourceValid := true
      clear := false
      next := i.sourceReady
      ack := i.sourceReady
      sinkReady := false }
  else if i.sinkValid then
    -- rxcmd or data
    { payload := i.sinkData
      payloadType := if i.sinkCmd then PAYLOAD_RXCMD else PAYLOAD_DATA
      diff := s.time.diff
      length := ITITime.len s.time.diff
      sourceValid := true
      clear := false
      next := i.sourceReady
      ack := false
      sinkReady := i.sourceReady }
  else
    { payload := 0
      payloadType := 0
      diff := 0
      length := 0
      sourceValid := false
      clear := false
      next := false
      ack := false
      sinkReady := false }

/-- The second `comb` block: the beat made of a record's fields. -/
def pack (payloadType : BitVec 2) (payload : BitVec 8) (diff : BitVec 28)
    (length : BitVec 2) : Beat :=
  -- header
  let header := assign (0 : BitVec 40) 0 8 (cat (cat (slice diff 0 4) length) payloadType)
  -- additional timestamp
  let stamped :=
    if length = 3 then
      assign (assign (assign header 24 32 (slice diff 20 28)) 16 24 (slice diff 12 20))
        8 16 (slice diff 4 12)
    else if length = 2 then
      assign (assign header 16 24 (slice diff 12 20)) 8 16 (slice diff 4 12)
    else if length = 1 then assign header 8 16 (slice diff 4 12)
    else header
  { data :=
      if length = 3 then assign stamped 32 40 payload
      else if length = 2 then assign stamped 24 32 payload
      else if length = 1 then assign stamped 16 24 payload
      else assign stamped 8 16 payload
    -- length (-2 to keep value on 2 bits)
    len :=
      if payloadType = PAYLOAD_NONE then 1 + length - 2
      else 1 + length + 1 - 2 }

/-- The answer to the byte, and the record offered. -/
structure Out where
  sinkReady : Bool
  sourceValid : Bool
  source : Beat
  deriving DecidableEq, Repr

/-- The outputs in a cycle. -/
def out (s : State) (i : In) : Out :=
  let m := mux s i
  { sinkReady := m.sinkReady
    sourceValid := m.sourceValid
    source := pack m.payloadType m.payload m.diff m.length }

/-- The clock edge. -/
def next (s : State) (i : In) : State :=
  let m := mux s i
  { time := ITITime.step s.time i.enable m.next m.clear
    ev := ITIEvent.step s.ev i.eventRe i.eventR m.ack }

/-- What one cycle of the multiplexer does: it sends the overflow record, an
event, a captured beat or nothing, and it answers the producer it serves, and no
other, exactly when the record is taken. -/
theorem mux_cases (s : State) (i : In) :
    (s.time.overflow = true ∧ mux s i =
      { payload := 0, payloadType := PAYLOAD_NONE, diff := BitVec.ofNat 28 (2 ^ 28 - 1),
        length := 3, sourceValid := true, clear := i.sourceReady, next := false,
        ack := false, sinkReady := false }) ∨
    (s.time.overflow = false ∧ s.ev.new = true ∧ mux s i =
      { payload := s.ev.data, payloadType := PAYLOAD_EVENT, diff := s.time.diff,
        length := ITITime.len s.time.diff, sourceValid := true, clear := false,
        next := i.sourceReady, ack := i.sourceReady, sinkReady := false }) ∨
    (s.time.overflow = false ∧ s.ev.new = false ∧ i.sinkValid = true ∧ mux s i =
      { payload := i.sinkData,
        payloadType := if i.sinkCmd then PAYLOAD_RXCMD else PAYLOAD_DATA,
        diff := s.time.diff, length := ITITime.len s.time.diff, sourceValid := true,
        clear := false, next := i.sourceReady, ack := false, sinkReady := i.sourceReady }) ∨
    (s.time.overflow = false ∧ s.ev.new = false ∧ i.sinkValid = false ∧ mux s i =
      { payload := 0, payloadType := 0, diff := 0, length := 0, sourceValid := false,
        clear := false, next := false, ack := false, sinkReady := false }) := by
  unfold mux
  cases s.time.overflow <;> cases s.ev.new <;> cases i.sinkValid <;> simp

end ITIPacker

end UsbSniffer.Iti
