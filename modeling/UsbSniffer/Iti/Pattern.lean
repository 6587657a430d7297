/-
  Iti/Pattern.lean --- the start pattern generator of gateware/iti.py.

  On a strobe of `start` the generator sends its pattern `repeat` times.  The
  software uses it to realign its decoding when the FIFO was flushed.
-/
import UsbSniffer.Iti.Packer

set_option autoImplicit false

namespace UsbSniffer.Iti.ITIPattern

open UsbSniffer.Sync

/-- The parameters; the source asserts the bounds on `length`. -/
structure Config where
  pattern : BitVec 40
  length : Nat
  repeats : Nat
  length_ge : 2 ≤ length
  length_le : length ≤ 5

/-- The states of `ITIPattern`. -/
inductive Fsm
  | idle
  | pattern
  deriving DecidableEq, Repr

/-- The beats of the pattern that have been sent, and the state. -/
structure State where
  /-- `Signal(max=repeat+1)`. -/
  count : Nat
  fsm : Fsm
  deriving DecidableEq, Repr

/-- No pattern is being sent. -/
def init : State where
  count := 0
  fsm := .idle

/-- The beat offered. -/
structure Out where
  sourceValid : Bool
  source : Beat
  deriving DecidableEq, Repr

/-- The beat that the generator repeats. -/
def Config.beat (C : Config) : Beat where
  data := C.pattern
  len := BitVec.ofNat 2 (C.length - 2)

/-- The outputs in a cycle. -/
def out (C : Config) (s : State) : Out :=
  match s.fsm with
  | .idle => { sourceValid := false, source := { data := 0, len := 0 } }
  | .pattern => { sourceValid := true, source := C.beat }

/-- The clock edge, with `start` and `source.ready`. -/
def next (C : Config) (s : State) (start sourceReady : Bool) : State :=
  match s.fsm with
  | .idle => if start then { count := C.repeats, fsm := .pattern } else s
  | .pattern =>
      if sourceReady then
        { count := (s.count + (2 ^ bitsFor C.repeats - 1)) % 2 ^ bitsFor C.repeats
          fsm := if s.count = 1 then .idle else .pattern }
      else s

end UsbSniffer.Iti.ITIPattern
