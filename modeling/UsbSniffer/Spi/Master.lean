/-
  Spi/Master.lean --- the SPI master of the flash (gateware/spi.py, SPIMaster).

  A divider that never stops gives two strobes in each period of `div` cycles: the clock
  pad rises behind `set_clk` and falls behind `clr_clk`.  The state machine lets the clock
  out and moves the shift registers for `length` periods.
-/
import UsbSniffer.Sync.Machine

set_option autoImplicit false

namespace UsbSniffer.Spi

open UsbSniffer.Sync

namespace SPIMaster

/-- The states of `SPIMaster`. -/
inductive Fsm
  | idle
  | waitClk
  | shift
  | «end»
  deriving DecidableEq, Repr

variable {width : Nat}

/-- A write to `_ctrl`, the storage of `_mosi`, and the pad `miso`. -/
structure In (width : Nat) where
  re : Bool
  r : BitVec 16
  storage : BitVec width
  miso : Bool

/-- The registers of the master. -/
structure State (width : Nat) where
  /-- the divider, below `div` -/
  i : Nat
  clk : Bool
  length : BitVec 8
  count : BitVec 8
  fsm : Fsm
  /-- the bit captured when the clock rises -/
  miso : Bool
  srMiso : BitVec width
  srMosi : BitVec width
  /-- the pad `mosi` -/
  mosi : Bool
  deriving DecidableEq

/-- No transfer is under way. -/
def init : State width := ⟨0, false, 0, 0, .idle, false, 0, 0, false⟩

namespace In

/-- The host writes the bit that starts a transfer. -/
def start (x : In width) : Bool := x.re && x.r.getLsbD 0

end In

namespace State

/-- `i == div//2-1`. -/
def setClk (div : Nat) (s : State width) : Bool := s.i + 1 == div / 2

/-- `i == div-1`. -/
def clrClk (div : Nat) (s : State width) : Bool := s.i + 1 == div

/-- `enable_cs`. -/
def enableCs (s : State width) : Bool := s.fsm == .shift

/-- `enable_shift`. -/
def enableShift (s : State width) : Bool := s.fsm == .shift || s.fsm == .end

/-- `done`. -/
def done (s : State width) : Bool := s.fsm == .idle

/-- `sr_miso` takes the bit that was captured. -/
def shiftsMiso (div : Nat) (s : State width) : Bool :=
  s.enableShift && !s.setClk div && s.clrClk div

end State

/-- The state after the clock edge. -/
def nextFsm (div : Nat) (s : State width) (x : In width) : Fsm :=
  match s.fsm with
  | .idle => if x.start then .waitClk else .idle
  | .waitClk => if s.clrClk div then .shift else .waitClk
  | .shift => if s.count == s.length then .end else .shift
  | .end => if s.setClk div then .idle else .end

/-- The bits that have been sent, after the clock edge. -/
def nextCount (div : Nat) (s : State width) (x : In width) : BitVec 8 :=
  match s.fsm with
  | .idle => if x.start then 0 else s.count
  | .shift => if s.count == s.length then s.count else if s.clrClk div then s.count + 1 else s.count
  | .waitClk | .end => s.count

/-- The clock edge. -/
def next (div : Nat) (s : State width) (x : In width) : State width where
  i := if s.clrClk div then 0 else s.i + 1
  -- the later assignment wins
  clk := if s.clrClk div then false else if s.setClk div then s.enableCs else s.clk
  length := if x.re then x.r.extractLsb' 8 8 else s.length
  count := nextCount div s x
  fsm := nextFsm div s x
  miso := if s.enableShift && s.setClk div then x.miso else s.miso
  srMiso := if s.shiftsMiso div then s.srMiso.shiftConcat s.miso else s.srMiso
  srMosi :=
    if x.start then x.storage
    else if s.setClk div && s.enableShift then s.srMosi.shiftConcat false
    else s.srMosi
  mosi :=
    if x.start then s.mosi
    else if s.setClk div && s.enableShift then s.mosi
    else if s.clrClk div then s.srMosi.msb
    else s.mosi

/-- What is seen of the master: its pads, and the registers that the software reads. -/
structure Wires (width : Nat) where
  csN : Bool
  clk : Bool
  mosi : Bool
  done : Bool
  miso : BitVec width

/-- All of it comes from registers. -/
def wires (s : State width) : Wires width := ⟨!s.enableCs, s.clk, s.mosi, s.done, s.srMiso⟩

/-- What is seen on both sides of the clock edge that ends a cycle, and whether `sr_miso`
is shifted at it. -/
structure Edge (width : Nat) where
  before : Wires width
  after : Wires width
  shiftsMiso : Bool

/-- `SPIMaster`, with the wires before and after each edge. -/
def machine (div width : Nat) : Machine (State width) (In width) (Edge width) where
  out s x := ⟨wires s, wires (next div s x), s.shiftsMiso div⟩
  next := next div

/-- The pad `clk` rises at the end of the cycle. -/
def rises (c : In width × Edge width) : Bool := !c.2.before.clk && c.2.after.clk

/-- `sr_miso` is shifted at the end of the cycle. -/
def shifts (c : In width × Edge width) : Bool := c.2.shiftsMiso

/-! ## The strobes -/

variable {div : Nat} {s : State width}

theorem State.setClk_iff : s.setClk div = true ↔ s.i + 1 = div / 2 := beq_iff_eq

theorem State.setClk_eq_false_iff : s.setClk div = false ↔ s.i + 1 ≠ div / 2 := beq_eq_false_iff_ne

theorem State.clrClk_iff : s.clrClk div = true ↔ s.i + 1 = div := beq_iff_eq

theorem State.clrClk_eq_false_iff : s.clrClk div = false ↔ s.i + 1 ≠ div := beq_eq_false_iff_ne

/-! ## Reachable states -/

/-- The divider stays in its period, and the clock is low between two transfers. -/
structure Inv (div : Nat) (s : State width) : Prop where
  phase : s.i < div
  low : s.fsm = .idle ∨ s.fsm = .waitClk → s.clk = false

theorem inv_init (hdiv : 0 < div) : Inv div (init : State width) := ⟨hdiv, fun _ => rfl⟩

theorem Inv.next (h : Inv div s) (x : In width) : Inv div (next div s x) where
  phase := by
    have hphase := h.phase
    simp only [SPIMaster.next, State.clrClk, beq_iff_eq]
    split_ifs <;> omega
  low := by
    intro hfsm
    have hlow := h.low
    cases hs : s.fsm with
    | idle | waitClk => simp [SPIMaster.next, State.enableCs, hs, hlow]
    | shift =>
      simp only [SPIMaster.next, nextFsm, hs] at hfsm
      split_ifs at hfsm <;> simp at hfsm
    | «end» =>
      -- the transfer ends where the clock would be set
      simp only [SPIMaster.next, nextFsm, hs] at hfsm
      cases hset : s.setClk div with
      | false => simp [hset] at hfsm
      | true => simp [SPIMaster.next, State.enableCs, hs, hset]

theorem inv_run (hdiv : 0 < div) (is : List (In width)) :
    Inv div ((machine div width).run init is) :=
  (machine div width).history_induction_always (fun s _ => Inv div s) (inv_init hdiv)
    (fun _ _ x h => h.next x) is

end SPIMaster

end UsbSniffer.Spi
