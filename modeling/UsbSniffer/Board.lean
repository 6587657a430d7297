/-
  Board.lean --- the lamps and the reset of the board (usbsniffer.py).

  A strobe of one cycle cannot be seen.  A lamp is kept lit for a time behind each one, or
  shows a counter when the host asks for it.
-/
import Mathlib.Data.List.DropRight
import Mathlib.Data.BitVec
import UsbSniffer.Sync.Machine

set_option autoImplicit false

namespace UsbSniffer

open UsbSniffer.Sync

/-! ## Lamps -/

namespace BlinkerKeep

/-- The edge of the counter, from `s`. -/
def next (timeout counter : Nat) (s : Bool) : Nat :=
  if s then timeout else if counter > 0 then counter - 1 else 0

/-- The strobe kept up: `o`. -/
def o (counter : Nat) : Bool := decide (counter > 0)

/-- The counter after some cycles. -/
def run (timeout : Nat) (strobes : List Bool) : Nat := strobes.foldl (next timeout) 0

theorem run_concat (timeout : Nat) (strobes : List Bool) (s : Bool) :
    run timeout (strobes ++ [s]) = next timeout (run timeout strobes) s := by
  unfold run
  rw [List.foldl_append]
  rfl

/-- The counter is above `m` when there was a strobe in the last `timeout - m` cycles. -/
theorem lt_run_iff (timeout : Nat) (strobes : List Bool) (m : Nat) :
    m < run timeout strobes ↔ true ∈ strobes.rtake (timeout - m) := by
  induction strobes using List.reverseRecOn generalizing m with
  | nil => simp [run]
  | append_singleton strobes s ih =>
    rw [run_concat]
    rcases Nat.lt_or_ge m timeout with hlt | hge
    · obtain ⟨k, hk⟩ : ∃ k, timeout - m = k + 1 := ⟨timeout - m - 1, by omega⟩
      rw [hk, List.rtake_concat_succ]
      cases s with
      | true => simp [next, hlt]
      | false =>
        have hprev := ih (m + 1)
        rw [show timeout - (m + 1) = k by omega] at hprev
        have hnext : next timeout (run timeout strobes) false = run timeout strobes - 1 := by
          simp only [next, Bool.false_eq_true, if_false]
          split_ifs <;> omega
        rw [hnext, List.mem_append, List.mem_singleton, ← hprev]
        simp
        omega
    · rw [Nat.sub_eq_zero_of_le hge, List.rtake_zero]
      have hprev := ih m
      rw [Nat.sub_eq_zero_of_le hge, List.rtake_zero] at hprev
      have hle : run timeout strobes ≤ m := by simpa using hprev
      have hnext : next timeout (run timeout strobes) s ≤ m := by
        unfold next
        split_ifs <;> omega
      simpa using hnext

end BlinkerKeep

namespace BlinkerRGB

/-- The time-out of the lamps, in cycles, and the bits of the divider. -/
structure Config where
  timeout : Nat
  divbits : Nat
  divbits_le : 3 ≤ divbits

/-- The counters of the three `BlinkerKeep`, and that of the divider. -/
structure State (C : Config) where
  keepr : Nat
  keepg : Nat
  keepb : Nat
  counter : BitVec (C.divbits + 2)

/-- The register that forces the lamps, and the strobe of each colour. -/
structure In where
  forceblink : Bool
  sr : Bool
  sg : Bool
  sb : Bool
  deriving DecidableEq, Repr

/-- The pins, which are low for a lamp that is lit. -/
structure Leds where
  r : Bool
  g : Bool
  b : Bool
  deriving DecidableEq, Repr

variable {C : Config}

/-- The registers at the start. -/
def init : State C := ⟨0, 0, 0, 0⟩

/-- The pads, which are lit when low: the bits of the counter, or the strobes. -/
def leds (s : State C) (i : In) : Leds :=
  if i.forceblink then
    { r := !s.counter.getLsbD (C.divbits - 3)
      g := !s.counter.getLsbD (C.divbits - 2)
      b := !s.counter.getLsbD (C.divbits - 1) }
  else
    { r := !BlinkerKeep.o s.keepr
      g := !BlinkerKeep.o s.keepg
      b := !BlinkerKeep.o s.keepb }

/-- The clock edge. -/
def next (s : State C) (i : In) : State C where
  keepr := BlinkerKeep.next C.timeout s.keepr i.sr
  keepg := BlinkerKeep.next C.timeout s.keepg i.sg
  keepb := BlinkerKeep.next C.timeout s.keepb i.sb
  counter := s.counter + 1

/-- `BlinkerRGB`. -/
def machine (C : Config) : Machine (State C) In Leds where
  out := leds
  next := next

/-- The registers after some cycles. -/
theorem run_init (is : List In) : (machine C).run init is =
    { keepr := BlinkerKeep.run C.timeout (is.map In.sr)
      keepg := BlinkerKeep.run C.timeout (is.map In.sg)
      keepb := BlinkerKeep.run C.timeout (is.map In.sb)
      counter := BitVec.ofNat _ is.length } := by
  induction is using List.reverseRecOn with
  | nil => rfl
  | append_singleton is i ih =>
    have hcounter : BitVec.ofNat (C.divbits + 2) is.length + 1 =
        BitVec.ofNat _ (is.length + 1) := by
      rw [BitVec.ofNat_add]
      rfl
    rw [Machine.run_append, ih]
    simp only [Machine.run_cons, Machine.run_nil, machine, next, List.map_append, List.map_cons,
      List.map_nil, BlinkerKeep.run_concat, List.length_append, List.length_singleton, hcounter]

/-- **What the lamps show.**  In every cycle of every run a lamp is lit when its strobe was
high in one of the last `timeout` cycles, or, when the host forces it, by its bit of the
number of cycles since the start. -/
theorem lamps_shown (is : List In) (i : In) :
    leds ((machine C).run init is) i =
      if i.forceblink then
        ⟨!is.length.testBit (C.divbits - 3), !is.length.testBit (C.divbits - 2),
          !is.length.testBit (C.divbits - 1)⟩
      else
        ⟨!decide (true ∈ (is.map In.sr).rtake C.timeout),
          !decide (true ∈ (is.map In.sg).rtake C.timeout),
          !decide (true ∈ (is.map In.sb).rtake C.timeout)⟩ := by
  have hkeep : ∀ strobes : List Bool, BlinkerKeep.o (BlinkerKeep.run C.timeout strobes) =
      decide (true ∈ strobes.rtake C.timeout) := fun strobes =>
    decide_eq_decide.mpr (BlinkerKeep.lt_run_iff C.timeout strobes 0)
  have hbit : ∀ k, (BitVec.ofNat (C.divbits + 2) is.length).getLsbD (C.divbits - k) =
      is.length.testBit (C.divbits - k) := by
    intro k
    rw [BitVec.getLsbD_ofNat, decide_eq_true (by omega), Bool.true_and]
  rw [run_init]
  unfold leds
  dsimp only
  rw [hbit 3, hbit 2, hbit 1, hkeep, hkeep, hkeep]

end BlinkerRGB

/-! ## The reset of the delay lines -/

namespace CRG

/-- The registers of the reset of the clocks. -/
structure State where
  resetCounter : BitVec 4
  icReset : Bool
  deriving DecidableEq, Repr

/-- The reset is on, and the counter is full. -/
def init : State := ⟨15, true⟩

/-- The clock edge: the counter runs down, and then the reset goes off. -/
def next (s : State) : State :=
  if s.resetCounter != 0 then { s with resetCounter := s.resetCounter - 1 }
  else { s with icReset := false }

/-- The reset is high for sixteen cycles, and never again. -/
theorem icReset_iff (n : Nat) : (next^[n] init).icReset = true ↔ n < 16 := by
  have hlow : ∀ m, next^[m] ⟨0, false⟩ = ⟨0, false⟩ := fun m =>
    Function.iterate_fixed rfl m
  rcases Nat.lt_or_ge n 16 with hlt | hge
  · have hall : ∀ m < 16, (next^[m] init).icReset = true := by decide
    exact iff_of_true (hall n hlt) hlt
  · obtain ⟨m, rfl⟩ := Nat.exists_eq_add_of_le' hge
    rw [Function.iterate_add_apply, show next^[16] init = ⟨0, false⟩ by decide, hlow]
    exact iff_of_false Bool.false_ne_true (Nat.not_lt.mpr hge)

end CRG

end UsbSniffer
