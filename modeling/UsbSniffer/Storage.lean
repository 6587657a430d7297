/-
  Storage.lean --- the meter of gateware/storage.py.

  `OverflowMeter` is a wire between a sink and a source, and counts the cycles in which
  a beat on it has to wait.
-/
import Mathlib.Data.BitVec
import Mathlib.Data.List.DropRight
import UsbSniffer.Sync.Queue

set_option autoImplicit false

namespace UsbSniffer.OverflowMeter

open UsbSniffer.Sync

variable {α : Type}

/-- `count.status`. -/
abbrev State := BitVec 32

/-- No byte has been lost. -/
def init : State := 0

/-- The beat offered, the answer to it, and the strobe of the register. -/
structure In (α : Type) where
  sinkValid : Bool
  sinkData : α
  sourceReady : Bool
  /-- The strobe `reset.re`. -/
  reset : Bool
  deriving DecidableEq, Repr

/-- The beat passed on, and the answer passed back. -/
structure Out (α : Type) where
  sinkReady : Bool
  sourceValid : Bool
  sourceData : α
  deriving DecidableEq, Repr

/-- The meter is a wire for the beats. -/
def out (i : In α) : Out α where
  sinkReady := i.sourceReady
  sourceValid := i.sinkValid
  sourceData := i.sinkData

/-- The clock edge: a beat that is offered and not taken is counted. -/
def next (s : State) (i : In α) : State :=
  if i.reset then 0 else if i.sinkValid && !(out i).sinkReady then s + 1 else s

/-- `OverflowMeter`. -/
def machine (α : Type) : Machine State (In α) (Out α) where
  out _ := out
  next := next

/-- A beat waits in this cycle. -/
def stalled (c : In α × Out α) : Bool := c.1.sinkValid && !c.2.sinkReady

/-- The cycles behind the last one with a strobe of `reset`. -/
def sinceReset (tr : List (In α × Out α)) : List (In α × Out α) :=
  tr.rtakeWhile fun c => !c.1.reset

theorem sinceReset_concat (tr : List (In α × Out α)) (c : In α × Out α) :
    sinceReset (tr ++ [c]) = if c.1.reset then [] else sinceReset tr ++ [c] := by
  unfold sinceReset
  rw [List.rtakeWhile_concat]
  cases c.1.reset <;> rfl

/-- The meter shows the cycles since its reset in which a beat had to wait, modulo `2 ^ 32`. -/
theorem count_run (is : List (In α)) :
    ((machine α).run init is).toNat =
      (sinceReset ((machine α).trace init is)).countP stalled % 2 ^ 32 := by
  refine (machine α).history_induction_always
    (fun s tr => s.toNat = (sinceReset tr).countP stalled % 2 ^ 32) rfl ?_ is
  intro s tr i h
  have hcycle : stalled (i, (machine α).out s i) = (i.sinkValid && !i.sourceReady) := rfl
  rw [sinceReset_concat]
  change (next s i).toNat = _
  unfold next
  cases hreset : i.reset with
  | true => rfl
  | false =>
    rw [if_neg Bool.false_ne_true, if_neg Bool.false_ne_true, countP_concat, hcycle]
    change (if i.sinkValid && !i.sourceReady then s + 1 else s).toNat = _
    cases i.sinkValid && !i.sourceReady with
    | false => exact h
    | true =>
      rw [if_pos rfl, BitVec.toNat_add, h]
      simp

end UsbSniffer.OverflowMeter
