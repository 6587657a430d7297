/-
  Dram/Port.lean --- a read port and a write port of the memory controller.

  A port accepts a command and later its data, in command order; when, is up to the
  environment.  A write reaches the memory with its data beat.  A read that is
  accepted after the data beat of a write returns that data: it returns the word
  that the memory holds when it is accepted, unless the word is overwritten from
  that cycle on and before the data is back, in which case nothing is said about it.
-/
import Mathlib.Logic.Function.Basic
import UsbSniffer.Sync.Queue

set_option autoImplicit false

namespace UsbSniffer.Dram

open UsbSniffer.Sync

namespace Ports

variable {α : Type}

/-- The memory and the commands accepted whose data has not been moved. -/
structure State (α : Type) where
  mem : Nat → α
  /-- The addresses of the outstanding writes. -/
  writes : List Nat
  /-- The addresses of the outstanding reads and what they return, if it is known. -/
  reads : List (Nat × Option α)

/-- Nothing is outstanding. -/
def init (mem : Nat → α) : State α where
  mem := mem
  writes := []
  reads := []

/-- `wdata.ready`, when the environment is willing. -/
def wdataReady (s : State α) (willing : Bool) : Bool := willing && !s.writes.isEmpty

/-- `rdata.valid`, when the environment is willing. -/
def rdataValid (s : State α) (willing : Bool) : Bool := willing && !s.reads.isEmpty

/-- `rdata.data`, with the word that stands for one that is not known. -/
def rdataData (s : State α) (unknown : α) : α :=
  match s.reads with
  | (_, some x) :: _ => x
  | _ => unknown

/-- What moves on the ports in a cycle. -/
structure Moves (α : Type) where
  writeCmd : Bool
  writeAddr : Nat
  wdata : Bool
  wdataData : α
  readCmd : Bool
  readAddr : Nat
  rdata : Bool

/-- The address that the data beat of the cycle goes to. -/
def written (s : State α) (m : Moves α) : Option Nat :=
  if m.wdata then s.writes.head? else none

/-- A read of a slot that is written is not known any more. -/
def overtaken (slot : Option Nat) (r : Nat × Option α) : Nat × Option α :=
  if slot = some r.1 then (r.1, none) else r

/-- The clock edge. -/
def next (s : State α) (m : Moves α) : State α where
  mem :=
    match written s m with
    | some addr => Function.update s.mem addr m.wdataData
    | none => s.mem
  writes := (if m.wdata then s.writes.tail else s.writes) ++ beat m.writeCmd true m.writeAddr
  reads :=
    ((if m.rdata then s.reads.tail else s.reads) ++
      beat m.readCmd true (m.readAddr, some (s.mem m.readAddr))).map (overtaken (written s m))

/-! ## Nothing outstanding -/

/-- The cycle accepts no read command and returns the data of the last outstanding one,
if there is one. -/
def SettlesReads (s : State α) (m : Moves α) : Prop :=
  m.readCmd = false ∧ (if m.rdata then s.reads.tail else s.reads) = []

/-- The cycle accepts no write command and takes the data of the last outstanding one, if
there is one. -/
def SettlesWrites (s : State α) (m : Moves α) : Prop :=
  m.writeCmd = false ∧ (if m.wdata then s.writes.tail else s.writes) = []

instance [DecidableEq α] (s : State α) (m : Moves α) : Decidable (SettlesReads s m) :=
  inferInstanceAs (Decidable (_ ∧ _))

instance (s : State α) (m : Moves α) : Decidable (SettlesWrites s m) :=
  inferInstanceAs (Decidable (_ ∧ _))

theorem reads_of_settles {s : State α} {m : Moves α} (h : SettlesReads s m) :
    (next s m).reads = [] := by
  obtain ⟨hcmd, hnone⟩ := h
  simp only [next, hnone, hcmd, beat_false_left, List.append_nil, List.map_nil]

theorem writes_of_settles {s : State α} {m : Moves α} (h : SettlesWrites s m) :
    (next s m).writes = [] := by
  obtain ⟨hcmd, hnone⟩ := h
  simp only [next, hnone, hcmd, beat_false_left, List.append_nil]

end Ports

end UsbSniffer.Dram
