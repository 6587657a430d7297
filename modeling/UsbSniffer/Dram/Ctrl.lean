/-
  Dram/Ctrl.lean --- the counters of gateware/dramfifo.py.

  `_LiteDRAMFIFOCtrl` counts the blocks in the memory and says where the next one
  is written and read.  It trusts the writer and the reader: the level is only a
  level as long as nothing is written at `depth` blocks and nothing read at none.
-/
import UsbSniffer.Sync.Bits

set_option autoImplicit false

namespace UsbSniffer.Dram

open UsbSniffer.Sync

/-- `_inc(signal, modulo)` for a `Signal(max=modulo)`. -/
def inc (signal modulo : Nat) : Nat :=
  if modulo = 2 ^ bitsFor (modulo - 1) then (signal + 1) % 2 ^ bitsFor (modulo - 1)
  else if signal = modulo - 1 then 0
  else (signal + 1) % 2 ^ bitsFor (modulo - 1)

theorem inc_eq {signal modulo : Nat} (h : signal < modulo) :
    inc signal modulo = (signal + 1) % modulo := by
  have hbits := lt_two_pow_bitsFor (modulo - 1)
  unfold inc
  split_ifs with hpow hlast
  · rw [← hpow]
  · rw [hlast, Nat.sub_add_cancel (by omega), Nat.mod_self]
  · rw [Nat.mod_eq_of_lt (by omega), Nat.mod_eq_of_lt (by omega)]

namespace LiteDRAMFIFOCtrl

/-- The place of the FIFO in the memory, its blocks, and the thresholds of the level. -/
structure Config where
  base : Nat
  depth : Nat
  readThreshold : Nat
  writeThreshold : Nat
  deriving DecidableEq, Repr

/-- The level and the places of the next block to be written and to be read. -/
structure State where
  /-- `Signal(max=depth+1)`. -/
  level : Nat
  writeAddress : Nat
  readAddress : Nat
  deriving DecidableEq, Repr

/-- An empty FIFO. -/
def init : State where
  level := 0
  writeAddress := 0
  readAddress := 0

/-- There is room for a block. -/
def writable (C : Config) (s : State) : Bool := decide (s.level < C.writeThreshold)

/-- There is a block to be read. -/
def readable (C : Config) (s : State) : Bool := decide (s.level > C.readThreshold)

/-- The clock edge, with `write` and `read`. -/
def next (C : Config) (s : State) (write read : Bool) : State where
  level :=
    if write && !read then (s.level + 1) % 2 ^ bitsFor C.depth
    else if read && !write then
      (s.level + (2 ^ bitsFor C.depth - 1)) % 2 ^ bitsFor C.depth
    else s.level
  writeAddress := if write then inc s.writeAddress C.depth else s.writeAddress
  readAddress := if read then inc s.readAddress C.depth else s.readAddress

/-- The blocks in the memory are the `level` ones from the read address on. -/
structure Inv (C : Config) (s : State) : Prop where
  level_le : s.level ≤ C.depth
  readAddress_lt : s.readAddress < C.depth
  writeAddress_eq : s.writeAddress = (s.readAddress + s.level) % C.depth

theorem Inv.writeAddress_lt {C : Config} {s : State} (h : Inv C s) :
    s.writeAddress < C.depth := by
  rw [h.writeAddress_eq]
  exact Nat.mod_lt _ (Nat.zero_lt_of_lt h.readAddress_lt)

theorem inv_init {C : Config} (hdepth : 0 < C.depth) : Inv C init where
  level_le := Nat.zero_le _
  readAddress_lt := hdepth
  writeAddress_eq := by simp [init]

/-- The level after a cycle that does not write at `depth` blocks or read at none. -/
theorem level_next {C : Config} {s : State} {write read : Bool} (hInv : Inv C s)
    (hwrite : write = true → s.level < C.depth) (hread : read = true → 1 ≤ s.level) :
    (next C s write read).level =
      s.level + (if write then 1 else 0) - (if read then 1 else 0) := by
  have hbits := lt_two_pow_bitsFor C.depth
  have hle := hInv.level_le
  unfold next
  cases write with
  | false =>
    cases read with
    | false => simp
    | true =>
      have hpos := hread rfl
      have hadd : s.level + (2 ^ bitsFor C.depth - 1) =
          (s.level - 1) + 2 ^ bitsFor C.depth := by omega
      simp only [hadd, Nat.add_mod_right, Bool.false_and, Bool.not_false, Bool.and_true,
        Bool.false_eq_true, if_false, if_true]
      rw [Nat.mod_eq_of_lt (by omega)]
      omega
  | true =>
    have hlt := hwrite rfl
    cases read with
    | false =>
      simp only [Bool.not_false, Bool.and_true, Bool.false_eq_true, if_false, if_true]
      rw [Nat.mod_eq_of_lt (by omega)]
      omega
    | true => simp

theorem readAddress_next {C : Config} {s : State} (write read : Bool) (hInv : Inv C s) :
    (next C s write read).readAddress =
      if read then (s.readAddress + 1) % C.depth else s.readAddress := by
  unfold next
  rw [inc_eq hInv.readAddress_lt]

theorem inv_next {C : Config} {s : State} {write read : Bool} (hInv : Inv C s)
    (hwrite : write = true → s.level < C.depth) (hread : read = true → 1 ≤ s.level) :
    Inv C (next C s write read) := by
  have hle := hInv.level_le
  have hlt := hInv.readAddress_lt
  have hlevel := level_next hInv hwrite hread
  have hraddr := readAddress_next write read hInv
  have hwaddr : (next C s write read).writeAddress =
      (s.readAddress + s.level + (if write then 1 else 0)) % C.depth := by
    have hwlt := hInv.writeAddress_lt
    unfold next
    cases write with
    | false => simp [hInv.writeAddress_eq]
    | true =>
      simp only [if_true]
      rw [inc_eq hwlt, hInv.writeAddress_eq, Nat.mod_add_mod]
  refine ⟨?_, ?_, ?_⟩
  · rw [hlevel]
    cases write with
    | false => simp; omega
    | true =>
      have := hwrite rfl
      simp
      omega
  · rw [hraddr]
    split_ifs
    · exact Nat.mod_lt _ (by omega)
    · exact hlt
  · rw [hwaddr, hraddr, hlevel]
    cases read with
    | false => simp [Nat.add_assoc]
    | true =>
      have hpos := hread rfl
      simp only [if_true, Nat.mod_add_mod]
      congr 1
      omega

end LiteDRAMFIFOCtrl

end UsbSniffer.Dram
