/-
  Clocker.lean --- the fractional clock divider of gateware/clocker.py.
-/
import Mathlib.Data.BitVec

set_option autoImplicit false

namespace UsbSniffer.TuneClocker

/-- The accumulator and the registered carry. -/
structure State where
  acc : BitVec 32
  en : Bool
  deriving DecidableEq, Repr

/-- The registers at a reset. -/
def init : State where
  acc := 0
  en := false

/-- `Cat(acc, en).eq(acc + tuning_word)`. -/
def next (tuningWord : Nat) (s : State) : State :=
  let sum := s.acc.toNat + tuningWord
  { acc := BitVec.ofNat 32 sum
    en := sum.testBit 32 }

/-- An edge adds the tuning word, and the carry is worth `2 ^ 32`. -/
theorem next_total {tuningWord : Nat} (hword : tuningWord < 2 ^ 32) (s : State) :
    (next tuningWord s).acc.toNat + 2 ^ 32 * (next tuningWord s).en.toNat =
      s.acc.toNat + tuningWord := by
  have hlt := s.acc.isLt
  have hcarry : ((s.acc.toNat + tuningWord).testBit 32).toNat =
      (s.acc.toNat + tuningWord) / 2 ^ 32 := by
    rw [Nat.toNat_testBit]
    omega
  simp only [next, BitVec.toNat_ofNat, hcarry]
  omega

/-- A clock of at least half the rate never pauses twice. -/
theorem en_next_of_pause {tuningWord : Nat} (hword : tuningWord < 2 ^ 32)
    (hhalf : 2 ^ 32 ≤ 2 * tuningWord) {s : State} (hpause : (next tuningWord s).en = false) :
    (next tuningWord (next tuningWord s)).en = true := by
  have hfirst := next_total hword s
  have hsecond := next_total hword (next tuningWord s)
  rw [hpause] at hfirst
  have hlt := (next tuningWord (next tuningWord s)).acc.isLt
  cases hen : (next tuningWord (next tuningWord s)).en with
  | true => rfl
  | false =>
    rw [hen] at hsecond
    simp only [Bool.toNat_false] at hfirst hsecond
    omega

/-! ## The long run -/

/-- The registers in a cycle, numbered from 0 at reset. -/
def cycle (tuningWord : Nat) : Nat → State
  | 0 => init
  | n + 1 => next tuningWord (cycle tuningWord n)

/-- The pulses of `en` in the `m` cycles behind cycle `a`. -/
def pulses (tuningWord a m : Nat) : Nat :=
  (List.range m).countP fun j => (cycle tuningWord (a + 1 + j)).en

theorem pulses_succ (tuningWord a m : Nat) :
    pulses tuningWord a (m + 1) =
      pulses tuningWord a m + (cycle tuningWord (a + (m + 1))).en.toNat := by
  unfold pulses
  rw [List.range_succ, List.countP_append, List.countP_singleton, Nat.add_assoc a 1 m,
    Nat.add_comm 1 m]
  cases (cycle tuningWord (a + (m + 1))).en <;> rfl

theorem pulses_front (tuningWord a m : Nat) :
    pulses tuningWord a (m + 1) =
      (cycle tuningWord (a + 1)).en.toNat + pulses tuningWord (a + 1) m := by
  have hshift : ((fun j => (cycle tuningWord (a + 1 + j)).en) ∘ Nat.succ) =
      fun j => (cycle tuningWord (a + 1 + 1 + j)).en := by
    funext j
    exact congrArg (fun k => (cycle tuningWord k).en) (by omega)
  unfold pulses
  rw [List.range_succ_eq_map, List.countP_cons, List.countP_map, hshift, Nat.add_comm, Nat.add_zero]
  cases (cycle tuningWord (a + 1)).en <;> rfl

/-- What is added in a window is in its pulses and in the accumulator. -/
theorem pulses_total {tuningWord : Nat} (hword : tuningWord < 2 ^ 32) (a m : Nat) :
    2 ^ 32 * pulses tuningWord a m + (cycle tuningWord (a + m)).acc.toNat =
      m * tuningWord + (cycle tuningWord a).acc.toNat := by
  induction m with
  | zero => simp [pulses]
  | succ m ih =>
    have hedge := next_total hword (cycle tuningWord (a + m))
    have hcycle : cycle tuningWord (a + (m + 1)) = next tuningWord (cycle tuningWord (a + m)) := rfl
    rw [pulses_succ, hcycle, Nat.mul_add, Nat.succ_mul]
    omega

/-- From reset the pulses are the whole part of the nominal number. -/
theorem pulses_reset {tuningWord : Nat} (hword : tuningWord < 2 ^ 32) (n : Nat) :
    pulses tuningWord 0 n = n * tuningWord / 2 ^ 32 := by
  have htotal := pulses_total hword 0 n
  have hlast := (cycle tuningWord (0 + n)).acc.isLt
  have hinit : (cycle tuningWord 0).acc.toNat = 0 := rfl
  generalize n * tuningWord = added at htotal ⊢
  omega

/-- The pulses of a window are less than one pulse away from the nominal number. -/
theorem pulses_drift {tuningWord : Nat} (hword : tuningWord < 2 ^ 32) (a m : Nat) :
    m * tuningWord < 2 ^ 32 * pulses tuningWord a m + 2 ^ 32 ∧
      2 ^ 32 * pulses tuningWord a m < m * tuningWord + 2 ^ 32 := by
  have htotal := pulses_total hword a m
  have hfirst := (cycle tuningWord a).acc.isLt
  have hlast := (cycle tuningWord (a + m)).acc.isLt
  omega

/-- **The clock is exact in the long run.**  The cycles 1 to `n` have the whole part of
`n * tw / 2 ^ 32` pulses, and any `m` cycles in a row have that of `m * tw / 2 ^ 32` or one
more, so that the pulses never drift by a whole one from the nominal rate. -/
theorem pulses_exact {tuningWord : Nat} (hword : tuningWord < 2 ^ 32) (n a m : Nat) :
    pulses tuningWord 0 n = n * tuningWord / 2 ^ 32 ∧
      (pulses tuningWord a m = m * tuningWord / 2 ^ 32 ∨
        pulses tuningWord a m = m * tuningWord / 2 ^ 32 + 1) ∧
      m * tuningWord < 2 ^ 32 * pulses tuningWord a m + 2 ^ 32 ∧
      2 ^ 32 * pulses tuningWord a m < m * tuningWord + 2 ^ 32 := by
  have hdrift := pulses_drift hword a m
  refine ⟨pulses_reset hword n, ?_, hdrift⟩
  generalize m * tuningWord = added at hdrift ⊢
  omega

/-- The word for 60 MHz out of 100 MHz is rounded down: five cycles have two pulses, and a
later window has three. -/
theorem pulses_exact_sixty :
    pulses 2576980377 0 5 = 2 ∧ pulses 2576980377 1 5 = 5 * 2576980377 / 2 ^ 32 + 1 :=
  ⟨(pulses_exact (by decide) 5 0 0).1,
    (pulses_exact (by decide) 0 1 5).2.1.resolve_left (by decide)⟩

end UsbSniffer.TuneClocker
