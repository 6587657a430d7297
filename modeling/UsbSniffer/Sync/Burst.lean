/-
  Sync/Burst.lean --- a register that counts cycles of a burst.

  A burst begins with the register at zero, goes on for some cycles, of which those
  that are wanted are counted, and may go on behind a cycle only while the register is
  at most a limit.  The first cycle may be excused from that test.  The register has a
  given number of bits, so that it holds the number of cycles modulo a power of two; the
  number itself is at most the limit and one in a burst, and at most the limit and two
  behind it, where the register has not wrapped round before.
-/
import Mathlib.Data.BitVec

set_option autoImplicit false

namespace UsbSniffer.Sync

/-- The register, whether a burst is on, and whether this cycle is excused. -/
structure BurstReg (w : Nat) where
  active : Bool
  excused : Bool
  cnt : BitVec w
  deriving DecidableEq, Repr

namespace BurstReg

variable {w limit : Nat} {r r' : BurstReg w} {want : Bool} {n : Nat}

/-- One cycle. -/
structure Step (limit : Nat) (r : BurstReg w) (want : Bool) (r' : BurstReg w) : Prop where
  begins : r.active = false → r'.active = true → r'.cnt = 0
  waits : r.active = false → r'.active = false → r'.cnt = r.cnt
  counts : r.active = true → r'.cnt = if want then r.cnt + 1 else r.cnt
  goesOn : r.active = true → r'.active = true →
    (r.excused = true ∨ r.cnt.toNat ≤ limit) ∧ r'.excused = false

/-- The wanted cycles of the burst that is on, or was the last one, after one more cycle. -/
def count (r : BurstReg w) (want : Bool) (r' : BurstReg w) (n : Nat) : Nat :=
  if !r.active && r'.active then 0 else n + (r.active && want).toNat

/-- The register holds the number of cycles as far as its bits go. -/
theorem Step.toNat_cnt (h : Step limit r want r') (hn : r.cnt.toNat = n % 2 ^ w) :
    r'.cnt.toNat = r.count want r' n % 2 ^ w := by
  unfold count
  cases hactive : r.active with
  | false =>
    cases hactive' : r'.active with
    | false =>
      rw [h.waits hactive hactive', hn]
      rfl
    | true =>
      rw [h.begins hactive hactive']
      simp
  | true =>
    rw [h.counts hactive]
    cases want with
    | false => simpa using hn
    | true => simp [BitVec.toNat_add, hn]

/-- How far the number of cycles goes. -/
structure Bounded (limit : Nat) (r : BurstReg w) (n : Nat) : Prop where
  inside : r.active = true → n ≤ limit + 1
  excused : r.active = true → r.excused = true → n = 0
  behind : n ≤ limit + 2

/-- If the register can pass the limit, the number of cycles stays in its bounds. -/
theorem Bounded.step (hw : limit + 1 < 2 ^ w) (h : Step limit r want r')
    (hn : r.cnt.toNat = n % 2 ^ w) (hb : Bounded limit r n) :
    Bounded limit r' (r.count want r' n) := by
  have hwant := Bool.toNat_le want
  have hbehind := hb.behind
  unfold count
  cases hactive : r.active with
  | false =>
    cases hactive' : r'.active with
    | false => exact ⟨by simp [hactive'], by simp [hactive'], by simpa using hbehind⟩
    | true => exact ⟨by simp, by simp, by simp⟩
  | true =>
    have hinside := hb.inside hactive
    have hcount : (if !true && r'.active then 0 else n + (true && want).toNat) = n + want.toNat := by
      simp
    rw [hcount]
    refine ⟨fun hactive' => ?_, fun hactive' hexcused => ?_, by omega⟩
    · obtain ⟨hexcused | hlimit, -⟩ := h.goesOn hactive hactive'
      · -- the first cycle
        have hzero := hb.excused hactive hexcused
        omega
      · rw [hn, Nat.mod_eq_of_lt (by omega)] at hlimit
        omega
    · rw [(h.goesOn hactive hactive').2] at hexcused
      cases hexcused

/-- In a burst such a register is exact. -/
theorem Bounded.toNat_cnt (hw : limit + 1 < 2 ^ w) (hn : r.cnt.toNat = n % 2 ^ w)
    (hb : Bounded limit r n) (hactive : r.active = true) : r.cnt.toNat = n := by
  have hinside := hb.inside hactive
  rw [hn, Nat.mod_eq_of_lt (by omega)]

/-- Once the number of cycles is over the limit, the burst ends with the next cycle that is
not excused. -/
theorem Bounded.ends (hw : limit + 1 < 2 ^ w) (hn : r.cnt.toNat = n % 2 ^ w)
    (hb : Bounded limit r n) (h : Step limit r want r') (hactive : r.active = true)
    (hexcused : r.excused = false) (hover : limit < n) : r'.active = false := by
  rw [← Bool.not_eq_true]
  intro hactive'
  obtain ⟨hfirst | hlimit, -⟩ := h.goesOn hactive hactive'
  · rw [hexcused] at hfirst
    cases hfirst
  · rw [hb.toNat_cnt hw hn hactive] at hlimit
    omega

end BurstReg

end UsbSniffer.Sync
