/-
  Sync/Bits.lean --- slices, concatenation and bytes of bit vectors.

  The hardware language writes `x[lo:hi]` for bits `lo` to `hi - 1`, may assign
  to such a slice, concatenates least significant part first, and cuts or
  zero-extends a value to the width of the signal it is assigned to.  `assign`,
  `slice` and `cat` are these.  A word goes over a byte stream low byte first,
  which is `bytes`.
-/
import Mathlib.Data.List.Basic
import Mathlib.Data.List.Induction
import Mathlib.Algebra.Group.Nat.Defs

set_option autoImplicit false

namespace UsbSniffer.Sync

variable {w m n : Nat}

/-- The width of a signal that has to hold `x` (`bits_for`). -/
def bitsFor (x : Nat) : Nat := Nat.log2 x + 1

theorem lt_two_pow_bitsFor (x : Nat) : x < 2 ^ bitsFor x := Nat.lt_log2_self

/-- The width is determined by the powers of two around the number. -/
theorem bitsFor_eq {x k : Nat} (hlo : 2 ^ k ≤ 2 * x) (hhi : x < 2 ^ k) : bitsFor x = k := by
  cases k with
  | zero => omega
  | succ k =>
    have hpow : 2 ^ (k + 1) = 2 ^ k * 2 := Nat.pow_succ 2 k
    have hne : x ≠ 0 := by
      rintro rfl
      exact absurd (Nat.two_pow_pos (k + 1)) (by omega)
    unfold bitsFor
    rw [(Nat.log2_eq_iff hne).mpr ⟨by omega, hhi⟩]

/-- The power of two that is reached by adding no more than the number itself. -/
theorem two_pow_bitsFor {x d k : Nat} (hpos : 0 < d) (hle : d ≤ x) (hpow : x + d = 2 ^ k) :
    2 ^ bitsFor x = x + d := by
  have hbits : bitsFor x = k := bitsFor_eq (by omega) (by omega)
  rw [hbits, hpow]

/-- A number between two powers of two that follow each other is none itself. -/
theorem ne_two_pow {x j : Nat} (hlo : 2 ^ j < x) (hhi : x < 2 ^ (j + 1)) (k : Nat) :
    x ≠ 2 ^ k := by
  rintro rfl
  have hjk : j < k := (Nat.pow_lt_pow_iff_right (by decide)).mp hlo
  have hkj : k < j + 1 := (Nat.pow_lt_pow_iff_right (by decide)).mp hhi
  omega

/-- `x[lo:hi]`. -/
def slice (x : BitVec w) (lo hi : Nat) : BitVec (hi - lo) := x.extractLsb' lo (hi - lo)

/-- `x` after `x[lo:hi].eq(v)`. -/
def assign (x : BitVec w) (lo hi : Nat) (v : BitVec m) : BitVec w :=
  ((x >>> hi) <<< hi) ||| ((v.setWidth (hi - lo)).setWidth w <<< lo) |||
    (x.setWidth lo).setWidth w

/-- `Cat(lo, hi)`. -/
def cat (lo : BitVec m) (hi : BitVec n) : BitVec (n + m) := hi ++ lo

@[simp] theorem getLsbD_slice (x : BitVec w) (lo hi k : Nat) :
    (slice x lo hi).getLsbD k = (decide (k < hi - lo) && x.getLsbD (lo + k)) := by
  simp [slice]

theorem getLsbD_assign (x : BitVec w) (lo hi : Nat) (v : BitVec m) {k : Nat}
    (hk : k < w) (hle : lo ≤ hi) :
    (assign x lo hi v).getLsbD k =
      if lo ≤ k ∧ k < hi then v.getLsbD (k - lo) else x.getLsbD k := by
  simp only [assign, BitVec.getLsbD_or, BitVec.getLsbD_shiftLeft, BitVec.getLsbD_ushiftRight,
    BitVec.getLsbD_setWidth, hk, decide_true, Bool.true_and]
  rcases Nat.lt_or_ge k lo with hlo | hlo
  · have hhi : k < hi := by omega
    simp [hlo, hhi, show ¬ lo ≤ k by omega]
  · rcases Nat.lt_or_ge k hi with hhi | hhi
    · simp [hlo, hhi, show ¬ k < lo by omega, show k - lo < hi - lo by omega,
        show k - lo < w by omega]
    · simp [show ¬ k < lo by omega, show ¬ k < hi by omega,
        show ¬ k - lo < hi - lo by omega, show hi + (k - hi) = k by omega]

theorem getLsbD_cat (lo : BitVec m) (hi : BitVec n) (k : Nat) :
    (cat lo hi).getLsbD k = if k < m then lo.getLsbD k else hi.getLsbD (k - m) := by
  simp only [cat, BitVec.getLsbD_append]

/-! ## Bytes -/

/-- Byte `k` of a word, bits `8 k` to `8 k + 7`. -/
def byte (x : BitVec w) (k : Nat) : BitVec 8 := x.extractLsb' (8 * k) 8

/-- The low `n` bytes of a word, low byte first. -/
def bytes (n : Nat) (x : BitVec w) : List (BitVec 8) := (List.range n).map (byte x)

/-- `reverse_bytes` of a half-word. -/
def reverseHalf (x : BitVec 16) : BitVec 16 := cat (byte x 1) (byte x 0)

/-- `reverse_bytes` of a word. -/
def reverseBytes (x : BitVec 32) : BitVec 32 :=
  cat (cat (cat (byte x 3) (byte x 2)) (byte x 1)) (byte x 0)

@[simp] theorem length_bytes (n : Nat) (x : BitVec w) : (bytes n x).length = n := by
  simp [bytes]

@[simp] theorem getElem_bytes (n : Nat) (x : BitVec w) (k : Nat)
    (h : k < (bytes n x).length) : (bytes n x)[k] = byte x k := by
  simp [bytes]

@[simp] theorem bytes_zero (x : BitVec w) : bytes 0 x = [] := rfl

/-- Two bytes are one when their bits are. -/
theorem byte_ext {x : BitVec w} {y : BitVec m} {j k : Nat}
    (h : ∀ i < 8, x.getLsbD (8 * j + i) = y.getLsbD (8 * k + i)) : byte x j = byte y k := by
  apply BitVec.eq_of_getLsbD_eq
  intro i hi
  simp only [byte, BitVec.getLsbD_extractLsb', hi, decide_true, Bool.true_and]
  exact h i hi

theorem byte_setWidth (x : BitVec w) {k : Nat} (h : 8 * k + 8 ≤ m) :
    byte (x.setWidth m) k = byte x k := by
  apply byte_ext
  intro i hi
  simp only [BitVec.getLsbD_setWidth, show 8 * k + i < m by omega, decide_true, Bool.true_and]

theorem byte_slice (x : BitVec w) {lo hi p k : Nat} (hlo : lo = p * 8)
    (h : lo + 8 * k + 8 ≤ hi) : byte (slice x lo hi) k = byte x (p + k) := by
  apply byte_ext
  intro i hi
  rw [getLsbD_slice, decide_eq_true (by omega), Bool.true_and]
  congr 1
  omega

/-- The bytes that an assignment to a slice of whole bytes reaches. -/
theorem byte_assign_of_mem (x : BitVec w) (v : BitVec m) {lo hi p k : Nat} (hlo : lo = p * 8)
    (hle : lo ≤ hi) (hp : p ≤ k) (hhi : 8 * k + 8 ≤ hi) (hw : 8 * k + 8 ≤ w) :
    byte (assign x lo hi v) k = byte v (k - p) := by
  apply byte_ext
  intro i hi
  rw [getLsbD_assign x _ _ v (by omega) hle, if_pos (by omega)]
  congr 1
  omega

/-- The byte that is assigned. -/
theorem byte_assign_self (x : BitVec w) (v : BitVec 8) {lo hi k : Nat} (hlo : lo = 8 * k)
    (hhi : hi = 8 * k + 8) (hw : 8 * k + 8 ≤ w) : byte (assign x lo hi v) k = v := by
  apply BitVec.eq_of_getLsbD_eq
  intro i hi
  simp only [byte, BitVec.getLsbD_extractLsb', hi, decide_true, Bool.true_and]
  rw [getLsbD_assign x _ _ v (by omega) (by omega), if_pos (by omega)]
  congr 1
  omega

/-- Bytes outside an assigned slice keep their value. -/
theorem byte_assign_of_disjoint (x : BitVec w) (v : BitVec m) {lo hi k : Nat}
    (hle : lo ≤ hi) (hk : 8 * k + 8 ≤ lo ∨ hi ≤ 8 * k) (hw : 8 * k + 8 ≤ w) :
    byte (assign x lo hi v) k = byte x k := by
  apply byte_ext
  intro i hi
  rw [getLsbD_assign x _ _ v (by omega) hle, if_neg (by omega)]

theorem byte_cat_of_lt (lo : BitVec m) (hi : BitVec n) {k : Nat} (h : 8 * k + 8 ≤ m) :
    byte (cat lo hi) k = byte lo k := by
  apply byte_ext
  intro i hi
  rw [getLsbD_cat, if_pos (by omega)]

theorem byte_cat_of_ge (lo : BitVec m) (hi : BitVec n) {p k : Nat} (hm : m = p * 8)
    (h : p ≤ k) : byte (cat lo hi) k = byte hi (k - p) := by
  apply byte_ext
  intro i hi
  rw [getLsbD_cat, if_neg (by omega)]
  congr 1
  omega

/-! ## Shift registers -/

theorem shiftConcat_false (x : BitVec w) : x.shiftConcat false = x <<< 1 := by
  apply BitVec.eq_of_getLsbD_eq
  intro i hi
  rw [BitVec.getLsbD_shiftConcat, BitVec.getLsbD_shiftLeft]
  rcases Nat.eq_zero_or_pos i with rfl | hpos
  · simp
  · have hne : i ≠ 0 := Nat.ne_of_gt hpos
    simp [hi, hne]

/-- The bit that a shift register gives out after some shifts. -/
theorem msb_shiftLeft_of_lt (x : BitVec w) {j : Nat} (h : j < w) :
    (x <<< j).msb = x.getLsbD (w - 1 - j) := by
  have hlast : w - 1 < w := by omega
  have hj : ¬ w - 1 < j := by omega
  rw [BitVec.msb_eq_getLsbD_last, BitVec.getLsbD_shiftLeft]
  simp [hlast, hj]

/-- The bits that were shifted in last are there, the first one on top. -/
theorem getLsbD_foldl_shiftConcat (x : BitVec w) (bits : List Bool) {j : Nat}
    (hj : j < bits.length) (hw : bits.length ≤ w) :
    (bits.foldl BitVec.shiftConcat x).getLsbD (bits.length - 1 - j) = bits[j] := by
  induction bits using List.reverseRecOn generalizing j with
  | nil => cases hj
  | append_singleton bits b ih =>
    rw [List.length_append, List.length_singleton] at hj hw
    have hlt : (bits ++ [b]).length - 1 - j < w := by
      rw [List.length_append, List.length_singleton]
      omega
    rw [List.foldl_append, List.foldl_cons, List.foldl_nil, BitVec.getLsbD_shiftConcat,
      decide_eq_true hlt, Bool.true_and, List.length_append, List.length_singleton,
      Nat.add_sub_cancel]
    rcases Nat.lt_or_ge j bits.length with hlt' | hge
    · rw [if_neg (by omega), List.getElem_append_left hlt', ← ih hlt' (by omega)]
      congr 1
      omega
    · obtain rfl : j = bits.length := by omega
      simp

end UsbSniffer.Sync
