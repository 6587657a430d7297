/-
  Sync/Header.lean --- headers as tables of fields.

  A header is a signal whose bytes go over the stream low byte first, and a field is
  the slice of it that its byte, its first bit in that byte and its width tell.  The
  bytes of a field are turned around on the way in and on the way out
  (`swap_field_bytes`), which changes only the fields of more than one byte.
-/
import Mathlib.Data.List.GetD
import UsbSniffer.Sync.Bits

set_option autoImplicit false

namespace UsbSniffer.Sync

variable {w n : Nat}

/-- `reverse_bytes`: the bytes of a signal in the opposite order.  Byte `i` goes below the
bits that were below it. -/
def swapBytes (x : BitVec w) : BitVec w :=
  (List.range ((w + 7) / 8)).foldl
    (fun acc i =>
      acc ||| ((slice x (8 * i) (min (8 * i + 8) w)).setWidth w <<< (w - min (8 * i + 8) w)))
    0

/-- The bits that byte `i` is, where it goes. -/
theorem getLsbD_swapped (x : BitVec w) (i k : Nat) (hk : k < w) :
    ((slice x (8 * i) (min (8 * i + 8) w)).setWidth w <<<
        (w - min (8 * i + 8) w)).getLsbD k =
      (decide (w - min (8 * i + 8) w ≤ k ∧
          k - (w - min (8 * i + 8) w) < min (8 * i + 8) w - 8 * i) &&
        x.getLsbD (8 * i + (k - (w - min (8 * i + 8) w)))) := by
  rw [BitVec.getLsbD_shiftLeft, BitVec.getLsbD_setWidth, getLsbD_slice, decide_eq_true hk,
    decide_eq_true (show k - (w - min (8 * i + 8) w) < w by omega), Bool.true_and,
    Bool.true_and, ← Bool.and_assoc, ← decide_not, Bool.decide_and, decide_eq_decide.mpr Nat.not_lt]

/-- A signal of at most a byte is its own reverse. -/
theorem swapBytes_of_le (hw : w ≤ 8) (x : BitVec w) : swapBytes x = x := by
  apply BitVec.eq_of_getLsbD_eq
  intro k hk
  have hbytes : (w + 7) / 8 = 1 := by omega
  unfold swapBytes
  rw [hbytes, List.range_one, List.foldl_cons, List.foldl_nil, BitVec.getLsbD_or,
    getLsbD_swapped x 0 k hk, show min (8 * 0 + 8) w = w by omega, Nat.sub_self,
    decide_eq_true (by omega), Nat.sub_zero]
  simp

theorem swapBytes_half (x : BitVec 16) : swapBytes x = reverseHalf x := by
  apply BitVec.eq_of_getLsbD_eq
  intro k hk
  have hrange : List.range ((16 + 7) / 8) = [0, 1] := rfl
  unfold swapBytes reverseHalf byte
  rw [hrange, List.foldl_cons, List.foldl_cons, List.foldl_nil, BitVec.getLsbD_or,
    BitVec.getLsbD_or, getLsbD_swapped x 0 k hk, getLsbD_swapped x 1 k hk, getLsbD_cat,
    BitVec.getLsbD_extractLsb', BitVec.getLsbD_extractLsb']
  rcases Nat.lt_or_ge k 8 with hlow | hhigh
  · rw [if_pos hlow, decide_eq_false (by omega), decide_eq_true (by omega), decide_eq_true hlow]
    simp
  · rw [if_neg (by omega), decide_eq_true (by omega), decide_eq_false (by omega),
      decide_eq_true (by omega)]
    simp

theorem swapBytes_swapBytes_of_le (hw : w ≤ 8) (x : BitVec w) : swapBytes (swapBytes x) = x := by
  rw [swapBytes_of_le hw, swapBytes_of_le hw]

theorem reverseHalf_reverseHalf (x : BitVec 16) : reverseHalf (reverseHalf x) = x := by
  apply BitVec.eq_of_getLsbD_eq
  intro k hk
  unfold reverseHalf byte
  rw [getLsbD_cat]
  rcases Nat.lt_or_ge k 8 with hlow | hhigh
  · simp [getLsbD_cat, hlow]
  · simp [getLsbD_cat, Nat.not_lt.mpr hhigh, show k - 8 < 8 by omega,
      show 8 + (k - 8) = k by omega]

/-! ## Signals and their bytes -/

/-- The signal with the given bytes, low byte first. -/
def ofBytes (n : Nat) : List (BitVec 8) → BitVec n
  | [] => 0
  | b :: bs => b.setWidth n ||| (ofBytes n bs <<< 8)

theorem getLsbD_ofBytes (bs : List (BitVec 8)) {k : Nat} (hk : k < n) :
    (ofBytes n bs).getLsbD k = (bs.getD (k / 8) 0).getLsbD (k % 8) := by
  induction bs generalizing k with
  | nil => simp [ofBytes]
  | cons b bs ih =>
    rw [ofBytes, BitVec.getLsbD_or, BitVec.getLsbD_setWidth, BitVec.getLsbD_shiftLeft,
      decide_eq_true hk, Bool.true_and, Bool.true_and]
    rcases Nat.lt_or_ge k 8 with hlow | hhigh
    · simp [hlow, Nat.div_eq_of_lt hlow, Nat.mod_eq_of_lt hlow]
    · have hdiv : k / 8 = (k - 8) / 8 + 1 := by omega
      have hmod : k % 8 = (k - 8) % 8 := by omega
      rw [decide_eq_false (Nat.not_lt.mpr hhigh), ih (by omega), hdiv, hmod,
        BitVec.getLsbD_of_ge b k hhigh, List.getD_cons_succ, Bool.false_or, Bool.not_false,
        Bool.true_and]

/-- A signal is made of its bytes, whatever follows them. -/
theorem ofBytes_bytes (x : BitVec n) {m : Nat} (hn : n = 8 * m) (rest : List (BitVec 8)) :
    ofBytes n (bytes m x ++ rest) = x := by
  apply BitVec.eq_of_getLsbD_eq
  intro k hk
  have hbyte : k / 8 < (bytes m x).length := by
    rw [length_bytes]
    omega
  rw [getLsbD_ofBytes _ hk, List.getD_append _ _ _ _ hbyte, List.getD_eq_getElem _ _ hbyte,
    getElem_bytes, byte, BitVec.getLsbD_extractLsb', decide_eq_true (Nat.mod_lt k (by decide)),
    Bool.true_and, Nat.div_add_mod]

/-! ## Fields -/

/-- The place of a field (`HeaderField`). -/
structure HeaderField where
  byte : Nat
  offset : Nat
  width : Nat

namespace HeaderField

/-- The first bit of the field. -/
def start (f : HeaderField) : Nat := 8 * f.byte + f.offset

/-- The bit behind it. -/
def stop (f : HeaderField) : Nat := f.start + f.width

/-- The value of the field in a header (`Header.decode`). -/
def decode (f : HeaderField) (signal : BitVec n) : BitVec f.width :=
  swapBytes (signal.extractLsb' f.start f.width)

/-- The header with a value in the field (`Header.encode`). -/
def encode (f : HeaderField) (v : BitVec f.width) (signal : BitVec n) : BitVec n :=
  assign signal f.start f.stop (swapBytes v)

/-- A field of at most a byte is read bit by bit. -/
theorem getLsbD_decode {f : HeaderField} (hw : f.width ≤ 8) (signal : BitVec n) (k : Nat) :
    (f.decode signal).getLsbD k = (decide (k < f.width) && signal.getLsbD (f.start + k)) := by
  rw [decode, swapBytes_of_le hw, BitVec.getLsbD_extractLsb']

theorem getLsbD_encode (f : HeaderField) (v : BitVec f.width) (signal : BitVec n) {k : Nat}
    (hk : k < n) :
    (f.encode v signal).getLsbD k =
      if f.start ≤ k ∧ k < f.stop then (swapBytes v).getLsbD (k - f.start)
      else signal.getLsbD k :=
  getLsbD_assign signal _ _ _ hk (Nat.le_add_right _ _)

/-- A value is read back from its field. -/
theorem decode_encode_self {f : HeaderField} {v : BitVec f.width} (hn : f.stop ≤ n)
    (hv : swapBytes (swapBytes v) = v) (signal : BitVec n) :
    f.decode (f.encode v signal) = v := by
  have hslice : (f.encode v signal).extractLsb' f.start f.width = swapBytes v := by
    apply BitVec.eq_of_getLsbD_eq
    intro k hk
    have hstop : f.stop = f.start + f.width := rfl
    rw [BitVec.getLsbD_extractLsb', decide_eq_true hk, Bool.true_and,
      getLsbD_encode f v signal (by omega), if_pos (by omega), Nat.add_sub_cancel_left]
  rw [decode, hslice, hv]

/-- A field is not changed by another one. -/
theorem decode_encode_of_disjoint {f g : HeaderField} {v : BitVec g.width} (hn : f.stop ≤ n)
    (hdisjoint : f.stop ≤ g.start ∨ g.stop ≤ f.start) (signal : BitVec n) :
    f.decode (g.encode v signal) = f.decode signal := by
  have hslice : (g.encode v signal).extractLsb' f.start f.width =
      signal.extractLsb' f.start f.width := by
    apply BitVec.eq_of_getLsbD_eq
    intro k hk
    have hstop : f.stop = f.start + f.width := rfl
    rw [BitVec.getLsbD_extractLsb', BitVec.getLsbD_extractLsb',
      getLsbD_encode g v signal (by omega), if_neg (by omega)]
  rw [decode, hslice, decode]

/-- A field inside one byte is a slice of that byte. -/
theorem decode_ofBytes {f : HeaderField} {bs : List (BitVec 8)} {v : BitVec f.width}
    (hbyte : f.offset + f.width ≤ 8) (hn : 8 * f.byte + 8 ≤ n)
    (hv : (bs.getD f.byte 0).extractLsb' f.offset f.width = v) : f.decode (ofBytes n bs) = v := by
  apply BitVec.eq_of_getLsbD_eq
  intro k hk
  have hdiv : (f.start + k) / 8 = f.byte := by unfold start; omega
  have hmod : (f.start + k) % 8 = f.offset + k := by unfold start; omega
  rw [← hv, getLsbD_decode (by omega), getLsbD_ofBytes bs (by unfold start; omega), hdiv, hmod,
    BitVec.getLsbD_extractLsb']

/-- A flag is a bit of its byte. -/
theorem flag_ofBytes {byte offset : Nat} {bs : List (BitVec 8)} {b : Bool}
    (hoffset : offset < 8) (hn : 8 * byte + 8 ≤ n) (hb : (bs.getD byte 0).getLsbD offset = b) :
    ((⟨byte, offset, 1⟩ : HeaderField).decode (ofBytes n bs)).getLsbD 0 = b := by
  rw [decode_ofBytes (f := ⟨byte, offset, 1⟩) hoffset hn rfl, BitVec.getLsbD_extractLsb', ← hb]
  rfl

end HeaderField

end UsbSniffer.Sync
