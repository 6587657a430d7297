/-
  Dram/Preserve.lean --- the DRAM FIFO with `preserve_first_last` (gateware/dramfifo.py).

  A word of the memory has no place for the marks of a stream.  So a beat is packed with
  its parameters and its marks into one word, padded to a power of two, and taken apart
  again behind the FIFO.
-/
import UsbSniffer.Dram.Lossless
import UsbSniffer.Sync.Bits

set_option autoImplicit false

namespace UsbSniffer.Dram

open UsbSniffer.Sync

/-- A beat of a stream with `p` bits of payload and `q` bits of parameters. -/
structure Beat (p q : Nat) where
  payload : BitVec p
  param : BitVec q
  first : Bool
  last : Bool
  deriving DecidableEq, Repr

/-! ## `_FLInterface` -/

namespace FLInterface

variable {p q : Nat}

/-- `layout_len` of the fields. -/
def length (p q : Nat) : Nat := 1 + (1 + (q + p))

/-- The bits behind the fields up to the next power of two. -/
def padding (p q : Nat) : Nat := 2 ^ bitsFor (length p q) - length p q

/-- `len(din)`. -/
def width (p q : Nat) : Nat := padding p q + length p q

/-- The width is a power of two, and there is a bit of padding at least. -/
theorem width_eq (p q : Nat) : width p q = 2 ^ bitsFor (length p q) := by
  have hlt := lt_two_pow_bitsFor (length p q)
  unfold width padding
  omega

/-- `_FLPack`. -/
def pack (x : Beat p q) : BitVec (width p q) :=
  cat (cat (cat (cat x.payload x.param) (BitVec.ofBool x.first)) (BitVec.ofBool x.last))
    (0 : BitVec (padding p q))

/-- `_FLUnpack`. -/
def unpack (x : BitVec (width p q)) : Beat p q where
  payload := x.extractLsb' 0 p
  param := x.extractLsb' p q
  first := x.getLsbD (p + q)
  last := x.getLsbD (p + q + 1)

/-- The fields lie one behind the other. -/
theorem getLsbD_pack (x : Beat p q) (k : Nat) : (pack x).getLsbD k =
    if k < p then x.payload.getLsbD k
    else if k < p + q then x.param.getLsbD (k - p)
    else if k = p + q then x.first
    else decide (k = p + q + 1) && x.last := by
  change (cat (cat (cat (cat x.payload x.param) (BitVec.ofBool x.first)) (BitVec.ofBool x.last))
    (0 : BitVec (padding p q))).getLsbD k = _
  simp only [getLsbD_cat, BitVec.getLsbD_ofBool, BitVec.ofNat_eq_ofNat, BitVec.getLsbD_zero]
  by_cases hpayload : k < p
  · rw [if_pos (by omega), if_pos (by omega), if_pos (by omega), if_pos hpayload, if_pos hpayload]
  simp only [if_neg hpayload]
  by_cases hparam : k < p + q
  · rw [if_pos (by omega), if_pos (by omega), if_pos (by omega), if_pos hparam]
  simp only [if_neg hparam]
  by_cases hfirst : k = p + q
  · rw [if_pos (by omega), if_pos (by omega), if_neg (by omega), if_pos hfirst,
      decide_eq_true (by omega), Bool.true_and]
  rw [if_neg hfirst]
  by_cases hlast : k = p + q + 1
  · rw [if_pos (by omega), if_neg (by omega), decide_eq_true (by omega), decide_eq_true hlast]
  · rw [if_neg (by omega), decide_eq_false hlast, Bool.false_and]

@[simp] theorem unpack_pack (x : Beat p q) : unpack (pack x) = x := by
  have hpayload : (pack x).extractLsb' 0 p = x.payload := by
    apply BitVec.eq_of_getLsbD_eq
    intro k hk
    simp [getLsbD_pack, hk]
  have hparam : (pack x).extractLsb' p q = x.param := by
    apply BitVec.eq_of_getLsbD_eq
    intro k hk
    simp [getLsbD_pack, hk]
  have hfirst : (pack x).getLsbD (p + q) = x.first := by
    rw [getLsbD_pack, if_neg (by omega), if_neg (by omega), if_pos rfl]
  have hlast : (pack x).getLsbD (p + q + 1) = x.last := by
    rw [getLsbD_pack, if_neg (by omega), if_neg (by omega), if_neg (by omega)]
    simp
  unfold unpack
  rw [hpayload, hparam, hfirst, hlast]

end FLInterface

/-! ## The FIFO between them -/

namespace LiteDRAMFIFO

open FLInterface

/-- Why a FIFO cannot be built. -/
inductive Refusal
  /-- `ValueError` -/
  | ratioMustBeAnInt
  /-- `NotImplementedError` -/
  | onlyUpconverterSupport
  /-- `AssertionError` of a `Signal(max=1)`, which would have one value only. -/
  | signalMax
  deriving DecidableEq, Repr

/-- `ctrl_ratio` and `ctrl_depth` of the FIFO that the constructor builds, from the widths of
the controller and of the words and the depth in words. -/
def sizes (nativeWidth dw depth : Nat) : Except Refusal (Nat × Nat) :=
  if dw ≤ nativeWidth then
    if nativeWidth % dw ≠ 0 then .error .ratioMustBeAnInt
    else
      let ctrlRatio := nativeWidth / dw
      let ctrlDepth := (depth - 1) / ctrlRatio + 1
      -- the addresses of `ctrl`, and `counter` of the latch
      if ctrlDepth ≤ 1 ∨ ctrlRatio ≤ 1 then .error .signalMax else .ok (ctrlRatio, ctrlDepth)
  else .error .onlyUpconverterSupport

/-- The FIFO has more than one block when it has more words than a block. -/
theorem one_lt_ctrlDepth {ratio depth : Nat} (hratio : 0 < ratio) :
    1 < (depth - 1) / ratio + 1 ↔ ratio < depth := by
  rw [Nat.lt_add_left_iff_pos, Nat.div_pos_iff]
  omega

/-- On a controller whose width is a power of two the packed words always fit in evenly, and
the FIFO is refused when a block has one of them or when there is one block. -/
theorem sizes_width (p q k depth : Nat) : sizes (2 ^ k) (width p q) depth =
    if width p q < 2 ^ k then
      if 2 ^ (k - bitsFor (length p q)) < depth then
        .ok (2 ^ (k - bitsFor (length p q)), (depth - 1) / 2 ^ (k - bitsFor (length p q)) + 1)
      else .error .signalMax
    else if width p q = 2 ^ k then .error .signalMax
    else .error .onlyUpconverterSupport := by
  unfold sizes
  rw [width_eq]
  generalize bitsFor (length p q) = l
  rcases Nat.lt_trichotomy l k with hlt | rfl | hgt
  · have hpow : 2 ^ l < 2 ^ k := (Nat.pow_lt_pow_iff_right (by decide)).mpr hlt
    have hdvd : 2 ^ k % 2 ^ l = 0 :=
      Nat.mod_eq_zero_of_dvd ((Nat.pow_dvd_pow_iff_le_right (by decide)).mpr hlt.le)
    have hratio : 1 < 2 ^ (k - l) := Nat.one_lt_two_pow (by omega)
    have hdepth : 1 < (depth - 1) / 2 ^ (k - l) + 1 ↔ 2 ^ (k - l) < depth :=
      one_lt_ctrlDepth (Nat.zero_lt_of_lt hratio)
    rw [if_pos hpow.le, if_neg (not_not.mpr hdvd), if_pos hpow, Nat.pow_div hlt.le (by decide)]
    by_cases hfits : 2 ^ (k - l) < depth
    · rw [if_pos hfits, if_neg (by omega)]
    · rw [if_neg hfits, if_pos (by omega)]
  · rw [if_pos (Nat.le_refl _), if_neg (by rw [Nat.mod_self]; exact not_not.mpr rfl),
      if_neg (Nat.lt_irrefl _), if_pos rfl, Nat.div_self (Nat.two_pow_pos l),
      if_pos (Or.inr (Nat.le_refl 1))]
  · have hpow : 2 ^ k < 2 ^ l := (Nat.pow_lt_pow_iff_right (by decide)).mpr hgt
    rw [if_neg (by omega), if_neg (by omega), if_neg (by omega)]

example : sizes 128 32 (2 ^ 25) = .ok (4, 2 ^ 23) := by decide

variable {p q : Nat} {C : Config (width p q)}

namespace Preserving

/-- The inputs, with the beats before they are packed. -/
structure In (C : Config (width p q)) where
  sinkValid : Bool
  sink : Beat p q
  sourceReady : Bool
  writeCmdReady : Bool
  wdataWilling : Bool
  readCmdReady : Bool
  rdataWilling : Bool
  rdataUnknown : Vector (BitVec (width p q)) C.ratio

/-- The outputs, with the beats unpacked. -/
structure Out (p q : Nat) where
  sinkReady : Bool
  sourceValid : Bool
  source : Beat p q
  deriving DecidableEq, Repr

/-- The inputs of the FIFO between `pack` and `unpack`. -/
def fifoIn (i : In C) : LiteDRAMFIFO.In C where
  sinkValid := i.sinkValid
  sinkData := pack i.sink
  sourceReady := i.sourceReady
  writeCmdReady := i.writeCmdReady
  wdataWilling := i.wdataWilling
  readCmdReady := i.readCmdReady
  rdataWilling := i.rdataWilling
  rdataUnknown := i.rdataUnknown

/-- `LiteDRAMFIFO` with `preserve_first_last`. -/
def machine (C : Config (width p q)) : Machine (State C) (In C) (Out p q) where
  out s i :=
    { sinkReady := (out s (fifoIn i)).sinkReady
      sourceValid := (out s (fifoIn i)).sourceValid
      source := unpack (out s (fifoIn i)).sourceData }
  next s i := next s (fifoIn i)

/-- The beat accepted on `sink` in a cycle. -/
def sinkBeat (c : In C × Out p q) : List (Beat p q) :=
  beat c.1.sinkValid c.2.sinkReady c.1.sink

/-- The beat accepted on `source` in a cycle. -/
def sourceBeat (c : In C × Out p q) : List (Beat p q) :=
  beat c.2.sourceValid c.1.sourceReady c.2.source

/-- The beats in the FIFO, oldest first. -/
def beats (s : State C) : List (Beat p q) := (held s).map unpack

theorem refinesQueue :
    RefinesQueue (machine C) (fun _ _ => True) Inv beats sinkBeat sourceBeat where
  inv _ i _ hInv := inv_next (fifoIn i) hInv
  step s i _ hInv := by
    have hstep := congrArg (List.map unpack)
      (LiteDRAMFIFO.refinesQueue.step s (fifoIn i) trivial hInv)
    rw [List.map_append, List.map_append, sinkWord, sourceWord, map_beat, map_beat] at hstep
    change beats s ++ beat _ _ (unpack (pack i.sink)) = _ at hstep
    rw [unpack_pack] at hstep
    exact hstep

/-- **With `preserve_first_last` the FIFO keeps whole beats.**  On a controller whose width is a
power of two it can be built exactly when a packed beat is narrower than that and the depth
is more than a block of them, and in every run the beats accepted on `sink`, each with its
payload, its parameters and its marks, are those given on `source`, in order, and then those
held. -/
theorem beats_kept (p q k depth : Nat) :
    (sizes (2 ^ k) (width p q) depth =
        if width p q < 2 ^ k then
          if 2 ^ (k - bitsFor (length p q)) < depth then
            .ok (2 ^ (k - bitsFor (length p q)), (depth - 1) / 2 ^ (k - bitsFor (length p q)) + 1)
          else .error .signalMax
        else if width p q = 2 ^ k then .error .signalMax
        else .error .onlyUpconverterSupport) ∧
      ∀ (C : Config (width p q)) (mem : Nat → Vector (BitVec (width p q)) C.ratio)
        (is : List (In C)),
        moved sinkBeat ((machine C).trace (init mem) is) =
          moved sourceBeat ((machine C).trace (init mem) is) ++
            beats ((machine C).run (init mem) is) := by
  refine ⟨sizes_width p q k depth, fun C mem is => ?_⟩
  have hrun := refinesQueue.run (inv_init mem) is
    ((machine C).allSteps_of_forall (fun _ _ => trivial) (init mem) is)
  have hempty : beats (init mem : State C) = [] := by rw [beats, held_init, List.map_nil]
  rw [hempty, List.nil_append] at hrun
  exact hrun

end Preserving

end LiteDRAMFIFO

end UsbSniffer.Dram
