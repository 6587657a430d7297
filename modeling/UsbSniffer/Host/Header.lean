/-
  Host/Header.lean --- the header of the host's packets against the tables of the gateware
  (software/common/etherbone.c, gateware/etherbone.py).

  Both describe the same twelve bytes.  The structure lists the flags of a record from
  the lowest bit up, `bca` in the highest one; the table has `bca` in the lowest one, and
  so on in the opposite order.  The other fields have the same places in both.
-/
import UsbSniffer.Host.Etherbone
import UsbSniffer.Etherbone.Header

set_option autoImplicit false

namespace UsbSniffer.Host

open UsbSniffer.Sync
open UsbSniffer.Etherbone

/-- The structure with the given values, the magic turned around, and nothing in the
reserved bits. -/
def EbHeader.ofValues (h : HeaderValues) : EbHeader where
  magic := reverseHalf h.magic
  pf := h.pf
  pr := h.pr
  nr := h.nr
  version := h.version
  portSize := h.portSize
  addrSize := h.addrSize
  wff := h.wff
  wca := h.wca
  cyc := h.cyc
  rff := h.rff
  rca := h.rca
  bca := h.bca
  byteEnable := h.byteEnable
  wCount := h.wcount
  rCount := h.rcount

/-- The named fields of the structure, the magic turned around. -/
def EbHeader.values (h : EbHeader) : HeaderValues where
  magic := reverseHalf h.magic
  pf := h.pf
  pr := h.pr
  nr := h.nr
  version := h.version
  portSize := h.portSize
  addrSize := h.addrSize
  wff := h.wff
  wca := h.wca
  cyc := h.cyc
  rff := h.rff
  rca := h.rca
  bca := h.bca
  byteEnable := h.byteEnable
  wcount := h.wCount
  rcount := h.rCount

/-- The structure read from its bytes. -/
def EbHeader.ofBytes (bs : List (BitVec 8)) : EbHeader where
  magic := cat (bs.getD 0 0) (bs.getD 1 0)
  pf := (bs.getD 2 0).getLsbD 0
  pr := (bs.getD 2 0).getLsbD 1
  nr := (bs.getD 2 0).getLsbD 2
  nc1 := (bs.getD 2 0).getLsbD 3
  version := slice (bs.getD 2 0) 4 8
  portSize := slice (bs.getD 3 0) 0 4
  addrSize := slice (bs.getD 3 0) 4 8
  pad1 := littleWord (bs.getD 4 0) (bs.getD 5 0) (bs.getD 6 0) (bs.getD 7 0)
  nc2 := (bs.getD 8 0).getLsbD 0
  wff := (bs.getD 8 0).getLsbD 1
  wca := (bs.getD 8 0).getLsbD 2
  cyc := (bs.getD 8 0).getLsbD 3
  nc3 := (bs.getD 8 0).getLsbD 4
  rff := (bs.getD 8 0).getLsbD 5
  rca := (bs.getD 8 0).getLsbD 6
  bca := (bs.getD 8 0).getLsbD 7
  byteEnable := bs.getD 9 0
  wCount := bs.getD 10 0
  rCount := bs.getD 11 0

/-! ## The structure and its bytes -/

theorem getLsbD_bitFields (b₀ b₁ b₂ b₃ b₄ b₅ b₆ b₇ : Bool) (k : Nat) :
    (bitFields b₀ b₁ b₂ b₃ b₄ b₅ b₆ b₇).getLsbD k =
      [b₀, b₁, b₂, b₃, b₄, b₅, b₆, b₇].getD k false :=
  BitVec.getLsbD_ofBoolListLE

/-- The byte of `pf`, `pr`, `nr` and `version`. -/
theorem getLsbD_versionByte (b₀ b₁ b₂ b₃ : Bool) (version : BitVec 4) (k : Nat) :
    (bitFields b₀ b₁ b₂ b₃ false false false false ||| cat (0 : BitVec 4) version).getLsbD k =
      if k < 4 then [b₀, b₁, b₂, b₃].getD k false else version.getLsbD (k - 4) := by
  have hzero : (0 : BitVec 4).getLsbD k = false := BitVec.getLsbD_zero
  have hlist : [b₀, b₁, b₂, b₃, false, false, false, false] =
      [b₀, b₁, b₂, b₃] ++ List.replicate 4 false := rfl
  have hrest : ∀ i : Nat, (List.replicate 4 false).getD i false = false := fun i =>
    List.getElem?_getD_replicate_default_eq false 4 i
  rw [BitVec.getLsbD_or, getLsbD_bitFields, getLsbD_cat, hlist]
  split_ifs with hk
  · rw [List.getD_append _ _ _ _ hk, hzero, Bool.or_false]
  · rw [List.getD_append_right _ _ _ _ (Nat.not_lt.mp hk), hrest, Bool.false_or]

theorem extract_versionByte (b₀ b₁ b₂ b₃ : Bool) (version : BitVec 4) :
    (bitFields b₀ b₁ b₂ b₃ false false false false |||
      cat (0 : BitVec 4) version).extractLsb' 4 4 = version := by
  apply BitVec.eq_of_getLsbD_eq
  intro k hk
  rw [BitVec.getLsbD_extractLsb', getLsbD_versionByte, if_neg (by omega),
    Nat.add_sub_cancel_left, decide_eq_true hk, Bool.true_and]

theorem byteHalves_cat (low high : BitVec 4) :
    (cat low high).extractLsb' 0 4 = low ∧ (cat low high).extractLsb' 4 4 = high := by
  constructor
  · apply BitVec.eq_of_getLsbD_eq
    intro k hk
    rw [BitVec.getLsbD_extractLsb', getLsbD_cat, if_pos (by omega), Nat.zero_add,
      decide_eq_true hk, Bool.true_and]
  · apply BitVec.eq_of_getLsbD_eq
    intro k hk
    rw [BitVec.getLsbD_extractLsb', getLsbD_cat, if_neg (by omega), Nat.add_sub_cancel_left,
      decide_eq_true hk, Bool.true_and]

theorem EbHeader.bytes_eq (h : EbHeader) : h.bytes =
    [byte h.magic 0, byte h.magic 1,
      bitFields h.pf h.pr h.nr h.nc1 false false false false ||| cat (0 : BitVec 4) h.version,
      cat h.portSize h.addrSize, byte h.pad1 0, byte h.pad1 1, byte h.pad1 2, byte h.pad1 3,
      bitFields h.nc2 h.wff h.wca h.cyc h.nc3 h.rff h.rca h.bca, h.byteEnable, h.wCount,
      h.rCount] := rfl

/-- A byte is made of its bits. -/
theorem bitFields_getLsbD (b : BitVec 8) :
    bitFields (b.getLsbD 0) (b.getLsbD 1) (b.getLsbD 2) (b.getLsbD 3) (b.getLsbD 4)
      (b.getLsbD 5) (b.getLsbD 6) (b.getLsbD 7) = b := by
  apply BitVec.eq_of_getLsbD_eq
  intro k hk
  rw [getLsbD_bitFields]
  have hcases : k = 0 ∨ k = 1 ∨ k = 2 ∨ k = 3 ∨ k = 4 ∨ k = 5 ∨ k = 6 ∨ k = 7 := by omega
  rcases hcases with rfl | rfl | rfl | rfl | rfl | rfl | rfl | rfl <;> rfl

theorem versionByte_getLsbD (b : BitVec 8) :
    bitFields (b.getLsbD 0) (b.getLsbD 1) (b.getLsbD 2) (b.getLsbD 3) false false false false |||
      cat (0 : BitVec 4) (slice b 4 8) = b := by
  apply BitVec.eq_of_getLsbD_eq
  intro k hk
  rw [getLsbD_versionByte]
  split_ifs with hlow
  · have hcases : k = 0 ∨ k = 1 ∨ k = 2 ∨ k = 3 := by omega
    rcases hcases with rfl | rfl | rfl | rfl <;> rfl
  · rw [getLsbD_slice, decide_eq_true (by omega), Bool.true_and, Nat.add_sub_cancel' (by omega)]

theorem cat_slice (b : BitVec 8) : cat (slice b 0 4) (slice b 4 8) = b := by
  apply BitVec.eq_of_getLsbD_eq
  intro k hk
  rw [getLsbD_cat]
  split_ifs with hlow
  · rw [getLsbD_slice, decide_eq_true hlow, Bool.true_and, Nat.zero_add]
  · rw [getLsbD_slice, decide_eq_true (by omega), Bool.true_and, Nat.add_sub_cancel' (by omega)]

/-- Twelve bytes are those of the structure read from them. -/
theorem EbHeader.bytes_ofBytes {bs : List (BitVec 8)} (h : bs.length = headerSize) :
    (EbHeader.ofBytes bs).bytes = bs := by
  match bs, h with
  | [b₀, b₁, b₂, b₃, b₄, b₅, b₆, b₇, b₈, b₉, b₁₀, b₁₁], _ =>
    obtain ⟨h₄, h₅, h₆, h₇⟩ := byte_littleWord b₄ b₅ b₆ b₇
    have h₀ : byte (cat b₀ b₁) 0 = b₀ :=
      (byte_cat_of_lt b₀ b₁ (by decide)).trans BitVec.extractLsb'_eq_self
    have h₁ : byte (cat b₀ b₁) 1 = b₁ :=
      (byte_cat_of_ge (p := 1) b₀ b₁ rfl (Nat.le_refl 1)).trans BitVec.extractLsb'_eq_self
    rw [EbHeader.bytes_eq]
    simp only [EbHeader.ofBytes, List.getD_cons_zero, List.getD_cons_succ, h₀, h₁,
      versionByte_getLsbD, cat_slice, h₄, h₅, h₆, h₇, bitFields_getLsbD]

/-! ## The two descriptions -/

/-- The table finds the fields of the structure, but the flags of the record in the
opposite order. -/
theorem decodeHeaders_bytes (h : EbHeader) :
    decodeHeaders h.bytes =
      { h.values with
        bca := h.nc2
        rca := h.wff
        rff := h.wca
        cyc := h.nc3
        wca := h.rff
        wff := h.rca } := by
  have hmagic : (ofBytes 64 h.bytes).extractLsb' 0 16 = h.magic := by
    apply BitVec.eq_of_getLsbD_eq
    intro k hk
    rw [BitVec.getLsbD_extractLsb', decide_eq_true hk, Bool.true_and, Nat.zero_add,
      getLsbD_ofBytes _ (by omega), EbHeader.bytes_eq]
    rcases Nat.lt_or_ge k 8 with hlow | hhigh
    · rw [show k / 8 = 0 by omega, show k % 8 = k by omega]
      simp [byte, hlow]
    · rw [show k / 8 = 1 by omega, show k % 8 = k - 8 by omega]
      simp [byte, show k - 8 < 8 by omega, show 8 + (k - 8) = k by omega]
  have hhalves := byteHalves_cat h.portSize h.addrSize
  unfold decodeHeaders
  simp only [EbHeader.values, HeaderValues.mk.injEq]
  refine ⟨?_,
    HeaderField.decode_ofBytes (by decide) (by decide) (extract_versionByte ..),
    HeaderField.flag_ofBytes (by decide) (by decide) (getLsbD_versionByte ..),
    HeaderField.flag_ofBytes (by decide) (by decide) (getLsbD_versionByte ..),
    HeaderField.flag_ofBytes (by decide) (by decide) (getLsbD_versionByte ..),
    HeaderField.decode_ofBytes (by decide) (by decide) hhalves.2,
    HeaderField.decode_ofBytes (by decide) (by decide) hhalves.1,
    HeaderField.flag_ofBytes (by decide) (by decide) (getLsbD_bitFields ..),
    HeaderField.flag_ofBytes (by decide) (by decide) (getLsbD_bitFields ..),
    HeaderField.flag_ofBytes (by decide) (by decide) (getLsbD_bitFields ..),
    HeaderField.flag_ofBytes (by decide) (by decide) (getLsbD_bitFields ..),
    HeaderField.flag_ofBytes (by decide) (by decide) (getLsbD_bitFields ..),
    HeaderField.flag_ofBytes (by decide) (by decide) (getLsbD_bitFields ..),
    HeaderField.decode_ofBytes (by decide) (by decide) BitVec.extractLsb'_eq_self,
    HeaderField.decode_ofBytes (by decide) (by decide) BitVec.extractLsb'_eq_self,
    HeaderField.decode_ofBytes (by decide) (by decide) BitVec.extractLsb'_eq_self⟩
  change swapBytes ((ofBytes 64 h.bytes).extractLsb' 0 16) = _
  rw [hmagic, swapBytes_half]

/-- The table writes nothing where the structure has `bca` and `cyc`. -/
theorem reserved_encodeHeaders (h : HeaderValues) :
    ((encodeHeaders h).getD 8 0).getLsbD 7 = false ∧
      ((encodeHeaders h).getD 8 0).getLsbD 3 = false := by
  have hbyte : (encodeHeaders h).getD 8 0 = byte (RecordHeader.encode h) 0 := rfl
  have hbit : ∀ k : Nat, k = 7 ∨ k = 3 → (RecordHeader.encode h).getLsbD k = false := by
    intro k hk
    unfold RecordHeader.encode
    rcases hk with rfl | rfl
    · simp (disch := decide) only [HeaderField.getLsbD_encode, if_neg]
      exact BitVec.getLsbD_zero
    · simp (disch := decide) only [HeaderField.getLsbD_encode, if_neg]
      exact BitVec.getLsbD_zero
  rw [hbyte]
  unfold byte
  rw [BitVec.getLsbD_extractLsb', BitVec.getLsbD_extractLsb']
  exact ⟨hbit 7 (Or.inl rfl), hbit 3 (Or.inr rfl)⟩

/-- What the values become on the way from one description to the other. -/
def mirrored (h : HeaderValues) : HeaderValues :=
  { h with
    bca := false
    rca := h.wff
    rff := h.wca
    cyc := false
    wca := h.rff
    wff := h.rca }

/-- From the structure to the table. -/
theorem decodeHeaders_ofValues (h : HeaderValues) :
    decodeHeaders (EbHeader.ofValues h).bytes = mirrored h := by
  rw [decodeHeaders_bytes]
  simp only [EbHeader.values, EbHeader.ofValues, mirrored, reverseHalf_reverseHalf]

/-- From the table to the structure. -/
theorem values_ofBytes (h : HeaderValues) :
    (EbHeader.ofBytes (encodeHeaders h)).values = mirrored h := by
  have hlength : (encodeHeaders h).length = headerSize := by
    unfold encodeHeaders headerSize
    rw [List.length_append, length_bytes, length_bytes]
  -- the structure that is read has the bytes of the table, which give back the values
  have hdecode := decodeHeaders_bytes (EbHeader.ofBytes (encodeHeaders h))
  rw [EbHeader.bytes_ofBytes hlength, decodeHeaders_encodeHeaders] at hdecode
  obtain ⟨hbca, hcyc⟩ := reserved_encodeHeaders h
  change (EbHeader.ofBytes (encodeHeaders h)).bca = false at hbca
  change (EbHeader.ofBytes (encodeHeaders h)).cyc = false at hcyc
  generalize EbHeader.ofBytes (encodeHeaders h) = s at hdecode hbca hcyc ⊢
  rw [hdecode]
  simp only [EbHeader.values, mirrored, hbca, hcyc]

/-- The flags that the two descriptions agree on. -/
def FlagsAgree (h : HeaderValues) : Prop :=
  h.bca = false ∧ h.cyc = false ∧ h.rca = h.wff ∧ h.rff = h.wca

theorem mirrored_eq_iff (h : HeaderValues) : mirrored h = h ↔ FlagsAgree h := by
  unfold mirrored FlagsAgree
  constructor
  · intro heq
    have hbca := congrArg HeaderValues.bca heq
    have hcyc := congrArg HeaderValues.cyc heq
    have hrca := congrArg HeaderValues.rca heq
    have hrff := congrArg HeaderValues.rff heq
    exact ⟨hbca.symm, hcyc.symm, hrca.symm, hrff.symm⟩
  · rintro ⟨hbca, hcyc, hrca, hrff⟩
    cases h
    simp_all

/-- **Both descriptions read each other's headers exactly when the flags are symmetric.** -/
theorem headers_agree_iff (h : HeaderValues) :
    (decodeHeaders (EbHeader.ofValues h).bytes = h ↔ FlagsAgree h) ∧
      ((EbHeader.ofBytes (encodeHeaders h)).values = h ↔ FlagsAgree h) := by
  rw [decodeHeaders_ofValues, values_ofBytes]
  exact ⟨mirrored_eq_iff h, mirrored_eq_iff h⟩

/-- A header with the given flags and nothing else. -/
def headerWithFlags (bca wca : Bool) : HeaderValues where
  magic := etherboneMagic
  version := etherboneVersion
  nr := false
  pr := false
  pf := false
  addrSize := 4
  portSize := 4
  bca := bca
  rca := false
  rff := false
  cyc := false
  wca := wca
  wff := false
  byteEnable := 0xf
  wcount := 1
  rcount := 0

/-- `wca` of the host is `rff` for the gateware, and its `bca` is not looked at. -/
theorem flags_crossed :
    decodeHeaders (EbHeader.ofValues (headerWithFlags false true)).bytes ≠
        headerWithFlags false true ∧
      (decodeHeaders (EbHeader.ofValues (headerWithFlags false true)).bytes).rff = true ∧
      decodeHeaders (EbHeader.ofValues (headerWithFlags true false)).bytes =
        headerWithFlags false false := by
  decide

end UsbSniffer.Host
