/-
  Iti/Format.lean --- the record format that the packer writes, and its reader.

  A record is a header byte (`diff[0:4]` in bits 0 to 3, the number of further
  time stamp bytes in bits 4 and 5, the type in bits 6 and 7), these time stamp
  bytes, low first, and a payload byte unless the type is NONE.

  `Record` is what the packer can put on its source: the overflow record, and
  records of the three other types with the length that `ITITime.len` gives for
  their time increment.
-/
import Mathlib.Data.BitVec
import UsbSniffer.Iti.Packer
import UsbSniffer.Sync.Records

set_option autoImplicit false

namespace UsbSniffer.Iti

open UsbSniffer.Sync

/-! ## The writer -/

/-- The types of records with a payload. -/
inductive Kind
  | event
  | data
  | rxcmd
  deriving DecidableEq, Repr

/-- The code of the payload. -/
def Kind.code : Kind → BitVec 2
  | .event => PAYLOAD_EVENT
  | .data => PAYLOAD_DATA
  | .rxcmd => PAYLOAD_RXCMD

theorem Kind.code_ne_none (kind : Kind) : kind.code ≠ PAYLOAD_NONE := by
  cases kind <;> decide

/-- The records that the packer sends. -/
inductive Record
  | overflow
  | item (kind : Kind) (diff : BitVec 28) (payload : BitVec 8)
  deriving DecidableEq, Repr

namespace Record

/-- The two bits for the kind of the record. -/
def payloadType : Record → BitVec 2
  | overflow => PAYLOAD_NONE
  | item kind _ _ => kind.code

/-- The field for the time that has passed. -/
def diff : Record → BitVec 28
  | overflow => BitVec.ofNat 28 (2 ^ 28 - 1)
  | item _ diff _ => diff

/-- The number of bytes of the record, less two. -/
def length : Record → BitVec 2
  | overflow => 3
  | item _ diff _ => ITITime.len diff

/-- The payload byte, if the type has one. -/
def payload : Record → Option (BitVec 8)
  | overflow => none
  | item _ _ payload => some payload

/-- The beat of a record. -/
def beat (r : Record) : Beat :=
  ITIPacker.pack r.payloadType (r.payload.getD 0) r.diff r.length

/-- The bytes of a record on the stream. -/
def bytes (r : Record) : List (BitVec 8) := r.beat.bytes

end Record

/-! ## The reader -/

/-- A little-endian number. -/
def littleEndian : List (BitVec 8) → Nat
  | [] => 0
  | b :: bs => b.toNat + 256 * littleEndian bs

/-- What the reader of the format gets out of a record. -/
structure Reading where
  payloadType : BitVec 2
  diff : Nat
  payload : Option (BitVec 8)
  deriving DecidableEq, Repr

/-- Number of further time stamp bytes that a header announces. -/
def headerLength (header : BitVec 8) : Nat := ((header >>> 4) &&& 3).toNat

/-- Type that a header announces. -/
def headerType (header : BitVec 8) : BitVec 2 := (header >>> 6).setWidth 2

/-- Read one record off the front of a byte stream. -/
def readRecord : List (BitVec 8) → Option (Reading × List (BitVec 8))
  | [] => none
  | header :: rest =>
      let stamp := rest.take (headerLength header)
      let diff := (header &&& 15).toNat + 16 * littleEndian stamp
      if stamp.length < headerLength header then none
      else if headerType header = PAYLOAD_NONE then
        some ({ payloadType := headerType header, diff, payload := none },
          rest.drop (headerLength header))
      else
        match rest.drop (headerLength header) with
        | [] => none
        | payload :: rest =>
            some ({ payloadType := headerType header, diff, payload := some payload }, rest)

/-- What a record says. -/
def Record.reading (r : Record) : Reading where
  payloadType := r.payloadType
  diff := r.diff.toNat
  payload := r.payload

/-! ## The bytes of a record -/

/-- The header byte. -/
def headerByte (payloadType : BitVec 2) (diff : BitVec 28) (length : BitVec 2) : BitVec 8 :=
  cat (cat (slice diff 0 4) length) payloadType

/-- The slices that the packer sends are the bytes of `diff[4:28]`. -/
theorem stamp_bytes (diff : BitVec 28) :
    byte (slice diff 4 28) 0 = slice diff 4 12 ∧ byte (slice diff 4 28) 1 = slice diff 12 20 ∧
      byte (slice diff 4 28) 2 = slice diff 20 28 := by
  refine ⟨?_, ?_, ?_⟩ <;> ext i hi <;> simp [byte, slice, ← Nat.add_assoc] <;> omega

/-- The beat of a record with a payload, byte by byte. -/
theorem bytes_pack (kind : Kind) (payload : BitVec 8) (diff : BitVec 28)
    (length : BitVec 2) :
    (ITIPacker.pack kind.code payload diff length).bytes =
      headerByte kind.code diff length ::
        (bytes length.toNat (slice diff 4 28) ++ [payload]) := by
  have hcases : length = 0 ∨ length = 1 ∨ length = 2 ∨ length = 3 := by
    revert length; decide
  obtain ⟨hstamp0, hstamp1, hstamp2⟩ := stamp_bytes diff
  rcases hcases with rfl | rfl | rfl | rfl <;>
    simp (disch := omega) [Beat.bytes, ITIPacker.pack, kind.code_ne_none, bytes,
      List.range_succ, byte_assign_self, byte_assign_of_disjoint, headerByte, hstamp0,
      hstamp1, hstamp2]

/-- The bytes of the overflow record. -/
theorem bytes_overflow : Record.overflow.bytes = [0x3f, 0xff, 0xff, 0xff] := by
  decide

/-- The bytes of the other records. -/
theorem bytes_item (kind : Kind) (diff : BitVec 28) (payload : BitVec 8) :
    (Record.item kind diff payload).bytes =
      headerByte kind.code diff (ITITime.len diff) ::
        (bytes (ITITime.len diff).toNat (slice diff 4 28) ++ [payload]) :=
  bytes_pack kind payload diff (ITITime.len diff)

theorem bytes_ne_nil (r : Record) : r.bytes ≠ [] := by
  cases r with
  | overflow => rw [bytes_overflow]; simp
  | item kind diff payload => rw [bytes_item]; simp

/-- Every valid beat on the packer's source is the beat of a record. -/
theorem ITIPacker.source_record (s : ITIPacker.State) (i : ITIPacker.In)
    (hvalid : (ITIPacker.out s i).sourceValid = true) :
    ∃ r : Record, (ITIPacker.out s i).source = r.beat := by
  unfold ITIPacker.out at hvalid ⊢
  rcases ITIPacker.mux_cases s i with ⟨-, h⟩ | ⟨-, -, h⟩ | ⟨-, -, -, h⟩ | ⟨-, -, -, h⟩
  · exact ⟨.overflow, by rw [h]; rfl⟩
  · exact ⟨.item .event s.time.diff s.ev.data, by rw [h]; rfl⟩
  · refine ⟨.item (if i.sinkCmd then .rxcmd else .data) s.time.diff i.sinkData, ?_⟩
    rw [h]
    cases i.sinkCmd <;> rfl
  · rw [h] at hvalid
    cases hvalid

/-! ## The length of the time stamp -/

/-- `len` bytes hold the increment, and fewer do not. -/
theorem len_cases (diff : BitVec 28) :
    (ITITime.len diff = 0 ∧ diff.toNat < 2 ^ 4) ∨
    (ITITime.len diff = 1 ∧ 2 ^ 4 ≤ diff.toNat ∧ diff.toNat < 2 ^ 12) ∨
    (ITITime.len diff = 2 ∧ 2 ^ 12 ≤ diff.toNat ∧ diff.toNat < 2 ^ 20) ∨
    (ITITime.len diff = 3 ∧ 2 ^ 20 ≤ diff.toNat ∧ diff.toNat < 2 ^ 28) := by
  have hlt := diff.isLt
  unfold ITITime.len
  split_ifs with h20 h12 h4
  · exact Or.inr (Or.inr (Or.inr ⟨rfl, by omega, hlt⟩))
  · exact Or.inr (Or.inr (Or.inl ⟨rfl, by omega, by omega⟩))
  · exact Or.inr (Or.inl ⟨rfl, by omega, by omega⟩)
  · exact Or.inl ⟨rfl, by omega⟩

/-- The length of a record is the smallest that can hold its time increment: `4`
bits are in the header and each further byte holds `8`. -/
def MinimalLength (length : BitVec 2) (diff : BitVec 28) : Prop :=
  diff.toNat < 2 ^ (4 + 8 * length.toNat) ∧
    ∀ shorter, diff.toNat < 2 ^ (4 + 8 * shorter) → length.toNat ≤ shorter

theorem minimalLength_len (diff : BitVec 28) : MinimalLength (ITITime.len diff) diff := by
  rcases len_cases diff with ⟨hl, hlt⟩ | ⟨hl, hge, hlt⟩ | ⟨hl, hge, hlt⟩ | ⟨hl, hge, hlt⟩ <;>
    rw [hl]
  · exact ⟨hlt, fun _ _ => Nat.zero_le _⟩
  all_goals
    refine ⟨hlt, fun shorter h => ?_⟩
    have hexp := (Nat.pow_lt_pow_iff_right (by decide)).mp
      (Nat.lt_of_le_of_lt hge h)
    simp
    omega

theorem minimalLength (r : Record) : MinimalLength r.length r.diff := by
  cases r with
  | overflow => exact minimalLength_len (BitVec.ofNat 28 (2 ^ 28 - 1))
  | item kind diff payload => exact minimalLength_len diff

/-! ## Reading back -/

/-- What the reader finds in a header byte. -/
theorem header_fields (payloadType : BitVec 2) (diff : BitVec 28) (length : BitVec 2) :
    headerLength (headerByte payloadType diff length) = length.toNat ∧
      headerType (headerByte payloadType diff length) = payloadType ∧
      ((headerByte payloadType diff length) &&& 15).toNat = diff.toNat % 16 := by
  have hlow : diff.toNat % 16 = (slice diff 0 4).toNat := by
    simp [slice, BitVec.extractLsb'_toNat]
  have hfields : ∀ (low : BitVec 4) (length payloadType : BitVec 2),
      headerLength (cat (cat low length) payloadType) = length.toNat ∧
        headerType (cat (cat low length) payloadType) = payloadType ∧
        (cat (cat low length) payloadType &&& 15).toNat = low.toNat := by
    decide
  rw [hlow]
  exact hfields (slice diff 0 4) length payloadType

theorem littleEndian_bytes {w : Nat} (x : BitVec w) (n : Nat) :
    littleEndian (bytes n x) = x.toNat % 2 ^ (8 * n) := by
  induction n generalizing x with
  | zero => simp [littleEndian, Nat.mod_one]
  | succ n ih =>
    have hhead : (byte x 0).toNat = x.toNat % 256 := by
      simp [byte, BitVec.extractLsb'_toNat]
    have htail : bytes (n + 1) x = byte x 0 :: bytes n (x >>> 8) := by
      simp only [bytes, List.range_succ_eq_map, List.map_cons, List.map_map]
      congr 1
      apply List.map_congr_left
      intro k _
      apply byte_ext
      intro i _
      rw [BitVec.getLsbD_ushiftRight]
      congr 1
      simp only [Nat.succ_eq_add_one]
      omega
    have hpow : 2 ^ (8 * (n + 1)) = 256 * 2 ^ (8 * n) := by
      rw [Nat.mul_succ, Nat.pow_add, Nat.mul_comm]
    calc littleEndian (bytes (n + 1) x)
        = x.toNat % 256 + 256 * (x.toNat / 256 % 2 ^ (8 * n)) := by
          rw [htail, littleEndian, hhead, ih, BitVec.toNat_ushiftRight,
            Nat.shiftRight_eq_div_pow]
      _ = x.toNat % (256 * 2 ^ (8 * n)) := (Nat.mod_mul).symm
      _ = x.toNat % 2 ^ (8 * (n + 1)) := by rw [hpow]

/-- A minimal or longer time stamp gives the increment back. -/
theorem stamp_value (diff : BitVec 28) (length : BitVec 2)
    (h : diff.toNat < 2 ^ (4 + 8 * length.toNat)) :
    diff.toNat % 16 + 16 * littleEndian (bytes length.toNat (slice diff 4 28)) =
      diff.toNat := by
  have hslice : (slice diff 4 28).toNat = diff.toNat / 16 % 2 ^ 24 := by
    simp [slice, BitVec.extractLsb'_toNat, Nat.shiftRight_eq_div_pow]
  have hlt := diff.isLt
  have hsmall : diff.toNat / 16 < 2 ^ (8 * length.toNat) := by
    rw [Nat.div_lt_iff_lt_mul (by decide), Nat.mul_comm, ← Nat.pow_add 2 4]
    exact h
  have hwide : diff.toNat / 16 < 2 ^ 24 := by omega
  rw [littleEndian_bytes, hslice, Nat.mod_eq_of_lt hwide, Nat.mod_eq_of_lt hsmall]
  omega

/-- The reader gets one record back, whatever follows it. -/
theorem reads_record : Reads Record.bytes readRecord Record.reading := by
  intro r rest
  cases r with
  | overflow =>
    have hlen : headerLength 0x3f = 3 := by decide
    have htype : headerType 0x3f = PAYLOAD_NONE := by decide
    have hvalue : ((0x3f : BitVec 8) &&& 15).toNat +
        16 * littleEndian [0xff, 0xff, 0xff] = Record.overflow.diff.toNat := by decide
    simp only [bytes_overflow, List.cons_append, List.nil_append, readRecord, hlen, htype,
      List.take_succ_cons, List.take_zero, List.drop_succ_cons, List.drop_zero, hvalue,
      List.length_cons, List.length_nil, Nat.reduceAdd, Nat.lt_irrefl, if_false, if_true,
      Record.reading, Record.payloadType, Record.payload]
  | item kind diff payload =>
    obtain ⟨hlen, htype, hlow⟩ := header_fields kind.code diff (ITITime.len diff)
    have hvalue := stamp_value diff _ (minimalLength_len diff).1
    have htake : (bytes (ITITime.len diff).toNat (slice diff 4 28) ++ payload :: rest).take
        (ITITime.len diff).toNat = bytes (ITITime.len diff).toNat (slice diff 4 28) :=
      List.take_left' (length_bytes _ _)
    have hdrop : (bytes (ITITime.len diff).toNat (slice diff 4 28) ++ payload :: rest).drop
        (ITITime.len diff).toNat = payload :: rest :=
      List.drop_left' (length_bytes _ _)
    simp only [bytes_item, List.cons_append, List.append_assoc, List.nil_append,
      readRecord, hlen, htype, hlow, htake, hdrop, hvalue, length_bytes, Nat.lt_irrefl,
      if_false, kind.code_ne_none, Record.reading, Record.payloadType, Record.diff,
      Record.payload]

/-- **The format is uniquely decodable**: reading the concatenated records gives
back the type, the increment and the payload of each of them, in order and with
no byte left over, and the length of each record is minimal. -/
theorem decode_stream (rs : List Record) :
    readAll readRecord (rs.flatMap Record.bytes) = some (rs.map Record.reading) ∧
      ∀ r ∈ rs, MinimalLength r.length r.diff :=
  ⟨readAll_encode reads_record bytes_ne_nil rs, fun r _ => minimalLength r⟩

end UsbSniffer.Iti
