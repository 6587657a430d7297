/-
  Etherbone/Header.lean --- the tables of the Etherbone headers (gateware/etherbone.py).

  The packet header is a signal of eight bytes and the header of its record one of four.
  Each names its fields by their places; bits that no field names are zero.
-/
import UsbSniffer.Sync.Header
import UsbSniffer.Etherbone.Record

set_option autoImplicit false

namespace UsbSniffer.Etherbone

open UsbSniffer.Sync

/-- The values of the named fields of both headers. -/
structure HeaderValues where
  magic : BitVec 16
  version : BitVec 4
  nr : Bool
  pr : Bool
  pf : Bool
  addrSize : BitVec 4
  portSize : BitVec 4
  bca : Bool
  rca : Bool
  rff : Bool
  cyc : Bool
  wca : Bool
  wff : Bool
  byteEnable : BitVec 8
  wcount : BitVec 8
  rcount : BitVec 8
  deriving DecidableEq, Repr

/-! ## `etherbone_packet_header_fields` -/

namespace PacketHeader

/-- The magic. -/
abbrev magic : HeaderField := ⟨0, 0, 16⟩

/-- The version of the format. -/
abbrev version : HeaderField := ⟨2, 4, 4⟩

/-- No reads. -/
abbrev nr : HeaderField := ⟨2, 2, 1⟩

/-- The reply to a probe. -/
abbrev pr : HeaderField := ⟨2, 1, 1⟩

/-- A probe. -/
abbrev pf : HeaderField := ⟨2, 0, 1⟩

/-- The widths of addresses, one bit each. -/
abbrev addrSize : HeaderField := ⟨3, 4, 4⟩

/-- The widths of ports, one bit each. -/
abbrev portSize : HeaderField := ⟨3, 0, 4⟩

/-- The packet header with its fields assigned in the order of their names. -/
def encode (h : HeaderValues) : BitVec 64 :=
  (0 : BitVec 64)
    |> addrSize.encode h.addrSize
    |> magic.encode h.magic
    |> nr.encode (BitVec.ofBool h.nr)
    |> pf.encode (BitVec.ofBool h.pf)
    |> portSize.encode h.portSize
    |> pr.encode (BitVec.ofBool h.pr)
    |> version.encode h.version

end PacketHeader

/-! ## `etherbone_record_header_fields` -/

namespace RecordHeader

/-- The base address of the replies is one of the configuration space. -/
abbrev bca : HeaderField := ⟨0, 0, 1⟩

/-- The reads are from the configuration space. -/
abbrev rca : HeaderField := ⟨0, 1, 1⟩

/-- The reads are from a FIFO. -/
abbrev rff : HeaderField := ⟨0, 2, 1⟩

/-- The bus cycle ends with the record. -/
abbrev cyc : HeaderField := ⟨0, 4, 1⟩

/-- The writes are to the configuration space. -/
abbrev wca : HeaderField := ⟨0, 5, 1⟩

/-- The writes are to a FIFO. -/
abbrev wff : HeaderField := ⟨0, 6, 1⟩

/-- `sel` of the accesses. -/
abbrev byteEnable : HeaderField := ⟨1, 0, 8⟩

/-- The number of writes. -/
abbrev wcount : HeaderField := ⟨2, 0, 8⟩

/-- The number of reads. -/
abbrev rcount : HeaderField := ⟨3, 0, 8⟩

/-- The record header with its fields assigned in the order of their names. -/
def encode (h : HeaderValues) : BitVec 32 :=
  (0 : BitVec 32)
    |> bca.encode (BitVec.ofBool h.bca)
    |> byteEnable.encode h.byteEnable
    |> cyc.encode (BitVec.ofBool h.cyc)
    |> rca.encode (BitVec.ofBool h.rca)
    |> rcount.encode h.rcount
    |> rff.encode (BitVec.ofBool h.rff)
    |> wca.encode (BitVec.ofBool h.wca)
    |> wcount.encode h.wcount
    |> wff.encode (BitVec.ofBool h.wff)

end RecordHeader

/-- The bytes of both headers. -/
def encodeHeaders (h : HeaderValues) : List (BitVec 8) :=
  bytes 8 (PacketHeader.encode h) ++ bytes 4 (RecordHeader.encode h)

/-- The fields in the bytes of both headers. -/
def decodeHeaders (bs : List (BitVec 8)) : HeaderValues :=
  let packet : BitVec 64 := ofBytes 64 bs
  let record : BitVec 32 := ofBytes 32 (bs.drop 8)
  { magic := PacketHeader.magic.decode packet
    version := PacketHeader.version.decode packet
    nr := (PacketHeader.nr.decode packet).getLsbD 0
    pr := (PacketHeader.pr.decode packet).getLsbD 0
    pf := (PacketHeader.pf.decode packet).getLsbD 0
    addrSize := PacketHeader.addrSize.decode packet
    portSize := PacketHeader.portSize.decode packet
    bca := (RecordHeader.bca.decode record).getLsbD 0
    rca := (RecordHeader.rca.decode record).getLsbD 0
    rff := (RecordHeader.rff.decode record).getLsbD 0
    cyc := (RecordHeader.cyc.decode record).getLsbD 0
    wca := (RecordHeader.wca.decode record).getLsbD 0
    wff := (RecordHeader.wff.decode record).getLsbD 0
    byteEnable := RecordHeader.byteEnable.decode record
    wcount := RecordHeader.wcount.decode record
    rcount := RecordHeader.rcount.decode record }

/-- A flag is read back from its bit. -/
theorem getLsbD_ofBool (b : Bool) : (BitVec.ofBool b).getLsbD 0 = b := by
  cases b <;> rfl

/-- The fields of a table do not overlap: all of them are read back. -/
theorem decodeHeaders_encodeHeaders (h : HeaderValues) : decodeHeaders (encodeHeaders h) = h := by
  have hpacket : ofBytes 64 (encodeHeaders h) = PacketHeader.encode h :=
    ofBytes_bytes (m := 8) _ rfl _
  have hdrop : (encodeHeaders h).drop 8 = bytes 4 (RecordHeader.encode h) ++ [] := by
    rw [List.append_nil]
    exact List.drop_left' (length_bytes 8 _)
  have hrecord : ofBytes 32 ((encodeHeaders h).drop 8) = RecordHeader.encode h := by
    rw [hdrop]
    exact ofBytes_bytes (m := 4) _ rfl _
  have hmagic : swapBytes (swapBytes h.magic) = h.magic := by
    rw [swapBytes_half, swapBytes_half, reverseHalf_reverseHalf]
  unfold decodeHeaders
  rw [hpacket, hrecord]
  unfold PacketHeader.encode RecordHeader.encode
  simp (disch := first | exact hmagic | exact swapBytes_swapBytes_of_le (by decide) _ | decide)
    only [HeaderField.decode_encode_self, HeaderField.decode_encode_of_disjoint, getLsbD_ofBool]

/-! ## The tables and the rest of the core -/

/-- What the packet receiver looks at of a header is where its table says. -/
theorem decode_packetHeader (w₀ w₁ : BitVec 32) (last : Bool) (sink : UserBeat) :
    (EtherbonePacketRX.decode [w₀, w₁] last sink).magic =
        PacketHeader.magic.decode (cat w₀ w₁) ∧
      (EtherbonePacketRX.decode [w₀, w₁] last sink).beat.pf =
        (PacketHeader.pf.decode (cat w₀ w₁)).getLsbD 0 ∧
      (EtherbonePacketRX.decode [w₀, w₁] last sink).beat.pr =
        (PacketHeader.pr.decode (cat w₀ w₁)).getLsbD 0 ∧
      (EtherbonePacketRX.decode [w₀, w₁] last sink).beat.nr =
        (PacketHeader.nr.decode (cat w₀ w₁)).getLsbD 0 := by
  refine ⟨?_, ?_, ?_, ?_⟩
  · have hslice : slice w₀ 0 16 = (cat w₀ w₁).extractLsb' 0 16 := by
      apply BitVec.eq_of_getLsbD_eq
      intro k hk
      rw [getLsbD_slice, BitVec.getLsbD_extractLsb', getLsbD_cat, if_pos (by omega)]
    change reverseHalf (slice w₀ 0 16) = swapBytes ((cat w₀ w₁).extractLsb' 0 16)
    rw [hslice, swapBytes_half]
  · rw [HeaderField.getLsbD_decode (by decide), getLsbD_cat]
    rfl
  · rw [HeaderField.getLsbD_decode (by decide), getLsbD_cat]
    rfl
  · rw [HeaderField.getLsbD_decode (by decide), getLsbD_cat]
    rfl

/-- What the record receiver looks at of a header is where its table says. -/
theorem decode_recordHeader (w : BitVec 32) (last : Bool) (sink : PacketBeat) :
    (EtherboneRecord.decode [w] last sink).byteEnable = RecordHeader.byteEnable.decode w ∧
      (EtherboneRecord.decode [w] last sink).wcount = RecordHeader.wcount.decode w ∧
      (EtherboneRecord.decode [w] last sink).rcount = RecordHeader.rcount.decode w :=
  ⟨(swapBytes_of_le (by decide) _).symm, (swapBytes_of_le (by decide) _).symm,
    (swapBytes_of_le (by decide) _).symm⟩

end UsbSniffer.Etherbone
