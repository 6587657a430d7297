/-
  Host/Builder.lean --- the builders of requests for every count (software/common/etherbone.c).

  A count has 32 bits, the field of the header eight, and the size of the buffer is
  computed in 32 bits before the size of the header is added.  From 256 words on the
  field tells fewer words than the packet has, and from 2^30 - 1 on the buffer is too
  small for them.
-/
import UsbSniffer.Host.Etherbone

set_option autoImplicit false

namespace UsbSniffer.Host

open UsbSniffer.Sync

/-! ## Stores -/

/-- `*(uint32_t*)(buf + off) = w`. -/
def storeWord (buf : List (BitVec 8)) (off : Nat) (w : BitVec 32) :
    Except Fault (List (BitVec 8)) :=
  if off + 4 ≤ buf.length then .ok (buf.take off ++ bytes 4 w ++ buf.drop (off + 4))
  else .error (.outOfBounds off)

/-- The loops of the builders: words from `buf + off` on. -/
def storeWords : List (BitVec 8) → Nat → List (BitVec 32) → Except Fault (List (BitVec 8))
  | buf, _, [] => .ok buf
  | buf, off, w :: ws => do
      let buf ← storeWord buf off w
      storeWords buf (off + 4) ws

/-- `sizeof(struct eb_header_s) + 4 * (count + 1)`: the product has 32 bits. -/
def packetSize (count : BitVec 32) : Nat := headerSize + (4 * (count + 1)).toNat

/-- The buffer after `malloc`, `memset` and the stores to the header. -/
def allocate (header : EbHeader) (count : BitVec 32) : List (BitVec 8) :=
  header.bytes ++ List.replicate (packetSize count - headerSize) 0

/-- What a builder returns in `*buf` and `*len`, with the status 0. -/
structure Built where
  buf : List (BitVec 8)
  len : Nat
  deriving DecidableEq, Repr

/-- `eb_make_read_pkt` with its stores checked against the buffer. -/
def ebMakeReadPktChecked (addr rCount : BitVec 32) : Except Fault Built := do
  let buf ← storeWords (allocate { requestHeader with rCount := rCount.setWidth 8 } rCount)
    (headerSize + 4)
    ((List.range rCount.toNat).map fun i => wswap (addr + BitVec.ofNat 32 (i * 4)))
  .ok ⟨buf, packetSize rCount⟩

/-- `eb_make_write_pkt` with its stores checked against the buffer. -/
def ebMakeWritePktChecked (addr wCount : BitVec 32) (data : Vector (BitVec 32) wCount.toNat) :
    Except Fault Built := do
  let buf ← storeWord (allocate { requestHeader with wCount := wCount.setWidth 8 } wCount)
    headerSize (wswap addr)
  let buf ← storeWords buf (headerSize + 4) (data.toList.map wswap)
  .ok ⟨buf, packetSize wCount⟩

/-- The call returns a packet of the reported length, and the byte of the header that
counts its words counts those behind the base address. -/
def Consistent (countAt : Nat) (result : Except Fault Built) : Prop :=
  ∃ pkt, result = .ok pkt ∧ pkt.len = pkt.buf.length ∧
    headerSize + 4 + 4 * (pkt.buf.getD countAt 0).toNat = pkt.len

/-! ## What is stored -/

theorem storeWord_append {pre old : List (BitVec 8)} (h : 4 ≤ old.length) (w : BitVec 32) :
    storeWord (pre ++ old) pre.length w = .ok (pre ++ bytes 4 w ++ old.drop 4) := by
  unfold storeWord
  rw [if_pos (by rw [List.length_append]; omega), List.take_left, ← List.drop_drop,
    List.drop_left]

/-- Words that there is room for are stored. -/
theorem storeWords_append {ws : List (BitVec 32)} {pre old : List (BitVec 8)}
    (h : old.length = 4 * ws.length) :
    storeWords (pre ++ old) pre.length ws = .ok (pre ++ ws.flatMap (bytes 4)) := by
  induction ws generalizing pre old with
  | nil =>
    obtain rfl := List.length_eq_zero_iff.mp h
    rfl
  | cons w ws ih =>
    rw [List.length_cons] at h
    have hrest := @ih (pre ++ bytes 4 w) (old.drop 4)
      (by rw [List.length_drop]; omega)
    rw [List.length_append, length_bytes] at hrest
    unfold storeWords
    rw [storeWord_append (by omega), List.flatMap_cons, ← List.append_assoc]
    exact hrest

theorem length_storeWord {buf buf' : List (BitVec 8)} {off : Nat} {w : BitVec 32}
    (h : storeWord buf off w = .ok buf') : buf'.length = buf.length := by
  unfold storeWord at h
  split_ifs at h with hroom
  obtain rfl := Except.ok.inj h
  simp only [List.length_append, List.length_take, List.length_drop, length_bytes]
  omega

/-- Words that there is no room for are not. -/
theorem storeWords_of_lt {ws : List (BitVec 32)} {buf : List (BitVec 8)} {off : Nat}
    (hws : ws ≠ []) (h : buf.length < off + 4 * ws.length) :
    ∃ k, storeWords buf off ws = .error (.outOfBounds k) := by
  induction ws generalizing buf off with
  | nil => exact absurd rfl hws
  | cons w ws ih =>
    unfold storeWords
    cases hstore : storeWord buf off w with
    | error fault =>
      unfold storeWord at hstore
      split_ifs at hstore
      obtain rfl := Except.error.inj hstore
      exact ⟨off, rfl⟩
    | ok buf' =>
      have hlength := length_storeWord hstore
      have hroom : off + 4 ≤ buf.length := by
        unfold storeWord at hstore
        split_ifs at hstore with hroom
        exact hroom
      rw [List.length_cons] at h
      have hne : ws ≠ [] := by
        rintro rfl
        simp at h
        omega
      exact ih hne (by omega)

/-! ## Sizes -/

theorem toNat_size (count : BitVec 32) :
    (4 * (count + 1)).toNat = 4 * (count.toNat + 1) % 2 ^ 32 := by
  have hone : (1 : BitVec 32).toNat = 1 := rfl
  have hfour : (4 : BitVec 32).toNat = 4 := rfl
  rw [BitVec.toNat_mul, BitVec.toNat_add, hone, hfour]
  omega

theorem packetSize_of_lt {count : BitVec 32} (h : count.toNat + 1 < 2 ^ 30) :
    packetSize count = headerSize + 4 + 4 * count.toNat := by
  unfold packetSize
  rw [toNat_size, Nat.mod_eq_of_lt (by omega)]
  omega

theorem packetSize_of_le {count : BitVec 32} (h : 2 ^ 30 ≤ count.toNat + 1) :
    packetSize count < headerSize + 4 + 4 * count.toNat := by
  unfold packetSize
  rw [toNat_size]
  omega

theorem length_allocate (header : EbHeader) (count : BitVec 32) :
    (allocate header count).length = packetSize count := by
  unfold allocate
  rw [List.length_append, EbHeader.length_bytes, List.length_replicate]
  unfold packetSize
  omega

/-- The words behind the header, all zero. -/
theorem allocate_of_lt (header : EbHeader) {count : BitVec 32} (h : count.toNat + 1 < 2 ^ 30) :
    allocate header count =
      header.bytes ++ bytes 4 (0 : BitVec 32) ++ List.replicate (4 * count.toNat) 0 := by
  have hzero : bytes 4 (0 : BitVec 32) = List.replicate 4 0 := by decide
  unfold allocate
  rw [packetSize_of_lt h, hzero, List.append_assoc, List.replicate_append_replicate]
  congr 2
  omega

/-! ## The builders -/

/-- The base address is stored behind the header. -/
theorem storeWord_allocate (header : EbHeader) {count : BitVec 32}
    (h : count.toNat + 1 < 2 ^ 30) (base : BitVec 32) :
    storeWord (allocate header count) headerSize base =
      .ok (header.bytes ++ bytes 4 base ++ List.replicate (4 * count.toNat) 0) := by
  have hroom : 4 ≤ (bytes 4 (0 : BitVec 32) ++ List.replicate (4 * count.toNat) 0).length := by
    rw [List.length_append, length_bytes]
    omega
  have hstore := @storeWord_append header.bytes _ hroom base
  rw [EbHeader.length_bytes, List.drop_left' (length_bytes 4 _)] at hstore
  rw [allocate_of_lt header h, List.append_assoc]
  exact hstore

/-- As many words as there are zeros behind the base address are stored. -/
theorem storeWords_base (header : EbHeader) (base : BitVec 32) {count : Nat}
    {ws : List (BitVec 32)} (hws : ws.length = count) :
    storeWords (header.bytes ++ bytes 4 base ++ List.replicate (4 * count) 0)
        (headerSize + 4) ws =
      .ok (header.bytes ++ bytes 4 base ++ ws.flatMap (bytes 4)) := by
  have hpre : (header.bytes ++ bytes 4 base).length = headerSize + 4 := by
    rw [List.length_append, EbHeader.length_bytes, length_bytes]
  rw [← hpre]
  exact storeWords_append (by rw [List.length_replicate, hws])

/-- Below 2^30 - 1 words there is room for all of them. -/
theorem ebMakeReadPktChecked_of_lt (addr : BitVec 32) {rCount : BitVec 32}
    (h : rCount.toNat + 1 < 2 ^ 30) :
    ebMakeReadPktChecked addr rCount =
      .ok ⟨ebMakeReadPkt addr rCount, headerSize + 4 + 4 * rCount.toNat⟩ := by
  unfold ebMakeReadPktChecked
  rw [allocate_of_lt _ h, storeWords_base _ _ (by simp), packetSize_of_lt h, List.flatMap_map]
  rfl

theorem ebMakeWritePktChecked_of_lt (addr : BitVec 32) {wCount : BitVec 32}
    (data : Vector (BitVec 32) wCount.toNat) (h : wCount.toNat + 1 < 2 ^ 30) :
    ebMakeWritePktChecked addr wCount data =
      .ok ⟨ebMakeWritePkt addr data.toList, headerSize + 4 + 4 * wCount.toNat⟩ := by
  have hcount : BitVec.ofNat 8 data.toList.length = wCount.setWidth 8 := by
    apply BitVec.eq_of_toNat_eq
    simp
  have hdata := storeWords_base { requestHeader with wCount := wCount.setWidth 8 } (wswap addr)
    (show (data.toList.map wswap).length = wCount.toNat by simp)
  unfold ebMakeWritePktChecked ebMakeWritePkt
  rw [storeWord_allocate _ h, packetSize_of_lt h, hcount]
  simp only [bind, Except.bind, hdata, List.flatMap_map]

/-- From 2^30 - 1 words on there is not. -/
theorem ebMakeReadPktChecked_of_le (addr : BitVec 32) {rCount : BitVec 32}
    (h : 2 ^ 30 ≤ rCount.toNat + 1) :
    ∃ k, ebMakeReadPktChecked addr rCount = .error (.outOfBounds k) := by
  have hlength : ((List.range rCount.toNat).map fun i =>
      wswap (addr + BitVec.ofNat 32 (i * 4))).length = rCount.toNat := by simp
  obtain ⟨k, hk⟩ := @storeWords_of_lt _
    (allocate { requestHeader with rCount := rCount.setWidth 8 } rCount) _
    (List.ne_nil_of_length_pos (by rw [hlength]; omega))
    (by rw [length_allocate, hlength]; exact packetSize_of_le h)
  refine ⟨k, ?_⟩
  unfold ebMakeReadPktChecked
  rw [hk]
  rfl

theorem ebMakeWritePktChecked_of_le (addr : BitVec 32) {wCount : BitVec 32}
    (data : Vector (BitVec 32) wCount.toNat) (h : 2 ^ 30 ≤ wCount.toNat + 1) :
    ∃ k, ebMakeWritePktChecked addr wCount data = .error (.outOfBounds k) := by
  have hlength : (data.toList.map wswap).length = wCount.toNat := by simp
  unfold ebMakeWritePktChecked
  cases hbase : storeWord (allocate { requestHeader with wCount := wCount.setWidth 8 } wCount)
      headerSize (wswap addr) with
  | error fault =>
    unfold storeWord at hbase
    split_ifs at hbase
    obtain rfl := Except.error.inj hbase
    exact ⟨headerSize, rfl⟩
  | ok buf =>
    obtain ⟨k, hk⟩ := storeWords_of_lt (List.ne_nil_of_length_pos (by rw [hlength]; omega))
      (by rw [length_storeWord hbase, length_allocate, hlength]; exact packetSize_of_le h)
    exact ⟨k, by simp only [bind, Except.bind, hk]⟩

/-- The field of the header has the low byte of the count. -/
theorem getD_ebMakeReadPkt (addr rCount : BitVec 32) :
    ((ebMakeReadPkt addr rCount).getD 11 0).toNat = rCount.toNat % 2 ^ 8 := by
  have hbyte : (ebMakeReadPkt addr rCount).getD 11 0 = rCount.setWidth 8 := rfl
  rw [hbyte, BitVec.toNat_setWidth]

theorem getD_ebMakeWritePkt (addr : BitVec 32) (data : List (BitVec 32)) :
    ((ebMakeWritePkt addr data).getD 10 0).toNat = data.length % 2 ^ 8 := by
  have hbyte : (ebMakeWritePkt addr data).getD 10 0 = BitVec.ofNat 8 data.length := rfl
  rw [hbyte, BitVec.toNat_ofNat]

theorem length_ebMakeReadPkt (addr rCount : BitVec 32) :
    (ebMakeReadPkt addr rCount).length = headerSize + 4 + 4 * rCount.toNat := by
  have hwords := length_flatMap_bytes
    ((List.range rCount.toNat).map fun i => wswap (addr + BitVec.ofNat 32 (i * 4)))
  rw [List.flatMap_map, List.length_map, List.length_range] at hwords
  unfold ebMakeReadPkt
  rw [List.length_append, List.length_append, EbHeader.length_bytes, length_bytes, hwords]

theorem length_ebMakeWritePkt (addr : BitVec 32) (data : List (BitVec 32)) :
    (ebMakeWritePkt addr data).length = headerSize + 4 + 4 * data.length := by
  have hwords := length_flatMap_bytes (data.map wswap)
  rw [List.flatMap_map, List.length_map] at hwords
  unfold ebMakeWritePkt
  rw [List.length_append, List.length_append, EbHeader.length_bytes, length_bytes, hwords]

/-- A packet with a given number of words is consistent when that number fits the field. -/
theorem consistent_iff {countAt count : Nat} {pkt : List (BitVec 8)}
    (hlength : pkt.length = headerSize + 4 + 4 * count)
    (hcount : (pkt.getD countAt 0).toNat = count % 2 ^ 8) :
    Consistent countAt (.ok ⟨pkt, headerSize + 4 + 4 * count⟩) ↔ count ≤ 255 := by
  constructor
  · rintro ⟨built, hbuilt, -, hfield⟩
    obtain rfl := Except.ok.inj hbuilt
    change headerSize + 4 + 4 * (pkt.getD countAt 0).toNat = headerSize + 4 + 4 * count at hfield
    omega
  · intro hle
    refine ⟨_, rfl, hlength.symm, ?_⟩
    change headerSize + 4 + 4 * (pkt.getD countAt 0).toNat = headerSize + 4 + 4 * count
    omega

theorem not_consistent_error (countAt : Nat) (fault : Fault) :
    ¬ Consistent countAt (.error fault) := by
  rintro ⟨built, hbuilt, -⟩
  cases hbuilt

/-- **A builder returns a consistent packet exactly when its count fits the field of the
header.** -/
theorem builders_consistent_iff (addr count : BitVec 32)
    (data : Vector (BitVec 32) count.toNat) :
    (Consistent 11 (ebMakeReadPktChecked addr count) ↔ count.toNat ≤ 255) ∧
      (Consistent 10 (ebMakeWritePktChecked addr count data) ↔ count.toNat ≤ 255) := by
  rcases Nat.lt_or_ge (count.toNat + 1) (2 ^ 30) with hroom | hshort
  · have hlength := length_ebMakeWritePkt addr data.toList
    have hcount := getD_ebMakeWritePkt addr data.toList
    rw [Vector.length_toList] at hlength hcount
    rw [ebMakeReadPktChecked_of_lt addr hroom, ebMakeWritePktChecked_of_lt addr data hroom]
    exact ⟨consistent_iff (length_ebMakeReadPkt addr count) (getD_ebMakeReadPkt addr count),
      consistent_iff hlength hcount⟩
  · obtain ⟨k, hread⟩ := ebMakeReadPktChecked_of_le addr hshort
    obtain ⟨l, hwrite⟩ := ebMakeWritePktChecked_of_le addr data hshort
    have hlarge : ¬ count.toNat ≤ 255 := by omega
    rw [hread, hwrite]
    exact ⟨iff_of_false (not_consistent_error _ _) hlarge,
      iff_of_false (not_consistent_error _ _) hlarge⟩

/-- With 256 words the field is zero, whatever the words are, and for 2^30 words there
is room for none. -/
theorem builders_inconsistent :
    ¬ Consistent 11 (ebMakeReadPktChecked 0 256) ∧
      (∀ data, ¬ Consistent 10 (ebMakeWritePktChecked 0 256 data)) ∧
      packetSize (BitVec.ofNat 32 (2 ^ 30)) = headerSize + 4 + 4 * 0 := by
  have hroom : (256 : BitVec 32).toNat + 1 < 2 ^ 30 := by decide
  refine ⟨?_, fun data => ?_, by decide⟩
  · rw [ebMakeReadPktChecked_of_lt 0 hroom,
      consistent_iff (length_ebMakeReadPkt 0 256) (getD_ebMakeReadPkt 0 256)]
    decide
  · have hlength := length_ebMakeWritePkt 0 data.toList
    have hcount := getD_ebMakeWritePkt 0 data.toList
    rw [Vector.length_toList] at hlength hcount
    rw [ebMakeWritePktChecked_of_lt 0 data hroom, consistent_iff hlength hcount]
    decide

end UsbSniffer.Host
