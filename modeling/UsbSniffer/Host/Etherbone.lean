/-
  Host/Etherbone.lean --- the Etherbone packets of the host (software/common/etherbone.c).

  A packet is a header of twelve bytes and then words of 32 bits in the order of the
  network.  The host keeps its own words low byte first, and `wswap` goes between
  the two.  A load from a buffer outside its bytes is a fault.
-/
import UsbSniffer.Host.Link

set_option autoImplicit false

namespace UsbSniffer.Host

open UsbSniffer.Sync

/-- A byte of eight bit-fields of one bit, low bit first. -/
def bitFields (b₀ b₁ b₂ b₃ b₄ b₅ b₆ b₇ : Bool) : BitVec 8 :=
  BitVec.ofBoolListLE [b₀, b₁, b₂, b₃, b₄, b₅, b₆, b₇]

/-- `struct eb_header_s`: the packet header and the header of its record, as `memset`
leaves them. -/
structure EbHeader where
  magic : BitVec 16 := 0
  pf : Bool := false
  pr : Bool := false
  nr : Bool := false
  nc1 : Bool := false
  version : BitVec 4 := 0
  portSize : BitVec 4 := 0
  addrSize : BitVec 4 := 0
  pad1 : BitVec 32 := 0
  nc2 : Bool := false
  wff : Bool := false
  wca : Bool := false
  cyc : Bool := false
  nc3 : Bool := false
  rff : Bool := false
  rca : Bool := false
  bca : Bool := false
  byteEnable : BitVec 8 := 0
  wCount : BitVec 8 := 0
  rCount : BitVec 8 := 0
  deriving DecidableEq, Repr

/-- The bytes of the packed structure. -/
def EbHeader.bytes (h : EbHeader) : List (BitVec 8) :=
  Sync.bytes 2 h.magic ++
    [bitFields h.pf h.pr h.nr h.nc1 false false false false ||| cat (0 : BitVec 4) h.version,
      cat h.portSize h.addrSize] ++
    Sync.bytes 4 h.pad1 ++
    [bitFields h.nc2 h.wff h.wca h.cyc h.nc3 h.rff h.rca h.bca, h.byteEnable, h.wCount, h.rCount]

/-- `sizeof(struct eb_header_s)`. -/
def headerSize : Nat := 12

theorem EbHeader.length_bytes (h : EbHeader) : h.bytes.length = headerSize := by
  simp [EbHeader.bytes, headerSize]

/-- The bytes of a word in the opposite order. -/
def wswap (val : BitVec 32) : BitVec 32 :=
  littleWord (byte val 3) (byte val 2) (byte val 1) (byte val 0)

/-- The header that both kinds of request share. -/
def requestHeader : EbHeader where
  magic := 0x6f4e
  version := 1
  portSize := 4
  addrSize := 4
  byteEnable := 0xf

/-- `eb_make_read_pkt`: the word behind the header stays zero. -/
def ebMakeReadPkt (addr rCount : BitVec 32) : List (BitVec 8) :=
  { requestHeader with rCount := rCount.setWidth 8 }.bytes ++ bytes 4 (0 : BitVec 32) ++
    (List.range rCount.toNat).flatMap fun i => bytes 4 (wswap (addr + BitVec.ofNat 32 (i * 4)))

/-- `eb_make_write_pkt`, where `data` has `w_count` words. -/
def ebMakeWritePkt (addr : BitVec 32) (data : List (BitVec 32)) : List (BitVec 8) :=
  { requestHeader with wCount := BitVec.ofNat 8 data.length }.bytes ++ bytes 4 (wswap addr) ++
    data.flatMap fun val => bytes 4 (wswap val)

/-! ## Words of a packet -/

/-- Two turns of a word leave it as it was. -/
theorem wswap_wswap (x : BitVec 32) : wswap (wswap x) = x := by
  obtain ⟨h₀, h₁, h₂, h₃⟩ := byte_littleWord (byte x 3) (byte x 2) (byte x 1) (byte x 0)
  conv_rhs => rw [← littleWord_byte x]
  unfold wswap
  rw [h₀, h₁, h₂, h₃]

theorem reverseBytes_eq (x : BitVec 32) : reverseBytes x = wswap x := rfl

/-- The words of a request behind its header. -/
theorem littleWords_header (h : EbHeader) (rest : List (BitVec 8)) :
    littleWords (h.bytes ++ rest) =
      littleWord (byte h.magic 0) (byte h.magic 1)
          (bitFields h.pf h.pr h.nr h.nc1 false false false false |||
            cat (0 : BitVec 4) h.version) (cat h.portSize h.addrSize) ::
        h.pad1 ::
          littleWord (bitFields h.nc2 h.wff h.wca h.cyc h.nc3 h.rff h.rca h.bca)
            h.byteEnable h.wCount h.rCount :: littleWords rest := by
  have hmagic : bytes 2 h.magic = [byte h.magic 0, byte h.magic 1] := rfl
  unfold EbHeader.bytes
  rw [hmagic]
  simp only [List.cons_append, List.nil_append, List.append_assoc]
  rw [littleWords, littleWords_bytes, littleWords]

theorem littleWords_requestHeader (w r : BitVec 8) (rest : List (BitVec 8)) :
    littleWords (EbHeader.bytes { requestHeader with wCount := w, rCount := r } ++
        rest) =
      0x44106f4e :: 0 :: littleWord 0 0xf w r :: littleWords rest := by
  have hfirst : littleWord (byte requestHeader.magic 0)
      (byte requestHeader.magic 1)
      (bitFields false false false false false false false false |||
        cat (0 : BitVec 4) requestHeader.version)
      (cat requestHeader.portSize requestHeader.addrSize) = 0x44106f4e := by decide
  have hflags : bitFields false false false false false false false false = 0 := by decide
  rw [littleWords_header, ← hfirst, ← hflags]
  rfl

/-! ## Loads -/

/-- What a load may do that it must not. -/
inductive Fault
  /-- the offset is outside the object -/
  | outOfBounds (offset : Nat)
  /-- the pointer was not assigned -/
  | uninitialised
  deriving DecidableEq, Repr

/-- `buf[off]`. -/
def loadByte (buf : List (BitVec 8)) (off : Nat) : Except Fault (BitVec 8) :=
  match buf[off]? with
  | some b => .ok b
  | none => .error (.outOfBounds off)

/-- `*(uint32_t*)(buf + off)`. -/
def loadWord (buf : List (BitVec 8)) (off : Nat) : Except Fault (BitVec 32) := do
  let b₀ ← loadByte buf off
  let b₁ ← loadByte buf (off + 1)
  let b₂ ← loadByte buf (off + 2)
  let b₃ ← loadByte buf (off + 3)
  .ok (littleWord b₀ b₁ b₂ b₃)

/-- The loop of `eb_decode_rcv_pkt`: `n` words from `buf + off` on, swapped. -/
def loadWords (buf : List (BitVec 8)) : Nat → Nat → Except Fault (List (BitVec 32))
  | _, 0 => .ok []
  | off, n + 1 => do
      let w ← loadWord buf off
      let ws ← loadWords buf (off + 4) n
      .ok (wswap w :: ws)

/-- `eb_decode_rcv_pkt`: `none` is the error -1, which leaves `data` and `len` alone. -/
def ebDecodeRcvPkt (buf : List (BitVec 8)) (blen : Int) :
    Except Fault (Option (List (BitVec 32))) :=
  if blen < 12 then .ok none
  else do
    let wCount ← loadByte buf 10
    let data ← loadWords buf (headerSize + 4) wCount.toNat
    .ok (some data)

/-- The byte `w_count` of a buffer that holds a header. -/
def wCount (buf : List (BitVec 8)) : Nat := (buf.getD 10 0).toNat

/-! ## Bounds -/

theorem loadByte_of_lt {buf : List (BitVec 8)} {off : Nat} (h : off < buf.length) :
    loadByte buf off = .ok (buf.getD off 0) := by
  unfold loadByte
  simp [List.getElem?_eq_getElem h]

theorem loadByte_of_le {buf : List (BitVec 8)} {off : Nat} (h : buf.length ≤ off) :
    loadByte buf off = .error (.outOfBounds off) := by
  unfold loadByte
  rw [List.getElem?_eq_none h]

theorem loadWord_of_le {buf : List (BitVec 8)} {off : Nat} (h : off + 4 ≤ buf.length) :
    loadWord buf off = .ok (littleWord (buf.getD off 0) (buf.getD (off + 1) 0)
      (buf.getD (off + 2) 0) (buf.getD (off + 3) 0)) := by
  unfold loadWord
  rw [loadByte_of_lt (by omega), loadByte_of_lt (by omega), loadByte_of_lt (by omega),
    loadByte_of_lt (by omega)]
  rfl

/-- A word that is not whole is not read. -/
theorem loadWord_of_lt {buf : List (BitVec 8)} {off : Nat} (h : buf.length < off + 4) :
    ∃ k, buf.length ≤ k ∧ loadWord buf off = .error (.outOfBounds k) := by
  -- the first byte outside the buffer stops the load
  unfold loadWord
  rcases Nat.lt_or_ge off buf.length with h₀ | h₀
  · rw [loadByte_of_lt h₀]
    rcases Nat.lt_or_ge (off + 1) buf.length with h₁ | h₁
    · rw [loadByte_of_lt h₁]
      rcases Nat.lt_or_ge (off + 2) buf.length with h₂ | h₂
      · rw [loadByte_of_lt h₂, loadByte_of_le (by omega : buf.length ≤ off + 3)]
        exact ⟨off + 3, by omega, rfl⟩
      · rw [loadByte_of_le h₂]
        exact ⟨off + 2, h₂, rfl⟩
    · rw [loadByte_of_le h₁]
      exact ⟨off + 1, h₁, rfl⟩
  · rw [loadByte_of_le h₀]
    exact ⟨off, h₀, rfl⟩

/-- A word that is there is read. -/
theorem loadWord_append (buf rest : List (BitVec 8)) (w : BitVec 32) :
    loadWord (buf ++ (bytes 4 w ++ rest)) buf.length = .ok w := by
  have hbytes : bytes 4 w = [byte w 0, byte w 1, byte w 2, byte w 3] := rfl
  have hlength : buf.length + 4 ≤ (buf ++ (bytes 4 w ++ rest)).length := by
    rw [List.length_append, List.length_append, length_bytes]
    omega
  rw [loadWord_of_le hlength, hbytes]
  simp [littleWord_byte]

/-- The loop reads the words that are there, and turns them around. -/
theorem loadWords_append (buf : List (BitVec 8)) (ws : List (BitVec 32)) :
    loadWords (buf ++ ws.flatMap (bytes 4)) buf.length ws.length = .ok (ws.map wswap) := by
  induction ws generalizing buf with
  | nil => rfl
  | cons w ws ih =>
    have hrest := ih (buf ++ bytes 4 w)
    rw [List.append_assoc, List.length_append, length_bytes] at hrest
    rw [List.flatMap_cons, List.length_cons, loadWords, loadWord_append, hrest]
    rfl

theorem loadWords_of_le {buf : List (BitVec 8)} {n off : Nat}
    (h : n = 0 ∨ off + 4 * n ≤ buf.length) :
    ∃ ws, loadWords buf off n = .ok ws ∧ ws.length = n := by
  induction n generalizing off with
  | zero => exact ⟨[], rfl, rfl⟩
  | succ n ih =>
    obtain ⟨ws, hws, hlength⟩ := ih (by omega : n = 0 ∨ off + 4 + 4 * n ≤ buf.length)
    have hload := loadWord_of_le (by omega : off + 4 ≤ buf.length)
    exact ⟨_ :: ws, by unfold loadWords; rw [hload, hws]; rfl, by rw [List.length_cons, hlength]⟩

theorem loadWords_of_lt {buf : List (BitVec 8)} {n off : Nat} (hn : n ≠ 0)
    (h : buf.length < off + 4 * n) :
    ∃ k, buf.length ≤ k ∧ loadWords buf off n = .error (.outOfBounds k) := by
  induction n generalizing off with
  | zero => exact absurd rfl hn
  | succ n ih =>
    unfold loadWords
    rcases Nat.lt_or_ge buf.length (off + 4) with hshort | hlong
    · obtain ⟨k, hk, hload⟩ := loadWord_of_lt hshort
      exact ⟨k, hk, by rw [hload]; rfl⟩
    · obtain ⟨k, hk, hload⟩ := ih (by omega) (by omega : buf.length < off + 4 + 4 * n)
      exact ⟨k, hk, by rw [loadWord_of_le hlong, hload]; rfl⟩

/-- The decoder gives up, or gives `w_count` words without a load outside the buffer. -/
def DecodesInBounds (buf : List (BitVec 8)) : Prop :=
  ebDecodeRcvPkt buf buf.length = .ok none ∨
    ∃ data, ebDecodeRcvPkt buf buf.length = .ok (some data) ∧ data.length = wCount buf

/-- Behind the size check the decoder is its loop. -/
theorem ebDecodeRcvPkt_of_header {buf : List (BitVec 8)} (h : 12 ≤ buf.length) :
    ebDecodeRcvPkt buf buf.length = some <$> loadWords buf 16 (wCount buf) := by
  unfold ebDecodeRcvPkt
  rw [if_neg (by omega), loadByte_of_lt (by omega)]
  rfl

theorem ebDecodeRcvPkt_of_le {buf : List (BitVec 8)} (hheader : 12 ≤ buf.length)
    (h : wCount buf = 0 ∨ 16 + 4 * wCount buf ≤ buf.length) :
    ∃ data, ebDecodeRcvPkt buf buf.length = .ok (some data) ∧ data.length = wCount buf := by
  obtain ⟨data, hdata, hlength⟩ := loadWords_of_le h
  refine ⟨data, ?_, hlength⟩
  rw [ebDecodeRcvPkt_of_header hheader, hdata]
  rfl

theorem ebDecodeRcvPkt_of_lt {buf : List (BitVec 8)} (hheader : 12 ≤ buf.length)
    (hcount : wCount buf ≠ 0) (h : buf.length < 16 + 4 * wCount buf) :
    ∃ k, buf.length ≤ k ∧ ebDecodeRcvPkt buf buf.length = .error (.outOfBounds k) := by
  obtain ⟨k, hk, hload⟩ := loadWords_of_lt hcount h
  refine ⟨k, hk, ?_⟩
  rw [ebDecodeRcvPkt_of_header hheader, hload]
  rfl

theorem ebDecodeRcvPkt_of_short {buf : List (BitVec 8)} (h : buf.length < 12) :
    ebDecodeRcvPkt buf buf.length = .ok none := by
  unfold ebDecodeRcvPkt
  rw [if_pos (by omega)]

/-- What is decoded is there. -/
theorem of_ebDecodeRcvPkt {buf : List (BitVec 8)} {data : List (BitVec 32)}
    (h : ebDecodeRcvPkt buf buf.length = .ok (some data)) :
    data.length = wCount buf ∧ (wCount buf = 0 ∨ 16 + 4 * wCount buf ≤ buf.length) := by
  rcases Nat.lt_or_ge buf.length 12 with hshort | hheader
  · rw [ebDecodeRcvPkt_of_short hshort] at h
    cases h
  · by_cases hbounds : wCount buf = 0 ∨ 16 + 4 * wCount buf ≤ buf.length
    · obtain ⟨data', hdata', hlength⟩ := ebDecodeRcvPkt_of_le hheader hbounds
      rw [h] at hdata'
      cases hdata'
      exact ⟨hlength, hbounds⟩
    · obtain ⟨k, -, hfault⟩ := ebDecodeRcvPkt_of_lt hheader (by omega) (by omega)
      rw [h] at hfault
      cases hfault

theorem decodesInBounds_iff (buf : List (BitVec 8)) : DecodesInBounds buf ↔
    buf.length < 12 ∨ wCount buf = 0 ∨ 16 + 4 * wCount buf ≤ buf.length := by
  rcases Nat.lt_or_ge buf.length 12 with hshort | hheader
  · exact ⟨fun _ => Or.inl hshort, fun _ => Or.inl (ebDecodeRcvPkt_of_short hshort)⟩
  constructor
  · rintro (h | ⟨data, h, -⟩)
    · rw [ebDecodeRcvPkt_of_header hheader] at h
      cases hload : loadWords buf 16 (wCount buf) with
      | error f =>
        rw [hload] at h
        cases h
      | ok data =>
        rw [hload] at h
        cases h
    · exact Or.inr (of_ebDecodeRcvPkt h).2
  · rintro (h | h)
    · omega
    · exact Or.inr (ebDecodeRcvPkt_of_le hheader h)

end UsbSniffer.Host
