/-
  Host/Link.lean --- the packets that the host's software sends and receives over
  the link (software/linux/compat.c).

  A packet is a preamble, a stream identifier and a length in bytes, words of 32
  bits in the little-endian order of the host, and then the payload.
-/
import UsbSniffer.Usb.Packetizer
import UsbSniffer.Sync.Bits

set_option autoImplicit false

namespace UsbSniffer.Host

open UsbSniffer.Sync

/-- Four bytes as a word, low byte first. -/
def littleWord (b₀ b₁ b₂ b₃ : BitVec 8) : BitVec 32 := cat (cat (cat b₀ b₁) b₂) b₃

/-- The words of a byte stream, low byte first. -/
def littleWords : List (BitVec 8) → List (BitVec 32)
  | b₀ :: b₁ :: b₂ :: b₃ :: rest => littleWord b₀ b₁ b₂ b₃ :: littleWords rest
  | _ => []

/-- The bytes that `ubar_send_packet` writes: the three words of the header, the last
of them cut to 32 bits, and the buffer. -/
def ubarSendPacket (buf : List (BitVec 8)) (streamid : BitVec 32) : List (BitVec 8) :=
  bytes 4 Usb.preamble ++ bytes 4 streamid ++ bytes 4 (BitVec.ofNat 32 buf.length) ++ buf

/-! ## Bytes and words -/

theorem littleWord_byte (w : BitVec 32) :
    littleWord (byte w 0) (byte w 1) (byte w 2) (byte w 3) = w := by
  apply BitVec.eq_of_getLsbD_eq
  intro i hi
  unfold littleWord byte
  rw [getLsbD_cat, getLsbD_cat, getLsbD_cat]
  simp only [BitVec.getLsbD_extractLsb']
  have hsplit : ∀ k, 8 * k ≤ i → i - 8 * k < 8 →
      (decide (i - 8 * k < 8) && w.getLsbD (8 * k + (i - 8 * k))) = w.getLsbD i := by
    intro k hle hlt
    rw [decide_eq_true hlt, Bool.true_and, show 8 * k + (i - 8 * k) = i by omega]
  split_ifs with h24 h16 h8
  · exact hsplit 0 (by omega) (by omega)
  · exact hsplit 1 (by omega) (by omega)
  · exact hsplit 2 (by omega) (by omega)
  · exact hsplit 3 (by omega) (by omega)

theorem byte_littleWord (b₀ b₁ b₂ b₃ : BitVec 8) :
    byte (littleWord b₀ b₁ b₂ b₃) 0 = b₀ ∧ byte (littleWord b₀ b₁ b₂ b₃) 1 = b₁ ∧
      byte (littleWord b₀ b₁ b₂ b₃) 2 = b₂ ∧ byte (littleWord b₀ b₁ b₂ b₃) 3 = b₃ := by
  have hself : ∀ b : BitVec 8, byte b 0 = b := by
    intro b
    unfold byte
    exact BitVec.extractLsb'_eq_self
  unfold littleWord
  refine ⟨?_, ?_, ?_, ?_⟩
  · rw [byte_cat_of_lt _ _ (by omega), byte_cat_of_lt _ _ (by omega),
      byte_cat_of_lt _ _ (by omega), hself]
  · rw [byte_cat_of_lt _ _ (by omega), byte_cat_of_lt _ _ (by omega),
      byte_cat_of_ge (p := 1) _ _ rfl (by omega), hself]
  · rw [byte_cat_of_lt _ _ (by omega), byte_cat_of_ge (p := 2) _ _ rfl (by omega), hself]
  · rw [byte_cat_of_ge (p := 3) _ _ rfl (by omega), hself]

/-- A word is read back from its bytes, whatever follows them. -/
theorem littleWords_bytes (w : BitVec 32) (rest : List (BitVec 8)) :
    littleWords (bytes 4 w ++ rest) = w :: littleWords rest := by
  have hbytes : bytes 4 w = [byte w 0, byte w 1, byte w 2, byte w 3] := rfl
  rw [hbytes]
  simp only [List.cons_append, List.nil_append, littleWords, littleWord_byte]

theorem littleWords_flatMap (ws : List (BitVec 32)) :
    littleWords (ws.flatMap (bytes 4)) = ws := by
  induction ws with
  | nil => rfl
  | cons w ws ih => rw [List.flatMap_cons, littleWords_bytes, ih]

theorem length_flatMap_bytes (ws : List (BitVec 32)) :
    (ws.flatMap (bytes 4)).length = 4 * ws.length := by
  induction ws with
  | nil => rfl
  | cons w ws ih =>
    rw [List.flatMap_cons, List.length_append, length_bytes, ih, List.length_cons]
    omega

/-- The words of a packet of words. -/
theorem littleWords_ubarSendPacket (payload : List (BitVec 32)) (streamid : BitVec 32) :
    littleWords (ubarSendPacket (payload.flatMap (bytes 4)) streamid) =
      Usb.preamble :: streamid :: BitVec.ofNat 32 (4 * payload.length) :: payload := by
  unfold ubarSendPacket
  rw [List.append_assoc, List.append_assoc, littleWords_bytes, littleWords_bytes,
    littleWords_bytes, littleWords_flatMap, length_flatMap_bytes]

end UsbSniffer.Host
