/-
  Host/Register.lean --- a register read by the host (software/linux/compat.c).

  `eb_read_reg32` sends a request and takes the next packet of the link for the
  reply: it looks neither at the stream identifier that `ubar_recv_packet` returns
  nor at the status of `eb_decode_rcv_pkt`.
-/
import UsbSniffer.Host.Etherbone

set_option autoImplicit false

namespace UsbSniffer.Host

open UsbSniffer.Sync

/-! ## The link -/

/-- What `read` finds on the link: an error, or some bytes, of which it takes as many as
it is asked for and leaves the others to the next call. -/
inductive Arrival
  | failed
  | data (xs : List (BitVec 8))
  deriving DecidableEq, Repr

/-- The bytes that it brings. -/
def Arrival.bytes : Arrival → List (BitVec 8)
  | .failed => []
  | .data xs => xs

/-- The link as the program sees it. -/
structure Port where
  /-- the bytes written so far -/
  sent : List (BitVec 8)
  arrivals : List Arrival
  deriving DecidableEq, Repr

/-- Why a call does not return. -/
inductive Stop
  /-- `read` has nothing more -/
  | waiting
  | exit (code : Nat)
  | fault (f : Fault)
  deriving DecidableEq, Repr

/-- `readft`: the error -1 of `read` is above `toread`, an unsigned number. -/
def readft : Nat → List Arrival → Except Stop (List (BitVec 8) × List Arrival)
  | 0, link => .ok ([], link)
  | _ + 1, [] => .error .waiting
  | _ + 1, .failed :: _ => .error (.exit 0)
  | toread + 1, .data xs :: link =>
      if xs.length ≤ toread + 1 then do
        let (ys, link') ← readft (toread + 1 - xs.length) link
        .ok (xs ++ ys, link')
      else .ok (xs.take (toread + 1), .data (xs.drop (toread + 1)) :: link)

/-- The `do` loop of `ubar_recv_packet`.  A turn that is not the last takes four bytes, so that
one turn more than there are bytes is enough. -/
def skipToPreamble : Nat → List Arrival → Except Stop (List Arrival)
  | 0, _ => .error .waiting
  | turns + 1, link => do
      let (header, link') ← readft 4 link
      if littleWords header = [Usb.preamble] then .ok link' else skipToPreamble turns link'

/-- The bytes still to be read. -/
def pending (link : List Arrival) : List (BitVec 8) := link.flatMap Arrival.bytes

/-- `ubar_recv_packet`: the stream identifier and the payload of the next packet. -/
def ubarRecvPacket (link : List Arrival) :
    Except Stop ((BitVec 32 × List (BitVec 8)) × List Arrival) := do
  let link ← skipToPreamble ((pending link).length + 1) link
  let (xbar, link) ← readft 8 link
  let streamid := (littleWords xbar).getD 0 0
  let len := ((littleWords xbar).getD 1 0).toNat
  if 32768 < len then .error (.exit 1)
  else
    let (buf, link) ← readft len link
    .ok ((streamid, buf), link)

example : ubarRecvPacket [.failed] = .error (.exit 0) := rfl

/-- `data[0]` after `eb_decode_rcv_pkt`. -/
def firstWord : Option (List (BitVec 32)) → Except Fault (BitVec 32)
  | none => .error .uninitialised
  | some [] => .error (.outOfBounds 0)
  | some (w :: _) => .ok w

/-- `eb_read_reg32`. -/
def ebReadReg32 (addr : BitVec 32) (port : Port) : Except Stop (BitVec 32 × Port) := do
  let sent := port.sent ++ ubarSendPacket (ebMakeReadPkt addr 1) 0
  let ((_, buf), arrivals) ← ubarRecvPacket port.arrivals
  match ebDecodeRcvPkt buf buf.length >>= firstWord with
  | .ok ret => .ok (ret, { sent := sent, arrivals := arrivals })
  | .error f => .error (.fault f)

/-! ## What a read takes -/

theorem pending_cons (a : Arrival) (link : List Arrival) :
    pending (a :: link) = a.bytes ++ pending link := List.flatMap_cons

/-- Without errors on the link, `readft` reads the bytes pending, however they arrive. -/
theorem readft_pending {link : List Arrival} {xs ys : List (BitVec 8)}
    (hlink : .failed ∉ link) (h : pending link = xs ++ ys) :
    ∃ link', readft xs.length link = .ok (xs, link') ∧ pending link' = ys ∧
      .failed ∉ link' := by
  induction link generalizing xs with
  | nil =>
    obtain ⟨rfl, rfl⟩ := List.append_eq_nil_iff.mp h.symm
    exact ⟨[], rfl, rfl, hlink⟩
  | cons a link ih =>
    obtain ⟨ha, hlink'⟩ := not_or.mp (List.mem_cons.not.mp hlink)
    cases a with
    | failed => exact absurd rfl ha
    | data zs =>
      rw [pending_cons] at h
      change zs ++ pending link = xs ++ ys at h
      cases hn : xs.length with
      | zero =>
        obtain rfl := List.length_eq_zero_iff.mp hn
        exact ⟨_, rfl, by rw [pending_cons]; exact h, hlink⟩
      | succ n =>
        unfold readft
        rcases Nat.lt_or_ge xs.length zs.length with hlt | hle
        · -- the arrival has more than is asked for
          obtain ⟨us, rfl⟩ := List.prefix_of_prefix_length_le ⟨ys, rfl⟩ ⟨pending link, h⟩ hlt.le
          rw [List.append_assoc] at h
          have hys : us ++ pending link = ys := List.append_cancel_left h
          rw [if_neg (by omega), ← hn, List.take_left, List.drop_left]
          refine ⟨_, rfl, by rw [pending_cons]; exact hys, ?_⟩
          simp [hlink']
        · -- the whole arrival is read, and the rest from those after it
          obtain ⟨us, rfl⟩ := List.prefix_of_prefix_length_le ⟨pending link, rfl⟩ ⟨ys, h.symm⟩ hle
          rw [List.append_assoc] at h
          have hus : pending link = us ++ ys := List.append_cancel_left h
          obtain ⟨link', hread, hrest, hclean⟩ := ih hlink' hus
          rw [List.length_append] at hn
          rw [if_pos (by omega), show n + 1 - zs.length = us.length by omega, hread]
          exact ⟨link', rfl, hrest, hclean⟩

theorem readft_of_length {link : List Arrival} {xs ys : List (BitVec 8)} {n : Nat}
    (hn : xs.length = n) (hlink : .failed ∉ link) (h : pending link = xs ++ ys) :
    ∃ link', readft n link = .ok (xs, link') ∧ pending link' = ys ∧ .failed ∉ link' :=
  hn ▸ readft_pending hlink h

theorem littleWords_word (w : BitVec 32) : littleWords (bytes 4 w) = [w] := by
  simpa using littleWords_flatMap [w]

/-- The words in front of the preamble are skipped. -/
theorem skipToPreamble_pending {junk : List (BitVec 32)} {turns : Nat} {link : List Arrival}
    {ys : List (BitVec 8)} (hjunk : Usb.preamble ∉ junk) (hturns : junk.length < turns)
    (hlink : .failed ∉ link)
    (h : pending link = junk.flatMap (bytes 4) ++ (bytes 4 Usb.preamble ++ ys)) :
    ∃ link', skipToPreamble turns link = .ok link' ∧ pending link' = ys ∧
      .failed ∉ link' := by
  induction junk generalizing turns link with
  | nil =>
    obtain ⟨turns, rfl⟩ : ∃ n, turns = n + 1 := ⟨turns - 1, by simp at hturns; omega⟩
    obtain ⟨link', hread, hrest, hclean⟩ := readft_of_length (length_bytes 4 _) hlink h
    refine ⟨link', ?_, hrest, hclean⟩
    unfold skipToPreamble
    simp only [hread, bind, Except.bind, littleWords_word, if_true]
  | cons w junk ih =>
    obtain ⟨turns, rfl⟩ : ∃ n, turns = n + 1 := ⟨turns - 1, by simp at hturns; omega⟩
    obtain ⟨hw, hjunk'⟩ := not_or.mp (List.mem_cons.not.mp hjunk)
    rw [List.flatMap_cons, List.append_assoc] at h
    obtain ⟨link', hread, hrest, hclean⟩ := readft_of_length (length_bytes 4 w) hlink h
    have hother : [w] ≠ [Usb.preamble] := fun heq => hw (List.head_eq_of_cons_eq heq).symm
    unfold skipToPreamble
    simp only [hread, bind, Except.bind, littleWords_word, if_neg hother]
    exact ih hjunk' (by simpa using hturns) hclean hrest

/-- The header of the next packet, behind words that are no preamble, gives its stream
identifier and its length. -/
theorem ubarRecvPacket_header {link : List Arrival} {junk : List (BitVec 32)}
    {buf ys : List (BitVec 8)} {streamid : BitVec 32} (hjunk : Usb.preamble ∉ junk)
    (hlink : .failed ∉ link)
    (h : pending link = junk.flatMap (bytes 4) ++ (ubarSendPacket buf streamid ++ ys)) :
    ∃ link', pending link' = buf ++ ys ∧ .failed ∉ link' ∧
      ubarRecvPacket link =
        if 32768 < (BitVec.ofNat 32 buf.length).toNat then .error (.exit 1)
        else (fun r => ((streamid, r.1), r.2)) <$>
          readft (BitVec.ofNat 32 buf.length).toNat link' := by
  unfold ubarSendPacket at h
  rw [List.append_assoc, List.append_assoc, List.append_assoc] at h
  have hturns : junk.length < (pending link).length + 1 := by
    rw [h, List.length_append, List.length_append, length_flatMap_bytes, length_bytes]
    omega
  obtain ⟨link₁, hskip, hrest₁, hclean₁⟩ := skipToPreamble_pending hjunk hturns hlink h
  rw [← List.append_assoc] at hrest₁
  obtain ⟨link₂, hxbar, hrest₂, hclean₂⟩ := readft_of_length (n := 8)
    (by rw [List.length_append, length_bytes, length_bytes]) hclean₁ hrest₁
  have hwords : littleWords (bytes 4 streamid ++ bytes 4 (BitVec.ofNat 32 buf.length)) =
      [streamid, BitVec.ofNat 32 buf.length] := by
    rw [littleWords_bytes, littleWords_word]
  refine ⟨link₂, hrest₂, hclean₂, ?_⟩
  unfold ubarRecvPacket
  simp only [hskip, hxbar, hwords, bind, Except.bind, List.getD_cons_zero, List.getD_cons_succ]
  rfl

/-- The next packet is received, unless it is longer than the program allows. -/
theorem ubarRecvPacket_pending {link : List Arrival} {junk : List (BitVec 32)}
    {buf ys : List (BitVec 8)} {streamid : BitVec 32} (hjunk : Usb.preamble ∉ junk)
    (hlink : .failed ∉ link) (hbuf : buf.length ≤ 32768)
    (h : pending link = junk.flatMap (bytes 4) ++ (ubarSendPacket buf streamid ++ ys)) :
    ∃ link', ubarRecvPacket link = .ok ((streamid, buf), link') ∧ pending link' = ys ∧
      .failed ∉ link' := by
  obtain ⟨link₁, hrest₁, hclean₁, hrecv⟩ := ubarRecvPacket_header hjunk hlink h
  have hlength : (BitVec.ofNat 32 buf.length).toNat = buf.length := by
    rw [BitVec.toNat_ofNat, Nat.mod_eq_of_lt (by omega)]
  obtain ⟨link₂, hread, hrest₂, hclean₂⟩ := readft_pending hclean₁ hrest₁
  refine ⟨link₂, ?_, hrest₂, hclean₂⟩
  rw [hrecv, hlength, if_neg (Nat.not_lt.mpr hbuf), hread]
  rfl

/-- Only the next packet can be received. -/
theorem streamid_of_ubarRecvPacket {link rest : List Arrival} {buf buf' ys : List (BitVec 8)}
    {streamid streamid' : BitVec 32} (hlink : .failed ∉ link)
    (h : pending link = ubarSendPacket buf streamid ++ ys)
    (hrecv : ubarRecvPacket link = .ok ((streamid', buf'), rest)) : streamid' = streamid := by
  obtain ⟨link₁, -, -, hheader⟩ :=
    ubarRecvPacket_header (List.not_mem_nil : Usb.preamble ∉ []) hlink h
  rw [hheader] at hrecv
  split_ifs at hrecv
  cases hread : readft (BitVec.ofNat 32 buf.length).toNat link₁ with
  | error stop =>
    rw [hread] at hrecv
    cases hrecv
  | ok read =>
    rw [hread] at hrecv
    cases hrecv
    rfl

/-! ## The reply -/

/-- The word that a packet of the link makes `eb_read_reg32` return. -/
theorem ebReadReg32_of_recv (addr : BitVec 32) {streamid : BitVec 32} {port : Port}
    {buf : List (BitVec 8)} {rest : List Arrival}
    (hrecv : ubarRecvPacket port.arrivals = .ok ((streamid, buf), rest)) :
    ebReadReg32 addr port =
      match ebDecodeRcvPkt buf buf.length >>= firstWord with
      | .ok ret => .ok (ret,
          { sent := port.sent ++ ubarSendPacket (ebMakeReadPkt addr 1) 0, arrivals := rest })
      | .error f => .error (.fault f) := by
  unfold ebReadReg32
  rw [hrecv]
  rfl

/-- The call returns the first word that was decoded. -/
def ReturnsDecoded (addr : BitVec 32) (port : Port) (buf : List (BitVec 8)) : Prop :=
  ∃ ret port' data, ebReadReg32 addr port = .ok (ret, port') ∧
    ebDecodeRcvPkt buf buf.length = .ok (some (ret :: data))

theorem returnsDecoded_iff {addr streamid : BitVec 32} {port : Port} {buf : List (BitVec 8)}
    {rest : List Arrival} (hrecv : ubarRecvPacket port.arrivals = .ok ((streamid, buf), rest)) :
    ReturnsDecoded addr port buf ↔ 1 ≤ wCount buf ∧ 16 + 4 * wCount buf ≤ buf.length := by
  have hread := ebReadReg32_of_recv addr hrecv
  constructor
  · rintro ⟨ret, port', data, -, hdecode⟩
    obtain ⟨hlength, hbounds⟩ := of_ebDecodeRcvPkt hdecode
    rw [List.length_cons] at hlength
    omega
  · rintro ⟨hcount, hbounds⟩
    obtain ⟨data, hdecode, hlength⟩ := ebDecodeRcvPkt_of_le (by omega) (Or.inr hbounds)
    obtain ⟨ret, data, rfl⟩ := List.exists_cons_of_length_pos (hlength ▸ hcount)
    rw [hdecode] at hread
    exact ⟨ret, _, data, hread, hdecode⟩

/-- **A reply is decoded in bounds, and its first word is read, when its words are there.**
The condition on the decoder is on the size and the count of words alone; the caller
needs a word as well. -/
theorem reply_in_bounds (buf : List (BitVec 8)) :
    (DecodesInBounds buf ↔
        buf.length < 12 ∨ wCount buf = 0 ∨ 16 + 4 * wCount buf ≤ buf.length) ∧
      ∀ addr port streamid rest,
        ubarRecvPacket port.arrivals = .ok ((streamid, buf), rest) →
          (ReturnsDecoded addr port buf ↔ 1 ≤ wCount buf ∧ 16 + 4 * wCount buf ≤ buf.length) :=
  ⟨decodesInBounds_iff buf, fun _ _ _ _ hrecv => returnsDecoded_iff hrecv⟩

/-- The link of a device that has sent some packets of the given streams. -/
def portOf (packets : List (BitVec 32 × List (BitVec 8))) : Port where
  sent := []
  arrivals := packets.map fun p => .data (ubarSendPacket p.2 p.1)

/-- A header and nothing else, which announces the given count of words. -/
def bareHeader (wCount : BitVec 8) : List (BitVec 8) :=
  { requestHeader with wCount := wCount }.bytes

/-- A header that announces one word without having it is read outside its bytes; one
without a word, and a packet without a header, make the caller read what is not there. -/
theorem reply_out_of_bounds :
    ¬ DecodesInBounds (bareHeader 1) ∧
      ebDecodeRcvPkt (bareHeader 1) 12 = .error (.outOfBounds 16) ∧
      ebReadReg32 0 (portOf [(0, bareHeader 0)]) = .error (.fault (.outOfBounds 0)) ∧
      ebReadReg32 0 (portOf [(0, [])]) = .error (.fault .uninitialised) := by
  have hdecode : ebDecodeRcvPkt (bareHeader 1) 12 = .error (.outOfBounds 16) := by decide
  refine ⟨?_, hdecode, by decide, by decide⟩
  rintro (h | ⟨data, h, -⟩)
  · exact absurd (hdecode.symm.trans h) (by decide)
  · exact absurd (hdecode.symm.trans h) (by simp)

/-- The reply to the read of one word. -/
def replyOf (value : BitVec 32) : List (BitVec 8) :=
  bareHeader 1 ++ bytes 4 (0 : BitVec 32) ++ bytes 4 (wswap value)

theorem reply_in_bounds_one :
    DecodesInBounds (replyOf 7) ∧ ReturnsDecoded 0 (portOf [(0, replyOf 7)]) (replyOf 7) :=
  ⟨(reply_in_bounds (replyOf 7)).1.mpr (by decide),
    ((reply_in_bounds (replyOf 7)).2 0 (portOf [(0, replyOf 7)]) 0 [] (by decide)).mpr
      (by decide)⟩

/-! ## Other streams -/

/-- `usb_map` of the SoC. -/
def wishbone : BitVec 32 := 0

/-- `usb_map["ulpi0"]`, as the host gets it. -/
def ulpi0 : BitVec 32 := 1

/-- The call takes its word from a packet of the stream of the requests, and the word is
the given one. -/
def ReturnsOwnReply (addr : BitVec 32) (port : Port) (value : BitVec 32) : Prop :=
  ∃ buf rest port', ubarRecvPacket port.arrivals = .ok ((wishbone, buf), rest) ∧
    ebReadReg32 addr port = .ok (value, port')

/-- **A register read returns its own reply exactly when no other packet comes first.** -/
theorem own_reply_iff {addr value : BitVec 32} {port : Port}
    {before after : List (BitVec 32 × List (BitVec 8))} {reply : List (BitVec 8)}
    {words : List (BitVec 32)} (hlink : .failed ∉ port.arrivals)
    (hpending : pending port.arrivals =
      (before ++ (wishbone, reply) :: after).flatMap fun p => ubarSendPacket p.2 p.1)
    (hcaptures : ∀ p ∈ before, p.1 = ulpi0) (hsize : reply.length ≤ 32768)
    (hreply : ebDecodeRcvPkt reply reply.length = .ok (some (value :: words))) :
    ReturnsOwnReply addr port value ↔ before = [] := by
  cases before with
  | nil =>
    rw [List.nil_append, List.flatMap_cons] at hpending
    obtain ⟨rest, hrecv, -⟩ :=
      ubarRecvPacket_pending (List.not_mem_nil : Usb.preamble ∉ []) hlink hsize hpending
    have hread := ebReadReg32_of_recv addr hrecv
    rw [hreply] at hread
    exact ⟨fun _ => rfl, fun _ => ⟨reply, rest, _, hrecv, hread⟩⟩
  | cons p before =>
    -- the packet of the other stream is the one that is received
    rw [List.cons_append, List.flatMap_cons] at hpending
    refine ⟨?_, fun h => by cases h⟩
    rintro ⟨buf, rest, -, hrecv, -⟩
    have hstream := streamid_of_ubarRecvPacket hlink hpending hrecv
    rw [hcaptures p (List.mem_cons_self ..)] at hstream
    exact absurd hstream (by decide)

/-- Bytes of a capture that read as a header with one word. -/
def captureLikeReply : List (BitVec 8) :=
  List.replicate 10 0x55 ++ [1] ++ List.replicate 9 0x55

/-- A capture packet comes first and is taken for the reply. -/
theorem other_stream_returned :
    let port := portOf [(ulpi0, captureLikeReply), (wishbone, replyOf 7)]
    (ebReadReg32 0 port).map Prod.fst = .ok 0x55555555 ∧ ¬ ReturnsOwnReply 0 port 7 := by
  have hread : (ebReadReg32 0 (portOf [(ulpi0, captureLikeReply), (wishbone, replyOf 7)])).map
      Prod.fst = .ok 0x55555555 := by decide
  refine ⟨hread, ?_⟩
  rintro ⟨buf, rest, port', -, hown⟩
  rw [hown] at hread
  exact absurd (Except.ok.inj hread : (7 : BitVec 32) = 0x55555555) (by decide)

theorem own_reply_first :
    ReturnsOwnReply 0 (portOf [(wishbone, replyOf 7), (ulpi0, captureLikeReply)]) 7 :=
  (own_reply_iff (by decide)
    (show _ = (([] : List (BitVec 32 × List (BitVec 8))) ++ (wishbone, replyOf 7) ::
      [(ulpi0, captureLikeReply)]).flatMap fun p => ubarSendPacket p.2 p.1 by decide)
    (by simp) (by decide) (show _ = Except.ok (some (7 :: [])) by decide)).mpr rfl

end UsbSniffer.Host
