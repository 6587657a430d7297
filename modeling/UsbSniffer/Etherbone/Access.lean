/-
  Etherbone/Access.lean --- the host reads and writes words on the bus.

  A request goes through seven forms: the bytes of the host, the words of the USB
  core, the packet, the record, the accesses, and for a read the answers, which go
  back the same way.  There is a lemma for each step, and the streams of many requests
  are those of the requests one after the other.
-/
import UsbSniffer.Etherbone.Record
import UsbSniffer.Etherbone.Execute
import UsbSniffer.Host.Etherbone

set_option autoImplicit false

namespace UsbSniffer.Etherbone

open UsbSniffer.Sync

/-- `n` words from the aligned address `addr` on, as many as a record holds. -/
structure Fits (addr : BitVec 32) (n : Nat) : Prop where
  pos : 1 ≤ n
  le : n ≤ 255
  aligned : addr.toNat % 4 = 0

/-- What the host asks for. -/
inductive Request
  | write (addr : BitVec 32) (data : List (BitVec 32)) (fits : Fits addr data.length)
  | read (addr : BitVec 32) (n : Nat) (fits : Fits addr n)

namespace Request

/-- The packet that the host makes. -/
def packet : Request → List (BitVec 8)
  | write addr data _ => Host.ebMakeWritePkt addr data
  | read addr n _ => Host.ebMakeReadPkt addr (BitVec.ofNat 32 n)

/-- A word of the packet as the USB core gives it to the stream with the identifier. -/
def userBeat (identifier : BitVec 8) (r : Request) (x : BitVec 32 × Bool) : UserBeat where
  dst := identifier
  length := BitVec.ofNat 32 r.packet.length
  data := x.1
  last := x.2

/-- The beats of the packet as the dispatcher of the core gets them. -/
def userBeats (identifier : BitVec 8) (r : Request) : List UserBeat :=
  (marked (Host.littleWords r.packet)).map (r.userBeat identifier)

/-- The accesses that the bus is to make. -/
def accesses : Request → List Access
  | write addr data _ =>
      data.mapIdx fun i value => ⟨true, BitVec.ofNat 30 (addr.toNat / 4 + i), 0xf, value⟩
  | read addr n _ =>
      (List.range n).map fun i => ⟨false, BitVec.ofNat 30 (addr.toNat / 4 + i), 0, 0⟩

/-- What is to be replied: the values read. -/
def values (answer : List Access → BitVec 32) (log : List Access) (r : Request) :
    List (List (BitVec 32)) :=
  match r with
  | write .. => []
  | read .. => [EtherboneWishboneMaster.answers answer log r.accesses]

end Request

/-- The words in front of the `n` values of a reply: the header of the packet, the header
of the record and the base address. -/
def replyHeader (n : Nat) : List (BitVec 32) := [0x44106f4e, 0, BitVec.ofNat 32 n <<< 16, 0]

/-- The words of the record that replies with the values. -/
def replyWords (values : List (BitVec 32)) : List (BitVec 32) :=
  replyHeader values.length ++ values.map Host.wswap

/-- A word of a reply for the USB core, with the length of the reply in bytes. -/
def replyBeat (identifier : BitVec 8) (n : Nat) (x : BitVec 32 × Bool) : UserBeat where
  dst := identifier
  length := BitVec.ofNat 32 (16 + 4 * n)
  data := x.1
  last := x.2

/-- A reply as one packet for the USB core. -/
def replyBeats (identifier : BitVec 8) (values : List (BitVec 32)) : List UserBeat :=
  (marked (replyWords values)).map (replyBeat identifier values.length)

/-- The bytes that the host receives of it. -/
def replyBytes (identifier : BitVec 8) (values : List (BitVec 32)) : List (BitVec 8) :=
  (replyBeats identifier values).flatMap fun x => bytes 4 x.data

/-- The replies to some requests, one after the other. -/
def replies (answer : List Access → BitVec 32) : List Access → List Request →
    List (List (BitVec 32))
  | _, [] => []
  | log, r :: rs => r.values answer log ++ replies answer (log ++ r.accesses) rs

/-! ## Forms of a reply -/

/-- A word of the record of a reply. -/
def answerBeat (n : Nat) (x : BitVec 32 × Bool) : RecordBeat where
  data := x.1
  last := x.2
  byteEnable := 0
  wcount := BitVec.ofNat 8 n
  rcount := 0

/-- The record of a reply: the base address and the values. -/
def answerBeats (values : List (BitVec 32)) : List RecordBeat :=
  (marked (0 :: values)).map (answerBeat values.length)

/-- A word of the packet of a reply. -/
def answerPacketBeat (n : Nat) (x : BitVec 32 × Bool) : PacketBeat where
  pf := false
  pr := false
  nr := false
  length := BitVec.ofNat 32 (8 + 4 * n)
  data := x.1
  last := x.2

/-- The packet of a reply, without its header. -/
def answerPacketBeats (values : List (BitVec 32)) : List PacketBeat :=
  (marked (BitVec.ofNat 32 values.length <<< 16 :: 0 :: values.map Host.wswap)).map
    (answerPacketBeat values.length)

/-! ## From the host to the bus -/

/-- The header of a record. -/
def Record.header (r : Record) : BitVec 32 :=
  Host.littleWord 0 r.byteEnable (BitVec.ofNat 8 r.values.length) (BitVec.ofNat 8 r.addrs.length)

namespace Request

/-- The record of the request. -/
def record : Request → Record
  | write addr data fits =>
      { byteEnable := 0xf
        baseAddr := addr
        values := data
        baseRetAddr := 0
        addrs := []
        values_le := fits.le
        addrs_le := Nat.zero_le _
        nonempty := Or.inl (List.length_pos_iff.mp fits.pos) }
  | read addr n fits =>
      { byteEnable := 0xf
        baseAddr := 0
        values := []
        baseRetAddr := 0
        addrs := (List.range n).map fun i => addr + BitVec.ofNat 32 (i * 4)
        values_le := Nat.zero_le _
        addrs_le := by
          rw [List.length_map, List.length_range]
          exact fits.le
        nonempty := Or.inr (by
          rw [← List.length_pos_iff, List.length_map, List.length_range]
          exact fits.pos) }

theorem body_ne_nil (r : Request) : r.record.body ≠ [] := by
  unfold Record.body Record.section_
  rcases r.record.nonempty with h | h
  · rw [if_neg h]
    exact List.append_ne_nil_of_left_ne_nil (List.cons_ne_nil _ _) _
  · rw [if_neg h]
    exact List.append_ne_nil_of_right_ne_nil _ (List.cons_ne_nil _ _)

/-- The words behind the header of the packet. -/
def rest (r : Request) : List (BitVec 32) := r.record.header :: r.record.body.map Host.wswap

/-- The packet of the host is the header of the packet, and the record with its words
turned around. -/
theorem littleWords_packet (r : Request) :
    Host.littleWords r.packet = [0x44106f4e, 0] ++ r.rest := by
  have hbody : ∀ xs : List (BitVec 32),
      Host.littleWords (xs.flatMap fun x => bytes 4 (Host.wswap x)) = xs.map Host.wswap := by
    intro xs
    rw [← List.flatMap_map, Host.littleWords_flatMap]
  cases r with
  | write addr data fits =>
    have hne : data ≠ [] := List.length_pos_iff.mp fits.pos
    change Host.littleWords (Host.EbHeader.bytes
      { Host.requestHeader with wCount := BitVec.ofNat 8 data.length, rCount := 0 } ++
        bytes 4 (Host.wswap addr) ++ data.flatMap fun x => bytes 4 (Host.wswap x)) = _
    rw [List.append_assoc, Host.littleWords_requestHeader, Host.littleWords_bytes, hbody]
    simp [rest, Record.body, Record.section_, Record.header, record, hne]
  | read addr n fits =>
    have hn : (BitVec.ofNat 32 n).toNat = n := by
      have := fits.le
      rw [BitVec.toNat_ofNat]
      omega
    have hcount : (BitVec.ofNat 32 n).setWidth 8 = BitVec.ofNat 8 n := by
      apply BitVec.eq_of_toNat_eq
      rw [BitVec.toNat_setWidth, hn, BitVec.toNat_ofNat]
    have hne : n ≠ 0 := Nat.ne_zero_of_lt fits.pos
    change Host.littleWords (Host.EbHeader.bytes
      { Host.requestHeader with wCount := 0, rCount := (BitVec.ofNat 32 n).setWidth 8 } ++
        bytes 4 (0 : BitVec 32) ++ (List.range (BitVec.ofNat 32 n).toNat).flatMap fun i =>
          bytes 4 (Host.wswap (addr + BitVec.ofNat 32 (i * 4)))) = _
    rw [List.append_assoc, Host.littleWords_requestHeader, Host.littleWords_bytes, hn, hcount,
      ← List.flatMap_map (fun i => addr + BitVec.ofNat 32 (i * 4))
        (fun x => bytes 4 (Host.wswap x)), hbody]
    simp [rest, Record.body, Record.section_, Record.header, record, hne]
    decide

/-- The words behind the header of the packet, with what the receiver takes from it. -/
def decoded (identifier : BitVec 8) (r : Request) : List EtherbonePacketRX.Decoded :=
  (marked r.rest).map fun x =>
    EtherbonePacketRX.decode [0x44106f4e, 0] x.2 (r.userBeat identifier x)

variable (identifier : BitVec 8)

/-- The header comes off the packet. -/
theorem words_userBeats (r : Request) :
    (Depacketizer.words 2 UserBeat.data UserBeat.last EtherbonePacketRX.decode).emits []
        (r.userBeats identifier) = r.decoded identifier ∧
      (Depacketizer.words 2 UserBeat.data UserBeat.last EtherbonePacketRX.decode).run []
        (r.userBeats identifier) = [] ∧
      Depacketizer.Framed 2 UserBeat.data UserBeat.last [] (r.userBeats identifier) := by
  unfold userBeats
  rw [littleWords_packet]
  exact Depacketizer.words_marked UserBeat.data UserBeat.last EtherbonePacketRX.decode
    (r.userBeat identifier) (fun _ => rfl) (fun _ => rfl) rfl (List.cons_ne_nil _ _)

/-- Its magic is checked, and the packet is presented. -/
theorem words_decoded (r : Request) :
    EtherbonePacketRX.words.emits none (r.decoded identifier) =
        (r.decoded identifier).map EtherbonePacketRX.Decoded.beat ∧
      EtherbonePacketRX.words.run none (r.decoded identifier) = none := by
  refine EtherbonePacketRX.words_packet ?_ ?_
  · exact (IsPacket.marked (List.cons_ne_nil _ _)).map fun _ => rfl
  · intro x hx
    obtain ⟨p, -, rfl⟩ := List.mem_map.mp hx
    have hmagic : reverseHalf (slice (0x44106f4e : BitVec 32) 0 16) = etherboneMagic := by decide
    exact hmagic

/-- The header comes off the record, and its words are turned around again. -/
theorem words_packetBeats (r : Request) :
    (Depacketizer.words 1 PacketBeat.data PacketBeat.last EtherboneRecord.decode).emits []
        ((r.decoded identifier).map EtherbonePacketRX.Decoded.beat) = r.record.words ∧
      (Depacketizer.words 1 PacketBeat.data PacketBeat.last EtherboneRecord.decode).run []
        ((r.decoded identifier).map EtherbonePacketRX.Decoded.beat) = [] ∧
      Depacketizer.Framed 1 PacketBeat.data PacketBeat.last []
        ((r.decoded identifier).map EtherbonePacketRX.Decoded.beat) := by
  have hne : r.record.body.map Host.wswap ≠ [] := by simpa using r.body_ne_nil
  obtain ⟨hemits, hrun, hframed⟩ :=
    Depacketizer.words_marked PacketBeat.data PacketBeat.last EtherboneRecord.decode
      (fun x => (EtherbonePacketRX.decode [0x44106f4e, 0] x.2 (r.userBeat identifier x)).beat)
      (fun _ => rfl) (fun _ => rfl) (rfl : [r.record.header].length = 1) hne
  have hbeats : (r.decoded identifier).map EtherbonePacketRX.Decoded.beat =
      (marked ([r.record.header] ++ r.record.body.map Host.wswap)).map fun x =>
        (EtherbonePacketRX.decode [0x44106f4e, 0] x.2 (r.userBeat identifier x)).beat := by
    rw [decoded, List.map_map]
    rfl
  rw [hbeats]
  refine ⟨hemits.trans ?_, hrun, hframed⟩
  rw [marked_map, List.map_map]
  refine List.map_congr_left fun x _ => ?_
  obtain ⟨-, henable, hwcount, hrcount⟩ := Host.byte_littleWord 0 r.record.byteEnable
    (BitVec.ofNat 8 r.record.values.length) (BitVec.ofNat 8 r.record.addrs.length)
  change (⟨reverseBytes (Host.wswap x.1), x.2, byte r.record.header 1, byte r.record.header 2,
    byte r.record.header 3⟩ : RecordBeat) = r.record.word x
  unfold Record.header Record.word
  rw [Host.reverseBytes_eq, Host.wswap_wswap, henable, hwcount, hrcount]

/-- The receiver makes the accesses of the record. -/
theorem words_record (r : Request) :
    EtherboneRecordReceiver.words.emits .idle r.record.words = r.record.beats ∧
      EtherboneRecordReceiver.words.run .idle r.record.words = .idle := by
  cases r with
  | write addr data fits => exact EtherboneRecordReceiver.words_of_writes rfl
  | read addr n fits => exact EtherboneRecordReceiver.words_of_reads rfl

/-! ## On the bus -/

theorem adr_write (addr : BitVec 32) (i : Nat) :
    (addr >>> 2 + BitVec.ofNat 32 i).setWidth 30 = BitVec.ofNat 30 (addr.toNat / 4 + i) := by
  apply BitVec.eq_of_toNat_eq
  simp [Nat.shiftRight_eq_div_pow]

theorem adr_read {addr : BitVec 32} (haligned : addr.toNat % 4 = 0) (i : Nat) :
    ((addr + BitVec.ofNat 32 (i * 4)) >>> 2).setWidth 30 =
      BitVec.ofNat 30 (addr.toNat / 4 + i) := by
  apply BitVec.eq_of_toNat_eq
  simp [Nat.shiftRight_eq_div_pow]
  omega

/-- The writes are made, and nothing is replied. -/
theorem words_write (answer : List Access → BitVec 32) (log : List Access) {addr : BitVec 32}
    {data : List (BitVec 32)} (fits : Fits addr data.length) :
    (EtherboneWishboneMaster.words answer).emits (.idle, log)
        (write addr data fits).record.beats = [] ∧
      (EtherboneWishboneMaster.words answer).run (.idle, log)
          (write addr data fits).record.beats =
        (.idle, log ++ (write addr data fits).accesses) := by
  have hbeats : (write addr data fits).record.beats =
      data.mapIdx (write addr data fits).record.write := List.append_nil _
  have haccesses : (data.mapIdx (write addr data fits).record.write).map
      EtherboneWishboneMaster.writeAccess = (write addr data fits).accesses := by
    refine List.ext_getElem (by simp [accesses]) fun i _ _ => ?_
    simp [EtherboneWishboneMaster.writeAccess, Record.write, record, accesses, adr_write]
  have hne : data ≠ [] := List.length_pos_iff.mp fits.pos
  rw [hbeats, ← haccesses]
  refine EtherboneWishboneMaster.words_writes answer (by decide)
    (IsPacket.mapIdx hne fun _ _ => rfl) ?_
  intro x hx
  obtain ⟨i, hi, rfl⟩ := List.mem_mapIdx.mp hx
  rfl

/-- The sender makes one record of the answers to the reads of a record. -/
theorem words_answers {r : Record} {values : List (BitVec 32)}
    (hlength : values.length = r.addrs.length) (hne : values ≠ []) :
    EtherboneRecordSender.words.emits true
          ((r.addrs.mapIdx (r.read 0)).zipWith EtherboneWishboneMaster.reply values) =
        answerBeats values ∧
      EtherboneRecordSender.words.run true
          ((r.addrs.mapIdx (r.read 0)).zipWith EtherboneWishboneMaster.reply values) = true := by
  obtain ⟨ys, hys⟩ : ∃ ys, ys = values.mapIdx fun i value =>
      EtherboneWishboneMaster.reply (r.read 0 i (r.addrs.getD i 0)) value := ⟨_, rfl⟩
  have hzip : (r.addrs.mapIdx (r.read 0)).zipWith EtherboneWishboneMaster.reply values = ys := by
    rw [hys]
    refine List.ext_getElem (by simp [hlength]) fun i hi _ => ?_
    have hi' : i < r.addrs.length := by simpa [hlength] using hi
    simp [hi']
  have hpacket : IsPacket MmapBeat.last ys := by
    rw [hys]
    refine IsPacket.mapIdx hne fun i value => ?_
    rw [hlength]
    rfl
  have hdata : ys.map (fun y => EtherboneRecordSender.record y y.data y.last) =
      (marked values).map (answerBeat values.length) := by
    rw [hys, marked_eq_mapIdx]
    refine List.ext_getElem (by simp) fun i _ _ => ?_
    simp [EtherboneRecordSender.record, EtherboneWishboneMaster.reply, Record.read, answerBeat,
      hlength]
  -- the first word of the record is made from the first answer
  obtain ⟨y, ys', hcons⟩ := List.exists_cons_of_ne_nil hpacket.ne_nil
  have hbase : EtherboneRecordSender.record y y.baseAddr false =
      answerBeat values.length (0, false) := by
    have hmem : y ∈ ys := by
      rw [hcons]
      exact List.mem_cons_self ..
    rw [hys] at hmem
    obtain ⟨i, _, rfl⟩ := List.mem_mapIdx.mp hmem
    simp [EtherboneRecordSender.record, EtherboneWishboneMaster.reply, Record.read, answerBeat,
      hlength]
  rw [hcons] at hpacket
  obtain ⟨hemits, hrun⟩ := EtherboneRecordSender.words_packet hpacket
  rw [hzip, hcons]
  refine ⟨?_, hrun⟩
  rw [hemits, ← hcons, hdata, hbase, answerBeats, marked_cons hne, List.map_cons]

/-- The reads are made, and a record with the values is replied. -/
theorem words_read (answer : List Access → BitVec 32) (log : List Access) {addr : BitVec 32}
    {n : Nat} (fits : Fits addr n) :
    (EtherboneWishboneMaster.words answer).run (.idle, log) (read addr n fits).record.beats =
        (.idle, log ++ (read addr n fits).accesses) ∧
      EtherboneRecordSender.words.emits true ((EtherboneWishboneMaster.words answer).emits
          (.idle, log) (read addr n fits).record.beats) =
        answerBeats
          (EtherboneWishboneMaster.answers answer log (read addr n fits).accesses) ∧
      EtherboneRecordSender.words.run true ((EtherboneWishboneMaster.words answer).emits
          (.idle, log) (read addr n fits).record.beats) = true := by
  obtain ⟨r, hr⟩ : ∃ r, r = read addr n fits := ⟨_, rfl⟩
  have hlength : r.record.addrs.length = n := by simp [hr, record]
  have hbeats : r.record.beats = r.record.addrs.mapIdx (r.record.read 0) := by
    rw [hr]
    rfl
  have haccesses : r.record.beats.map EtherboneWishboneMaster.readAccess = r.accesses := by
    rw [hbeats, hr]
    refine List.ext_getElem (by simp [accesses, record]) fun i _ _ => ?_
    simp [EtherboneWishboneMaster.readAccess, Record.read, record, accesses,
      adr_read fits.aligned]
  have hne : r.record.addrs ≠ [] := by
    rw [← List.length_pos_iff, hlength]
    exact fits.pos
  have hpacket : IsPacket MmapBeat.last r.record.beats := by
    rw [hbeats]
    exact IsPacket.mapIdx hne fun _ _ => rfl
  have hwe : ∀ x ∈ r.record.beats, x.we = false := by
    intro x hx
    rw [hbeats] at hx
    obtain ⟨i, _, rfl⟩ := List.mem_mapIdx.mp hx
    rfl
  have hvalues : (EtherboneWishboneMaster.answers answer log r.accesses).length =
      r.record.addrs.length := by
    rw [EtherboneWishboneMaster.length_answers, ← haccesses, hbeats, List.length_map,
      List.length_mapIdx]
  obtain ⟨hemits, hrun⟩ : (EtherboneWishboneMaster.words answer).emits (.idle, log)
      r.record.beats = _ ∧ _ := EtherboneWishboneMaster.words_reads answer (by decide) hpacket hwe
  rw [← hr, hemits, hrun, haccesses, hbeats]
  refine ⟨rfl, words_answers hvalues ?_⟩
  rw [← List.length_pos_iff, hvalues]
  exact List.length_pos_iff.mpr hne

/-- A request makes its accesses, and the record of its reply if it is a read. -/
theorem words_beats (answer : List Access → BitVec 32) (log : List Access) (r : Request) :
    (EtherboneWishboneMaster.words answer).run (.idle, log) r.record.beats =
        (.idle, log ++ r.accesses) ∧
      EtherboneRecordSender.words.emits true
          ((EtherboneWishboneMaster.words answer).emits (.idle, log) r.record.beats) =
        (r.values answer log).flatMap answerBeats ∧
      EtherboneRecordSender.words.run true
          ((EtherboneWishboneMaster.words answer).emits (.idle, log) r.record.beats) = true := by
  cases r with
  | write addr data fits =>
    obtain ⟨hemits, hrun⟩ := words_write answer log fits
    rw [hemits, hrun]
    exact ⟨rfl, rfl, rfl⟩
  | read addr n fits =>
    obtain ⟨hrun, hemits, hfirst⟩ := words_read answer log fits
    refine ⟨hrun, hemits.trans ?_, hfirst⟩
    rw [values, List.flatMap_singleton]

/-- The requests are served one after the other. -/
theorem words_requests (answer : List Access → BitVec 32) (log : List Access)
    (rs : List Request) :
    (EtherboneWishboneMaster.words answer).run (.idle, log)
          (rs.flatMap fun r => r.record.beats) =
        (.idle, log ++ rs.flatMap accesses) ∧
      EtherboneRecordSender.words.emits true
          ((EtherboneWishboneMaster.words answer).emits (.idle, log)
            (rs.flatMap fun r => r.record.beats)) =
        (replies answer log rs).flatMap answerBeats := by
  induction rs generalizing log with
  | nil => exact ⟨by simp, rfl⟩
  | cons r rs ih =>
    obtain ⟨hrun, hemits, hfirst⟩ := words_beats answer log r
    obtain ⟨hrun', hemits'⟩ := ih (log ++ r.accesses)
    rw [List.flatMap_cons, Machine.run_append, Machine.emits_append, Machine.emits_append, hrun,
      hemits, hfirst, hrun', hemits', replies, List.flatMap_append, List.flatMap_cons,
      List.append_assoc]
    exact ⟨rfl, rfl⟩

/-- A reply has as many words as a record may ask for. -/
theorem length_of_mem_replies {answer : List Access → BitVec 32} {log : List Access}
    {rs : List Request} {vs : List (BitVec 32)} (h : vs ∈ replies answer log rs) :
    1 ≤ vs.length ∧ vs.length ≤ 255 := by
  induction rs generalizing log with
  | nil => cases h
  | cons r rs ih =>
    rw [replies] at h
    rcases List.mem_append.mp h with hfirst | hrest
    · cases r with
      | write addr data fits => cases hfirst
      | read addr n fits =>
        obtain rfl := List.mem_singleton.mp hfirst
        have hlength : (accesses (read addr n fits)).length = n := by simp [accesses]
        rw [EtherboneWishboneMaster.length_answers, hlength]
        exact ⟨fits.pos, fits.le⟩
    · exact ih hrest

end Request

/-! ## From the bus to the host -/

variable {values : List (BitVec 32)}

theorem header_answerBeat {n : Nat} (hle : n ≤ 255) (x : BitVec 32 × Bool) :
    EtherboneRecord.header (answerBeat n x) = [BitVec.ofNat 32 n <<< 16] := by
  have hzero : (0 : BitVec 8).toNat = 0 := rfl
  unfold EtherboneRecord.header answerBeat cat
  refine congrArg (fun w => [w]) ?_
  apply BitVec.eq_of_toNat_eq
  simp only [BitVec.toNat_append, BitVec.toNat_shiftLeft, BitVec.toNat_ofNat, hzero,
    Nat.shiftLeft_eq, Nat.zero_mul, Nat.or_zero, Nat.zero_or]
  omega

theorem length_answerBeat {n : Nat} (hpos : 1 ≤ n) (hle : n ≤ 255) (x : BitVec 32 × Bool) :
    EtherboneRecord.length (answerBeat n x) = BitVec.ofNat 32 (8 + 4 * n) := by
  have hne : BitVec.ofNat 8 n ≠ 0 := by
    intro h
    have := congrArg BitVec.toNat h
    simp at this
    omega
  unfold EtherboneRecord.length answerBeat
  rw [if_pos hne, if_neg (by simp)]
  apply BitVec.eq_of_toNat_eq
  simp [recordHeaderLength]
  omega

/-- The header of the record is put in front, with the length of the reply. -/
theorem words_answerBeats (hpos : 1 ≤ values.length) (hle : values.length ≤ 255) :
    (Packetizer.words EtherboneRecord.format).emits false (answerBeats values) =
        answerPacketBeats values ∧
      (Packetizer.words EtherboneRecord.format).run false (answerBeats values) = false := by
  refine Packetizer.words_marked EtherboneRecord.format (answerBeat values.length)
    [BitVec.ofNat 32 values.length <<< 16] Host.wswap (answerPacketBeat values.length)
    (fun _ => rfl) (header_answerBeat hle) (fun _ => rfl) ?_ (List.cons_ne_nil 0 values)
  intro w last x
  change PacketBeat.mk _ _ _ (EtherboneRecord.length (answerBeat values.length x)) _ _ = _
  rw [length_answerBeat hpos hle]
  rfl

/-- The header of the packet is put in front. -/
theorem words_answerPacketBeats (identifier : BitVec 8) :
    (Packetizer.words (EtherbonePacketTX.format identifier)).emits false
        (answerPacketBeats values) = replyBeats identifier values ∧
      (Packetizer.words (EtherbonePacketTX.format identifier)).run false
        (answerPacketBeats values) = false := by
  have hheader : ∀ x, EtherbonePacketTX.header (answerPacketBeat values.length x) =
      [0x44106f4e, 0] := by
    intro x
    change [cat (cat (cat (cat (cat (cat (cat (reverseHalf etherboneMagic) (BitVec.ofBool false))
      (BitVec.ofBool false)) (BitVec.ofBool false)) (0 : BitVec 1)) etherboneVersion)
      (4 : BitVec 4)) (4 : BitVec 4), 0] = _
    decide
  have hlength : BitVec.ofNat 32 (8 + 4 * values.length) + packetHeaderLength =
      BitVec.ofNat 32 (16 + 4 * values.length) := by
    apply BitVec.eq_of_toNat_eq
    simp [packetHeaderLength]
    omega
  have h := Packetizer.words_marked (EtherbonePacketTX.format identifier)
    (answerPacketBeat values.length) [0x44106f4e, 0] id (replyBeat identifier values.length)
    (fun _ => rfl) hheader (fun _ => rfl) (fun w last x => by
      change UserBeat.mk _ (_ + packetHeaderLength) _ _ = _
      rw [answerPacketBeat, hlength]
      rfl)
    (List.cons_ne_nil (BitVec.ofNat 32 values.length <<< 16) (0 :: values.map Host.wswap))
  rw [List.map_id] at h
  exact h

/-- The bytes of a reply are those of its words. -/
theorem replyBytes_eq (identifier : BitVec 8) (values : List (BitVec 32)) :
    replyBytes identifier values = (replyWords values).flatMap (bytes 4) := by
  unfold replyBytes replyBeats
  rw [List.flatMap_map]
  conv_rhs => rw [← marked_map_fst (replyWords values), List.flatMap_map]
  rfl

theorem length_replyBytes (identifier : BitVec 8) (values : List (BitVec 32)) :
    (replyBytes identifier values).length = 16 + 4 * values.length := by
  rw [replyBytes_eq, Host.length_flatMap_bytes, replyWords, List.length_append, List.length_map]
  change 4 * (4 + values.length) = _
  omega

/-- The host gets the values back. -/
theorem ebDecodeRcvPkt_replyBytes (identifier : BitVec 8) (hle : values.length ≤ 255) :
    Host.ebDecodeRcvPkt (replyBytes identifier values) (replyBytes identifier values).length =
      .ok (some values) := by
  have hlength := length_replyBytes identifier values
  have hwords : replyBytes identifier values = (replyHeader values.length).flatMap (bytes 4) ++
      (values.map Host.wswap).flatMap (bytes 4) := by
    rw [replyBytes_eq, replyWords, List.flatMap_append]
  have hheader : ((replyHeader values.length).flatMap (bytes 4)).length = 16 := by
    rw [Host.length_flatMap_bytes]
    rfl
  have hcount : Host.wCount (replyBytes identifier values) = values.length := by
    have hbytes : ∀ w : BitVec 32, bytes 4 w = [byte w 0, byte w 1, byte w 2, byte w 3] :=
      fun _ => rfl
    have hbyte : (replyBytes identifier values).getD 10 0 =
        byte (BitVec.ofNat 32 values.length <<< 16) 2 := by
      rw [hwords, replyHeader]
      simp only [List.flatMap_cons, hbytes, List.cons_append, List.nil_append]
      rfl
    unfold Host.wCount
    rw [hbyte, byte, BitVec.extractLsb'_toNat]
    simp [Nat.shiftLeft_eq, Nat.shiftRight_eq_div_pow]
    omega
  have hload := Host.loadWords_append ((replyHeader values.length).flatMap (bytes 4))
    (values.map Host.wswap)
  have hswap : Host.wswap ∘ Host.wswap = id := funext Host.wswap_wswap
  rw [← hwords, hheader, List.length_map, List.map_map, hswap, List.map_id] at hload
  rw [Host.ebDecodeRcvPkt_of_header (by omega), hcount, hload]
  rfl

end UsbSniffer.Etherbone
