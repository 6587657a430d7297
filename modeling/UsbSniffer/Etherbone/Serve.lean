/-
  Etherbone/Serve.lean --- the core serves the requests of the host.

  From reset, in front of the packets of some requests, the bus sees their accesses and
  the host gets the values read, whatever the bus answers and however long it takes,
  whenever packets come and whenever the source is ready.
-/
import Mathlib.Algebra.Order.BigOperators.Group.List
import Mathlib.Algebra.Order.Group.Nat
import UsbSniffer.Etherbone.Access

set_option autoImplicit false

namespace UsbSniffer.Etherbone

open UsbSniffer.Sync

/-! ## Lengths -/

theorem length_flatMap_le {α β γ : Type} {f : α → List β} {g : α → List γ} {xs : List α}
    (h : ∀ x ∈ xs, (f x).length ≤ (g x).length) :
    (xs.flatMap f).length ≤ (xs.flatMap g).length := by
  rw [List.length_flatMap, List.length_flatMap]
  exact List.sum_le_sum h

namespace Request

variable (identifier : BitVec 8)

theorem length_userBeats (r : Request) :
    (r.userBeats identifier).length = 3 + r.record.body.length := by
  rw [userBeats, littleWords_packet, List.length_map, length_marked, rest, List.length_append,
    List.length_cons (a := r.record.header), List.length_map]
  change 2 + (r.record.body.length + 1) = _
  omega

theorem length_decoded (r : Request) :
    (r.decoded identifier).length = 1 + r.record.body.length := by
  rw [decoded, List.length_map, length_marked, rest, List.length_cons, List.length_map,
    Nat.add_comm]

theorem length_words (r : Request) : r.record.words.length = r.record.body.length := by
  rw [Record.words, List.length_map, length_marked]

theorem length_beats (r : Request) : r.record.beats.length ≤ r.record.body.length := by
  have hsection : ∀ base xs, xs.length ≤ (Record.section_ base xs).length := by
    intro base xs
    unfold Record.section_
    split_ifs with hxs
    · rw [hxs]
    · exact Nat.le_succ _
  have hvalues := hsection r.record.baseAddr r.record.values
  have haddrs := hsection r.record.baseRetAddr r.record.addrs
  rw [Record.beats, Record.body, List.length_append, List.length_append, List.length_mapIdx,
    List.length_mapIdx]
  omega

/-- What is made of the replies is no longer than the packets of the requests. -/
theorem length_replies_le {β : Type} {f : List (BitVec 32) → List β}
    (hf : ∀ vs, (f vs).length ≤ 4 + vs.length) (answer : List Access → BitVec 32)
    (log : List Access) (rs : List Request) :
    ((replies answer log rs).flatMap f).length ≤
      (rs.flatMap (userBeats identifier)).length := by
  induction rs generalizing log with
  | nil => exact Nat.le_refl 0
  | cons r rs ih =>
    have hfirst : ((r.values answer log).flatMap f).length ≤ (r.userBeats identifier).length := by
      cases r with
      | write addr data fits => exact Nat.zero_le _
      | read addr n fits =>
        have hvs := hf (EtherboneWishboneMaster.answers answer log (accesses (read addr n fits)))
        have hne : n ≠ 0 := Nat.ne_zero_of_lt fits.pos
        rw [EtherboneWishboneMaster.length_answers] at hvs
        rw [values, List.flatMap_singleton, length_userBeats]
        simp [accesses, Record.body, Record.section_, record, hne] at hvs ⊢
        omega
    have hrest := ih (log ++ r.accesses)
    rw [replies, List.flatMap_append, List.flatMap_cons, List.length_append, List.length_append]
    omega

end Request

/-! ## Streams -/

namespace Config

variable (E : Config)

/-- The packets of some requests become their accesses. -/
theorem decoder_starts (rs : List Request) :
    ∃ k, k ≤ 11 * (rs.flatMap (Request.userBeats E.identifier)).length ∧
      (E.decoderSimulation (rs.flatMap fun r => r.record.words)).Starts
        (rs.flatMap (Request.userBeats E.identifier)) (rs.flatMap fun r => r.record.beats) k := by
  have hdecoded : (rs.flatMap (Request.decoded E.identifier)).length ≤
      (rs.flatMap (Request.userBeats E.identifier)).length := by
    refine length_flatMap_le fun r _ => ?_
    rw [r.length_decoded, r.length_userBeats]
    omega
  have hbeats : (rs.flatMap fun r =>
        (r.decoded E.identifier).map EtherbonePacketRX.Decoded.beat).length ≤
      (rs.flatMap (Request.userBeats E.identifier)).length := by
    refine length_flatMap_le fun r _ => ?_
    rw [List.length_map, r.length_decoded, r.length_userBeats]
    omega
  have hwords : (rs.flatMap fun r => r.record.words).length ≤
      (rs.flatMap (Request.userBeats E.identifier)).length := by
    refine length_flatMap_le fun r _ => ?_
    rw [r.length_words, r.length_userBeats]
    omega
  refine ⟨_, ?_, Simulation.Starts.comp (Simulation.Starts.comp (Simulation.Starts.comp
    (Depacketizer.starts E.packetDepacketizer Bool
      (fun r _ => r.words_userBeats E.identifier))
    (EtherbonePacketRX.starts Bool fun r _ => r.words_decoded E.identifier))
    (Depacketizer.starts E.recordDepacketizer Bool
      (fun r _ => r.words_packetBeats E.identifier)))
    (EtherboneRecordReceiver.starts E.receiver Bool fun r _ => r.words_record)⟩
  omega

/-- The answers of the bus become the replies. -/
theorem encoder_starts (answer : List Access → BitVec 32) (rs : List Request) :
    ∃ k, k ≤ 12 * (rs.flatMap (Request.userBeats E.identifier)).length ∧
      E.encoderSimulation.Starts
        ((EtherboneWishboneMaster.words answer).emits (.idle, [])
          (rs.flatMap fun r => r.record.beats))
        ((replies answer [] rs).flatMap (replyBeats E.identifier)) k := by
  obtain ⟨vs, hvs⟩ : ∃ vs, vs = replies answer [] rs := ⟨_, rfl⟩
  have hanswers : ((EtherboneWishboneMaster.words answer).emits (.idle, [])
        (rs.flatMap fun r => r.record.beats)).length ≤
      (rs.flatMap (Request.userBeats E.identifier)).length := by
    refine le_trans (EtherboneWishboneMaster.length_words_le answer _ _)
      (length_flatMap_le fun r _ => ?_)
    have := r.length_beats
    rw [r.length_userBeats]
    omega
  have hrecords : (vs.flatMap answerBeats).length ≤
      (rs.flatMap (Request.userBeats E.identifier)).length := by
    rw [hvs]
    refine Request.length_replies_le E.identifier (fun vs => ?_) answer [] rs
    rw [answerBeats, List.length_map, length_marked, List.length_cons]
    omega
  have hpackets : (vs.flatMap answerPacketBeats).length ≤
      (rs.flatMap (Request.userBeats E.identifier)).length := by
    rw [hvs]
    refine Request.length_replies_le E.identifier (fun vs => ?_) answer [] rs
    rw [answerPacketBeats, List.length_map, length_marked, List.length_cons, List.length_cons,
      List.length_map]
    omega
  have hreplies : (vs.flatMap (replyBeats E.identifier)).length ≤
      (rs.flatMap (Request.userBeats E.identifier)).length := by
    rw [hvs]
    refine Request.length_replies_le E.identifier (fun vs => ?_) answer [] rs
    rw [replyBeats, List.length_map, length_marked, replyWords, List.length_append,
      List.length_map]
    exact Nat.le_refl _
  have hsent := (Request.words_requests answer [] rs).2
  rw [← hvs] at hsent ⊢
  have hrecord : (E.recordPacketizer.simulation Bool EtherboneRecord.format (fun _ => rfl)
        Nat.zero_lt_one).Starts (vs.flatMap answerBeats) (vs.flatMap answerPacketBeats)
      (2 * (vs.flatMap answerBeats).length) := by
    refine Packetizer.starts E.recordPacketizer Bool _ _ fun x hx => ?_
    obtain ⟨hpos, hle⟩ := Request.length_of_mem_replies (hvs ▸ hx)
    exact words_answerBeats hpos hle
  have hpacket : (E.packetPacketizer.simulation Bool (EtherbonePacketTX.format E.identifier)
        (fun _ => rfl) Nat.zero_lt_two).Starts (vs.flatMap answerPacketBeats)
      (vs.flatMap (replyBeats E.identifier)) (3 * (vs.flatMap answerPacketBeats).length) :=
    Packetizer.starts E.packetPacketizer Bool _ _ fun x _ => words_answerPacketBeats E.identifier
  refine ⟨_, ?_, Simulation.Starts.comp (hsent ▸ EtherboneRecordSender.Rel.start _)
    (Simulation.Starts.comp hrecord
      (Simulation.Starts.comp hpacket (EtherbonePacketTX.Rel.start _)))⟩
  omega

/-- The requests become the replies, with their accesses on the bus. -/
theorem starts (answer : List Access → BitVec 32) (rs : List Request) :
    ∃ k, k ≤ 27 * (rs.flatMap (Request.userBeats E.identifier)).length ∧
      (E.simulation answer (rs.flatMap Request.accesses)
          (rs.flatMap fun r => r.record.words)).Starts
        (rs.flatMap (Request.userBeats E.identifier))
        ((replies answer [] rs).flatMap (replyBeats E.identifier)) k := by
  obtain ⟨j, hj, hdecoder⟩ := E.decoder_starts rs
  obtain ⟨l, hl, hencoder⟩ := E.encoder_starts answer rs
  have hbeats : (rs.flatMap fun r => r.record.beats).length ≤
      (rs.flatMap (Request.userBeats E.identifier)).length := by
    refine length_flatMap_le fun r _ => ?_
    have := r.length_beats
    rw [r.length_userBeats]
    omega
  have hmaster := EtherboneWishboneMaster.Rel.start answer (rs.flatMap fun r => r.record.beats)
  rw [(Request.words_requests answer [] rs).1, List.nil_append] at hmaster
  refine ⟨_, ?_, hdecoder.comp (Simulation.Starts.comp hmaster hencoder)⟩
  omega

end Config

/-! ## Runs -/

namespace Config

variable {E : Config} {answer : List Access → BitVec 32} {rs : List Request}

/-- The core from reset, in front of the packets of some requests. -/
def fed (E : Config) (answer : List Access → BitVec 32) (rs : List Request) :
    (E.stage answer).State × Chan UserBeat :=
  ((E.stage answer).init, Chan.start (rs.flatMap (Request.userBeats E.identifier)))

/-- In every run the bus makes accesses of the requests, in order, and the replies to the
reads are given out, in order; both are complete after enough cycles in which nobody
waits; and from each reply, which has the length that is announced, the host gets the
values read. -/
structure Serves (E : Config) (answer : List Access → BitVec 32) (rs : List Request) :
    Prop where
  accesses : ∀ is, E.log ((E.stage answer).driven.run (fed E answer rs) is).1 <+:
    rs.flatMap Request.accesses
  replies : ∀ is, moved Stage.given ((E.stage answer).driven.trace (fed E answer rs) is) <+:
    (replies answer [] rs).flatMap (replyBeats E.identifier)
  completes : ∀ is, 27 * (rs.flatMap (Request.userBeats E.identifier)).length ≤
      ((E.stage answer).driven.trace (fed E answer rs) is).countP Stage.free →
    E.log ((E.stage answer).driven.run (fed E answer rs) is).1 = rs.flatMap Request.accesses ∧
      moved Stage.given ((E.stage answer).driven.trace (fed E answer rs) is) =
        (Etherbone.replies answer [] rs).flatMap (replyBeats E.identifier)
  decoded : ∀ values ∈ Etherbone.replies answer [] rs,
    (replyBytes E.identifier values).length = 16 + 4 * values.length ∧
      Host.ebDecodeRcvPkt (replyBytes E.identifier values)
        (replyBytes E.identifier values).length = .ok (some values)

/-- What holds of every run. -/
theorem fed_run (E : Config) (answer : List Access → BitVec 32) (rs : List Request)
    (is : List (Stage.Drive Bool)) :
    ∃ d k, (E.simulation answer (rs.flatMap Request.accesses)
          (rs.flatMap fun r => r.record.words)).rel
        ((E.stage answer).driven.run (fed E answer rs) is).1
        ((E.stage answer).driven.run (fed E answer rs) is).2 d k ∧
      moved Stage.given ((E.stage answer).driven.trace (fed E answer rs) is) ++ d.rest =
        (replies answer [] rs).flatMap (replyBeats E.identifier) ∧
      (k = 0 ∨ ((E.stage answer).driven.trace (fed E answer rs) is).countP Stage.free + k ≤
        27 * (rs.flatMap (Request.userBeats E.identifier)).length) := by
  obtain ⟨k₀, hk₀, hstart⟩ := E.starts answer rs
  obtain ⟨d, k, hrel, -, hgiven, hcount⟩ :=
    (E.simulation answer _ _).run hstart (fun h => by cases h) is
  exact ⟨d, k, hrel, hgiven, hcount.imp_right fun h => le_trans h hk₀⟩

/-- Enough free cycles complete the requests. -/
theorem complete_of_free (E : Config) (answer : List Access → BitVec 32) (rs : List Request)
    (is : List (Stage.Drive Bool))
    (hfree : 27 * (rs.flatMap (Request.userBeats E.identifier)).length ≤
      ((E.stage answer).driven.trace (fed E answer rs) is).countP Stage.free) :
    E.log ((E.stage answer).driven.run (fed E answer rs) is).1 = rs.flatMap Request.accesses ∧
      moved Stage.given ((E.stage answer).driven.trace (fed E answer rs) is) =
        (Etherbone.replies answer [] rs).flatMap (replyBeats E.identifier) := by
  obtain ⟨d, k, hrel, hgiven, hcount⟩ := fed_run E answer rs is
  obtain rfl : k = 0 := by omega
  refine ⟨(log_of_rel hrel).2 rfl, ?_⟩
  rw [((E.simulation answer _ _).done hrel).2, List.append_nil] at hgiven
  exact hgiven

/-- A bus that acknowledges at once makes nobody wait. -/
theorem waits_eager (E : Config) (answer : List Access → BitVec 32) (s v x) :
    (E.stage answer).waits s true v x = false := by
  simp [stage, decoder, encoder, Stage.comp, EtherbonePacketRX.stage, EtherbonePacketTX.stage,
    EtherbonePacketRX.checker, EtherbonePacketTX.gate, Depacketizer.stage, Packetizer.stage,
    EtherboneRecordReceiver.stage, EtherboneRecordSender.stage, EtherboneWishboneMaster.stage]

/-- In front of a bus that acknowledges at once, and when nobody waits, the requests are
served in a number of cycles that is linear in the words of their packets. -/
theorem served_eager (E : Config) (answer : List Access → BitVec 32) (rs : List Request) :
    let is := List.replicate (27 * (rs.flatMap (Request.userBeats E.identifier)).length)
      (Stage.eager true)
    E.log ((E.stage answer).driven.run (fed E answer rs) is).1 = rs.flatMap Request.accesses ∧
      moved Stage.given ((E.stage answer).driven.trace (fed E answer rs) is) =
        (Etherbone.replies answer [] rs).flatMap (replyBeats E.identifier) := by
  intro is
  exact complete_of_free E answer rs is (Stage.countP_eager (E.waits_eager answer) _ _).ge

/-- **The core serves the requests of the host**, whatever the bus answers. -/
theorem requests_served (E : Config) (answer : List Access → BitVec 32) (rs : List Request) :
    Serves E answer rs where
  accesses is := by
    obtain ⟨d, k, hrel, -, -⟩ := fed_run E answer rs is
    exact (log_of_rel hrel).1
  replies is := by
    obtain ⟨d, k, -, hgiven, -⟩ := fed_run E answer rs is
    exact ⟨d.rest, hgiven⟩
  completes := complete_of_free E answer rs
  decoded values hvalues := by
    have hle := (Request.length_of_mem_replies hvalues).2
    exact ⟨length_replyBytes E.identifier values, ebDecodeRcvPkt_replyBytes E.identifier hle⟩

/-- The core of the SoC. -/
def core : Config where
  identifier := 0
  packetDepacketizer := Depacketizer.shiftRegister 2
  recordDepacketizer := Depacketizer.shiftRegister 1
  receiver := EtherboneRecordReceiver.receiver
  sender := ⟨256, Nat.zero_lt_succ 255, SyncFIFO.queue MmapBeat 256⟩
  recordPacketizer := Packetizer.shiftRegister
  packetPacketizer := Packetizer.shiftRegister

/-- Two words are written, and read back from a bus that counts. -/
theorem requests_served_writeRead : Serves core (fun log => BitVec.ofNat 32 log.length)
    [.write 0x100 [1, 2] ⟨by decide, by decide, by decide⟩,
      .read 0x100 2 ⟨by decide, by decide, by decide⟩] :=
  requests_served core _ _

end Config

end UsbSniffer.Etherbone
