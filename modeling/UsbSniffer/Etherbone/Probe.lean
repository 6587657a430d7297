/-
  Etherbone/Probe.lean --- packets that ask whether a core is there
  (gateware/etherbone.py, EtherboneProbe).

  A probe goes back to where it comes from, with its flag for a probe turned into the one
  for a response.  Only the header is made anew: the words behind it are not looked at.
-/
import UsbSniffer.Etherbone.Packet

set_option autoImplicit false

namespace UsbSniffer.Etherbone

open UsbSniffer.Sync

namespace EtherboneProbe

/-- The states of `EtherboneProbe`. -/
inductive Fsm
  | idle
  | probeResponse
  deriving DecidableEq, Repr

/-- `sink.ready`. -/
def sinkReady (s : Fsm) (sinkValid sourceReady : Bool) : Bool :=
  match s with
  | .idle => !sinkValid
  | .probeResponse => sourceReady

/-- `source.valid`. -/
def sourceValid (s : Fsm) (sinkValid : Bool) : Bool :=
  match s with
  | .idle => false
  | .probeResponse => sinkValid

/-- `source` in PROBE_RESPONSE. -/
def response (sink : PacketBeat) : PacketBeat := { sink with pf := false, pr := true }

/-- The clock edge. -/
def next (s : Fsm) (sinkValid : Bool) (sink : PacketBeat) (sourceReady : Bool) : Fsm :=
  match s with
  | .idle => if sinkValid then .probeResponse else .idle
  | .probeResponse => if sinkValid && sink.last && sourceReady then .idle else .probeResponse

/-- `EtherboneProbe`. -/
def stage (ε : Type) : Stage ε PacketBeat PacketBeat where
  State := Fsm
  init := .idle
  sourceValid s v _ := sourceValid s v
  source _ x := response x
  sinkReady s _ v _ ready := sinkReady s v ready
  next s _ := next s
  waits _ _ _ _ := false

/-- The cycle that has been spent on the probe in front. -/
def spent : Fsm → Nat
  | .idle => 0
  | .probeResponse => 1

/-- Each word that comes is answered. -/
structure Rel (s : Fsm) (c d : Chan PacketBeat) (bound : Nat) : Prop where
  answers : c.rest.map response = d.rest
  held : d.held = true → s = .probeResponse ∧ c.held = true
  bound : 2 * c.rest.length - spent s = bound

namespace Rel

variable {s : Fsm} {c d : Chan PacketBeat} {bound : Nat} {v : Bool} {x : PacketBeat}

theorem done (h : Rel s c d 0) : c.rest = [] ∧ d.rest = [] := by
  have hspent : spent s < 2 := by
    cases s <;> decide
  have hrest : c.rest = [] := Chan.rest_of_zero h.bound hspent
  have hanswers := h.answers
  rw [hrest] at hanswers
  exact ⟨hrest, hanswers.symm⟩

theorem offers (h : Rel s c d bound) (hv : c.Offers v x) :
    d.Offers (sourceValid s v) (response x) := by
  cases s with
  | idle =>
    refine Chan.Offers.of_false (fun hheld => ?_) _
    have := (h.held hheld).1
    cases this
  | probeResponse =>
    refine hv.pass (fun hheld => (h.held hheld).2) ?_
    rintro rfl
    have hanswers := h.answers
    rw [hv.rest_eq, List.map_cons] at hanswers
    exact ⟨_, hanswers.symm⟩

theorem next (h : Rel s c d bound) (hv : c.Offers v x) (ready : Bool) :
    ∃ bound', Rel (next s v x ready) (c.next v (sinkReady s v ready))
        (d.next (sourceValid s v) ready) bound' ∧ bound' ≤ bound ∧
      (bound' < bound ∨ bound = 0 ∨ c.Starved v ∨ (sourceValid s v = true ∧ ready = false) ∨
        false = true) := by
  have hbound := h.bound
  cases v with
  | false =>
    have hquiet : bound = 0 ∨ c.Starved false := Chan.zero_or_starved hbound
    refine ⟨bound, ?_, Nat.le_refl _, Or.inr (hquiet.imp_right Or.inl)⟩
    cases s <;> exact ⟨h.answers, (fun hheld => by cases hheld), hbound⟩
  | true =>
    have hlength := hv.length_eq
    cases s with
    | idle =>
      -- the first word stays until the response begins
      simp only [spent] at hbound
      exact ⟨2 * c.rest.length - 1, ⟨h.answers, (fun hheld => by cases hheld), rfl⟩, by omega,
        Or.inl (by omega)⟩
    | probeResponse =>
      simp only [spent] at hbound
      cases ready with
      | false =>
        have hnext : EtherboneProbe.next .probeResponse true x false = .probeResponse := by
          simp [EtherboneProbe.next]
        rw [hnext]
        exact ⟨bound, ⟨h.answers, fun _ => ⟨rfl, rfl⟩, hbound⟩, Nat.le_refl _,
          Or.inr (Or.inr (Or.inr (Or.inl ⟨rfl, rfl⟩)))⟩
      | true =>
        have hlt : 2 * c.rest.tail.length -
            spent (EtherboneProbe.next .probeResponse true x true) < bound := by
          omega
        have hanswers : c.rest.tail.map response = d.rest.tail := by
          rw [← h.answers, List.map_tail]
        exact ⟨_, ⟨hanswers, (fun hheld => by cases hheld), rfl⟩, Nat.le_of_lt hlt, Or.inl hlt⟩

end Rel

/-- The block gives the responses to the probes that it takes. -/
def simulation (ε : Type) : Simulation (stage ε) where
  rel := Rel
  done := Rel.done
  offers := Rel.offers
  step _ ready h hv := h.next hv ready

/-- From reset. -/
theorem starts (ε : Type) (xs : List PacketBeat) :
    (simulation ε).Starts xs (xs.map response) (2 * xs.length) where
  answers := rfl
  held h := by cases h
  bound := rfl

end EtherboneProbe

/-! ## Packets of a header and a payload -/

/-- What is announced to the core as one packet: two words of a header and those behind it. -/
structure RawPacket where
  header : BitVec 32
  header' : BitVec 32
  payload : List (BitVec 32)
  payload_ne : payload ≠ []

namespace RawPacket

variable (identifier : BitVec 8) (p : RawPacket)

/-- A word of the packet as the USB core gives it to the stream with the identifier. -/
def userBeat (x : BitVec 32 × Bool) : UserBeat where
  dst := identifier
  length := BitVec.ofNat 32 (8 + 4 * p.payload.length)
  data := x.1
  last := x.2

/-- The beats of the packet, the last one marked. -/
def userBeats : List UserBeat :=
  (marked ([p.header, p.header'] ++ p.payload)).map (p.userBeat identifier)

/-- The words behind the header, with what the receiver takes from it. -/
def decoded : List EtherbonePacketRX.Decoded :=
  (marked p.payload).map fun x =>
    EtherbonePacketRX.decode [p.header, p.header'] x.2 (p.userBeat identifier x)

/-- The magic in the header. -/
def magic : BitVec 16 := reverseHalf (slice p.header 0 16)

/-- The header comes off the packet. -/
theorem words_userBeats :
    (Depacketizer.words 2 UserBeat.data UserBeat.last EtherbonePacketRX.decode).emits []
        (p.userBeats identifier) = p.decoded identifier ∧
      (Depacketizer.words 2 UserBeat.data UserBeat.last EtherbonePacketRX.decode).run []
        (p.userBeats identifier) = [] ∧
      Depacketizer.Framed 2 UserBeat.data UserBeat.last [] (p.userBeats identifier) :=
  Depacketizer.words_marked UserBeat.data UserBeat.last EtherbonePacketRX.decode
    (p.userBeat identifier) (fun _ => rfl) (fun _ => rfl) rfl p.payload_ne

theorem isPacket_decoded : IsPacket (fun x => x.beat.last) (p.decoded identifier) :=
  (IsPacket.marked p.payload_ne).map fun _ => rfl

theorem magic_decoded : ∀ x ∈ p.decoded identifier, x.magic = p.magic := by
  intro x hx
  obtain ⟨y, -, rfl⟩ := List.mem_map.mp hx
  rfl

end RawPacket

namespace EtherbonePacketRX

/-- What is left of a packet that is dropped. -/
theorem words_dropping {xs : List Decoded} (h : IsPacket (fun x => x.beat.last) xs) :
    words.emits (some false) xs = [] ∧ words.run (some false) xs = none := by
  induction xs with
  | nil => exact absurd rfl h.ne_nil
  | cons x xs ih =>
    cases xs with
    | nil =>
      have hlast : x.beat.last = true := h
      simp [Machine.run, words, hlast]
    | cons y ys =>
      obtain ⟨hlast, hys⟩ := h
      have hnext : words.next (some false) x = some false := by simp [words, hlast]
      rw [Machine.emits_cons, Machine.run_cons, hnext]
      exact ih hys

/-- A packet with another magic is dropped. -/
theorem words_foreign {xs : List Decoded} (h : IsPacket (fun x => x.beat.last) xs)
    (hmagic : ∀ x ∈ xs, x.magic ≠ etherboneMagic) :
    words.emits none xs = [] ∧ words.run none xs = none := by
  have hdropped := words_dropping h
  obtain ⟨x, xs', rfl⟩ := List.exists_cons_of_ne_nil h.ne_nil
  have hcheck : (x.magic == etherboneMagic) = false :=
    beq_eq_false_iff_ne.mpr (hmagic x (List.mem_cons_self ..))
  rw [Machine.emits_cons, Machine.run_cons] at hdropped ⊢
  simp only [words, Option.getD_none, hcheck] at hdropped ⊢
  exact hdropped

end EtherbonePacketRX

/-! ## Probes -/

/-- A packet with the magic and the flag for a probe. -/
structure Probe extends RawPacket where
  magic_eq : toRawPacket.magic = etherboneMagic
  pf_eq : toRawPacket.header.getLsbD 16 = true

namespace Probe

variable (identifier : BitVec 8) (p : Probe)

/-- The flag that is copied to the response. -/
def nr : Bool := p.header.getLsbD 18

/-- What the depacketizer makes of it. -/
def packetBeats : List PacketBeat :=
  (p.decoded identifier).map EtherbonePacketRX.Decoded.beat

/-- The probe is presented as a packet. -/
theorem words_decoded :
    EtherbonePacketRX.words.emits none (p.decoded identifier) = p.packetBeats identifier ∧
      EtherbonePacketRX.words.run none (p.decoded identifier) = none :=
  EtherbonePacketRX.words_packet (p.isPacket_decoded identifier) fun x hx =>
    (p.magic_decoded identifier x hx).trans p.magic_eq

theorem isPacket_packetBeats : IsPacket PacketBeat.last (p.packetBeats identifier) :=
  (p.isPacket_decoded identifier).map fun _ => rfl

theorem pf_packetBeats : ∀ x ∈ p.packetBeats identifier, x.pf = true := by
  intro x hx
  obtain ⟨y, hy, rfl⟩ := List.mem_map.mp hx
  obtain ⟨z, -, rfl⟩ := List.mem_map.mp hy
  exact p.pf_eq

/-- The packet of the response. -/
def answerPacketBeats : List PacketBeat :=
  (p.packetBeats identifier).map EtherboneProbe.response

theorem isPacket_answerPacketBeats :
    IsPacket PacketBeat.last (p.answerPacketBeats identifier) :=
  (p.isPacket_packetBeats identifier).map fun _ => rfl

/-- The words of the response: a new header, and what came. -/
def responseWords : List (BitVec 32) :=
  [if p.nr then 0x44166f4e else 0x44126f4e, 0] ++ p.payload

/-- The response as one packet for the USB core. -/
def responseBeats : List UserBeat :=
  (marked p.responseWords).map (p.userBeat identifier)

/-- A word of the packet of the response. -/
def answerPacketBeat (x : BitVec 32 × Bool) : PacketBeat where
  pf := false
  pr := true
  nr := p.nr
  length := BitVec.ofNat 32 (8 + 4 * p.payload.length) - packetHeaderLength
  data := x.1
  last := x.2

/-- The header is put in front. -/
theorem words_answerPacketBeats :
    (Packetizer.words (EtherbonePacketTX.format identifier)).emits false
        (p.answerPacketBeats identifier) = p.responseBeats identifier ∧
      (Packetizer.words (EtherbonePacketTX.format identifier)).run false
        (p.answerPacketBeats identifier) = false := by
  have hbeats : p.answerPacketBeats identifier = (marked p.payload).map p.answerPacketBeat := by
    unfold answerPacketBeats packetBeats RawPacket.decoded
    rw [List.map_map, List.map_map]
    rfl
  have hheader : ∀ x, EtherbonePacketTX.header (p.answerPacketBeat x) =
      [if p.nr then 0x44166f4e else 0x44126f4e, 0] := by
    intro x
    change [cat (cat (cat (cat (cat (cat (cat (reverseHalf etherboneMagic) (BitVec.ofBool false))
      (BitVec.ofBool true)) (BitVec.ofBool p.nr)) (0 : BitVec 1)) etherboneVersion)
      (4 : BitVec 4)) (4 : BitVec 4), 0] = _
    cases p.nr <;> decide
  have h := Packetizer.words_marked (EtherbonePacketTX.format identifier) p.answerPacketBeat
    [if p.nr then 0x44166f4e else 0x44126f4e, 0] id (p.userBeat identifier) (fun _ => rfl) hheader
    (fun _ => rfl) (fun w last x => by
      change UserBeat.mk _ (_ - packetHeaderLength + packetHeaderLength) _ _ = _
      rw [BitVec.sub_add_cancel]
      rfl) p.payload_ne
  rw [List.map_id] at h
  rw [hbeats]
  exact h

end Probe

end UsbSniffer.Etherbone
