/-
  Usb/FramingReset.lean --- resets of the sender under a running packetizer.

  The reset manager of usbsniffer.py resets `WrapCore` at any cycle and leaves the
  packetizer alone.  A sender that is reset forgets the words that a header under
  way has promised, or is about to promise: in COPY the packetizer goes on with the
  words of a later burst, and in INSERT_HEADER it may take the length of a sender
  that drives none.
-/
import UsbSniffer.Usb.Framing

set_option autoImplicit false

namespace UsbSniffer.Usb.Framing

open UsbSniffer.Sync

variable {C : Config}

/-- A reset reaches the registers of the sender only. -/
def clear (s : State C) : State C := { s with sender := WrapSender.clear s.sender }

/-- A host that trusts the length field finds each preamble: the words are a prefix of
packets whose length word is the size of their payload in bytes. -/
def HostFramed (identifier : BitVec 8) (words : List (BitVec 32)) : Prop :=
  ∃ payloads : List (List (BitVec 32)), (∀ p ∈ payloads, 4 * p.length < 2 ^ 32) ∧
    words <+: packets identifier payloads

/-- The packetizer takes the length of a sender that is in a burst and is not reset in
that cycle, and no reset falls on a beat of the payload before the last one. -/
structure KeepsFraming (s : State C) (i : In × Bool) : Prop where
  live : s.packetizer.fsm = .insertHeader →
    C.Packetizer.HeaderUnpack.pos s.packetizer.headerUnpack = 2 → i.1.sourceReady = true →
    s.sender.fsm = .transfer ∧ i.2 = false
  payload : s.packetizer.fsm = .copy → i.2 = true →
    i.1.sourceReady = true ∧ (WrapSender.source s.sender).valid = true ∧
      (WrapSender.source s.sender).last = true

instance (s : State C) (i : In × Bool) : Decidable (KeepsFraming s i) :=
  decidable_of_iff
    ((s.packetizer.fsm = .insertHeader →
        C.Packetizer.HeaderUnpack.pos s.packetizer.headerUnpack = 2 →
        i.1.sourceReady = true → s.sender.fsm = .transfer ∧ i.2 = false) ∧
      (s.packetizer.fsm = .copy → i.2 = true →
        i.1.sourceReady = true ∧ (WrapSender.source s.sender).valid = true ∧
          (WrapSender.source s.sender).last = true))
    ⟨fun h => ⟨h.1, h.2⟩, fun h => ⟨h.live, h.payload⟩⟩

theorem KeepsFraming.lengthLive {s : State C} {i : In × Bool} (h : KeepsFraming s i) :
    LengthLive s i.1 :=
  fun hfsm hpos hready => (h.live hfsm hpos hready).1

/-- A reset that keeps the framing does not leave the packetizer in a payload. -/
theorem KeepsFraming.not_copy {s : State C} {i : In × Bool} (h : KeepsFraming s i)
    (hreset : i.2 = true) : (next s i.1).packetizer.fsm ≠ .copy := by
  simp only [next, USBPacketizer.next]
  cases hfsm : s.packetizer.fsm with
  | idle => cases (WrapSender.source s.sender).valid <;> simp
  | copy =>
    obtain ⟨hready, hvalid, hlast⟩ := h.payload hfsm hreset
    simp [hready, hvalid, hlast]
  | insertHeader =>
    have hnot : C.Packetizer.HeaderUnpack.sinkReady s.packetizer.headerUnpack
        i.1.sourceReady = false := by
      unfold Serializer.sinkReady
      cases hready : i.1.sourceReady with
      | false => exact Bool.and_false _
      | true =>
        have hne : C.Packetizer.HeaderUnpack.pos s.packetizer.headerUnpack ≠ 2 := by
          intro hpos
          have := (h.live hfsm hpos hready).2
          rw [hreset] at this
          cases this
        simpa using hne
    simp [hnot]

/-- Between payloads a packet does not depend on the sender. -/
theorem InPacket.clear {s : State C} {part sent : List (BitVec 32)}
    (h : s.packetizer.fsm ≠ .copy) (hin : InPacket s part sent) :
    InPacket (clear s) part sent := by
  unfold InPacket at hin ⊢
  cases hfsm : s.packetizer.fsm with
  | copy => exact absurd hfsm h
  | idle => simpa only [Framing.clear, hfsm] using hin
  | insertHeader => simpa only [Framing.clear, hfsm] using hin

/-- A cycle with a reset input keeps the framing. -/
theorem framed_resettable {s : State C} {tr : List (In × Out)} {i : In × Bool}
    (hok : KeepsFraming s i) (hInv : WrapSender.Inv s.sender) (h : Framed s tr) :
    WrapSender.Inv (((machine C).resettable clear).next s i).sender ∧
      Framed (((machine C).resettable clear).next s i) (tr ++ [(i.1, out s i.1)]) := by
  have hframed := framed_next i.1 hInv hok.lengthLive h
  have hnext : WrapSender.Inv (next s i.1).sender := WrapSender.inv_next hInv _ _ _
  simp only [Machine.resettable, machine]
  cases hreset : i.2 with
  | false => exact ⟨hnext, hframed⟩
  | true =>
    refine ⟨WrapSender.inv_clear _, ?_⟩
    obtain ⟨done, part, sent, hdone, hin, hsent, hpopped⟩ := hframed
    exact ⟨done, part, sent, hdone, hin.clear (hok.not_copy hreset), hsent, hpopped⟩

/-- What is sent of a packet is the start of some packet. -/
theorem InPacket.prefix_packet {s : State C} {part sent : List (BitVec 32)}
    (h : InPacket s part sent) :
    ∃ cur, cur.length ≤ C.Sender.depth + 1 ∧ part <+: packet C.Sender.identifier cur := by
  unfold InPacket at h
  cases hfsm : s.packetizer.fsm with
  | idle =>
    simp only [hfsm] at h
    obtain ⟨-, rfl, -⟩ := h
    exact ⟨[], Nat.zero_le _, List.nil_prefix⟩
  | insertHeader =>
    simp only [hfsm] at h
    obtain ⟨-, rfl, -⟩ := h
    refine ⟨[], Nat.zero_le _, (List.take_prefix _ _).trans ?_⟩
    exact ⟨[BitVec.ofNat 32 (4 * 0)], rfl⟩
  | copy =>
    simp only [hfsm] at h
    obtain ⟨-, -, hle, rfl⟩ := h
    -- any words can stand for those that are still to come
    have hlen : (sent ++ List.replicate (WrapSender.beatsLeft s.sender.count) 0).length =
        sent.length + WrapSender.beatsLeft s.sender.count := by
      rw [List.length_append, List.length_replicate]
    refine ⟨sent ++ List.replicate (WrapSender.beatsLeft s.sender.count) 0, by omega, ?_⟩
    rw [packet, hlen, ← List.append_assoc]
    exact List.prefix_append _ _

theorem Framed.hostFramed {s : State C} {tr : List (In × Out)} (h : Framed s tr)
    (hdepth : 4 * (C.Sender.depth + 1) < 2 ^ 32) :
    HostFramed C.Sender.identifier (moved sentWord tr) := by
  obtain ⟨done, part, sent, hdone, hin, hsent, -⟩ := h
  obtain ⟨cur, hcur, hpart⟩ := hin.prefix_packet
  refine ⟨done ++ [cur], ?_, ?_⟩
  · intro p hp
    rcases List.mem_append.mp hp with hp | hp
    · have := (hdone p hp).2
      omega
    · rw [List.mem_singleton] at hp
      subst hp
      omega
  · rw [hsent, packets_append, packets_singleton]
    exact List.prefix_append_right_inj _ |>.mpr hpart

/-! ## The module of the SoC -/

/-- `WrapCore` with the packetizer of `usb_core`: the sender has its default depth. -/
def wrapCore (identifier : BitVec 8) (Buf : SyncFIFO (BitVec 32) 129) (Timer : WaitTimer)
    (HeaderUnpack : Serializer 3) : Config where
  Sender :=
    { identifier := identifier, depth := 128, depth_pos := by omega, Buf := Buf, Timer := Timer }
  Packetizer := { HeaderUnpack := HeaderUnpack }

/-- The two modules with the reset input of the sender. -/
def resetMachine (C : Config) : Machine (State C) (In × Bool) Out :=
  (machine C).resettable clear

/-- **Resets between payloads keep the framing.**  In a run in which every reset and
every length word meets `KeepsFraming` the words sent are framed at every cycle. -/
theorem reset_framed (identifier : BitVec 8) (Buf : SyncFIFO (BitVec 32) 129)
    (Timer : WaitTimer) (HeaderUnpack : Serializer 3) (is : List (In × Bool))
    (hok : (resetMachine (wrapCore identifier Buf Timer HeaderUnpack)).AllSteps
      KeepsFraming init is) :
    HostFramed identifier (moved sentWord (Machine.wires
      ((resetMachine (wrapCore identifier Buf Timer HeaderUnpack)).trace init is))) := by
  have hrun :=
    (resetMachine (wrapCore identifier Buf Timer HeaderUnpack)).history_induction KeepsFraming
      (fun s tr => WrapSender.Inv s.sender ∧ Framed s (Machine.wires tr))
      ⟨WrapSender.inv_init, framed_init⟩
      (by
        rintro s tr i hi ⟨hInv, hframed⟩
        rw [Machine.wires_append]
        exact framed_resettable hi hInv hframed)
      is hok
  exact hrun.2.hostFramed (show 4 * (128 + 1) < 2 ^ 32 by decide)

/-- The core of the first channel, with queues and counters for its blocks. -/
def core0 : Config :=
  wrapCore 1 (SyncFIFO.queue (BitVec 32) 129) (WaitTimer.counter 1000000 (by omega))
    (Serializer.mux 3)

/-- A cycle that offers a word, with a ready receiver. -/
def wordCycle (reset : Bool) : In × Bool := (⟨true, 7, true⟩, reset)

/-- A burst of 128 words whose header is under way when the reset comes. -/
def resetInHeaderRun : List (In × Bool) :=
  List.replicate 131 (wordCycle false) ++ [wordCycle true] ++
    List.replicate 130 (wordCycle false)

/-- A stream in which a packet of no words is not followed by a preamble is not
framed. -/
theorem not_hostFramed_of_empty {identifier : BitVec 8} {x : BitVec 32}
    (h : x ≠ preamble) (dst : BitVec 32) :
    ¬ HostFramed identifier [preamble, dst, 0, x] := by
  rintro ⟨payloads, hlength, hprefix⟩
  cases payloads with
  | nil => simp at hprefix
  | cons p rest =>
    have hp := hlength p List.mem_cons_self
    simp only [packets, List.flatMap_cons, packet, headerOf, List.cons_append,
      List.nil_append, List.cons_prefix_cons] at hprefix
    obtain ⟨-, -, hzero, hword⟩ := hprefix
    have hnil : p = [] := by
      have := congrArg BitVec.toNat hzero
      rw [BitVec.toNat_ofNat, Nat.mod_eq_of_lt hp] at this
      exact List.eq_nil_of_length_eq_zero (by simpa using this.symm)
    subst hnil
    cases rest with
    | nil => simp at hword
    | cons q rest =>
      simp only [List.nil_append, List.flatMap_cons, packet, headerOf, List.cons_append,
        List.cons_prefix_cons] at hword
      exact h hword.1

/-- **A reset breaks the framing**: the header announces no words, and words of the
next burst follow it. -/
theorem reset_breaks_framing :
    ¬ HostFramed 1 (moved sentWord
        (Machine.wires ((resetMachine core0).trace init resetInHeaderRun))) := by
  have hsent : moved sentWord (Machine.wires ((resetMachine core0).trace init
      resetInHeaderRun)) = [preamble, 1, 0, 7] := by decide +kernel
  rw [hsent]
  exact not_hostFramed_of_empty (by decide) 1

/-- A reset on the last beat of a burst of 128 words, and then another burst. -/
theorem reset_framed_last_beat :
    HostFramed 1 (moved sentWord (Machine.wires ((resetMachine core0).trace init
      (List.replicate 260 (wordCycle false) ++ [wordCycle true] ++
        List.replicate 140 (wordCycle false))))) :=
  reset_framed 1 _ _ _ _ (by decide +kernel)

end UsbSniffer.Usb.Framing
