/-
  Host/Receive.lean --- packets received one after the other (software/linux/compat.c).

  `ubar_recv_packet` looks for the preamble word by word, and takes the header and the
  payload by their lengths, so that a preamble inside a packet is never looked at and
  the next call begins where the next packet does.  `read` may cut the bytes anywhere.
-/
import UsbSniffer.Host.Register

set_option autoImplicit false

namespace UsbSniffer.Host

open UsbSniffer.Sync

/-- All bytes arrive together. -/
theorem pending_single (xs : List (BitVec 8)) : pending [.data xs] = xs :=
  List.append_nil xs

theorem not_failed_single (xs : List (BitVec 8)) : Arrival.failed ∉ [Arrival.data xs] := by
  rw [List.mem_singleton]
  intro h
  cases h

/-- The given number of calls of `ubar_recv_packet`, one after the other. -/
def recvPackets : Nat → List Arrival →
    Except Stop (List (BitVec 32 × List (BitVec 8)) × List Arrival)
  | 0, link => .ok ([], link)
  | calls + 1, link => do
      let (packet, link) ← ubarRecvPacket link
      let (packets, link) ← recvPackets calls link
      .ok (packet :: packets, link)

/-- The bytes of packets, each a stream identifier and a payload. -/
def sentPackets (packets : List (BitVec 32 × List (BitVec 8))) : List (BitVec 8) :=
  packets.flatMap fun p => ubarSendPacket p.2 p.1

theorem sentPackets_cons (p : BitVec 32 × List (BitVec 8))
    (packets : List (BitVec 32 × List (BitVec 8))) :
    sentPackets (p :: packets) = ubarSendPacket p.2 p.1 ++ sentPackets packets :=
  List.flatMap_cons

/-- A call that returns a packet is followed by the other calls. -/
theorem recvPackets_succ {calls : Nat} {link link₁ link₂ : List Arrival}
    {packet : BitVec 32 × List (BitVec 8)} {packets : List (BitVec 32 × List (BitVec 8))}
    (hrecv : ubarRecvPacket link = .ok (packet, link₁))
    (hrest : recvPackets calls link₁ = .ok (packets, link₂)) :
    recvPackets (calls + 1) link = .ok (packet :: packets, link₂) := by
  unfold recvPackets
  rw [hrecv]
  simp only [bind, Except.bind, hrest]

/-- Packets one behind the other are received one by one. -/
theorem recvPackets_sent {packets : List (BitVec 32 × List (BitVec 8))} {link : List Arrival}
    {ys : List (BitVec 8)} (hsize : ∀ p ∈ packets, p.2.length ≤ 32768)
    (hlink : .failed ∉ link) (h : pending link = sentPackets packets ++ ys) :
    ∃ link', recvPackets packets.length link = .ok (packets, link') ∧ pending link' = ys := by
  induction packets generalizing link with
  | nil => exact ⟨link, rfl, h⟩
  | cons p packets ih =>
    rw [sentPackets_cons, List.append_assoc] at h
    obtain ⟨link₁, hrecv, hrest, hclean⟩ :=
      ubarRecvPacket_pending (List.not_mem_nil : Usb.preamble ∉ []) hlink
        (hsize p (List.mem_cons_self ..)) h
    obtain ⟨link₂, hcalls, hys⟩ :=
      ih (fun q hq => hsize q (List.mem_cons_of_mem p hq)) hclean hrest
    exact ⟨link₂, recvPackets_succ hrecv hcalls, hys⟩

/-- **The packets of the link are received, behind any words that are no preamble.**
They are the ones that were sent, in their order, and their bytes and the words in front
of them are what the calls take, however the bytes arrive. -/
theorem recvPackets_framed {junk : List (BitVec 32)}
    {packets : List (BitVec 32 × List (BitVec 8))} {link : List Arrival} {ys : List (BitVec 8)}
    (hjunk : Usb.preamble ∉ junk) (hsize : ∀ p ∈ packets, p.2.length ≤ 32768)
    (hlink : .failed ∉ link)
    (h : pending link = junk.flatMap (bytes 4) ++ (sentPackets packets ++ ys)) :
    ∃ link', recvPackets packets.length link = .ok (packets, link') ∧
      (packets ≠ [] → pending link' = ys) := by
  cases packets with
  | nil => exact ⟨link, rfl, fun hne => absurd rfl hne⟩
  | cons p packets =>
    rw [sentPackets_cons, List.append_assoc] at h
    obtain ⟨link₁, hrecv, hrest, hclean⟩ :=
      ubarRecvPacket_pending hjunk hlink (hsize p (List.mem_cons_self ..)) h
    obtain ⟨link₂, hcalls, hys⟩ :=
      recvPackets_sent (fun q hq => hsize q (List.mem_cons_of_mem p hq)) hclean hrest
    exact ⟨link₂, recvPackets_succ hrecv hcalls, fun _ => hys⟩

/-- A payload that begins with the preamble and has no whole number of words. -/
def misleadingPayload : List (BitVec 8) := bytes 4 Usb.preamble ++ [1, 2, 3]

/-- Two packets behind a word of garbage, one byte at a time and then all at once. -/
def brokenUp : List Arrival :=
  ((bytes 4 (7 : BitVec 32) ++ ubarSendPacket misleadingPayload 1).map fun b => .data [b]) ++
    [.data (ubarSendPacket [] 2 ++ [9])]

theorem recvPackets_framed_brokenUp :
    ∃ link', recvPackets 2 brokenUp = .ok ([(1, misleadingPayload), (2, [])], link') ∧
      ([(1, misleadingPayload), (2, [])] ≠ ([] : List (BitVec 32 × List (BitVec 8))) →
        pending link' = [9]) :=
  recvPackets_framed (show Usb.preamble ∉ [7] by decide) (by decide) (by decide)
    (show pending brokenUp = [7].flatMap (bytes 4) ++
      (sentPackets [(1, misleadingPayload), (2, [])] ++ [9]) by decide)

end UsbSniffer.Host
