/-
  Usb/Framing.lean --- a sender on a packetizer.

  The packetizer reads the length of a packet from the live counter of the sender
  while it inserts the header, and ends the packet on the beat that the same
  counter marks.  A packet is well framed because the counter stands still until
  the header is out: the number of beats left when the length word is taken is the
  number of beats that follow it.
-/
import UsbSniffer.Usb.Packetizer

set_option autoImplicit false

namespace UsbSniffer.Usb.Framing

open UsbSniffer.Sync

/-! ## The two modules together -/

/-- A sender and a packetizer. -/
structure Config where
  Sender : WrapSender.Config
  Packetizer : USBPacketizer.Config

/-- The registers of both. -/
structure State (C : Config) where
  sender : WrapSender.State C.Sender
  packetizer : USBPacketizer.State C.Packetizer

/-- The word offered, and the answer of the link. -/
structure In where
  sinkValid : Bool
  sinkData : BitVec 32
  sourceReady : Bool
  deriving DecidableEq, Repr

/-- The answer to the word, what passes between the two, and the word on the link. -/
structure Out where
  sinkReady : Bool
  /-- `sender.source`. -/
  user : UserSource
  userReady : Bool
  sourceValid : Bool
  sourceData : BitVec 32
  deriving DecidableEq, Repr

variable {C : Config}

/-- The registers at a reset. -/
def init : State C where
  sender := WrapSender.init
  packetizer := USBPacketizer.init

/-- The outputs in a cycle. -/
def out (s : State C) (i : In) : Out :=
  let user := WrapSender.source s.sender
  let o := USBPacketizer.out s.packetizer user i.sourceReady
  { sinkReady := WrapSender.sinkReady s.sender
    user := user
    userReady := o.sinkReady
    sourceValid := o.sourceValid
    sourceData := o.sourceData }

/-- The clock edge. -/
def next (s : State C) (i : In) : State C where
  sender := WrapSender.next s.sender i.sinkValid i.sinkData (out s i).userReady
  packetizer := USBPacketizer.next s.packetizer (WrapSender.source s.sender) i.sourceReady

/-- The sender in front of the packetizer. -/
def machine (C : Config) : Machine (State C) In Out where
  out := out
  next := next

/-- The word accepted into `buf` in a cycle. -/
def acceptedWord (c : In × Out) : List (BitVec 32) :=
  beat c.1.sinkValid c.2.sinkReady c.1.sinkData

/-- The word that leaves `buf` in a cycle. -/
def poppedWord (c : In × Out) : List (BitVec 32) :=
  beat c.2.user.valid c.2.userReady c.2.user.data

/-- The word accepted on the source of the packetizer in a cycle. -/
def sentWord (c : In × Out) : List (BitVec 32) :=
  beat c.2.sourceValid c.1.sourceReady c.2.sourceData

/-! ## Packets -/

/-- The header of a packet of `n` words. -/
def headerOf (identifier : BitVec 8) (n : Nat) : List (BitVec 32) :=
  [preamble, identifier.setWidth 32, BitVec.ofNat 32 (4 * n)]

/-- A packet with its payload. -/
def packet (identifier : BitVec 8) (payload : List (BitVec 32)) : List (BitVec 32) :=
  headerOf identifier payload.length ++ payload

/-- The packets with these payloads, one after the other. -/
def packets (identifier : BitVec 8) (payloads : List (List (BitVec 32))) :
    List (BitVec 32) :=
  payloads.flatMap (packet identifier)

@[simp] theorem packets_nil (identifier : BitVec 8) : packets identifier [] = [] := rfl

@[simp] theorem packets_append (identifier : BitVec 8) (ps qs : List (List (BitVec 32))) :
    packets identifier (ps ++ qs) = packets identifier ps ++ packets identifier qs := by
  simp [packets]

@[simp] theorem packets_singleton (identifier : BitVec 8) (payload : List (BitVec 32)) :
    packets identifier [payload] = packet identifier payload := by
  simp [packets]

/-- The start of a packet, up to some word of its payload. -/
theorem packet_take (identifier : BitVec 8) (payload : List (BitVec 32)) (k : Nat) :
    (packet identifier payload).take (3 + k) =
      headerOf identifier payload.length ++ payload.take k := by
  have hlen : (headerOf identifier payload.length).length = 3 := rfl
  rw [packet, ← hlen, List.take_length_add_append]

/-! ## One cycle of a packet -/

/-- Where in a packet the packetizer is: `part` is what it has sent of the packet, and
`sent` the payload words among it.  In COPY the beats that the sender has left are
the words that the header promises and that are not sent yet. -/
def InPacket (s : State C) (part sent : List (BitVec 32)) : Prop :=
  let pos := C.Packetizer.HeaderUnpack.pos s.packetizer.headerUnpack
  match s.packetizer.fsm with
  | .idle => pos = 0 ∧ part = [] ∧ sent = []
  | .insertHeader =>
      pos < 3 ∧ part = [preamble, C.Sender.identifier.setWidth 32].take pos ∧ sent = []
  | .copy =>
      let n := sent.length + WrapSender.beatsLeft s.sender.count
      pos = 0 ∧ s.sender.fsm = .transfer ∧ n ≤ C.Sender.depth + 1 ∧
        part = headerOf C.Sender.identifier n ++ sent

/-- A payload that a burst can have. -/
def IsBurst (C : Config) (payload : List (BitVec 32)) : Prop :=
  1 ≤ payload.length ∧ payload.length ≤ C.Sender.depth + 1

/-- The words of a cycle take the packet on, or complete it. -/
def StepsPacket (s : State C) (i : In) (part sent : List (BitVec 32)) : Prop :=
  ∃ done part' sent', (∀ p ∈ done, IsBurst C p) ∧ InPacket (next s i) part' sent' ∧
    part ++ sentWord (i, out s i) = packets C.Sender.identifier done ++ part' ∧
    sent ++ poppedWord (i, out s i) = done.flatten ++ sent'

/-- The length is taken while the sender is in a burst. -/
def LengthLive (s : State C) (i : In) : Prop :=
  s.packetizer.fsm = .insertHeader →
    C.Packetizer.HeaderUnpack.pos s.packetizer.headerUnpack = 2 → i.sourceReady = true →
    s.sender.fsm = .transfer

/-- The packetizer takes nothing from the sender before the payload. -/
theorem userReady_of_not_copy {s : State C} (h : s.packetizer.fsm ≠ .copy) (i : In) :
    (out s i).userReady = false := by
  cases hfsm : s.packetizer.fsm with
  | copy => exact absurd hfsm h
  | _ => simp [out, USBPacketizer.out, hfsm]

theorem userReady_of_copy {s : State C} (h : s.packetizer.fsm = .copy) (i : In) :
    (out s i).userReady = i.sourceReady := by
  simp [out, USBPacketizer.out, h]

theorem poppedWord_of_not_copy {s : State C} (h : s.packetizer.fsm ≠ .copy) (i : In) :
    poppedWord (i, out s i) = [] := by
  rw [poppedWord, userReady_of_not_copy h i, beat_false_right]

theorem step_idle {s : State C} (h : s.packetizer.fsm = .idle) (i : In)
    {part sent : List (BitVec 32)} (hin : InPacket s part sent) :
    StepsPacket s i part sent := by
  simp only [InPacket, h] at hin
  obtain ⟨hpos, rfl, rfl⟩ := hin
  refine ⟨[], [], [], by simp, ?_, ?_, ?_⟩
  · simp only [InPacket, next, USBPacketizer.next, h]
    cases (WrapSender.source s.sender).valid <;>
      simp [C.Packetizer.HeaderUnpack.pos_next, hpos]
  · simp [sentWord, out, USBPacketizer.out, h]
  · simp [poppedWord_of_not_copy, h]

/-- The header word on offer is the next word of the packet. -/
theorem part_insertHeader {s : State C} {pos : Nat}
    (hpos : C.Packetizer.HeaderUnpack.pos s.packetizer.headerUnpack = pos) (hlt : pos < 2)
    (user : UserSource) (huser : user.dst = C.Sender.identifier) :
    [preamble, C.Sender.identifier.setWidth 32].take pos ++
        [USBPacketizer.headerWord s.packetizer user] =
      [preamble, C.Sender.identifier.setWidth 32].take (pos + 1) := by
  unfold USBPacketizer.headerWord USBPacketizer.header
  rw [hpos, huser]
  rcases (by omega : pos = 0 ∨ pos = 1) with rfl | rfl <;> rfl

theorem step_insertHeader {s : State C} (h : s.packetizer.fsm = .insertHeader) (i : In)
    (hInv : WrapSender.Inv s.sender) (hlive : LengthLive s i)
    {part sent : List (BitVec 32)} (hin : InPacket s part sent) :
    StepsPacket s i part sent := by
  simp only [InPacket, h] at hin
  obtain ⟨hpos, rfl, rfl⟩ := hin
  have hnot : s.packetizer.fsm ≠ .copy := by simp [h]
  have hpopped := poppedWord_of_not_copy hnot i
  have huser := userReady_of_not_copy hnot i
  have hsent : sentWord (i, out s i) = beat true i.sourceReady
      (USBPacketizer.headerWord s.packetizer (WrapSender.source s.sender)) := by
    simp [sentWord, out, USBPacketizer.out, h]
  unfold StepsPacket
  rw [hpopped, hsent]
  cases hready : i.sourceReady with
  | false =>
    refine ⟨[], _, [], by simp, ?_, by simp; rfl, by simp⟩
    simp [InPacket, next, USBPacketizer.next, h, hready, Serializer.sinkReady,
      C.Packetizer.HeaderUnpack.pos_next, hpos]
  | true =>
    by_cases htwo : C.Packetizer.HeaderUnpack.pos s.packetizer.headerUnpack = 2
    · -- the length word: the sender is in a burst and stands still
      have htransfer := hlive h htwo hready
      obtain ⟨hfsm, hcount⟩ := WrapSender.next_hold htransfer i.sinkValid i.sinkData
      refine ⟨[], headerOf C.Sender.identifier (WrapSender.beatsLeft s.sender.count), [],
        by simp, ?_, ?_, by simp⟩
      · have hburst := hInv.burst htransfer
        have hbounded := hInv.bounded
        simp only [InPacket, next, USBPacketizer.next, h, hready, huser, hfsm, hcount,
          Serializer.sinkReady, C.Packetizer.HeaderUnpack.pos_next, htwo]
        simp
        omega
      · simp only [htwo, USBPacketizer.headerWord, USBPacketizer.header, WrapSender.source,
          htransfer, WrapSender.length_eq]
        rfl
    · have hlt : C.Packetizer.HeaderUnpack.pos s.packetizer.headerUnpack < 2 := by omega
      have hpart := part_insertHeader rfl hlt (WrapSender.source s.sender)
        (by unfold WrapSender.source; cases s.sender.fsm <;> rfl)
      refine ⟨[], _, [], by simp, ?_, by simpa using hpart, by simp⟩
      simp [InPacket, next, USBPacketizer.next, h, hready, Serializer.sinkReady,
        C.Packetizer.HeaderUnpack.pos_next, htwo]
      omega

theorem step_copy {s : State C} (h : s.packetizer.fsm = .copy) (i : In)
    (hInv : WrapSender.Inv s.sender) {part sent : List (BitVec 32)}
    (hin : InPacket s part sent) : StepsPacket s i part sent := by
  simp only [InPacket, h] at hin
  obtain ⟨hpos, htransfer, hle, rfl⟩ := hin
  have hvalid := WrapSender.valid_of_transfer hInv htransfer
  have hlast : (WrapSender.source s.sender).last = (s.sender.count == 1) := by
    simp [WrapSender.source, htransfer]
  have huser := userReady_of_copy h i
  have hpopped : poppedWord (i, out s i) =
      beat true i.sourceReady (WrapSender.source s.sender).data := by
    rw [poppedWord, huser, ← hvalid]
    rfl
  have hsent : sentWord (i, out s i) =
      beat true i.sourceReady (WrapSender.source s.sender).data := by
    simp [sentWord, out, USBPacketizer.out, h, hvalid]
  unfold StepsPacket
  rw [hpopped, hsent]
  cases hready : i.sourceReady with
  | false =>
    obtain ⟨hfsm, hcount⟩ := WrapSender.next_hold htransfer i.sinkValid i.sinkData
    refine ⟨[], _, sent, by simp, ?_, by simp; rfl, by simp⟩
    simp [InPacket, next, USBPacketizer.next, h, hready, huser, hfsm, hcount,
      C.Packetizer.HeaderUnpack.pos_next, hpos, hle]
  | true =>
    by_cases hone : s.sender.count = 1
    · -- the last word completes the packet
      rw [hone, WrapSender.beatsLeft_one] at hle ⊢
      refine ⟨[sent ++ [(WrapSender.source s.sender).data]], [], [], ?_, ?_, ?_, by simp⟩
      · simp only [List.mem_singleton, IsBurst]
        rintro p rfl
        simp only [List.length_append, List.length_singleton]
        omega
      · simp [InPacket, next, USBPacketizer.next, h, hready, hvalid, hlast, hone,
          C.Packetizer.HeaderUnpack.pos_next, hpos]
      · simp [packet]
    · obtain ⟨hfsm, hcount⟩ :=
        WrapSender.next_more hInv htransfer hone i.sinkValid i.sinkData
      have hcurrent : (sent ++ [(WrapSender.source s.sender).data]).length +
          WrapSender.beatsLeft
            (WrapSender.next s.sender i.sinkValid i.sinkData true).count =
          sent.length + WrapSender.beatsLeft s.sender.count := by
        simp only [List.length_append, List.length_singleton]
        omega
      refine ⟨[], _, sent ++ [(WrapSender.source s.sender).data], by simp, ?_,
        by simp; rfl, by simp⟩
      have hmore : (WrapSender.source s.sender).last = false := by
        rw [hlast]
        exact beq_false_of_ne hone
      simp only [InPacket, next, USBPacketizer.next, h, hready, huser, hmore, hfsm,
        C.Packetizer.HeaderUnpack.pos_next, hpos, hcurrent]
      simp [hle]

/-! ## Whole runs -/

/-- What the packetizer has sent is whole packets and a part of one more, and the
words that have left the buffer are their payloads. -/
def Framed (s : State C) (tr : List (In × Out)) : Prop :=
  ∃ done part sent, (∀ p ∈ done, IsBurst C p) ∧ InPacket s part sent ∧
    moved sentWord tr = packets C.Sender.identifier done ++ part ∧
    moved poppedWord tr = done.flatten ++ sent

theorem framed_init : Framed (init : State C) [] := by
  refine ⟨[], [], [], by simp, ?_, by simp, by simp⟩
  simp [InPacket, init, USBPacketizer.init, C.Packetizer.HeaderUnpack.pos_init]

theorem stepsPacket {s : State C} (i : In) (hInv : WrapSender.Inv s.sender)
    (hlive : LengthLive s i) {part sent : List (BitVec 32)} (hin : InPacket s part sent) :
    StepsPacket s i part sent := by
  cases h : s.packetizer.fsm with
  | idle => exact step_idle h i hin
  | insertHeader => exact step_insertHeader h i hInv hlive hin
  | copy => exact step_copy h i hInv hin

theorem framed_next {s : State C} {tr : List (In × Out)} (i : In)
    (hInv : WrapSender.Inv s.sender) (hlive : LengthLive s i) (h : Framed s tr) :
    Framed (next s i) (tr ++ [(i, out s i)]) := by
  obtain ⟨done, part, sent, hdone, hin, hsent, hpopped⟩ := h
  obtain ⟨more, part', sent', hmore, hin', hpart', hsent'⟩ := stepsPacket i hInv hlive hin
  refine ⟨done ++ more, part', sent', ?_, hin', ?_, ?_⟩
  · intro p hp
    rcases List.mem_append.mp hp with hp | hp
    · exact hdone p hp
    · exact hmore p hp
  · rw [moved_append, moved_singleton, hsent, List.append_assoc, hpart', packets_append,
      List.append_assoc]
  · rw [moved_append, moved_singleton, hpopped, List.append_assoc, hsent',
      List.flatten_append, List.append_assoc]

/-- Without a reset the sender is in a burst from the first word of the header to
the last word of the payload. -/
def Busy (s : State C) : Prop := s.packetizer.fsm ≠ .idle → s.sender.fsm = .transfer

theorem Busy.lengthLive {s : State C} (h : Busy s) (i : In) : LengthLive s i := by
  intro hfsm _ _
  exact h (by simp [hfsm])

theorem busy_next {s : State C} (i : In) (hInv : WrapSender.Inv s.sender) (h : Busy s) :
    Busy (next s i) := by
  unfold Busy
  cases hfsm : s.packetizer.fsm with
  | idle =>
    have hnot : s.packetizer.fsm ≠ .copy := by simp [hfsm]
    have huser := userReady_of_not_copy hnot i
    simp only [next, USBPacketizer.next, hfsm, huser]
    cases hsender : s.sender.fsm with
    | buffer => simp [WrapSender.source, hsender]
    | transfer => exact fun _ => (WrapSender.next_hold hsender _ _).1
  | insertHeader =>
    have hnot : s.packetizer.fsm ≠ .copy := by simp [hfsm]
    have huser := userReady_of_not_copy hnot i
    have htransfer := h (by simp [hfsm])
    simp only [next, huser]
    exact fun _ => (WrapSender.next_hold htransfer _ _).1
  | copy =>
    have huser := userReady_of_copy hfsm i
    have htransfer := h (by simp [hfsm])
    have hvalid := WrapSender.valid_of_transfer hInv htransfer
    simp only [next, USBPacketizer.next, hfsm, huser]
    cases hready : i.sourceReady with
    | false => exact fun _ => (WrapSender.next_hold htransfer _ _).1
    | true =>
      by_cases hone : s.sender.count = 1
      · have hlast : (WrapSender.source s.sender).last = true := by
          simp [WrapSender.source, htransfer, hone]
        simp [hvalid, hlast]
      · exact fun _ => (WrapSender.next_more hInv htransfer hone _ _).1

/-- The words accepted into the buffer are those that have left it and those that it
still holds. -/
def Buffered (s : State C) (tr : List (In × Out)) : Prop :=
  moved acceptedWord tr = moved poppedWord tr ++ C.Sender.Buf.contents s.sender.buf

theorem beat_popped (s : State C) (i : In) :
    beat (C.Sender.Buf.readable s.sender.buf)
      (WrapSender.bufReady s.sender (out s i).userReady) (C.Sender.Buf.dout s.sender.buf) =
      poppedWord (i, out s i) := by
  unfold poppedWord WrapSender.bufReady
  cases hfsm : s.sender.fsm <;> simp [out, WrapSender.source, hfsm]

theorem buffered_next {s : State C} {tr : List (In × Out)} (i : In) (h : Buffered s tr) :
    Buffered (next s i) (tr ++ [(i, out s i)]) := by
  unfold Buffered at h ⊢
  have hbuf := C.Sender.Buf.queueStep s.sender.buf i.sinkValid i.sinkData
    (WrapSender.bufReady s.sender (out s i).userReady)
  rw [beat_popped] at hbuf
  unfold QueueStep at hbuf
  simp only [moved_append, moved_singleton, h, List.append_assoc, next, WrapSender.next_buf]
  rw [← hbuf]
  rfl

/-- The buffer of the sender is a queue. -/
theorem refinesQueue : RefinesQueue (machine C) (fun _ _ => True) (fun _ => True)
    (fun s => C.Sender.Buf.contents s.sender.buf) acceptedWord poppedWord where
  inv _ _ _ _ := trivial
  step s i _ _ := by
    have hbuf := C.Sender.Buf.queueStep s.sender.buf i.sinkValid i.sinkData
      (WrapSender.bufReady s.sender (out s i).userReady)
    rw [beat_popped] at hbuf
    exact (WrapSender.next_buf s.sender i.sinkValid i.sinkData (out s i).userReady).symm ▸ hbuf

/-! ## The packet that is being sent -/

/-- The words in the buffer complete the packet that has begun. -/
def Completes (s : State C) (part sent cur : List (BitVec 32)) : Prop :=
  part = (packet C.Sender.identifier cur).take part.length ∧
    sent = cur.take (part.length - 3) ∧
    cur.drop (part.length - 3) <+: C.Sender.Buf.contents s.sender.buf ∧
    (0 < part.length → IsBurst C cur)

theorem exists_completes {s : State C} (hInv : WrapSender.Inv s.sender) (hbusy : Busy s)
    {part sent : List (BitVec 32)} (hin : InPacket s part sent) :
    ∃ cur, Completes s part sent cur := by
  have hbounded := hInv.bounded
  have hpos := WrapSender.beatsLeft_pos s.sender.count
  cases hfsm : s.packetizer.fsm with
  | idle =>
    simp only [InPacket, hfsm] at hin
    obtain ⟨-, rfl, rfl⟩ := hin
    exact ⟨[], by simp [Completes]⟩
  | insertHeader =>
    have hburst := hInv.burst (hbusy (by simp [hfsm]))
    simp only [InPacket, hfsm] at hin
    obtain ⟨hlt, rfl, rfl⟩ := hin
    generalize C.Packetizer.HeaderUnpack.pos s.packetizer.headerUnpack = pos at hlt ⊢
    refine ⟨(C.Sender.Buf.contents s.sender.buf).take (WrapSender.beatsLeft s.sender.count),
      ?_, ?_, ?_, fun _ => ?_⟩
    · rcases (by omega : pos = 0 ∨ pos = 1 ∨ pos = 2) with rfl | rfl | rfl <;> rfl
    · simp only [List.length_take, List.length_cons, List.length_nil]
      rw [show min pos (0 + 1 + 1) - 3 = 0 by omega, List.take_zero]
    · simp only [List.length_take, List.length_cons, List.length_nil]
      rw [show min pos (0 + 1 + 1) - 3 = 0 by omega, List.drop_zero]
      exact List.take_prefix _ _
    · simp only [IsBurst, List.length_take]
      omega
  | copy =>
    have hburst := hInv.burst (hbusy (by simp [hfsm]))
    simp only [InPacket, hfsm] at hin
    obtain ⟨-, -, hle, rfl⟩ := hin
    have hlen : (headerOf C.Sender.identifier
        (sent.length + WrapSender.beatsLeft s.sender.count) ++ sent).length =
        3 + sent.length := by
      simp only [headerOf, List.length_append, List.length_cons, List.length_nil]
    have hcur : (sent ++ (C.Sender.Buf.contents s.sender.buf).take
        (WrapSender.beatsLeft s.sender.count)).length =
        sent.length + WrapSender.beatsLeft s.sender.count := by
      simp only [List.length_append, List.length_take]
      omega
    refine ⟨sent ++ (C.Sender.Buf.contents s.sender.buf).take
      (WrapSender.beatsLeft s.sender.count), ?_, ?_, ?_, fun _ => ?_⟩
    · rw [hlen, packet_take, hcur, List.take_left]
    · rw [hlen, Nat.add_sub_cancel_left, List.take_left]
    · rw [hlen, Nat.add_sub_cancel_left, List.drop_left]
      exact List.take_prefix _ _
    · unfold IsBurst
      rw [hcur]
      omega

/-- The words sent are whole packets `done` and the first `k` words of the packet of
`cur`; the words accepted are their payloads, as far as they are sent, and what the
buffer holds, which begins with the rest of `cur`. -/
def Delivered (s : State C) (tr : List (In × Out)) : Prop :=
  ∃ (done : List (List (BitVec 32))) (cur : List (BitVec 32)) (k : Nat),
    moved sentWord tr =
      packets C.Sender.identifier done ++ (packet C.Sender.identifier cur).take k ∧
    moved acceptedWord tr =
      done.flatten ++ cur.take (k - 3) ++ C.Sender.Buf.contents s.sender.buf ∧
    cur.drop (k - 3) <+: C.Sender.Buf.contents s.sender.buf ∧
    (∀ p ∈ done, IsBurst C p) ∧ (0 < k → IsBurst C cur)

/-- **The stream is framed and carries the words of the buffer.**  At every cycle of
every run what the packetizer has sent is a prefix of a concatenation of packets whose
payloads are the words accepted, and a sender in TRANSFER has the words up to the last
one of its burst in the buffer. -/
theorem delivered (is : List In) :
    let s := (machine C).run init is
    Delivered s ((machine C).trace init is) ∧
      (s.sender.fsm = .transfer → (WrapSender.source s.sender).valid = true ∧
        WrapSender.beatsLeft s.sender.count ≤
          (C.Sender.Buf.contents s.sender.buf).length) := by
  intro s
  have hrun := (machine C).history_induction_always
    (fun s tr => WrapSender.Inv s.sender ∧ Busy s ∧ Framed s tr ∧ Buffered s tr)
    ⟨WrapSender.inv_init, by simp [Busy, init, USBPacketizer.init], framed_init,
      by simp [Buffered, init, WrapSender.init, C.Sender.Buf.contents_init]⟩
    (by
      rintro s tr i ⟨hInv, hbusy, hframed, hbuffered⟩
      exact ⟨WrapSender.inv_next hInv _ _ _, busy_next i hInv hbusy,
        framed_next i hInv (hbusy.lengthLive i) hframed, buffered_next i hbuffered⟩)
    is
  obtain ⟨hInv, hbusy, ⟨done, part, sent, hdone, hin, hsent, hpopped⟩, hbuffered⟩ := hrun
  obtain ⟨cur, hpart, htake, hrest, hburst⟩ := exists_completes hInv hbusy hin
  refine ⟨⟨done, cur, part.length, ?_, ?_, hrest, hdone, hburst⟩, fun htransfer => ?_⟩
  · rw [hsent, ← hpart]
  · rw [hbuffered, hpopped, ← htake]
  · exact ⟨WrapSender.valid_of_transfer hInv htransfer, hInv.burst htransfer⟩

end UsbSniffer.Usb.Framing
