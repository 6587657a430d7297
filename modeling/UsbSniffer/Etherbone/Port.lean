/-
  Etherbone/Port.lean --- the whole core as a user of the USB link
  (gateware/etherbone.py, EtherbonePacketTX behind Etherbone).

  The packetizer of the link reads the length of a packet before it takes a word of it, so
  it needs the first word on offer until it is taken, and as many words behind it as were
  announced.  The gate in EtherbonePacketTX provides for the one.  For the other, a history
  is kept beside the core: the words left of the packet that has begun.
-/
import UsbSniffer.Etherbone.Whole
import UsbSniffer.Usb.Crossbar

set_option autoImplicit false

namespace UsbSniffer.Etherbone

open UsbSniffer.Sync

/-! ## Behind the gate -/

/-- A packet each of whose words says where it goes to and how many bytes it has. -/
structure Announced (dst : BitVec 8) (longest : Nat) (q : List UserBeat) : Prop where
  packet : IsPacket UserBeat.last q
  short : q.length ≤ longest
  beats : ∀ x ∈ q, x.dst = dst ∧ x.length = BitVec.ofNat 32 (4 * q.length)

/-- The words left of a packet, when one of them has been taken. -/
def leftBehind (count : Nat) (x : UserBeat) : Nat :=
  (if count = 0 then x.length.toNat / 4 else count) - 1

/-- The words left of the packet in the gate, with `x` in front of it. -/
def leftInGate (fsm : EtherbonePacketTX.Fsm) (count : Nat) (x : UserBeat) : Nat :=
  match fsm with
  | .idle => 0
  | .send => if count = 0 then x.length.toNat / 4 else count

/-- Where the gate is in the packets that go out: in front of one, or with the first word of
one on offer, or in one of which `count` words are left. -/
inductive InGate (dst : BitVec 8) (longest : Nat) :
    EtherbonePacketTX.Fsm → Nat → Chan UserBeat → Prop
  | idle {ps : List (List UserBeat)} (hps : ∀ p ∈ ps, Announced dst longest p) :
      InGate dst longest .idle 0 ⟨ps.flatten, false⟩
  | begins {q : List UserBeat} {ps : List (List UserBeat)} (hq : Announced dst longest q)
      (hps : ∀ p ∈ ps, Announced dst longest p) :
      InGate dst longest .send 0 ⟨q ++ ps.flatten, true⟩
  | goes {q : List UserBeat} {ps : List (List UserBeat)} {held : Bool}
      (hq : IsPacket UserBeat.last q) (hshort : q.length ≤ longest)
      (hps : ∀ p ∈ ps, Announced dst longest p) :
      InGate dst longest .send q.length ⟨q ++ ps.flatten, held⟩

/-- A word is the last one of its packet when no other is left. -/
theorem last_of_packet {x : UserBeat} {q : List UserBeat} (h : IsPacket UserBeat.last (x :: q)) :
    x.last = decide ((x :: q).length = 1) := by
  cases q with
  | nil => exact h
  | cons y q => exact h.1.trans (by simp)

namespace Announced

variable {dst : BitVec 8} {longest : Nat} {x : UserBeat} {q : List UserBeat}

/-- The length that is announced is that of the packet. -/
theorem length_eq (h : Announced dst longest (x :: q)) (hfits : 4 * longest < 2 ^ 32) :
    x.length.toNat / 4 = (x :: q).length := by
  have hshort := h.short
  rw [(h.beats x (List.mem_cons_self ..)).2, BitVec.toNat_ofNat, Nat.mod_eq_of_lt (by omega)]
  omega

end Announced

/-- The gate is open in front of the rest `q` of a packet. -/
structure Sending (longest count : Nat) (d : Chan UserBeat) (v : Bool) (x : UserBeat)
    (q : List UserBeat) : Prop where
  packet : IsPacket UserBeat.last q
  short : q.length ≤ longest
  left : leftInGate .send count x = q.length
  front : v = true → ∃ xs, q = x :: xs
  fresh : count = 0 → d.held = true ∧ v = true ∧ x.length = BitVec.ofNat 32 (4 * q.length)

namespace InGate

variable {dst : BitVec 8} {longest count : Nat} {fsm : EtherbonePacketTX.Fsm} {d : Chan UserBeat}
  {v : Bool} {x : UserBeat}

/-- What is on offer is the front of the packet in the gate. -/
theorem front_eq {q : List UserBeat} {ps : List (List UserBeat)} {held : Bool}
    (hq : IsPacket UserBeat.last q) (hv : (⟨q ++ ps.flatten, held⟩ : Chan UserBeat).Offers v x)
    (hvalid : v = true) : ∃ xs, q = x :: xs := by
  obtain ⟨y, q, rfl⟩ := List.exists_cons_of_ne_nil hq.ne_nil
  exact ⟨q, by rw [Option.some.inj (hv.front hvalid)]⟩

/-- The gate is closed, or there is a packet in it. -/
theorem idle_or_sending (h : InGate dst longest fsm count d) (hfits : 4 * longest < 2 ^ 32)
    (hv : d.Offers v x) :
    (fsm = .idle ∧ count = 0) ∨ (fsm = .send ∧ ∃ q, Sending longest count d v x q) := by
  cases h with
  | idle hps => exact Or.inl ⟨rfl, rfl⟩
  | @begins q ps hq hps =>
    have hvalid : v = true := hv.kept rfl
    obtain ⟨xs, rfl⟩ := front_eq hq.packet hv hvalid
    have hlength := (hq.beats x (List.mem_cons_self ..)).2
    exact Or.inr ⟨rfl, _, hq.packet, hq.short, hq.length_eq hfits, fun _ => ⟨xs, rfl⟩,
      fun _ => ⟨rfl, hvalid, hlength⟩⟩
  | @goes q ps held hq hshort hps =>
    have hne : q.length ≠ 0 := fun hzero => hq.ne_nil (List.length_eq_zero_iff.mp hzero)
    exact Or.inr ⟨rfl, q, hq, hshort, if_neg hne, front_eq hq hv, fun hzero => absurd hzero hne⟩

/-- Behind the gate a word is only on offer when it is open. -/
theorem send_of_valid (hvalid : EtherbonePacketTX.sourceValid fsm v = true) :
    fsm = .send ∧ v = true := by
  cases fsm with
  | idle => cases hvalid
  | send => exact ⟨rfl, hvalid⟩

/-- A word that is on offer behind the gate is the front of a packet. -/
theorem sending_of_valid (h : InGate dst longest fsm count d) (hfits : 4 * longest < 2 ^ 32)
    (hv : d.Offers v x) (hvalid : EtherbonePacketTX.sourceValid fsm v = true) :
    fsm = .send ∧ ∃ xs, Sending longest count d v x (x :: xs) := by
  obtain ⟨rfl, rfl⟩ := send_of_valid hvalid
  rcases h.idle_or_sending hfits hv with ⟨hidle, -⟩ | ⟨-, q, hq⟩
  · cases hidle
  · obtain ⟨xs, rfl⟩ := hq.front rfl
    exact ⟨rfl, xs, hq⟩

theorem left_pos (h : InGate dst longest fsm count d) (hfits : 4 * longest < 2 ^ 32)
    (hv : d.Offers v x) (hvalid : EtherbonePacketTX.sourceValid fsm v = true) :
    0 < leftInGate fsm count x := by
  obtain ⟨rfl, xs, hq⟩ := h.sending_of_valid hfits hv hvalid
  rw [hq.left]
  exact Nat.succ_pos _

/-- No more words are left than a packet has. -/
theorem left_le (h : InGate dst longest fsm count d) (hfits : 4 * longest < 2 ^ 32)
    (hv : d.Offers v x) : leftInGate fsm count x ≤ longest := by
  rcases h.idle_or_sending hfits hv with ⟨rfl, -⟩ | ⟨rfl, q, hq⟩
  · exact Nat.zero_le _
  · rw [hq.left]
    exact hq.short

/-- Until its first word is taken, a packet is on offer, and its length is on the wires. -/
theorem of_fresh (h : InGate dst longest fsm count d) (hfits : 4 * longest < 2 ^ 32)
    (hv : d.Offers v x) (hleft : 0 < leftInGate fsm count x) (hfresh : count = 0) :
    d.held = true ∧ v = true ∧ x.length = BitVec.ofNat 32 (4 * leftInGate fsm count x) := by
  rcases h.idle_or_sending hfits hv with ⟨rfl, -⟩ | ⟨rfl, q, hq⟩
  · cases hleft
  · rw [hq.left]
    exact hq.fresh hfresh

/-- The last word of a packet is the one that is left. -/
theorem last_eq (h : InGate dst longest fsm count d) (hfits : 4 * longest < 2 ^ 32)
    (hv : d.Offers v x) (hvalid : EtherbonePacketTX.sourceValid fsm v = true) :
    x.last = decide (leftInGate fsm count x = 1) := by
  obtain ⟨rfl, xs, hq⟩ := h.sending_of_valid hfits hv hvalid
  rw [hq.left]
  exact last_of_packet hq.packet

/-- With nothing left the gate waits for a packet. -/
theorem idle_of_left (h : InGate dst longest fsm count d) (hfits : 4 * longest < 2 ^ 32)
    (hv : d.Offers v x) (hleft : leftInGate fsm count x = 0) : fsm = .idle ∧ count = 0 := by
  rcases h.idle_or_sending hfits hv with hidle | ⟨rfl, q, hq⟩
  · exact hidle
  · rw [hq.left] at hleft
    exact absurd (List.length_eq_zero_iff.mp hleft) hq.packet.ne_nil

/-- Where a packet is left when the word in front of it is taken. -/
theorem of_taken {q : List UserBeat} {ps : List (List UserBeat)}
    (hq : IsPacket UserBeat.last (x :: q)) (hshort : (x :: q).length ≤ longest)
    (hps : ∀ p ∈ ps, Announced dst longest p) :
    InGate dst longest (EtherbonePacketTX.next .send true x true) q.length
      ⟨q ++ ps.flatten, false⟩ := by
  cases q with
  | nil =>
    have hlast : x.last = true := hq
    simp only [EtherbonePacketTX.next, hlast]
    exact .idle hps
  | cons y q =>
    have hmore : x.last = false := hq.1
    simp only [EtherbonePacketTX.next, hmore]
    exact .goes hq.2 (Nat.le_of_succ_le hshort) hps

/-- The gate stays open while its word is not taken. -/
theorem next_stalled (x : UserBeat) : EtherbonePacketTX.next .send true x false = .send := by
  simp [EtherbonePacketTX.next]

/-- A cycle of the gate. -/
theorem next (h : InGate dst longest fsm count d) (hfits : 4 * longest < 2 ^ 32)
    (hv : d.Offers v x) (ready : Bool) :
    InGate dst longest (EtherbonePacketTX.next fsm v x ready)
      (if EtherbonePacketTX.sourceValid fsm v && ready then leftBehind count x else count)
      (d.next v (EtherbonePacketTX.sinkReady fsm v ready)) := by
  cases h with
  | @idle ps hps =>
    cases v with
    | false => exact .idle hps
    | true =>
      -- the gate opens in front of the first packet, and its word stays on offer
      cases ps with
      | nil => cases hv.front rfl
      | cons q ps =>
        obtain ⟨hq, hps⟩ := List.forall_mem_cons.mp hps
        exact .begins hq hps
  | @begins q ps hq hps =>
    obtain rfl : v = true := hv.kept rfl
    obtain ⟨xs, rfl⟩ := front_eq hq.packet hv rfl
    cases ready with
    | false =>
      rw [next_stalled]
      exact .begins hq hps
    | true =>
      have hcount : leftBehind 0 x = xs.length :=
        congrArg (· - 1) (hq.length_eq hfits)
      simp only [EtherbonePacketTX.sourceValid, Bool.and_self, if_true, hcount]
      exact of_taken hq.packet hq.short hps
  | @goes q ps held hq hshort hps =>
    cases v with
    | false => exact .goes hq hshort hps
    | true =>
      obtain ⟨xs, rfl⟩ := front_eq hq hv rfl
      cases ready with
      | false =>
        rw [next_stalled]
        exact .goes hq hshort hps
      | true =>
        have hcount : leftBehind (x :: xs).length x = xs.length := rfl
        simp only [EtherbonePacketTX.sourceValid, Bool.and_self, if_true, hcount]
        exact of_taken hq hshort hps

end InGate

/-! ## The port -/

/-- A core up to the gate of its transmitter, in front of what comes in, such that what it
offers in a run are packets of which each one is announced. -/
structure Port (ε α β : Type) [Inhabited α] where
  Front : Stage ε α β
  Packetizer : Stage ε β UserBeat
  start : (Front.comp Packetizer).State × Chan α
  dst : BitVec 8
  longest : Nat
  dst_eq : ∀ s x, (Packetizer.source s x).dst = dst
  fits : 4 * longest < 2 ^ 32
  announces : ∀ is, ∃ packets : List (List UserBeat), (∀ q ∈ packets, Announced dst longest q) ∧
    (Chan.start packets.flatten).Follows
      (((Front.comp Packetizer).driven.trace start is).map Stage.handshake)

namespace Port

open Stage

variable {ε α β : Type} [Inhabited α] (K : Port ε α β)

/-- What is in front of the gate. -/
def front : Stage ε α UserBeat := K.Front.comp K.Packetizer

/-- The core, with its gate. -/
def stage : Stage ε α UserBeat := K.Front.comp (K.Packetizer.comp (EtherbonePacketTX.gate ε))

/-- The part in front of the gate before the first cycle. -/
def atStart : K.front.State × Chan α := K.start

/-- The handshakes in front of the gate in a run. -/
def handshakes (is : List (Drive ε)) : List (Bool × Bool × UserBeat) :=
  (K.front.driven.trace K.atStart is).map handshake

theorem handshakes_concat (is : List (Drive ε)) (i : Drive ε) :
    K.handshakes (is ++ [i]) = K.handshakes is ++
      [handshake (i, K.front.driven.out (K.front.driven.run K.atStart is) i)] := by
  unfold handshakes
  rw [Machine.trace_append, List.map_append]
  rfl

/-- The registers, and the words left of the packet that has begun. -/
structure State where
  core : K.stage.State × Chan α
  count : Nat

variable {K}

/-- The state of the last block of the core. -/
def fsm (s : K.State) : EtherbonePacketTX.Fsm := s.core.1.2.2

/-- The part in front of the gate. -/
def inner (s : K.State) : K.front.State × Chan α := ((s.core.1.1, s.core.1.2.1), s.core.2)

/-- A cycle of the core: whether a beat is offered to it, its environment, and `ready`. -/
def drive (i : Bool × ε) (ready : Bool) : Drive ε := ⟨i.1, i.2, ready⟩

/-- The wires of the core in a cycle. -/
def wires (s : K.State) (i : Bool × ε) (ready : Bool) : Wires α UserBeat :=
  K.stage.driven.out s.core (drive i ready)

/-- The word in the gate, on offer or not. -/
def word (s : K.State) : UserBeat := K.stage.source s.core.1 (Stage.front s.core.2)

/-- The word is on offer in front of the gate. -/
def valid (s : K.State) (i : Bool × ε) : Bool :=
  K.front.sourceValid (inner s).1 (offered s.core.2 i.1) (Stage.front s.core.2)

/-- `source` of the core as a user of the crossbar. -/
def source (s : K.State) (i : Bool × ε) : Usb.UserSource where
  valid := EtherbonePacketTX.sourceValid (fsm s) (valid s i)
  last := (word s).last
  dst := (word s).dst
  length := (word s).length
  data := (word s).data

/-- The clock edge, at which a word that is taken is counted. -/
def next (s : K.State) (i : Bool × ε) (ready : Bool) : K.State where
  core := K.stage.driven.next s.core (drive i ready)
  count := if (source s i).valid && ready then leftBehind s.count (word s) else s.count

/-- The words left of the packet in the gate. -/
def left (s : K.State) : Nat := leftInGate (fsm s) s.count (word s)

/-! ## In front of the gate -/

/-- The cycle of the part in front of the gate. -/
def innerDrive (s : K.State) (i : Bool × ε) (ready : Bool) : Drive ε :=
  ⟨i.1, i.2, EtherbonePacketTX.sinkReady (fsm s) (valid s i) ready⟩

theorem inner_next (s : K.State) (i : Bool × ε) (ready : Bool) :
    inner (next s i ready) = K.front.driven.next (inner s) (innerDrive s i ready) := rfl

theorem handshake_inner (s : K.State) (i : Bool × ε) (ready : Bool) :
    handshake (innerDrive s i ready, K.front.driven.out (inner s) (innerDrive s i ready)) =
      (valid s i, EtherbonePacketTX.sinkReady (fsm s) (valid s i) ready, word s) := rfl

theorem fsm_next (s : K.State) (i : Bool × ε) (ready : Bool) :
    fsm (next s i ready) = EtherbonePacketTX.next (fsm s) (valid s i) (word s) ready := rfl

/-- Some run has led to these registers, and whatever packets it is the beginning of, the
gate is at this place in them. -/
def Inv (s : K.State) : Prop :=
  ∃ is, K.front.driven.run K.atStart is = inner s ∧
    ∀ packets : List (List UserBeat), (∀ q ∈ packets, Announced K.dst K.longest q) →
      (Chan.start packets.flatten).Follows (K.handshakes is) →
      InGate K.dst K.longest (fsm s) s.count
        ((Chan.start packets.flatten).after (K.handshakes is))

theorem inv_next {s : K.State} (h : Inv s) (i : Bool × ε) (ready : Bool) :
    Inv (next s i ready) := by
  obtain ⟨is, hrun, hgate⟩ := h
  refine ⟨is ++ [innerDrive s i ready], ?_, fun packets hpackets hfollows => ?_⟩
  · rw [Machine.run_append, hrun, inner_next]
    rfl
  · rw [handshakes_concat, hrun, handshake_inner] at hfollows ⊢
    rw [Chan.follows_append] at hfollows
    rw [Chan.after_append]
    exact (hgate packets hpackets hfollows.1).next K.fits hfollows.2.1 ready

/-- In the next two cycles the gate is in keeping with some packets. -/
theorem exists_inGate {s : K.State} (h : Inv s) (i : Bool × ε) (ready : Bool) (j : Bool × ε) :
    ∃ d, InGate K.dst K.longest (fsm s) s.count d ∧ d.Offers (valid s i) (word s) ∧
      (d.next (valid s i) (EtherbonePacketTX.sinkReady (fsm s) (valid s i) ready)).Offers
        (valid (next s i ready) j) (word (next s i ready)) := by
  obtain ⟨is, hrun, hgate⟩ := h
  have hrun' : K.front.driven.run K.atStart (is ++ [innerDrive s i ready]) =
      inner (next s i ready) := by
    rw [Machine.run_append, hrun, inner_next]
    rfl
  obtain ⟨packets, hpackets, hfollows⟩ :=
    K.announces ((is ++ [innerDrive s i ready]) ++ [innerDrive (next s i ready) j true])
  change (Chan.start packets.flatten).Follows (K.handshakes _) at hfollows
  rw [handshakes_concat, hrun', handshake_inner, handshakes_concat, hrun, handshake_inner,
    List.append_assoc, Chan.follows_append] at hfollows
  exact ⟨_, hgate packets hpackets hfollows.1, hfollows.2.1, hfollows.2.2.1⟩

/-! ## The contract of the link -/

theorem exists_inGate_now {s : K.State} (h : Inv s) (i : Bool × ε) :
    ∃ d, InGate K.dst K.longest (fsm s) s.count d ∧ d.Offers (valid s i) (word s) := by
  obtain ⟨d, hgate, hv, -⟩ := exists_inGate h i true i
  exact ⟨d, hgate, hv⟩

/-- The words left of the packet are those that the packet in the gate has. -/
theorem left_next {s : K.State} (h : Inv s) {i : Bool × ε} (hvalid : (source s i).valid = true)
    (hmore : 1 < left s) : left (next s i true) + 1 = left s := by
  obtain ⟨d, hgate, hv⟩ := exists_inGate_now h i
  have hlast := hgate.last_eq K.fits hv hvalid
  obtain ⟨hfsm, hoffer⟩ := InGate.send_of_valid hvalid
  have hnot : (word s).last = false := hlast.trans (decide_eq_false (by change left s ≠ 1; omega))
  have hleft : left s = if s.count = 0 then (word s).length.toNat / 4 else s.count := by
    rw [left, hfsm]
    rfl
  have hcount : (next s i true).count = left s - 1 := by
    change (if (source s i).valid && true then leftBehind s.count (word s) else s.count) = _
    rw [hvalid, Bool.and_self, if_pos rfl, hleft]
    rfl
  have hnext : fsm (next s i true) = .send := by
    rw [fsm_next, hfsm, hoffer]
    simp [EtherbonePacketTX.next, hnot]
  rw [left, hnext, leftInGate, hcount, if_neg (by omega)]
  omega

/-- While no word is taken, the packet in the gate stays. -/
theorem left_hold {s : K.State} (h : Inv s) {i : Bool × ε} {ready : Bool} (hleft : 0 < left s)
    (hquiet : ((source s i).valid && ready) = false) :
    left (next s i ready) = left s ∧ (next s i ready).count = s.count := by
  obtain ⟨d, hgate, hv, hv'⟩ := exists_inGate h i ready i
  have hcount : (next s i ready).count = s.count := by
    change (if (source s i).valid && ready then _ else s.count) = _
    rw [hquiet]
    rfl
  have hfsm : fsm s = .send := by
    cases hfsm : fsm s with
    | idle =>
      rw [left, hfsm] at hleft
      cases hleft
    | send => rfl
  have hfire : (valid s i && ready) = false := by
    change (EtherbonePacketTX.sourceValid (fsm s) (valid s i) && ready) = false at hquiet
    rwa [hfsm] at hquiet
  have hnext : fsm (next s i ready) = .send := by
    rw [fsm_next, hfsm]
    simp [EtherbonePacketTX.next, Bool.and_right_comm, hfire]
  refine ⟨?_, hcount⟩
  rw [left, left, hnext, hfsm, hcount, leftInGate, leftInGate]
  by_cases hfresh : s.count = 0
  · -- the first word of the packet is on offer, and stays there
    obtain ⟨hheld, hoffer, -⟩ := hgate.of_fresh K.fits hv hleft hfresh
    rw [hoffer, Bool.true_and] at hfire
    rw [hoffer] at hv
    rw [hoffer, hfsm, hfire] at hv'
    have hsame : word (next s i false) = word s :=
      Option.some.inj ((hv'.front (hv'.kept rfl)).symm.trans (hv.front rfl))
    rw [hfire, hsame]
  · rw [if_neg hfresh, if_neg hfresh]

/-- Behind the last word of a packet, and in front of the first one, none has begun. -/
theorem fresh_next {s : K.State} (h : Inv s) {i : Bool × ε} {ready : Bool}
    (hend : left s = 0 ∨ ((source s i).valid = true ∧ ready = true ∧ left s = 1)) :
    left (next s i ready) = 0 ∨ (next s i ready).count = 0 := by
  obtain ⟨d, hgate, hv⟩ := exists_inGate_now h i
  rcases hend with hnone | ⟨hvalid, rfl, hone⟩
  · obtain ⟨hidle, hcount⟩ := hgate.idle_of_left K.fits hv hnone
    right
    change (if EtherbonePacketTX.sourceValid (fsm s) (valid s i) && ready then _ else s.count) = 0
    rw [hidle, hcount]
    rfl
  · left
    have hlast := (hgate.last_eq K.fits hv hvalid).trans (decide_eq_true hone)
    obtain ⟨hfsm, hoffer⟩ := InGate.send_of_valid hvalid
    have hnext : fsm (next s i true) = .idle := by
      rw [fsm_next, hfsm, hoffer]
      simp [EtherbonePacketTX.next, hlast]
    rw [left, hnext]
    rfl

variable (K) in
/-- The core is a user of the link. -/
def user [Inhabited ε] : Usb.USBUser where
  dst := K.dst
  longest := K.longest
  State := K.State
  In := Bool × ε
  Out := Bool → Wires α UserBeat
  source := source
  out := wires
  next := next
  Inv := Inv
  left := left
  fresh s := s.count = 0
  inv_next s i ready h := inv_next h i ready
  left_le s h := by
    -- any cycle shows the packet in the gate
    obtain ⟨d, hgate, hv⟩ := exists_inGate_now h (false, default)
    exact hgate.left_le K.fits hv
  left_of_valid s i h hvalid := by
    obtain ⟨d, hgate, hv⟩ := exists_inGate_now h i
    exact hgate.left_pos K.fits hv hvalid
  dst_eq s i _ _ := K.dst_eq _ _
  length_eq s i h hleft hfresh := by
    obtain ⟨d, hgate, hv⟩ := exists_inGate_now h i
    exact (hgate.of_fresh K.fits hv hleft hfresh).2.2
  last_eq s i h hvalid := by
    obtain ⟨d, hgate, hv⟩ := exists_inGate_now h i
    exact hgate.last_eq K.fits hv hvalid
  left_hold s i ready h hleft hquiet := by
    obtain ⟨hsame, hcount⟩ := left_hold h hleft hquiet
    exact ⟨hsame, fun hfresh => hcount.trans hfresh⟩
  left_next s i h hvalid hmore := left_next h hvalid hmore
  fresh_next s i ready h hend := fresh_next h hend

/-- Before the first cycle. -/
def init (core : K.stage.State × Chan α) : K.State := ⟨core, 0⟩

/-- In front of its first packet the core keeps the contract. -/
theorem inv_init {core : K.stage.State × Chan α} (hstart : inner (init core) = K.atStart)
    (hidle : fsm (init core) = .idle) : Inv (init core) ∧ left (init core) = 0 := by
  refine ⟨⟨[], hstart.symm, fun packets hpackets _ => ?_⟩, ?_⟩
  · rw [hidle]
    exact .idle hpackets
  · rw [left, hidle]
    rfl

variable (K) in
/-- Beside the history, the user is the core. -/
def driven [Inhabited ε] : Component K.user.machine K.stage.driven where
  proj s := s.core
  view c := (drive c.1.1 c.1.2, c.2.2 c.1.2)
  out_eq _ _ := rfl
  next_eq _ _ := rfl

/-- What the user hands over is what the core gives. -/
theorem given_driven [Inhabited ε] (s : K.State) (i : (Bool × ε) × Bool) :
    (given (K.driven.view (i, K.user.machine.out s i))).map (fun x => (x.data, x.last)) =
      beat (source s i.1).valid i.2 ((source s i.1).data, (source s i.1).last) :=
  map_beat (fun x : UserBeat => (x.data, x.last)) _ _ _

end Port

/-! ## The core of the design -/

/-- The words of the longest payload that the host has room for. -/
def longestReply : Nat := 8192

theorem longestReply_fits : 4 * longestReply < 2 ^ 32 := by decide

namespace Reply

/-- The word count of a reply to a request is eight bits wide. -/
theorem announced_values (identifier : BitVec 8) {vs : List (BitVec 32)} (hle : vs.length ≤ 255) :
    Announced identifier longestReply (replyBeats identifier vs) := by
  have hlength : (replyBeats identifier vs).length = 4 + vs.length := by
    rw [replyBeats, List.length_map, length_marked, replyWords, List.length_append,
      List.length_map]
    rfl
  refine ⟨(IsPacket.marked (List.cons_ne_nil _ _)).map fun _ => rfl, ?_, fun x hx => ?_⟩
  · rw [hlength, longestReply]
    omega
  · obtain ⟨y, -, rfl⟩ := List.mem_map.mp hx
    rw [hlength]
    exact ⟨rfl, congrArg (BitVec.ofNat 32) (by omega)⟩

/-- A response is as long as its probe. -/
theorem announced_response (identifier : BitVec 8) {p : Probe}
    (hle : 2 + p.payload.length ≤ longestReply) :
    Announced identifier longestReply (p.responseBeats identifier) := by
  have hlength : (p.responseBeats identifier).length = 2 + p.payload.length := by
    rw [Probe.responseBeats, List.length_map, length_marked, Probe.responseWords,
      List.length_append]
    rfl
  refine ⟨(IsPacket.marked (List.cons_ne_nil _ _)).map fun _ => rfl, hlength ▸ hle, fun x hx => ?_⟩
  obtain ⟨y, -, rfl⟩ := List.mem_map.mp hx
  rw [hlength]
  exact ⟨rfl, congrArg (BitVec.ofNat 32) (by omega)⟩

end Reply

/-- The responses to the probes among the items fit the buffer of the host. -/
def Short (items : List Item) : Prop :=
  ∀ p ∈ probes items, 2 + p.payload.length ≤ longestReply

namespace WholeConfig

variable (X : WholeConfig) (answer : List Access → BitVec 32)

/-- Each of the replies that are due is announced. -/
theorem announced_of_interleaved {items : List Item} (hshort : Short items) {order : List Reply}
    (horder : Interleaved answer items order) :
    ∀ q ∈ order.map (Reply.userBeats X.identifier), Announced X.identifier longestReply q := by
  intro q hq
  obtain ⟨x, hx, rfl⟩ := List.mem_map.mp hq
  have hdue := (horder.perm.mem_iff (a := x)).mp hx
  rcases List.mem_append.mp hdue with hprobe | hvalues
  · obtain ⟨p, hp, rfl⟩ := List.mem_map.mp hprobe
    exact Reply.announced_response X.identifier (hshort p hp)
  · obtain ⟨vs, hvs, rfl⟩ := List.mem_map.mp hvalues
    exact Reply.announced_values X.identifier (Request.length_of_mem_replies hvs).2

/-- In every run the core offers announced packets in front of its gate. -/
theorem announces {items : List Item} (hshort : Short items) (is : List (Stage.Drive Bool)) :
    ∃ packets : List (List UserBeat),
      (∀ q ∈ packets, Announced X.identifier longestReply q) ∧
        (Chan.start packets.flatten).Follows
          (((((EtherbonePacketRX.stage X.packetDepacketizer Bool).comp (X.fork answer).stage).comp
            (X.packetPacketizer.stage Bool
              (EtherbonePacketTX.format X.identifier))).driven.trace
            (Stage.init _, Chan.start (items.flatMap (Item.userBeats X.identifier))) is).map
              Stage.handshake) := by
  obtain ⟨bound, w, hstart⟩ := X.merging_starts answer items
  obtain ⟨packets, hordered, -, hrun⟩ :=
    (X.merging answer _ _ bound).run (X.packetPacketizer.simulation Bool
      (EtherbonePacketTX.format X.identifier) (EtherbonePacketTX.length_header X.identifier)
      Nat.zero_lt_two) hstart (fun h => by cases h) is
  obtain ⟨order, hmerged, hinterleaved⟩ := hordered.exists_items port_due
    fun u x _ => x.isPacket_packetBeats X.identifier
  have hpacketizer := Packetizer.starts X.packetPacketizer Bool
    (EtherbonePacketTX.length_header X.identifier) Nat.zero_lt_two
    fun (x : Reply) (_ : x ∈ order) => x.words_packetBeats X.identifier
  rw [← hmerged] at hpacketizer
  obtain ⟨-, -, -, -, -, -, -, -, -, hfollows, -⟩ := hrun hpacketizer
  refine ⟨_, X.announced_of_interleaved answer hshort hinterleaved, ?_⟩
  rwa [← List.flatMap_def]

/-- The core in front of what the host sends, with the packets that it makes. -/
def port {items : List Item} (hshort : Short items) : Port Bool UserBeat PacketBeat where
  Front := (EtherbonePacketRX.stage X.packetDepacketizer Bool).comp (X.fork answer).stage
  Packetizer := X.packetPacketizer.stage Bool (EtherbonePacketTX.format X.identifier)
  start := (Stage.init _, Chan.start (items.flatMap (Item.userBeats X.identifier)))
  dst := X.identifier
  longest := longestReply
  dst_eq _ _ := rfl
  fits := longestReply_fits
  announces := X.announces answer hshort

/-- The core from reset. -/
def portInit {items : List Item} (hshort : Short items) : (X.port answer hshort).State :=
  Port.init (X.fed answer items)

theorem inv_portInit {items : List Item} (hshort : Short items) :
    Port.Inv (X.portInit answer hshort) ∧ Port.left (X.portInit answer hshort) = 0 :=
  Port.inv_init rfl rfl

end WholeConfig

theorem short_mixedItems : Short mixedItems := by
  intro p hp
  obtain rfl := List.mem_singleton.mp hp
  decide

end UsbSniffer.Etherbone
