/-
  Soc/Sharing.lean --- the senders of usbsniffer.py on one link.

  Etherbone and the sender of the captured records have a port of the crossbar each.  The
  host takes the packets off the link and tells them apart by their stream identifiers, so
  each of the two has a stream of its own, as if it had the link for itself: what the host
  gets of Etherbone's are whole replies.
-/
import UsbSniffer.Etherbone.Port
import UsbSniffer.Host.Receive

set_option autoImplicit false

namespace UsbSniffer.Usb.USBCrossbar.Tx

open UsbSniffer.Sync

variable {n : Nat} {C : Config n}

/-! ## The streams at the host -/

/-- The packets of the senders, as the host gets them. -/
def received (C : Config n) (done : List (Fin (n + 1) × List (BitVec 32))) :
    List (BitVec 32 × List (BitVec 8)) :=
  done.map fun p => ((C.users p.1).dst.setWidth 32, p.2.flatMap (bytes 4))

/-- The bytes of a stream. -/
def stream (sid : BitVec 8) (packets : List (BitVec 32 × List (BitVec 8))) : List (BitVec 8) :=
  (packets.filter fun p => p.1 = sid.setWidth 32).flatMap Prod.snd

theorem packetsOf_bytes (done : List (Fin (n + 1) × List (BitVec 32))) :
    (packetsOf C done).flatMap (bytes 4) = Host.sentPackets (received C done) := by
  unfold packetsOf Host.sentPackets received
  rw [List.flatMap_assoc, List.flatMap_map]
  refine List.flatMap_congr fun p _ => ?_
  unfold Framing.packet Framing.headerOf Host.ubarSendPacket
  rw [Host.length_flatMap_bytes, List.flatMap_append]
  simp only [List.flatMap_cons, List.flatMap_nil, List.append_nil, List.append_assoc]

/-- The payloads of a stream. -/
def payloads (sid : BitVec 8) (packets : List (BitVec 32 × List (BitVec 8))) :
    List (List (BitVec 8)) :=
  (packets.filter fun p => p.1 = sid.setWidth 32).map Prod.snd

theorem flatten_payloads (sid : BitVec 8) (packets : List (BitVec 32 × List (BitVec 8))) :
    (payloads sid packets).flatten = stream sid packets := (List.flatMap_def ..).symm

/-- Senders with streams of their own are told apart. -/
theorem payloads_received (hdistinct : Function.Injective fun u => (C.users u).dst)
    (done : List (Fin (n + 1) × List (BitVec 32))) (u : Fin (n + 1)) :
    payloads (C.users u).dst (received C done) =
      (done.filter fun p => p.1 = u).map fun p => p.2.flatMap (bytes 4) := by
  have hsid : ∀ p : Fin (n + 1) × List (BitVec 32),
      ((C.users p.1).dst.setWidth 32 = (C.users u).dst.setWidth 32) ↔ p.1 = u := by
    intro p
    refine ⟨fun h => hdistinct ?_, fun h => by rw [h]⟩
    have hcut := congrArg (BitVec.setWidth 8) h
    simpa using hcut
  unfold payloads received
  rw [List.filter_map, List.map_map]
  refine congrArg₂ List.map rfl (List.filter_congr fun p _ => ?_)
  exact decide_eq_decide.mpr (hsid p)

theorem stream_received (hdistinct : Function.Injective fun u => (C.users u).dst)
    (done : List (Fin (n + 1) × List (BitVec 32))) (u : Fin (n + 1)) :
    stream (C.users u).dst (received C done) = (wordsOf u done).flatMap (bytes 4) := by
  rw [← flatten_payloads, payloads_received hdistinct, ← List.flatMap_def, wordsOf,
    List.flatMap_assoc]

/-- When the words of a user are whole packets in some order, its packets on the link are the
first ones of them, and the packet under way is the next one. -/
theorem exists_order {γ : Type} {f : γ → List (BitVec 32 × Bool)} {order : List γ}
    (hf : ∀ x ∈ order, Sync.IsPacket Prod.snd (f x))
    {done : List (Fin (n + 1) × List (BitVec 32))} (hdone : ∀ p ∈ done, IsPacket C p)
    {u : Fin (n + 1)} {sent : List (BitVec 32)} {rest : List (BitVec 32 × Bool)}
    (h : marksOf u done ++ sent.map (·, false) ++ rest = order.flatMap f) :
    ∃ zs, zs <+: order ∧
      (done.filter fun p => p.1 = u).map Prod.snd = zs.map (fun x => (f x).map Prod.fst) ∧
      (rest = [] → zs = order) := by
  have hpackets : ∀ q ∈ (done.filter fun p => p.1 = u).map fun p => marked p.2,
      Sync.IsPacket Prod.snd q := by
    intro q hq
    obtain ⟨p, hp, rfl⟩ := List.mem_map.mp hq
    have hpos := (hdone p (List.mem_filter.mp hp).1).1
    exact Sync.IsPacket.marked (List.length_pos_iff.mp hpos)
  have hclosed : Closed Prod.snd (marksOf u done) := by
    unfold marksOf
    exact Closed.flatMap fun p hp => Closed.of_packet (hpackets _ (List.mem_map.mpr ⟨p, hp, rfl⟩))
  obtain ⟨zs, hzs, hmarks⟩ := hclosed.exists_prefix (fun x hx => Or.inr (hf x hx))
    ⟨sent.map (·, false) ++ rest, by rw [← h, List.append_assoc]⟩
  refine ⟨zs, hzs, ?_, fun hnil => ?_⟩
  · have hsame : ((done.filter fun p => p.1 = u).map fun p => marked p.2) = zs.map f := by
      refine Sync.IsPacket.flatten_inj hpackets (fun q hq => ?_) ?_
      · obtain ⟨x, hx, rfl⟩ := List.mem_map.mp hq
        exact hf x (hzs.subset hx)
      · rw [← List.flatMap_def, ← List.flatMap_def]
        exact hmarks
    have hwords := congrArg (List.map (List.map Prod.fst)) hsame
    rw [List.map_map, List.map_map] at hwords
    rw [← Function.comp_def, ← hwords]
    exact List.map_congr_left fun p _ => (marked_map_fst p.2).symm
  · -- a packet that is under way is not whole
    obtain ⟨more, rfl⟩ := hzs
    rw [hnil, List.append_nil, hmarks, List.flatMap_append] at h
    have hsent := List.append_cancel_left h
    have hmore : Closed Prod.snd (more.flatMap f) :=
      Closed.flatMap fun x hx => Closed.of_packet (hf x (List.mem_append_right zs hx))
    cases more with
    | nil => exact (List.append_nil zs).symm
    | cons x more =>
      have hne : sent.map (·, false) ≠ [] := by
        rw [hsent, List.flatMap_cons]
        exact List.append_ne_nil_of_left_ne_nil
          (hf x (List.mem_append_right zs (List.mem_cons_self ..))).ne_nil _
      have hlast := (hsent ▸ hmore) hne
      rw [List.getLast_map] at hlast
      cases hlast

/-- The host gets the packets on the link, and each user has handed over its own ones, and
`sent` of the packet that is under way. -/
theorem packets_at_host {users : ∀ u, (C.users u).State} (hstart : Starts users)
    (hsize : ∀ u, 4 * (C.users u).longest ≤ 32768) (is : List (In C))
    {link : List Host.Arrival} (hlink : .failed ∉ link)
    (hwords : Host.pending link =
      (moved sentWord ((machine C).trace (init users) is)).flatMap (bytes 4)) :
    ∃ (done : List (Fin (n + 1) × List (BitVec 32))) (link' : List Host.Arrival)
      (sent : List (BitVec 32)),
      Host.recvPackets (received C done).length link = .ok (received C done, link') ∧
        (∀ p ∈ done, IsPacket C p) ∧
        (∀ u, moved (userBeat u) ((machine C).trace (init users) is) =
          marksOf u done ++
            (sentOf ((machine C).run (init users) is) sent u).map (·, false)) ∧
        (left ((machine C).run (init users) is) (grant ((machine C).run (init users) is)) = 0 →
          sent = []) := by
  obtain ⟨done, sent, k, hsent, hbeats, hdone, hwhole, hleft⟩ := link_marked hstart is
  rw [hsent, List.flatMap_append, packetsOf_bytes] at hwords
  have hshort : ∀ p ∈ received C done, p.2.length ≤ 32768 := by
    intro p hp
    obtain ⟨q, hq, rfl⟩ := List.mem_map.mp hp
    have hlong := (hdone q hq).2
    have hfits := hsize q.1
    change (q.2.flatMap (bytes 4)).length ≤ 32768
    rw [Host.length_flatMap_bytes]
    omega
  obtain ⟨link', hrecv, -⟩ := Host.recvPackets_sent hshort hlink hwords
  refine ⟨done, link', sent, hrecv, hdone, hbeats, fun hnone => ?_⟩
  by_contra hne
  have := hleft (by rw [hwhole hne]; omega)
  omega

end UsbSniffer.Usb.USBCrossbar.Tx

namespace UsbSniffer.Soc.Sharing

open UsbSniffer.Sync UsbSniffer.Usb UsbSniffer.Usb.USBCrossbar

/-! ## The senders of the design -/

/-- `etherbone` and `wrapcore0`, in the order in which they get their ports. -/
@[reducible] def users (E : USBUser) (W : WrapSender.Config) : Fin 2 → USBUser
  | 0 => E
  | 1 => WrapSender.user W

/-- The crossbar of the design. -/
@[reducible] def crossbar (E : USBUser) (W : WrapSender.Config) (A : Sync.Arbiter 1)
    (P : USBPacketizer.Config) : Tx.Config 1 where
  users := users E W
  Arbiter := A
  Packetizer := P

variable {E : USBUser} {W : WrapSender.Config} {A : Sync.Arbiter 1} {P : USBPacketizer.Config}

/-- Etherbone in any state, and an empty buffer of records. -/
def start (W : WrapSender.Config) (etherbone : E.State) : ∀ u, (users E W u).State
  | 0 => etherbone
  | 1 => WrapSender.init

/-- The word that the buffer of records takes in a cycle. -/
def recordWord (c : Tx.In (crossbar E W A P) × Tx.Out (crossbar E W A P)) :
    List (BitVec 32) :=
  WrapSender.acceptedWord ((Tx.user (C := crossbar E W A P) 1).view c)

/-- What is taken of the records is handed over, or in the buffer. -/
theorem records_run (etherbone : E.State) (is : List (Tx.In (crossbar E W A P))) :
    moved recordWord ((Tx.machine (crossbar E W A P)).trace (Tx.init (start W etherbone)) is) =
      moved (Tx.userWord 1)
          ((Tx.machine (crossbar E W A P)).trace (Tx.init (start W etherbone)) is) ++
        W.Buf.contents
          (((Tx.machine (crossbar E W A P)).run (Tx.init (start W etherbone)) is).users 1).buf := by
  have hqueue := (WrapSender.user_refinesQueue (C := W)).part (Tx.user (C := crossbar E W A P) 1)
  have hrun := hqueue.run (s := Tx.init (start W etherbone)) trivial is
    ((Tx.machine (crossbar E W A P)).allSteps_of_forall (fun _ _ => trivial) _ is)
  have hempty : W.Buf.contents (WrapSender.init (C := W)).buf = [] := W.Buf.contents_init
  change W.Buf.contents (WrapSender.init (C := W)).buf ++ _ = _ at hrun
  rw [hempty, List.nil_append] at hrun
  exact hrun

/-! ## Replies beside the records -/

/-- The two senders of the design behind the arbiter: the core in front of what the host sends
and of a bus, and the sender of the records.  They have got their ports, and the host has room
for their packets. -/
structure Senders where
  Core : Etherbone.WholeConfig
  answer : List Etherbone.Access → BitVec 32
  items : List Etherbone.Item
  short : Etherbone.Short items
  Records : WrapSender.Config
  bursts : 4 * (Records.depth + 1) ≤ 32768
  Arbiter : Sync.Arbiter 1
  Packetizer : USBPacketizer.Config
  built : (crossbar (Core.port answer short).user Records Arbiter Packetizer).Built

namespace Senders

variable (D : Senders)

/-- The transmit side of the crossbar with both senders. -/
abbrev config : Tx.Config 1 :=
  crossbar (D.Core.port D.answer D.short).user D.Records D.Arbiter D.Packetizer

/-- The design from reset. -/
def init : Tx.State D.config := Tx.init (start D.Records (D.Core.portInit D.answer D.short))

/-- The state after some cycles from the start. -/
def run (is : List (Tx.In D.config)) : Tx.State D.config := (Tx.machine D.config).run D.init is

/-- What has been seen in them. -/
def trace (is : List (Tx.In D.config)) : List (Tx.In D.config × Tx.Out D.config) :=
  (Tx.machine D.config).trace D.init is

/-- The core in the design. -/
def core : Component (Tx.machine D.config) (D.Core.stage D.answer).driven :=
  (Tx.user (C := D.config) 0).trans (D.Core.port D.answer D.short).driven

/-- The accesses that the bus has acknowledged. -/
def log (is : List (Tx.In D.config)) : List Etherbone.Access :=
  Etherbone.WholeConfig.log (D.core.proj (D.run is)).1

/-- The accesses that the requests of the host ask for. -/
def asked : List Etherbone.Access :=
  (Etherbone.requests D.items).flatMap Etherbone.Request.accesses

/-- The bytes of the records that the buffer has taken. -/
def records (is : List (Tx.In D.config)) : List (BitVec 8) :=
  (moved recordWord (D.trace is)).flatMap (bytes 4)

/-- The bytes on the link. -/
def linkBytes (is : List (Tx.In D.config)) : List (BitVec 8) :=
  (moved Tx.sentWord (D.trace is)).flatMap (bytes 4)

/-- The cycles in which the core waits neither for the host, nor for the bus or the link. -/
def freeCycles (is : List (Tx.In D.config)) : Nat :=
  (D.trace is).countP fun c => Stage.free (D.core.view c)

/-- The bytes of a reply. -/
def replyBytes (x : Etherbone.Reply) : List (BitVec 8) :=
  (x.userBeats D.Core.identifier).flatMap fun y => bytes 4 y.data

/-- The packets that the host gets: those of the core's stream are replies, whole, in the order
of the core, and those of the records' stream carry the bytes of the records.  After so many
free cycles nothing is missing. -/
structure Received (cycles : Nat) (is : List (Tx.In D.config)) (order : List Etherbone.Reply)
    (packets : List (BitVec 32 × List (BitVec 8))) : Prop where
  interleaved : Etherbone.Interleaved D.answer D.items order
  replies : Tx.payloads D.Core.identifier packets <+: order.map D.replyBytes
  records : Tx.stream D.Records.identifier packets <+: D.records is
  accesses : D.log is <+: D.asked
  replied : cycles ≤ D.freeCycles is →
    Tx.payloads D.Core.identifier packets = order.map D.replyBytes
  accessed : cycles ≤ D.freeCycles is → D.log is = D.asked
  flushed : D.Records.Buf.contents ((D.run is).users 1).buf = [] →
    Tx.stream D.Records.identifier packets = D.records is

variable {D}

/-- The words of a reply with their marks. -/
def marksOfReply (x : Etherbone.Reply) : List (BitVec 32 × Bool) :=
  (x.userBeats D.Core.identifier).map fun y => (y.data, y.last)

theorem isPacket_marksOfReply (x : Etherbone.Reply) :
    Sync.IsPacket Prod.snd (marksOfReply (D := D) x) := by
  have hpacket : Sync.IsPacket Etherbone.UserBeat.last (x.userBeats D.Core.identifier) := by
    cases x with
    | response p => exact (Sync.IsPacket.marked (List.cons_ne_nil _ _)).map fun _ => rfl
    | values vs => exact (Sync.IsPacket.marked (List.cons_ne_nil _ _)).map fun _ => rfl
  exact hpacket.map fun _ => rfl

/-- What the core gives is what its port hands over. -/
theorem moved_userBeat (is : List (Tx.In D.config)) :
    moved (Tx.userBeat 0) (D.trace is) =
      (moved Stage.given ((D.trace is).map D.core.view)).map fun x => (x.data, x.last) := by
  have hcycle : ∀ c ∈ D.trace is,
      Tx.userBeat 0 c = (Stage.given (D.core.view c)).map fun x => (x.data, x.last) :=
    (Tx.machine D.config).trace_forall (fun s i => (Etherbone.Port.given_driven (s.users 0)
      (i.users 0, Tx.ready s i 0)).symm) _ is
  unfold moved
  rw [List.flatMap_map, List.map_flatMap]
  exact List.flatMap_congr hcycle

/-- The host receives packets: those of the first port have the words of the core, and those
of the records' stream have the words of the records, up to the packet that is under way. -/
theorem shared_run (is : List (Tx.In D.config)) {link : List Host.Arrival}
    (hlink : .failed ∉ link) (hwords : Host.pending link = D.linkBytes is) :
    ∃ (done : List (Fin 2 × List (BitVec 32))) (link' : List Host.Arrival)
      (sent : List (BitVec 32)),
      Host.recvPackets (Tx.received D.config done).length link =
          .ok (Tx.received D.config done, link') ∧
        (∀ p ∈ done, Tx.IsPacket D.config p) ∧
        moved (Tx.userBeat 0) (D.trace is) =
          Tx.marksOf 0 done ++ (Tx.sentOf (D.run is) sent 0).map (·, false) ∧
        Tx.stream D.Records.identifier (Tx.received D.config done) <+: D.records is ∧
        (D.Records.Buf.contents ((D.run is).users 1).buf = [] →
          Tx.stream D.Records.identifier (Tx.received D.config done) = D.records is) := by
  obtain ⟨hInv, hleft⟩ := D.Core.inv_portInit D.answer D.short
  have hstart : Tx.Starts (C := D.config) (start D.Records (D.Core.portInit D.answer D.short)) := by
    refine ⟨fun u => ?_, fun u => ?_⟩
    · match u with
      | 0 => exact hInv
      | 1 => exact WrapSender.inv_init
    · match u with
      | 0 => exact Or.inl hleft
      | 1 => exact Or.inr trivial
  have hsize : ∀ u, 4 * (D.config.users u).longest ≤ 32768 := by
    intro u
    match u with
    | 0 => exact Nat.le_refl _
    | 1 => exact D.bursts
  obtain ⟨done, link', sent, hrecv, hdone, hbeats, hsettled⟩ :=
    Tx.packets_at_host hstart hsize is hlink hwords
  have hstream : Tx.stream D.Records.identifier (Tx.received D.config done) =
      (Tx.wordsOf 1 done).flatMap (bytes 4) := Tx.stream_received D.built.injective done 1
  have hrecords : D.records is = (Tx.wordsOf 1 done).flatMap (bytes 4) ++
      (Tx.sentOf (D.run is) sent 1 ++
        D.Records.Buf.contents ((D.run is).users 1).buf).flatMap (bytes 4) := by
    have hqueue := records_run (A := D.Arbiter) (P := D.Packetizer)
      (D.Core.portInit D.answer D.short) is
    rw [Tx.moved_userWord (hbeats 1), List.append_assoc] at hqueue
    rw [← List.flatMap_append]
    exact congrArg (List.flatMap (bytes 4)) hqueue
  refine ⟨done, link', sent, hrecv, hdone, hbeats 0, ?_, fun hempty => ?_⟩
  · rw [hstream]
    exact ⟨_, hrecords.symm⟩
  · have hnone : Tx.left (D.run is) 1 = 0 := by
      have hsender : WrapSender.Inv ((D.run is).users 1) := (Tx.framed_run hstart is).1.users 1
      exact WrapSender.left_of_empty hsender hempty
    have hsent : Tx.sentOf (D.run is) sent 1 = [] := by
      unfold Tx.sentOf
      split_ifs with hgrant
      · refine hsettled ?_
        change Tx.left (D.run is) (Tx.grant (D.run is)) = 0
        rw [← hgrant]
        exact hnone
      · rfl
    rw [hrecords, hempty, hsent, hstream]
    exact (List.append_nil _).symm

/-- What the core does in a run of the design. -/
theorem core_run (D : Senders) : ∃ cycles, ∀ is, ∃ order rest,
    Etherbone.Interleaved D.answer D.items order ∧
      moved (Tx.userBeat 0) (D.trace is) ++ rest = order.flatMap (marksOfReply (D := D)) ∧
      D.log is <+: D.asked ∧
      (cycles ≤ D.freeCycles is → rest = [] ∧ D.log is = D.asked) := by
  obtain ⟨cycles, hcore⟩ := D.Core.fed_run D.answer D.items
  refine ⟨cycles, fun is => ?_⟩
  -- the run of the core alone, with the inputs that the design gives it
  obtain ⟨order, rest, k, horder, hgiven, hlog, hzero, hcount⟩ := hcore (D.core.inputs D.init is)
  have hrun : (D.Core.stage D.answer).driven.run (D.Core.fed D.answer D.items)
      (D.core.inputs D.init is) = D.core.proj (D.run is) := (D.core.proj_run D.init is).symm
  have htrace : (D.Core.stage D.answer).driven.trace (D.Core.fed D.answer D.items)
      (D.core.inputs D.init is) = (D.trace is).map D.core.view := D.core.trace_eq D.init is
  rw [hrun] at hlog hzero
  rw [htrace] at hgiven hcount
  rw [List.countP_map] at hcount
  refine ⟨order, rest.map fun x => (x.data, x.last), horder, ?_, hlog, fun hfree => ?_⟩
  · rw [moved_userBeat, ← List.map_append, hgiven, List.map_flatMap]
    rfl
  · change k = 0 ∨ D.freeCycles is + k ≤ cycles at hcount
    obtain ⟨rfl, hall⟩ := hzero (by omega)
    exact ⟨rfl, hall⟩

/-- **The host gets whole replies beside the records.**  In every run of the two senders on one
link, whatever the bus answers and whoever waits, it receives packets such that those of the
core's stream are its replies, and those of the records' stream carry the records. -/
theorem replies_received (D : Senders) : ∃ cycles, ∀ is link, .failed ∉ link →
    Host.pending link = D.linkBytes is →
    ∃ order packets link', Host.recvPackets packets.length link = .ok (packets, link') ∧
      D.Received cycles is order packets := by
  obtain ⟨cycles, hcore⟩ := D.core_run
  refine ⟨cycles, fun is link hlink hwords => ?_⟩
  obtain ⟨order, rest, horder, hgiven, hlog, hall⟩ := hcore is
  obtain ⟨done, link', sent, hrecv, hdone, hbeats, hprefix, hflushed⟩ :=
    D.shared_run is hlink hwords
  rw [hbeats] at hgiven
  obtain ⟨zs, hzs, hpayloads, hwhole⟩ :=
    Tx.exists_order (fun x _ => isPacket_marksOfReply x) hdone hgiven
  have hreceived : Tx.payloads D.Core.identifier (Tx.received D.config done) =
      zs.map D.replyBytes := by
    have hpayload : Tx.payloads D.Core.identifier (Tx.received D.config done) = _ :=
      Tx.payloads_received D.built.injective done 0
    have hbytes := congrArg (List.map fun q => q.flatMap (bytes 4)) hpayloads
    rw [List.map_map, List.map_map] at hbytes
    refine hpayload.trans (hbytes.trans (List.map_congr_left fun x _ => ?_))
    simp [marksOfReply, replyBytes, List.flatMap_map, List.map_map, Function.comp_def]
  refine ⟨order, Tx.received D.config done, link', hrecv, horder, ?_, hprefix, hlog,
    fun hfree => ?_, fun hfree => (hall hfree).2, hflushed⟩
  · rw [hreceived]
    exact hzs.map _
  · rw [hreceived, hwhole (hall hfree).1]

theorem bursts_soc : 4 * ((WrapSender.core 1).depth + 1) ≤ 32768 := by decide

/-- The core of the SoC, with a packet of each kind in front of it, and the sender of the
records. -/
def soc : Senders where
  Core := Etherbone.wholeCore
  answer := Etherbone.countingBus
  items := Etherbone.mixedItems
  short := Etherbone.short_mixedItems
  Records := WrapSender.core 1
  bursts := bursts_soc
  Arbiter := Sync.Arbiter.roundRobin 1
  Packetizer := ⟨Serializer.mux 3⟩
  built := ⟨_, rfl⟩

/-- The core is offered a word, the bus acknowledges, a record is captured, and the link is
ready. -/
def busyCycle : Tx.In soc.config where
  users
    | 0 => (true, true)
    | 1 => (true, 0x0a0b0c0d)
  sourceReady := true

theorem replies_received_soc : ∃ cycles order packets link',
    Host.recvPackets packets.length [.data (soc.linkBytes (List.replicate 600 busyCycle))] =
        .ok (packets, link') ∧
      soc.Received cycles (List.replicate 600 busyCycle) order packets := by
  obtain ⟨cycles, hreceived⟩ := replies_received soc
  obtain ⟨order, packets, link', hrecv, hall⟩ := hreceived (List.replicate 600 busyCycle)
    [.data (soc.linkBytes (List.replicate 600 busyCycle))] (Host.not_failed_single _)
    (Host.pending_single _)
  exact ⟨cycles, order, packets, link', hrecv, hall⟩

end Senders

end UsbSniffer.Soc.Sharing
