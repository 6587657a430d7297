/-
  Etherbone/Whole.lean --- the whole core, with probes beside the records
  (gateware/etherbone.py, Etherbone).

  A dispatcher gives the packets of the host to the block for probes or to the one for
  records, and an arbiter merges what they reply.  The record block replies while it still
  takes a request, so that each of them may have to wait for the other's packet.  The packets
  are of whole words.
-/
import UsbSniffer.Sync.Fork
import UsbSniffer.Etherbone.Probe
import UsbSniffer.Etherbone.Serve

set_option autoImplicit false

namespace UsbSniffer.Etherbone

open UsbSniffer.Sync

/-- The places of the two blocks behind the dispatcher, and in front of the arbiter. -/
def probePort : Fin 2 := ⟨0, Nat.zero_lt_two⟩

/-- The place of the record block. -/
def recordPort : Fin 2 := ⟨1, Nat.one_lt_two⟩

/-- The blocks of the whole core (`Etherbone`). -/
structure WholeConfig extends Config where
  Dispatcher : Dispatcher (Fin 2)
  Arbiter : Arbiter 1

theorem EtherboneRecord.length_header (x : RecordBeat) :
    (EtherboneRecord.format.header x).length = 1 := rfl

theorem EtherbonePacketTX.length_header (identifier : BitVec 8) (x : PacketBeat) :
    ((EtherbonePacketTX.format identifier).header x).length = 2 := rfl

namespace WholeConfig

variable (X : WholeConfig)

/-- `EtherboneRecord`, with the master between its receiver and its sender. -/
def record (answer : List Access → BitVec 32) : Stage Bool PacketBeat PacketBeat :=
  ((X.recordDepacketizer.stage Bool PacketBeat.data PacketBeat.last EtherboneRecord.decode).comp
    (EtherboneRecordReceiver.stage X.receiver Bool)).comp
      ((EtherboneWishboneMaster.stage answer).comp
        ((EtherboneRecordSender.stage X.sender Bool).comp
          (X.recordPacketizer.stage Bool EtherboneRecord.format)))

/-- The probe and the record block, with what is around them. -/
def fork (answer : List Access → BitVec 32) : Fork 1 Bool PacketBeat PacketBeat where
  stages
    | 0 => EtherboneProbe.stage Bool
    | 1 => X.record answer
  Dispatcher := X.Dispatcher
  Arbiter := X.Arbiter
  sel x := if x.pf then probePort else recordPort
  sinkLast := PacketBeat.last
  sourceLast := PacketBeat.last

/-- `Etherbone` in front of a bus. -/
def stage (answer : List Access → BitVec 32) : Stage Bool UserBeat UserBeat :=
  ((EtherbonePacketRX.stage X.packetDepacketizer Bool).comp (X.fork answer).stage).comp
    (EtherbonePacketTX.stage X.packetPacketizer X.identifier Bool)

variable {X} in
/-- The accesses of the record block that the bus has acknowledged. -/
def busLog {answer : List Access → BitVec 32} (s : (X.fork answer).State) : List Access :=
  let record : (X.record answer).State := s.stages recordPort
  record.2.1.log

variable {X} in

/-- The accesses that the bus has acknowledged. -/
def log {answer : List Access → BitVec 32} (s : (X.stage answer).State) : List Access :=
  busLog s.1.2

end WholeConfig

/-! ## Packets of the host, and replies -/

/-- What the host sends: requests, probes, and packets that are none of Etherbone's. -/
inductive Item
  | probe (p : Probe)
  | request (r : Request)
  | foreign (p : RawPacket) (magic_ne : p.magic ≠ etherboneMagic)

namespace Item

variable (identifier : BitVec 8)

/-- The beats of its packet. -/
def userBeats : Item → List UserBeat
  | probe p => p.userBeats identifier
  | request r => r.userBeats identifier
  | foreign p _ => p.userBeats identifier

/-- What the depacketizer makes of them. -/
def decoded : Item → List EtherbonePacketRX.Decoded
  | probe p => p.decoded identifier
  | request r => r.decoded identifier
  | foreign p _ => p.decoded identifier

/-- What is presented of it. -/
def packetBeats : Item → List PacketBeat
  | probe p => p.packetBeats identifier
  | request r => (r.decoded identifier).map EtherbonePacketRX.Decoded.beat
  | foreign _ _ => []

/-- The probe, if it is one. -/
def probe? : Item → Option Probe
  | probe p => some p
  | _ => none

/-- The request, if it is one. -/
def request? : Item → Option Request
  | request r => some r
  | _ => none

/-- The header comes off each packet. -/
theorem words_userBeats (x : Item) :
    (Depacketizer.words 2 UserBeat.data UserBeat.last EtherbonePacketRX.decode).emits []
        (x.userBeats identifier) = x.decoded identifier ∧
      (Depacketizer.words 2 UserBeat.data UserBeat.last EtherbonePacketRX.decode).run []
        (x.userBeats identifier) = [] ∧
      Depacketizer.Framed 2 UserBeat.data UserBeat.last [] (x.userBeats identifier) := by
  cases x with
  | probe p => exact p.words_userBeats identifier
  | request r => exact r.words_userBeats identifier
  | foreign p _ => exact p.words_userBeats identifier

/-- Packets with the magic are presented. -/
theorem words_decoded (x : Item) :
    EtherbonePacketRX.words.emits none (x.decoded identifier) = x.packetBeats identifier ∧
      EtherbonePacketRX.words.run none (x.decoded identifier) = none := by
  cases x with
  | probe p => exact p.words_decoded identifier
  | request r => exact r.words_decoded identifier
  | foreign p magic_ne =>
    refine EtherbonePacketRX.words_foreign (p.isPacket_decoded identifier) fun x hx => ?_
    rw [p.magic_decoded identifier x hx]
    exact magic_ne

theorem pf_request (r : Request) :
    ∀ x ∈ (r.decoded identifier).map EtherbonePacketRX.Decoded.beat, x.pf = false := by
  intro x hx
  obtain ⟨y, hy, rfl⟩ := List.mem_map.mp hx
  obtain ⟨z, -, rfl⟩ := List.mem_map.mp hy
  change (0x44106f4e : BitVec 32).getLsbD 16 = false
  decide

theorem isPacket_request (r : Request) : IsPacket PacketBeat.last
    ((r.decoded identifier).map EtherbonePacketRX.Decoded.beat) := by
  unfold Request.decoded
  rw [List.map_map]
  exact (IsPacket.marked (List.cons_ne_nil _ _)).map fun _ => rfl

end Item

/-- The probes in what the host sends. -/
def probes (items : List Item) : List Probe := items.filterMap Item.probe?

/-- The requests in it. -/
def requests (items : List Item) : List Request := items.filterMap Item.request?

/-- What goes back to the host. -/
inductive Reply
  | response (p : Probe)
  | values (vs : List (BitVec 32))

namespace Reply

variable (identifier : BitVec 8)

/-- The block that it comes from. -/
def port : Reply → Fin 2
  | response _ => probePort
  | values _ => recordPort

/-- The beats of a reply in front of the packetizer. -/
def packetBeats : Reply → List PacketBeat
  | response p => p.answerPacketBeats identifier
  | values vs => answerPacketBeats vs

/-- The beats of a reply as the core gives them. -/
def userBeats : Reply → List UserBeat
  | response p => p.responseBeats identifier
  | values vs => replyBeats identifier vs

theorem isPacket_packetBeats (x : Reply) : IsPacket PacketBeat.last (x.packetBeats identifier) := by
  cases x with
  | response p => exact p.isPacket_answerPacketBeats identifier
  | values vs => exact (IsPacket.marked (List.cons_ne_nil _ _)).map fun _ => rfl

/-- The header is put in front. -/
theorem words_packetBeats (x : Reply) :
    (Packetizer.words (EtherbonePacketTX.format identifier)).emits false
        (x.packetBeats identifier) = x.userBeats identifier ∧
      (Packetizer.words (EtherbonePacketTX.format identifier)).run false
        (x.packetBeats identifier) = false := by
  cases x with
  | response p => exact p.words_answerPacketBeats identifier
  | values vs => exact words_answerPacketBeats identifier

end Reply

/-- What each of the blocks is to reply. -/
def due (answer : List Access → BitVec 32) (items : List Item) : Fin 2 → List Reply
  | 0 => (probes items).map Reply.response
  | 1 => (replies answer [] (requests items)).map Reply.values

/-- The replies of each block are those that are due, in their order. -/
def Interleaved (answer : List Access → BitVec 32) (items : List Item) (order : List Reply) :
    Prop :=
  ∀ u, (order.filter fun x => x.port = u) = due answer items u

theorem port_due {answer : List Access → BitVec 32} {items : List Item} :
    ∀ u, ∀ x ∈ due answer items u, x.port = u := by
  intro u x hx
  match u with
  | 0 =>
    obtain ⟨p, -, rfl⟩ := List.mem_map.mp hx
    rfl
  | 1 =>
    obtain ⟨vs, -, rfl⟩ := List.mem_map.mp hx
    rfl

/-- Whatever the order is, it is made of the same replies. -/
theorem Interleaved.perm {answer : List Access → BitVec 32} {items : List Item}
    {order : List Reply} (h : Interleaved answer items order) :
    order.Perm (due answer items 0 ++ due answer items 1) := by
  have hother : (order.filter fun x => !decide (x.port = 0)) =
      order.filter fun x => x.port = 1 := by
    refine List.filter_congr fun x _ => ?_
    cases x <;> rfl
  rw [← h 0, ← h 1, ← hother]
  exact (List.filter_append_perm _ order).symm

/-- Without probes there is one order. -/
theorem Interleaved.eq_values {answer : List Access → BitVec 32} {items : List Item}
    {order : List Reply} (h : Interleaved answer items order) (hprobes : probes items = []) :
    order = (replies answer [] (requests items)).map Reply.values := by
  have hnone : (order.filter fun x => x.port = 0) = [] := by
    rw [h 0, due, hprobes]
    rfl
  rw [← due, ← h 1, List.filter_eq_self.mpr fun x hx => ?_]
  have hx := List.filter_eq_nil_iff.mp hnone x hx
  cases x with
  | response p => exact absurd rfl hx
  | values vs => rfl

namespace WholeConfig

variable (X : WholeConfig) (answer : List Access → BitVec 32)

/-! ## Streams -/

/-- `all` are the accesses that the bus is to make, and `stream` the words of the records. -/
def recordSimulation (all : List Access) (stream : List RecordBeat) :
    Simulation (X.record answer) :=
  ((X.recordDepacketizer.simulation Bool PacketBeat.data PacketBeat.last
      EtherboneRecord.decode).comp
    (EtherboneRecordReceiver.simulation X.receiver Bool stream)).comp
      ((EtherboneWishboneMaster.simulation answer all).comp
        ((EtherboneRecordSender.simulation X.sender Bool).comp
          (X.recordPacketizer.simulation Bool EtherboneRecord.format EtherboneRecord.length_header
            Nat.zero_lt_one)))

/-- The record block serves some requests. -/
theorem record_starts (rs : List Request) :
    ∃ k, (X.recordSimulation answer (rs.flatMap Request.accesses)
        (rs.flatMap fun r => r.record.words)).Starts
      (rs.flatMap fun r => (r.decoded X.identifier).map EtherbonePacketRX.Decoded.beat)
      ((replies answer [] rs).flatMap answerPacketBeats) k := by
  obtain ⟨haccesses, hsent⟩ := Request.words_requests answer [] rs
  have hmaster := EtherboneWishboneMaster.Rel.start answer (rs.flatMap fun r => r.record.beats)
  rw [haccesses, List.nil_append] at hmaster
  have hrecord : (X.recordPacketizer.simulation Bool EtherboneRecord.format
        EtherboneRecord.length_header Nat.zero_lt_one).Starts ((replies answer [] rs).flatMap answerBeats)
      ((replies answer [] rs).flatMap answerPacketBeats) _ :=
    Packetizer.starts X.recordPacketizer Bool _ _ fun x hx => by
      obtain ⟨hpos, hle⟩ := Request.length_of_mem_replies hx
      exact words_answerBeats hpos hle
  exact ⟨_, Simulation.Starts.comp (Simulation.Starts.comp
    (Depacketizer.starts X.recordDepacketizer Bool
      (fun r _ => r.words_packetBeats X.identifier))
    (EtherboneRecordReceiver.starts X.receiver Bool fun r _ => r.words_record))
    (Simulation.Starts.comp hmaster
      (Simulation.Starts.comp (hsent ▸ EtherboneRecordSender.Rel.start _) hrecord))⟩

/-- Each block does what it does alone. -/
def forkSimulation (all : List Access) (stream : List RecordBeat) :
    ∀ u, Simulation ((X.fork answer).stages u)
  | 0 => EtherboneProbe.simulation Bool
  | 1 => X.recordSimulation answer all stream

variable {X answer} in
theorem sel_probe (p : Probe) :
    ∀ y ∈ p.packetBeats X.identifier, (X.fork answer).sel y = 0 :=
  fun y hy => if_pos (p.pf_packetBeats X.identifier y hy)

variable {X answer} in
theorem sel_request (r : Request) :
    ∀ y ∈ (r.decoded X.identifier).map EtherbonePacketRX.Decoded.beat,
      (X.fork answer).sel y = 1 := fun y hy =>
  if_neg (by rw [Item.pf_request X.identifier r y hy]; exact Bool.false_ne_true)

/-- A packet that is presented goes to one of the blocks. -/
theorem routed_packetBeats (x : Item) : x.packetBeats X.identifier = [] ∨
    (IsPacket (X.fork answer).sinkLast (x.packetBeats X.identifier) ∧
      ∃ u, ∀ y ∈ x.packetBeats X.identifier, (X.fork answer).sel y = u) := by
  cases x with
  | probe p => exact Or.inr ⟨p.isPacket_packetBeats X.identifier, 0, sel_probe p⟩
  | request r => exact Or.inr ⟨Item.isPacket_request X.identifier r, 1, sel_request r⟩
  | foreign p magic_ne => exact Or.inl rfl

/-- The probes go to the one block, the requests to the other. -/
theorem filter_packetBeats (items : List Item) :
    ((items.flatMap (Item.packetBeats X.identifier)).filter
        fun x => (X.fork answer).sel x = 0) =
        (probes items).flatMap (Probe.packetBeats X.identifier) ∧
      ((items.flatMap (Item.packetBeats X.identifier)).filter
        fun x => (X.fork answer).sel x = 1) =
        (requests items).flatMap
          fun r => (r.decoded X.identifier).map EtherbonePacketRX.Decoded.beat := by
  induction items with
  | nil => exact ⟨rfl, rfl⟩
  | cons x items ih =>
    rw [List.flatMap_cons, List.filter_append, List.filter_append, ih.1, ih.2]
    cases x with
    | probe p =>
      have hfilter := Fork.filter_sel (F := X.fork answer) (sel_probe p)
      exact ⟨congrArg (· ++ _) (hfilter 0), congrArg (· ++ _) (hfilter 1)⟩
    | request r =>
      have hfilter := Fork.filter_sel (F := X.fork answer) (sel_request r)
      exact ⟨congrArg (· ++ _) (hfilter 0), congrArg (· ++ _) (hfilter 1)⟩
    | foreign p magic_ne => exact ⟨rfl, rfl⟩

/-- The probe block answers the probes. -/
theorem probe_starts (ps : List Probe) :
    ∃ k, (EtherboneProbe.simulation Bool).Starts (ps.flatMap (Probe.packetBeats X.identifier))
      (ps.flatMap (Probe.answerPacketBeats X.identifier)) k := by
  have h := EtherboneProbe.starts Bool (ps.flatMap (Probe.packetBeats X.identifier))
  rw [List.map_flatMap] at h
  exact ⟨_, h⟩

/-- The blocks make the replies that are due. -/
theorem makes (items : List Item) :
    ∃ ks, Fork.Makes
      (X.forkSimulation answer ((requests items).flatMap Request.accesses)
        ((requests items).flatMap fun r => r.record.words))
      (items.flatMap (Item.packetBeats X.identifier))
      (fun u => (due answer items u).flatMap (Reply.packetBeats X.identifier)) ks := by
  obtain ⟨hprobes, hrequests⟩ := X.filter_packetBeats answer items
  obtain ⟨j, hprobe⟩ := X.probe_starts (probes items)
  obtain ⟨k, hrecord⟩ := X.record_starts answer (requests items)
  refine ⟨fun | 0 => j | 1 => k, fun u => ?_, fun u => ?_⟩
  · match u with
    | 0 =>
      rw [hprobes, due, List.flatMap_map]
      exact hprobe
    | 1 =>
      rw [hrequests, due, List.flatMap_map]
      exact hrecord
  · exact Closed.flatMap fun x _ => Closed.of_packet (x.isPacket_packetBeats X.identifier)

/-! ## In front of the transmitter, and behind it -/

/-- The receiver and the blocks. -/
def merging (all : List Access) (stream : List RecordBeat) (bound : Nat) :
    Merging 1 PacketBeat.last
      ((EtherbonePacketRX.stage X.packetDepacketizer Bool).comp (X.fork answer).stage) :=
  ((X.packetDepacketizer.simulation Bool UserBeat.data UserBeat.last
      EtherbonePacketRX.decode).comp (EtherbonePacketRX.simulation Bool)).merge
    (Fork.merging (X.forkSimulation answer all stream) bound)

/-- In front of what the host sends, the replies that are due are merged. -/
theorem merging_starts (items : List Item) :
    ∃ bound w, (X.merging answer ((requests items).flatMap Request.accesses)
        ((requests items).flatMap fun r => r.record.words) bound).rel
      ((EtherbonePacketRX.stage X.packetDepacketizer Bool).comp (X.fork answer).stage).init
      (Chan.start (items.flatMap (Item.userBeats X.identifier)))
      (fun u => (due answer items u).flatMap (Reply.packetBeats X.identifier)) false w := by
  obtain ⟨ls, hmakes⟩ := X.makes answer items
  obtain ⟨bound, w, hfork⟩ := Fork.merging_starts_flatMap hmakes
    (fun x _ => X.routed_packetBeats answer x) fun zs _ => by
      obtain ⟨ks, hzs⟩ := X.makes answer zs
      exact ⟨_, _, ks, hzs⟩
  have hreceiver := Simulation.Starts.comp
    (Depacketizer.starts X.packetDepacketizer Bool
      fun (x : Item) (_ : x ∈ items) => x.words_userBeats X.identifier)
    (EtherbonePacketRX.starts Bool
      fun (x : Item) (_ : x ∈ items) => x.words_decoded X.identifier)
  exact ⟨bound, _, _, _, w, hreceiver, hfork, rfl⟩

variable {X answer} in
/-- In every run the bus has made a part of its accesses, and all of them in the end. -/
theorem busLog_of_merging {all : List Access} {stream : List RecordBeat} {bound w : Nat}
    {s : ((EtherbonePacketRX.stage X.packetDepacketizer Bool).comp (X.fork answer).stage).State}
    {c : Chan UserBeat} {outs : Fin 2 → List PacketBeat} {h : Bool}
    (hrel : (X.merging answer all stream bound).rel s c outs h w) :
    busLog s.2 <+: all ∧ (w = 0 → busLog s.2 = all) := by
  obtain ⟨m, j, l, -, hfork, hw⟩ := hrel
  obtain ⟨d, k, hrecord, hk⟩ := Fork.rel_of_merging hfork 1
  obtain ⟨m', j', l', -, ⟨m'', i, i', hmaster, -, hl⟩, hk'⟩ := hrecord
  refine ⟨EtherboneWishboneMaster.Rel.log_prefix hmaster, ?_⟩
  rintro rfl
  have hzero := hk (by omega)
  obtain rfl : i = 0 := by omega
  exact (EtherboneWishboneMaster.Rel.done hmaster).2.2

/-- What is behind the arbiter. -/
def sending : Simulation (EtherbonePacketTX.stage X.packetPacketizer X.identifier Bool) :=
  (X.packetPacketizer.simulation Bool (EtherbonePacketTX.format X.identifier)
    (EtherbonePacketTX.length_header X.identifier) Nat.zero_lt_two).comp (EtherbonePacketTX.simulation Bool)

/-- The replies get their headers, in whatever order they come. -/
theorem sending_starts (order : List Reply) :
    X.sending.Starts (order.flatMap (Reply.packetBeats X.identifier))
      (order.flatMap (Reply.userBeats X.identifier))
      (3 * (order.flatMap (Reply.packetBeats X.identifier)).length +
        2 * (order.flatMap (Reply.userBeats X.identifier)).length) :=
  Simulation.Starts.comp
    (Packetizer.starts X.packetPacketizer Bool _ _
      fun (x : Reply) (_ : x ∈ order) => x.words_packetBeats X.identifier)
    (EtherbonePacketTX.Rel.start _)

/-! ## Runs -/

/-- The core from reset, in front of what the host sends. -/
def fed (items : List Item) : (X.stage answer).State × Chan UserBeat :=
  ((X.stage answer).init, Chan.start (items.flatMap (Item.userBeats X.identifier)))

/-- In a run the bus makes accesses of the requests, in order, and none for the probes; the
replies of either block are given out as whole packets, in order; and all of this is complete
after so many cycles in which nobody waits. -/
structure Served (items : List Item) (cycles : Nat) (is : List (Stage.Drive Bool)) : Prop where
  accesses : log ((X.stage answer).driven.run (X.fed answer items) is).1 <+:
    (requests items).flatMap Request.accesses
  replies : ∃ order, Interleaved answer items order ∧
    moved Stage.given ((X.stage answer).driven.trace (X.fed answer items) is) <+:
      order.flatMap (Reply.userBeats X.identifier) ∧
    (cycles ≤ ((X.stage answer).driven.trace (X.fed answer items) is).countP Stage.free →
      moved Stage.given ((X.stage answer).driven.trace (X.fed answer items) is) =
        order.flatMap (Reply.userBeats X.identifier))
  completes :
    cycles ≤ ((X.stage answer).driven.trace (X.fed answer items) is).countP Stage.free →
      log ((X.stage answer).driven.run (X.fed answer items) is).1 =
        (requests items).flatMap Request.accesses

/-- What holds of every run, with `k` as a bound on what is left to do. -/
theorem fed_run (items : List Item) : ∃ cycles, ∀ is, ∃ order rest k,
    Interleaved answer items order ∧
      moved Stage.given ((X.stage answer).driven.trace (X.fed answer items) is) ++ rest =
        order.flatMap (Reply.userBeats X.identifier) ∧
      log ((X.stage answer).driven.run (X.fed answer items) is).1 <+:
        (requests items).flatMap Request.accesses ∧
      (k = 0 → rest = [] ∧ log ((X.stage answer).driven.run (X.fed answer items) is).1 =
        (requests items).flatMap Request.accesses) ∧
      (k = 0 ∨ ((X.stage answer).driven.trace (X.fed answer items) is).countP Stage.free + k ≤
        cycles) := by
  obtain ⟨bound, w, hstart⟩ := X.merging_starts answer items
  refine ⟨w + (3 * ((due answer items 0 ++ due answer items 1).flatMap
      (Reply.packetBeats X.identifier)).length +
    2 * ((due answer items 0 ++ due answer items 1).flatMap
      (Reply.userBeats X.identifier)).length), fun is => ?_⟩
  obtain ⟨packets, hordered, -, hrun⟩ :=
    (X.merging answer _ _ bound).run X.sending hstart (fun h => by cases h) is
  obtain ⟨order, hmerged, hinterleaved⟩ := hordered.exists_items port_due
    fun u x _ => x.isPacket_packetBeats X.identifier
  have hsending := X.sending_starts order
  rw [← hmerged] at hsending
  obtain ⟨outs, h, k, m, d, l, hmerging, hsent, hgiven, -, hcount⟩ := hrun hsending
  have hlog := busLog_of_merging hmerging
  -- the bound is the same for each order
  have hperm : order.Perm (due answer items 0 ++ due answer items 1) :=
    Interleaved.perm hinterleaved
  rw [hmerged, (hperm.flatMap_right _).length_eq, (hperm.flatMap_right _).length_eq] at hcount
  refine ⟨order, d.rest, k + l, hinterleaved, hgiven, hlog.1, fun hzero => ?_, hcount⟩
  obtain ⟨rfl, rfl⟩ : k = 0 ∧ l = 0 := by omega
  exact ⟨(X.sending.done hsent).2, hlog.2 rfl⟩

/-- **The core serves probes and requests in any mix**, and the two blocks never block each
other for good. -/
theorem items_served (items : List Item) : ∃ cycles, ∀ is, X.Served answer items cycles is := by
  obtain ⟨cycles, hrun⟩ := X.fed_run answer items
  refine ⟨cycles, fun is => ?_⟩
  obtain ⟨order, rest, k, hinterleaved, hgiven, hlog, hzero, hcount⟩ := hrun is
  refine ⟨hlog, ⟨order, hinterleaved, ⟨rest, hgiven⟩, fun hfree => ?_⟩, fun hfree => ?_⟩
  · obtain ⟨rfl, -⟩ := hzero (by omega)
    rwa [List.append_nil] at hgiven
  · exact (hzero (by omega)).2

/-- A bus that acknowledges at once makes nobody wait. -/
theorem waits_eager (s v x) : (X.stage answer).waits s true v x = false := by
  have hstages : ∀ u s v x, ((X.fork answer).stages u).waits s true v x = false := by
    intro u
    match u with
    | 0 => exact fun _ _ _ => rfl
    | 1 =>
      intro s v x
      simp [fork, record, Stage.comp, Depacketizer.stage, Packetizer.stage,
        EtherboneRecordReceiver.stage, EtherboneRecordSender.stage, EtherboneWishboneMaster.stage]
  simp [stage, Stage.comp, EtherbonePacketRX.stage, EtherbonePacketTX.stage,
    EtherbonePacketRX.checker, EtherbonePacketTX.gate, Depacketizer.stage, Packetizer.stage,
    Fork.stage, hstages]

/-- In front of a bus that acknowledges at once, and when nobody waits, everything is served
in some number of cycles. -/
theorem served_eager (items : List Item) : ∃ cycles order,
    let is := List.replicate cycles (Stage.eager true)
    Interleaved answer items order ∧
      moved Stage.given ((X.stage answer).driven.trace (X.fed answer items) is) =
        order.flatMap (Reply.userBeats X.identifier) ∧
      log ((X.stage answer).driven.run (X.fed answer items) is).1 =
        (requests items).flatMap Request.accesses := by
  obtain ⟨cycles, hrun⟩ := X.fed_run answer items
  obtain ⟨order, rest, k, hinterleaved, hgiven, -, hzero, hcount⟩ :=
    hrun (List.replicate (cycles + 1) (Stage.eager true))
  have hfree : ((X.stage answer).driven.trace (X.fed answer items)
      (List.replicate (cycles + 1) (Stage.eager true))).countP Stage.free = cycles + 1 :=
    Stage.countP_eager (X.waits_eager answer) _ _
  obtain ⟨rfl, hlog⟩ := hzero (by omega)
  rw [List.append_nil] at hgiven
  exact ⟨cycles + 1, order, hinterleaved, hgiven, hlog⟩

/-- What is only requests is served as by the core without the dispatcher and the arbiter. -/
theorem requests_alone (rs : List Request) : ∃ cycles, ∀ is,
    log ((X.stage answer).driven.run (X.fed answer (rs.map Item.request)) is).1 <+:
        rs.flatMap Request.accesses ∧
      moved Stage.given ((X.stage answer).driven.trace (X.fed answer (rs.map Item.request)) is) <+:
        (replies answer [] rs).flatMap (replyBeats X.identifier) ∧
      (cycles ≤ ((X.stage answer).driven.trace (X.fed answer (rs.map Item.request)) is).countP
          Stage.free →
        log ((X.stage answer).driven.run (X.fed answer (rs.map Item.request)) is).1 =
            rs.flatMap Request.accesses ∧
          moved Stage.given
              ((X.stage answer).driven.trace (X.fed answer (rs.map Item.request)) is) =
            (replies answer [] rs).flatMap (replyBeats X.identifier)) := by
  have hrequests : requests (rs.map Item.request) = rs := by
    simp [requests, List.filterMap_map, Function.comp_def, Item.request?]
  have hprobes : probes (rs.map Item.request) = [] := by
    simp [probes, List.filterMap_map, Function.comp_def, Item.probe?]
  obtain ⟨cycles, hrun⟩ := X.fed_run answer (rs.map Item.request)
  refine ⟨cycles, fun is => ?_⟩
  obtain ⟨order, rest, k, hinterleaved, hgiven, hlog, hzero, hcount⟩ := hrun is
  rw [hinterleaved.eq_values hprobes, hrequests, List.flatMap_map] at hgiven
  rw [hrequests] at hlog hzero
  refine ⟨hlog, ⟨rest, hgiven⟩, fun hfree => ?_⟩
  obtain ⟨rfl, hall⟩ := hzero (by omega)
  rw [List.append_nil] at hgiven
  exact ⟨hall, hgiven⟩

end WholeConfig

/-- The whole core of the SoC. -/
def wholeCore : WholeConfig where
  toConfig := Config.core
  Dispatcher := Dispatcher.status (Fin 2) probePort
  Arbiter := Arbiter.roundRobin 1

/-- A probe with one word. -/
def probeOne : Probe where
  header := 0x44116f4e
  header' := 0
  payload := [5]
  payload_ne := List.cons_ne_nil 5 []
  magic_eq := by decide
  pf_eq := by decide

/-- A read of one word. -/
def requestOne : Request := .read 0x100 1 ⟨by decide, by decide, by decide⟩

/-- A packet without the magic. -/
def foreignOne : RawPacket := ⟨0x12345678, 0, [1, 2], List.cons_ne_nil 1 [2]⟩

/-- A packet of each kind. -/
def mixedItems : List Item :=
  [.request requestOne, .foreign foreignOne (by decide), .probe probeOne]

/-- A bus that counts its accesses. -/
def countingBus (log : List Access) : BitVec 32 := BitVec.ofNat 32 log.length

theorem items_served_mixed :
    ∃ cycles, ∀ is, wholeCore.Served countingBus mixedItems cycles is :=
  wholeCore.items_served countingBus mixedItems

/-- The reply to the request, with the value one, and the response to the probe. -/
example : (moved Stage.given ((wholeCore.stage countingBus).driven.trace
      (wholeCore.fed countingBus mixedItems) (List.replicate 25 (Stage.eager true)))).map
        UserBeat.data =
    [0x44106f4e, 0, 0x10000, 0, 0x1000000, 0x44126f4e, 0, 5] := by
  decide +kernel

end UsbSniffer.Etherbone
