/-
  Usb/Dispatch.lean --- the receive side of the crossbar (gateware/usb.py, USBCrossbar).

  The beats of the depacketizer go to the user whose stream they announce, and those of
  no user are dropped.  The dispatcher chooses the user at the first beat of a packet and
  keeps to it until the last one, so the choice is right as long as no packet is left
  open when the depacketizer begins another one.
-/
import UsbSniffer.Sync.Component
import UsbSniffer.Usb.Crossbar
import UsbSniffer.Usb.Decode
import UsbSniffer.Usb.Timeout

set_option autoImplicit false

namespace UsbSniffer.Usb

open UsbSniffer.Sync

namespace USBCrossbar.Rx

/-! ## The receive side -/

/-- The ports, and the blocks between them and the link.  The dispatcher of the library chooses
among two ports at least; with one port it is a wire, and with none it takes nothing. -/
structure Config where
  users : Users
  two_ports : 2 ≤ users.dsts.length
  Depacketizer : USBDepacketizer.Config
  Dispatcher : Dispatcher (Option (Fin users.dsts.length))

variable {C : Config}

/-- A port, by its place among the users. -/
abbrev Port (C : Config) : Type := Fin C.users.dsts.length

/-- `dispatcher.sel`: the port with this destination, or the default. -/
def Config.sel (C : Config) (dst : BitVec 8) : Option (Port C) :=
  C.users.dsts.finIdxOf? dst.toNat

/-- The registers of both blocks. -/
structure State (C : Config) where
  depacketizer : USBDepacketizer.State C.Depacketizer
  dispatcher : C.Dispatcher.State

/-- The word offered, and the answers of the ports. -/
structure In (C : Config) where
  sinkValid : Bool
  sinkData : BitVec 32
  /-- `source.ready` of each port. -/
  ready : Port C → Bool

/-- What the depacketizer sees and shows, and where its beat goes. -/
structure Out (C : Config) where
  depacketizer : USBDepacketizer.In × USBDepacketizer.Out
  /-- The port that is connected. -/
  route : Option (Port C)

/-- The registers at a reset. -/
def init : State C where
  depacketizer := USBDepacketizer.init
  dispatcher := C.Dispatcher.init

/-- The selection, for the stream that is announced. -/
def sel (s : State C) : Option (Port C) := C.sel (USBDepacketizer.dst s.depacketizer)

/-- The port that is connected, or the default. -/
def route (s : State C) : Option (Port C) := C.Dispatcher.route s.dispatcher (sel s)

/-- The default takes every beat. -/
def sourceReady (s : State C) (i : In C) : Bool := (route s).elim true i.ready

/-- What the depacketizer sees. -/
def depacketizerIn (s : State C) (i : In C) : USBDepacketizer.In where
  sinkValid := i.sinkValid
  sinkData := i.sinkData
  sourceReady := sourceReady s i

/-- The beat of the depacketizer. -/
def source (s : State C) (i : In C) : UserSource :=
  USBDepacketizer.source s.depacketizer (depacketizerIn s i)

/-- What the dispatcher sees of it. -/
def port (s : State C) (i : In C) : PortStatus :=
  ⟨(source s i).valid, (source s i).last, sourceReady s i⟩

/-- The outputs in a cycle. -/
def out (s : State C) (i : In C) : Out C where
  depacketizer := (depacketizerIn s i, USBDepacketizer.out s.depacketizer (depacketizerIn s i))
  route := route s

/-- The clock edge. -/
def next (s : State C) (i : In C) : State C where
  depacketizer := USBDepacketizer.next s.depacketizer (depacketizerIn s i)
  dispatcher := C.Dispatcher.next s.dispatcher (sel s) (port s i)

/-- The receive side. -/
def machine (C : Config) : Machine (State C) (In C) (Out C) where
  out := out
  next := next

/-- The depacketizer in its place. -/
def depacketizer : Component (machine C) (USBDepacketizer.machine C.Depacketizer) where
  proj := State.depacketizer
  view c := c.2.depacketizer
  out_eq _ _ := rfl
  next_eq _ _ := rfl

/-- The word taken from the link in a cycle. -/
def sinkWord (c : In C × Out C) : List (BitVec 32) := USBDepacketizer.sinkWord c.2.depacketizer

/-- The beat of the depacketizer in a cycle, whoever takes it. -/
def sourceBeat (c : In C × Out C) : List UserSource :=
  USBDepacketizer.sourceBeat c.2.depacketizer

/-- The beat that a port takes in a cycle, or the default. -/
def portBeat (u : Option (Port C)) (c : In C × Out C) : List UserSource :=
  if c.2.route = u then sourceBeat c else []

/-- The timer of the depacketizer is not done with a packet open. -/
def ClosesPacket (s : State C) (i : In C) : Prop :=
  USBDepacketizer.ClosesPacket s.depacketizer (depacketizerIn s i)

/-- The timer of the depacketizer is not done. -/
def NoExpiry (s : State C) (_ : In C) : Prop := USBDepacketizer.done s.depacketizer = false

instance (s : State C) (i : In C) : Decidable (NoExpiry s i) :=
  inferInstanceAs (Decidable (_ = _))

/-! ## One cycle -/

/-- A packet is under way in COPY only, and the selection is the one of its stream. -/
structure Routed (s : State C) : Prop where
  depacketizer : USBDepacketizer.Inv s.depacketizer
  counted : USBDepacketizer.Counted s.depacketizer
  ongoing : ∀ k, C.Dispatcher.ongoing s.dispatcher = some k →
    s.depacketizer.fsm = .copy ∧ s.depacketizer.cnt ≠ 0 ∧ k = sel s

theorem routed_init : Routed (init : State C) where
  depacketizer := USBDepacketizer.inv_init
  counted h := by cases h
  ongoing k h := by
    change C.Dispatcher.ongoing C.Dispatcher.init = some k at h
    rw [C.Dispatcher.ongoing_init] at h
    cases h

/-- Whatever is under way, the port of the announced stream is connected. -/
theorem route_eq {s : State C} (h : Routed s) : route s = sel s := by
  unfold route Dispatcher.route
  cases hongoing : C.Dispatcher.ongoing s.dispatcher with
  | none => rfl
  | some k => exact (h.ongoing k hongoing).2.2

/-- The beats of a cycle go where their stream says. -/
theorem portBeat_eq {s : State C} (h : Routed s) (i : In C) (u : Option (Port C)) :
    portBeat u (i, out s i) =
      (sourceBeat (i, out s i)).filter fun b => C.sel b.dst = u := by
  change (if route s = u then _ else []) = _
  rw [route_eq h]
  change (if sel s = u then beat _ _ (source s i) else []) =
    (beat _ _ (source s i)).filter _
  unfold beat
  have hdst : C.sel (source s i).dst = sel s := rfl
  split_ifs with hsel hfire
  · rw [List.filter_cons_of_pos (by simpa [hdst] using hsel), List.filter_nil]
  · rfl
  · rw [List.filter_cons_of_neg (by simpa [hdst] using hsel), List.filter_nil]
  · rfl

/-- In COPY the announced stream stays. -/
theorem sel_next {s : State C} (h : Routed s) (i : In C) (hfsm : s.depacketizer.fsm = .copy)
    (hdone : USBDepacketizer.done s.depacketizer = false) : sel (next s i) = sel s := by
  have hloaded := (USBDepacketizer.next_copy hfsm hdone (h.depacketizer.copy hfsm)
    (depacketizerIn s i)).2.1
  change C.sel (USBDepacketizer.dst (USBDepacketizer.next s.depacketizer (depacketizerIn s i))) = _
  unfold USBDepacketizer.dst
  rw [hloaded]
  rfl

theorem routed_next {s : State C} (i : In C) (hcloses : ClosesPacket s i) (h : Routed s) :
    Routed (next s i) := by
  have hInv' := USBDepacketizer.inv_next (depacketizerIn s i) h.depacketizer
  have hcounted' := USBDepacketizer.counted_next (depacketizerIn s i) h.depacketizer h.counted
  refine ⟨hInv', hcounted', fun k hk => ?_⟩
  change C.Dispatcher.ongoing (C.Dispatcher.next s.dispatcher (sel s) (port s i)) = some k at hk
  rw [C.Dispatcher.ongoing_next] at hk
  split_ifs at hk with hends hfire
  · -- a beat that is not the last one, so that the timer is not done
    have hroute : (C.Dispatcher.ongoing s.dispatcher).getD (sel s) = sel s := route_eq h
    rw [hroute] at hk
    cases hfsm : s.depacketizer.fsm with
    | idle => simp [port, source, USBDepacketizer.source, USBDepacketizer.sourceValid, hfsm] at hfire
    | receiveHeader =>
      simp [port, source, USBDepacketizer.source, USBDepacketizer.sourceValid, hfsm] at hfire
    | copy =>
      have hcopy : (USBDepacketizer.Fsm.copy == USBDepacketizer.Fsm.copy) = true := rfl
      simp only [PortStatus.ends, port, source, USBDepacketizer.source,
        USBDepacketizer.sourceValid, hfsm, hcopy, Bool.true_and] at hends hfire
      have hmove : ((depacketizerIn s i).sinkValid && (depacketizerIn s i).sourceReady) = true :=
        hfire
      have hlast : USBDepacketizer.last s.depacketizer = false := by
        rw [Bool.and_right_comm, hfire, Bool.true_and] at hends
        exact Bool.not_eq_true _ ▸ hends
      have hdone : USBDepacketizer.done s.depacketizer = false := by
        rw [← Bool.not_eq_true]
        intro hdone
        have hclosed := hcloses hfsm hdone
        rw [if_pos hmove, hlast] at hclosed
        cases hclosed
      obtain ⟨hcnt, -, hnext⟩ :=
        USBDepacketizer.next_copy hfsm hdone (h.depacketizer.copy hfsm) (depacketizerIn s i)
      rw [hmove, hlast] at hnext
      rw [hmove, if_pos rfl] at hcnt
      refine ⟨hnext, ?_, ?_⟩
      · change (USBDepacketizer.next s.depacketizer (depacketizerIn s i)).cnt ≠ 0
        rw [hcnt]
        exact USBDepacketizer.cnt_ne_zero h.counted hfsm hlast
      · rw [sel_next h i hfsm hdone]
        exact (Option.some.inj hk).symm
  · -- nothing moves in the packet under way, which has beats out
    obtain ⟨hfsm, hcnt, hsel⟩ := h.ongoing k hk
    have hmove : ((depacketizerIn s i).sinkValid && (depacketizerIn s i).sourceReady) = false := by
      simp only [port, source, USBDepacketizer.source, USBDepacketizer.sourceValid, hfsm] at hfire
      exact Bool.not_eq_true _ ▸ hfire
    have hdone : USBDepacketizer.done s.depacketizer = false := by
      rw [← Bool.not_eq_true]
      intro hdone
      have hclosed := hcloses hfsm hdone
      rw [hmove, if_neg Bool.false_ne_true] at hclosed
      exact hcnt hclosed
    obtain ⟨hcnt', -, hnext⟩ :=
      USBDepacketizer.next_copy hfsm hdone (h.depacketizer.copy hfsm) (depacketizerIn s i)
    rw [hmove, Bool.false_and] at hnext
    rw [hmove, if_neg Bool.false_ne_true] at hcnt'
    refine ⟨hnext, ?_, ?_⟩
    · change (USBDepacketizer.next s.depacketizer (depacketizerIn s i)).cnt ≠ 0
      rw [hcnt']
      exact hcnt
    · rw [sel_next h i hfsm hdone]
      exact hsel

/-! ## Whole runs -/

theorem routed_run (is : List (In C)) (hok : (machine C).AllSteps ClosesPacket init is) :
    Routed ((machine C).run init is) ∧ ∀ u, moved (portBeat u) ((machine C).trace init is) =
      (moved sourceBeat ((machine C).trace init is)).filter fun b => C.sel b.dst = u := by
  refine (machine C).history_induction ClosesPacket
    (fun s tr => Routed s ∧ ∀ u, moved (portBeat u) tr =
      (moved sourceBeat tr).filter fun b => C.sel b.dst = u)
    ⟨routed_init, fun _ => rfl⟩ ?_ is hok
  rintro s tr i hcloses ⟨hrouted, hbeats⟩
  refine ⟨routed_next i hcloses hrouted, fun u => ?_⟩
  rw [moved_append, moved_append, moved_singleton, moved_singleton, List.filter_append, hbeats u]
  exact congrArg _ (portBeat_eq hrouted i u)

/-- A port is selected by its own destination only. -/
theorem sel_eq_some (dst : BitVec 8) (u : Port C) :
    C.sel dst = some u ↔ C.users.dsts.get u = dst.toNat := by
  unfold Config.sel
  rw [List.finIdxOf?_eq_some_iff]
  refine ⟨fun h => h.1, fun h => ⟨h, fun v hv heq => ?_⟩⟩
  have hsame := List.nodup_iff_injective_get.mp C.users.distinct (heq.trans h.symm)
  exact absurd (hsame ▸ hv) (lt_irrefl _)

/-- **Beats go to the stream that they announce.**  In a run in which the timer is not done
with a packet open, a port takes the beats with its own destination, all of them and in
their order, and those with no port's are dropped. -/
theorem beats_dispatched (is : List (In C)) (hok : (machine C).AllSteps ClosesPacket init is) :
    let tr := (machine C).trace init is
    (∀ u : Port C, moved (portBeat (some u)) tr =
        (moved sourceBeat tr).filter fun b => C.users.dsts.get u = b.dst.toNat) ∧
      moved (portBeat none) tr =
        (moved sourceBeat tr).filter fun b => b.dst.toNat ∉ C.users.dsts := by
  intro tr
  obtain ⟨-, hbeats⟩ := routed_run is hok
  refine ⟨fun u => ?_, ?_⟩
  · rw [hbeats (some u)]
    exact List.filter_congr fun b _ => decide_eq_decide.mpr (sel_eq_some b.dst u)
  · rw [hbeats none]
    exact List.filter_congr fun b _ => decide_eq_decide.mpr (by
      unfold Config.sel
      exact List.finIdxOf?_eq_none_iff)

/-- Two ports, in front of a depacketizer with a timer of this period. -/
def twoPorts (period : Nat) (hperiod : 0 < period) : Config where
  users := ⟨[0, 1], by decide⟩
  two_ports := Nat.le_refl 2
  Depacketizer := USBDepacketizer.withPeriod period hperiod
  Dispatcher := Dispatcher.status (Option (Fin 2)) none

/-- The port of stream 0. -/
def port0 {period : Nat} {hperiod : 0 < period} : Port (twoPorts period hperiod) :=
  ⟨0, Nat.zero_lt_two⟩

/-- The port of stream 1. -/
def port1 {period : Nat} {hperiod : 0 < period} : Port (twoPorts period hperiod) :=
  ⟨1, Nat.one_lt_two⟩

instance (s : State C) (i : In C) : Decidable (ClosesPacket s i) :=
  inferInstanceAs (Decidable (USBDepacketizer.ClosesPacket _ _))

/-- The cycles of the link, with both ports ready. -/
def bothReady {period : Nat} {hperiod : 0 < period} (is : List USBDepacketizer.In) :
    List (In (twoPorts period hperiod)) :=
  is.map fun i => ⟨i.sinkValid, i.sinkData, fun _ => true⟩

/-- The timer is done in the header of the first packet. -/
def lateHeader : List USBDepacketizer.In :=
  [USBDepacketizer.wordCycle preamble] ++ List.replicate 5 USBDepacketizer.quietCycle ++
    ([preamble, 1, 4, 9, 9] : List (BitVec 32)).map USBDepacketizer.wordCycle

theorem beats_dispatched_lateHeader :
    let tr := (machine (twoPorts 4 (by decide))).trace init (bothReady lateHeader)
    (∀ u : Port (twoPorts 4 (by decide)), moved (portBeat (some u)) tr =
        (moved sourceBeat tr).filter fun b => [0, 1].get u = b.dst.toNat) ∧
      moved (portBeat none) tr =
        (moved sourceBeat tr).filter fun b => b.dst.toNat ∉ [0, 1] :=
  beats_dispatched (C := twoPorts 4 (by decide)) (bothReady lateHeader) (by decide)

/-- When it is done behind a beat of the first packet, the first port gets the word of the
second one. -/
example :
    let tr := (machine (twoPorts 6 (by decide))).trace init (bothReady USBDepacketizer.lateRun)
    moved (portBeat (some port0)) tr = [⟨true, false, 0, 8, 7⟩, ⟨true, true, 1, 4, 9⟩] ∧
      moved (portBeat (some port1)) tr = [] := by
  decide

/-! ## The host's packets -/

/-- The packet is for this port, or for none. -/
def isFor (u : Option (Port C)) : USBDepacketizer.Item → Bool
  | .word _ _ => false
  | .packet p => C.sel p.dst = u

/-- All beats of a packet have its destination. -/
theorem filter_beats (u : Option (Port C)) (items : List USBDepacketizer.Item) :
    ((items.flatMap USBDepacketizer.Item.beats).filter fun b => C.sel b.dst = u) =
      (items.filter (isFor u)).flatMap USBDepacketizer.Item.beats := by
  have hbeats : ∀ (p : USBDepacketizer.Packet) (ws : List (BitVec 32)),
      ((p.beatsOf ws).filter fun b => C.sel b.dst = u) =
        if C.sel p.dst = u then p.beatsOf ws else [] := by
    intro p ws
    have hdst : ∀ b ∈ p.beatsOf ws, b.dst = p.dst := by
      induction ws with
      | nil => simp [USBDepacketizer.Packet.beatsOf]
      | cons w ws ih =>
        intro b hb
        rcases List.mem_cons.mp hb with rfl | hb
        · rfl
        · exact ih b hb
    split_ifs with hsel
    · exact List.filter_eq_self.mpr fun b hb => by simpa [hdst b hb] using hsel
    · exact List.filter_eq_nil_iff.mpr fun b hb => by simpa [hdst b hb] using hsel
  induction items with
  | nil => rfl
  | cons item items ih =>
    rw [List.flatMap_cons, List.filter_append, ih]
    cases item with
    | word w h => rfl
    | packet p =>
      rw [List.filter_cons]
      change List.filter _ (p.beatsOf p.payload) ++ _ = _
      rw [hbeats]
      by_cases hsel : C.sel p.dst = u
      · rw [if_pos hsel, if_pos (by simpa [isFor] using hsel), List.flatMap_cons]
        rfl
      · rw [if_neg hsel, if_neg (by simpa [isFor] using hsel), List.nil_append]

/-- **Every port gets the host's packets for it, and no others.**  When the words taken from
the link are those of packets of the host, and of words between them, the beats that a port
has taken are the beginning of those of its packets, one packet behind the other; and with
the last word they are all there. -/
theorem packets_dispatched (items : List USBDepacketizer.Item)
    (hfits : USBDepacketizer.Fits items) (is : List (In C))
    (hok : (machine C).AllSteps NoExpiry init is)
    (hin : moved sinkWord ((machine C).trace init is) <+:
      items.flatMap USBDepacketizer.Item.words) (u : Option (Port C)) :
    let tr := (machine C).trace init is
    moved (portBeat u) tr <+: (items.filter (isFor u)).flatMap USBDepacketizer.Item.beats ∧
      (moved sinkWord tr = items.flatMap USBDepacketizer.Item.words →
        moved (portBeat u) tr =
          (items.filter (isFor u)).flatMap USBDepacketizer.Item.beats) := by
  intro tr
  -- without an expiry no packet is left open
  have hcloses : (machine C).AllSteps ClosesPacket init is :=
    hok.imp fun s i hdone _ hyes => by
      change USBDepacketizer.done s.depacketizer = false at hdone
      rw [hdone] at hyes
      cases hyes
  have hbeats := (routed_run is hcloses).2 u
  change moved (portBeat u) tr = (moved sourceBeat tr).filter _ at hbeats
  rw [hbeats, ← filter_beats]
  have hstart : USBDepacketizer.Expects (depacketizer.proj (init : State C))
      (items.flatMap USBDepacketizer.Item.script) (USBDepacketizer.packetCount items) :=
    ⟨items, hfits, Or.inl C.Depacketizer.HeaderPack.loaded_init, rfl, rfl⟩
  have hwords : moved USBDepacketizer.sinkWord ((USBDepacketizer.machine C.Depacketizer).trace
      (depacketizer.proj (init : State C)) (depacketizer.inputs init is)) = moved sinkWord tr :=
    depacketizer.moved_view USBDepacketizer.sinkWord init is
  have hsource : moved USBDepacketizer.sourceBeat ((USBDepacketizer.machine
      C.Depacketizer).trace (depacketizer.proj (init : State C)) (depacketizer.inputs init is)) =
      moved sourceBeat tr :=
    depacketizer.moved_view USBDepacketizer.sourceBeat init is
  obtain ⟨taken, rest, -, hsplit, hsink, hbeats', -⟩ :=
    USBDepacketizer.expects_run (depacketizer.inputs init is)
      (depacketizer.allSteps (fun _ _ h => h) hok) hstart
      (by rw [hwords, USBDepacketizer.words_script]; exact hin)
  rw [hwords] at hsink
  rw [hsource] at hbeats'
  have hall : items.flatMap USBDepacketizer.Item.beats =
      moved sourceBeat tr ++ rest.flatMap Prod.snd := by
    rw [hbeats', ← List.flatMap_append, ← hsplit, USBDepacketizer.beats_script]
  rw [hall, List.filter_append]
  refine ⟨List.prefix_append _ _, fun hdone => ?_⟩
  have hnil : rest = [] := by
    have hlen := congrArg List.length hdone
    rw [hsink, ← USBDepacketizer.words_script, List.length_map, List.length_map, hsplit,
      List.length_append] at hlen
    exact List.length_eq_zero_iff.mp (by omega)
  rw [hnil]
  exact (List.append_nil _).symm

/-- A packet for each port, and one for none. -/
def threePackets : List USBDepacketizer.Item :=
  [.packet ⟨0, [7], by simp⟩, .packet ⟨5, [6], by simp⟩, .packet ⟨1, [8], by simp⟩]

/-- Their words, with a cycle more for each header. -/
def threeCycles : List (In (twoPorts 1000 (by decide))) :=
  bothReady (([preamble, 0, 4, 7, 7, preamble, 5, 4, 6, 6, preamble, 1, 4, 8, 8] :
    List (BitVec 32)).map USBDepacketizer.wordCycle)

theorem packets_dispatched_three :
    let tr := (machine (twoPorts 1000 (by decide))).trace init threeCycles
    moved (portBeat (some port1)) tr <+:
        (threePackets.filter (isFor (some (port1 : Port (twoPorts 1000 (by decide)))))).flatMap
          USBDepacketizer.Item.beats ∧
      (moved sinkWord tr = threePackets.flatMap USBDepacketizer.Item.words →
        moved (portBeat (some port1)) tr =
          (threePackets.filter (isFor (some (port1 : Port (twoPorts 1000 (by decide)))))).flatMap
            USBDepacketizer.Item.beats) := by
  have hfits : USBDepacketizer.Fits threePackets := by
    intro item hitem
    simp only [threePackets, List.mem_cons, List.not_mem_nil, or_false] at hitem
    rcases hitem with rfl | rfl | rfl <;> exact (by decide : 4 * 1 < 2 ^ 32)
  have hok : (machine (twoPorts 1000 (by decide))).AllSteps NoExpiry init threeCycles := by decide
  have hin : moved sinkWord ((machine (twoPorts 1000 (by decide))).trace init threeCycles) <+:
      threePackets.flatMap USBDepacketizer.Item.words := by decide
  exact packets_dispatched threePackets hfits threeCycles hok hin (some port1)

end USBCrossbar.Rx

end UsbSniffer.Usb
