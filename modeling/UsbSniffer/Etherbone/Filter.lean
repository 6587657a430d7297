/-
  Etherbone/Filter.lean --- the packet receiver passes whole packets (gateware/etherbone.py,
  EtherbonePacketRX).

  The first word of a packet is held for two cycles, so that the register of the check
  shows the magic of this packet when it is looked at.  The words behind the
  depacketizer may come and go as they like.
-/
import UsbSniffer.Etherbone.Packet

set_option autoImplicit false

namespace UsbSniffer.Etherbone

open UsbSniffer.Sync

namespace EtherbonePacketRX

/-- A packet behind the depacketizer: the fields of its header, and its payload, each word
with the length that it comes with. -/
structure Delivered where
  magic : BitVec 16
  pf : Bool
  pr : Bool
  nr : Bool
  words : List (BitVec 32 × BitVec 32)
  words_ne : words ≠ []

/-- The beats of a packet: the header does not change, and the last word is marked. -/
def Delivered.beats (p : Delivered) : List Decoded :=
  (marked p.words).map fun w => ⟨p.magic, ⟨p.pf, p.pr, p.nr, w.1.1, w.1.2, w.2⟩⟩

/-- The packet has the magic of Etherbone. -/
def Delivered.passes (p : Delivered) : Bool := p.magic == etherboneMagic

/-- The comparison of `EtherbonePacketRX` with the magic. -/
def Decoded.passes (x : Decoded) : Bool := x.magic == etherboneMagic

/-! ## The machine behind the depacketizer -/

/-- What the surroundings decide in a cycle: whether the next beat is there, what the
depacketizer shows if it is not, and whether the source is ready. -/
structure Surroundings where
  valid : Bool
  gap : Decoded
  ready : Bool
  deriving DecidableEq, Repr

/-- What passes in a cycle on both sides of the filter. -/
structure Wires where
  sinkValid : Bool
  sinkReady : Bool
  sink : Decoded
  sourceValid : Bool
  source : PacketBeat
  deriving DecidableEq, Repr

/-- The beats still to come are in front of the machine. -/
def fed : Machine (State × List Decoded) Surroundings Wires where
  out s i :=
    let v := i.valid && !s.2.isEmpty
    let x := if v then s.2.headD default else i.gap
    { sinkValid := v
      sinkReady := sinkReady s.1 v i.ready
      sink := x
      sourceValid := sourceValid s.1 v
      source := x.beat }
  next s i :=
    let v := i.valid && !s.2.isEmpty
    let x := if v then s.2.headD default else i.gap
    (next s.1 v x i.ready, if v && sinkReady s.1 v i.ready then s.2.tail else s.2)

/-- The beat taken from the depacketizer in a cycle. -/
def taken (c : Surroundings × Wires) : List Decoded := beat c.2.sinkValid c.2.sinkReady c.2.sink

/-- The beat accepted on `source` in a cycle. -/
def accepted (c : Surroundings × Wires) : List PacketBeat :=
  beat c.2.sourceValid c.1.ready c.2.source

/-- Nobody waits in this cycle. -/
def eager (c : Surroundings × Wires) : Bool := c.1.valid && c.1.ready

/-! ## One cycle -/

/-- Beats of packets: after a word that is not the last one comes another one with the
same header. -/
def Framed : List Decoded → Prop
  | [] => True
  | x :: xs =>
      (x.beat.last = false → ∃ y ys, xs = y :: ys ∧ y.passes = x.passes) ∧ Framed xs

/-- Once the first word of a packet has been looked at, the machine knows what to do with
the packet in front of it. -/
def Decided (s : State) (rest : List Decoded) : Prop :=
  match s.fsm with
  | .idle => True
  | .check => ∃ x xs, rest = x :: xs ∧ x.passes = s.valid
  | .present => ∃ x xs, rest = x :: xs ∧ x.passes = true
  | .drop => ∃ x xs, rest = x :: xs ∧ x.passes = false

/-- What a cycle does. -/
structure Step (s : State) (rest : List Decoded) (i : Surroundings) : Prop where
  decided : Decided (fed.next (s, rest) i).1 (fed.next (s, rest) i).2
  consumed : taken (i, fed.out (s, rest) i) ++ (fed.next (s, rest) i).2 = rest
  passed : accepted (i, fed.out (s, rest) i) =
    ((taken (i, fed.out (s, rest) i)).filter Decoded.passes).map Decoded.beat
  moves : rest = [] ∨ (eager (i, fed.out (s, rest) i)).toNat +
    (3 * (fed.next (s, rest) i).2.length - spent (fed.next (s, rest) i).1) ≤
      3 * rest.length - spent s

variable {s : State} {x : Decoded} {xs : List Decoded}

/-- Nothing is left. -/
theorem step_nil (h : Decided s []) (i : Surroundings) : Step s [] i := by
  have hfsm : s.fsm = .idle := by
    unfold Decided at h
    cases hf : s.fsm with
    | idle => rfl
    | check | present | drop =>
      rw [hf] at h
      obtain ⟨x, xs, hrest, -⟩ := h
      cases hrest
  have hnext : (fed.next (s, []) i).1.fsm = .idle := by
    simp [fed, next, hfsm]
  exact ⟨by simp [Decided, hnext], by simp [taken, fed], by simp [accepted, taken, fed, sourceValid, hfsm],
    Or.inl rfl⟩

/-- The first word of a packet is held and its magic goes to the register. -/
theorem step_idle (hfsm : s.fsm = .idle) (i : Surroundings) : Step s (x :: xs) i := by
  cases hvalid : i.valid with
  | false =>
    have hnext : fed.next (s, x :: xs) i = (⟨false, .idle⟩, x :: xs) := by
      simp [fed, next, hfsm, hvalid]
    refine ⟨by simp [Decided, hnext], ?_, ?_, Or.inr ?_⟩
    · simp [taken, fed, hvalid]
    · simp [accepted, taken, fed, sourceValid, hfsm, hvalid]
    · simp [hnext, eager, hvalid, spent, hfsm]
  | true =>
    have hnext : fed.next (s, x :: xs) i = (⟨x.passes, .check⟩, x :: xs) := by
      simp [fed, next, hfsm, hvalid, sinkReady, Decoded.passes]
    refine ⟨by simp [Decided, hnext], ?_, ?_, Or.inr ?_⟩
    · simp [taken, fed, hvalid, sinkReady, hfsm]
    · simp [accepted, taken, fed, sourceValid, sinkReady, hfsm, hvalid]
    · have heager := Bool.toNat_le (eager (i, fed.out (s, x :: xs) i))
      simp only [hnext, spent, hfsm, List.length_cons]
      omega

/-- The register decides. -/
theorem step_check (hfsm : s.fsm = .check) (hx : x.passes = s.valid) (i : Surroundings) :
    Step s (x :: xs) i := by
  have hnext : (fed.next (s, x :: xs) i).1.fsm = (if s.valid then .present else .drop) ∧
      (fed.next (s, x :: xs) i).2 = x :: xs := by
    simp [fed, next, sinkReady, hfsm]
  refine ⟨?_, ?_, ?_, Or.inr ?_⟩
  · unfold Decided
    rw [hnext.1, hnext.2]
    cases hs : s.valid with
    | true => exact ⟨x, xs, rfl, hx.trans hs⟩
    | false => exact ⟨x, xs, rfl, hx.trans hs⟩
  · simp [taken, fed, sinkReady, hfsm, next]
  · simp [accepted, taken, fed, sourceValid, sinkReady, hfsm]
  · have heager := Bool.toNat_le (eager (i, fed.out (s, x :: xs) i))
    have hspent : spent (fed.next (s, x :: xs) i).1 = 2 := by
      unfold spent
      rw [hnext.1]
      cases s.valid <;> rfl
    have hspent' : spent s = 1 := by
      unfold spent
      rw [hfsm]
    rw [hspent, hspent', hnext.2, List.length_cons]
    omega

/-- What a cycle of a packet that is passed, or dropped, does: the word is taken unless it
is not there or the source of a passed one is not ready. -/
theorem wires_move {p : Bool} (hfsm : s.fsm = if p then .present else .drop) (i : Surroundings) :
    taken (i, fed.out (s, x :: xs) i) = beat i.valid (i.ready || !p) x ∧
      accepted (i, fed.out (s, x :: xs) i) = beat (p && i.valid) i.ready x.beat ∧
      (fed.next (s, x :: xs) i).2 = (if i.valid && (i.ready || !p) then xs else x :: xs) ∧
      (fed.next (s, x :: xs) i).1.fsm =
        if i.valid && (i.ready || !p) && x.beat.last then .idle else s.fsm := by
  cases p with
  | true =>
    have hpresent : s.fsm = .present := hfsm
    cases hvalid : i.valid <;>
      simp [taken, accepted, fed, sinkReady, sourceValid, next, hpresent, hvalid, beat,
        Bool.and_comm]
  | false =>
    have hdrop : s.fsm = .drop := hfsm
    cases hvalid : i.valid <;>
      simp [taken, accepted, fed, sinkReady, sourceValid, next, hdrop, hvalid, beat]

/-- The word taken from a packet is accepted behind the machine if the packet is passed. -/
theorem passed_beat {p : Bool} (hx : x.passes = p) (v r : Bool) :
    ((beat v (r || !p) x).filter Decoded.passes).map Decoded.beat =
      beat (p && v) r x.beat := by
  cases p with
  | true => cases v <;> cases r <;> simp [beat, hx]
  | false => cases v <;> cases r <;> simp [beat, hx]

/-- A word is passed or dropped with its packet, and the packet goes on unless the word
is the last one. -/
theorem step_move {p : Bool} (hfsm : s.fsm = if p then .present else .drop)
    (hx : x.passes = p) (hxs : Framed (x :: xs)) (i : Surroundings) : Step s (x :: xs) i := by
  obtain ⟨htaken, haccepted, hrest, hnext⟩ := @wires_move s x xs p hfsm i
  have hspent : spent s = 2 := by
    unfold spent
    rw [hfsm]
    cases p <;> rfl
  have hdecided : ∀ (s' : State) (y : Decoded) (ys : List Decoded), s'.fsm = s.fsm →
      y.passes = p → Decided s' (y :: ys) := by
    intro s' y ys hs' hy
    unfold Decided
    rw [hs', hfsm]
    cases p with
    | true => exact ⟨y, ys, rfl, hy⟩
    | false => exact ⟨y, ys, rfl, hy⟩
  cases hfire : i.valid && (i.ready || !p) with
  | false =>
    rw [hfire] at hrest hnext
    refine ⟨?_, ?_, ?_, Or.inr ?_⟩
    · rw [hrest]
      exact hdecided _ x xs hnext hx
    · rw [htaken, beat_of_quiet hfire, hrest]
      rfl
    · rw [htaken, haccepted]
      exact (passed_beat hx i.valid i.ready).symm
    · have heager : eager (i, fed.out (s, x :: xs) i) = false := by
        unfold eager
        cases hv : i.valid <;> cases hr : i.ready <;> simp [hv, hr] at hfire ⊢
      have hspent' : spent (fed.next (s, x :: xs) i).1 = spent s := by
        unfold spent
        rw [hnext]
        rfl
      rw [heager, hrest, hspent']
      simp
  | true =>
    rw [hfire] at hrest hnext
    rw [Bool.true_and] at hnext
    refine ⟨?_, ?_, ?_, Or.inr ?_⟩
    · rw [hrest]
      cases hlast : x.beat.last with
      | true =>
        rw [hlast] at hnext
        unfold Decided
        rw [hnext]
        trivial
      | false =>
        obtain ⟨y, ys, rfl, hy⟩ := hxs.1 hlast
        rw [hlast] at hnext
        exact hdecided _ y ys hnext (hy.trans hx)
    · rw [htaken, beat_of_fire hfire, hrest]
      rfl
    · rw [htaken, haccepted]
      exact (passed_beat hx i.valid i.ready).symm
    · have heager := Bool.toNat_le (eager (i, fed.out (s, x :: xs) i))
      rw [hrest, hspent]
      simp only [if_true, List.length_cons]
      omega

theorem step {rest : List Decoded} (h : Decided s rest) (hrest : Framed rest) (i : Surroundings) :
    Step s rest i := by
  cases rest with
  | nil => exact step_nil h i
  | cons x xs =>
    unfold Decided at h
    cases hfsm : s.fsm with
    | idle => exact step_idle hfsm i
    | check =>
      rw [hfsm] at h
      obtain ⟨y, ys, heq, hy⟩ := h
      obtain rfl := List.head_eq_of_cons_eq heq
      exact step_check hfsm hy i
    | present =>
      rw [hfsm] at h
      obtain ⟨y, ys, heq, hy⟩ := h
      obtain rfl := List.head_eq_of_cons_eq heq
      exact step_move (p := true) hfsm hy hrest i
    | drop =>
      rw [hfsm] at h
      obtain ⟨y, ys, heq, hy⟩ := h
      obtain rfl := List.head_eq_of_cons_eq heq
      exact step_move (p := false) hfsm hy hrest i

/-! ## Runs -/

theorem Framed.of_append {ys zs : List Decoded} (h : Framed (ys ++ zs)) : Framed zs := by
  induction ys with
  | nil => exact h
  | cons y ys ih => exact ih h.2

/-- A run takes the beats in order, passes those of the packets with the magic, and comes
to an end. -/
theorem run_passed {s : State} {rest : List Decoded} (h : Decided s rest)
    (hrest : Framed rest) (is : List Surroundings) :
    moved taken (fed.trace (s, rest) is) ++ (fed.run (s, rest) is).2 = rest ∧
      moved accepted (fed.trace (s, rest) is) =
        ((moved taken (fed.trace (s, rest) is)).filter Decoded.passes).map Decoded.beat ∧
      ((fed.run (s, rest) is).2 = [] ∨ (fed.trace (s, rest) is).countP eager +
        (3 * (fed.run (s, rest) is).2.length - spent (fed.run (s, rest) is).1) ≤
          3 * rest.length - spent s) := by
  induction is generalizing s rest with
  | nil => exact ⟨rfl, rfl, Or.inr (by simp)⟩
  | cons i is ih =>
    obtain ⟨hdecided, htook, hpassed, hmove⟩ := step h hrest i
    rcases hnext : fed.next (s, rest) i with ⟨s', rest'⟩
    rw [hnext] at hdecided htook hmove
    dsimp only at hdecided htook hmove
    obtain ⟨hconsumed, hpassed', hmoves⟩ :=
      ih hdecided (Framed.of_append (htook.symm ▸ hrest))
    rw [Machine.run_cons, Machine.trace_cons, hnext, moved_cons, moved_cons]
    refine ⟨?_, ?_, ?_⟩
    · rw [List.append_assoc, hconsumed, htook]
    · rw [List.filter_append, List.map_append, hpassed', hpassed]
    · rcases hmove with rfl | hmove
      · -- nothing was left before this cycle
        obtain ⟨-, rfl⟩ := List.append_eq_nil_iff.mp htook
        exact Or.inl (List.append_eq_nil_iff.mp hconsumed).2
      · refine hmoves.imp_right fun hmoves => ?_
        have hcount : ((i, fed.out (s, rest) i) :: fed.trace (s', rest') is).countP eager =
            (fed.trace (s', rest') is).countP eager + (eager (i, fed.out (s, rest) i)).toNat := by
          rw [List.countP_cons]
          cases eager (i, fed.out (s, rest) i) <;> rfl
        rw [hcount]
        omega

/-! ## Whole packets -/

variable {packets : List Delivered}

theorem passes_of_mem_beats {p : Delivered} {x : Decoded} (hx : x ∈ p.beats) :
    x.passes = p.passes := by
  obtain ⟨w, -, rfl⟩ := List.mem_map.mp hx
  rfl

/-- A packet is framed in front of framed beats. -/
theorem framed_append {xs ys : List Decoded} {b : Bool}
    (hxs : IsPacket (fun x => x.beat.last) xs) (hb : ∀ x ∈ xs, x.passes = b)
    (hys : Framed ys) : Framed (xs ++ ys) := by
  induction xs with
  | nil => exact hys
  | cons x xs ih =>
    cases xs with
    | nil =>
      have hlast : x.beat.last = true := hxs
      exact ⟨fun h => absurd (hlast.symm.trans h) (by simp), hys⟩
    | cons y xs =>
      have hy := hb y (by simp)
      refine ⟨fun _ => ⟨y, xs ++ ys, rfl, hy.trans (hb x (by simp)).symm⟩, ?_⟩
      exact ih hxs.2 fun z hz => hb z (List.mem_cons_of_mem x hz)

theorem framed_beats (packets : List Delivered) : Framed (packets.flatMap Delivered.beats) := by
  induction packets with
  | nil => trivial
  | cons p packets ih =>
    have hpacket : IsPacket (fun x => x.beat.last) p.beats :=
      (IsPacket.marked p.words_ne).map fun _ => rfl
    rw [List.flatMap_cons]
    exact framed_append hpacket (fun _ => passes_of_mem_beats) ih

/-- The payload beats of the packets with the magic. -/
def payload (packets : List Delivered) : List PacketBeat :=
  (packets.filter Delivered.passes).flatMap fun p => p.beats.map Decoded.beat

/-- A packet is passed with all its beats or with none. -/
theorem filter_beats (packets : List Delivered) :
    ((packets.flatMap Delivered.beats).filter Decoded.passes).map Decoded.beat =
      payload packets := by
  unfold payload
  induction packets with
  | nil => rfl
  | cons p packets ih =>
    rw [List.flatMap_cons, List.filter_append, List.map_append, ih]
    cases hp : p.passes with
    | true =>
      have hall : p.beats.filter Decoded.passes = p.beats :=
        List.filter_eq_self.mpr fun x hx => (passes_of_mem_beats hx).trans hp
      rw [hall, List.filter_cons_of_pos hp, List.flatMap_cons]
    | false =>
      have hnone : p.beats.filter Decoded.passes = [] :=
        List.filter_eq_nil_iff.mpr fun x hx => by simp [passes_of_mem_beats hx, hp]
      rw [hnone, List.filter_cons_of_neg (by simp [hp])]
      rfl

/-- **Packets are filtered whole.**  In every run from reset the beats are taken in their
order, what is accepted on `source` are the payload beats of the packets with the magic, in
their order, and once the word in front was there and the source was ready in three cycles
for each beat, all are taken and accepted. -/
theorem packets_filtered (packets : List Delivered) (is : List Surroundings) :
    moved taken (fed.trace (init, packets.flatMap Delivered.beats) is) <+:
        packets.flatMap Delivered.beats ∧
      moved accepted (fed.trace (init, packets.flatMap Delivered.beats) is) =
        ((moved taken (fed.trace (init, packets.flatMap Delivered.beats) is)).filter
          Decoded.passes).map Decoded.beat ∧
      moved accepted (fed.trace (init, packets.flatMap Delivered.beats) is) <+:
        payload packets ∧
      (3 * (packets.flatMap Delivered.beats).length ≤
          (fed.trace (init, packets.flatMap Delivered.beats) is).countP eager →
        moved taken (fed.trace (init, packets.flatMap Delivered.beats) is) =
            packets.flatMap Delivered.beats ∧
          moved accepted (fed.trace (init, packets.flatMap Delivered.beats) is) =
            payload packets) := by
  obtain ⟨hconsumed, hpassed, hmoves⟩ :=
    run_passed (s := init) trivial (framed_beats packets) is
  have hbeginning : moved taken (fed.trace (init, packets.flatMap Delivered.beats) is) <+:
      packets.flatMap Delivered.beats := ⟨_, hconsumed⟩
  refine ⟨hbeginning, hpassed, ?_, fun heager => ?_⟩
  · rw [hpassed, ← filter_beats]
    exact (hbeginning.filter _).map _
  · have hrest : (fed.run (init, packets.flatMap Delivered.beats) is).2 = [] := by
      refine hmoves.elim id fun hmoves => ?_
      have hspent : spent (fed.run (init, packets.flatMap Delivered.beats) is).1 < 3 := by
        unfold spent
        cases (fed.run (init, packets.flatMap Delivered.beats) is).1.fsm <;> decide
      exact List.eq_nil_of_length_eq_zero (by omega)
    rw [hrest, List.append_nil] at hconsumed
    refine ⟨hconsumed, ?_⟩
    rw [hpassed, hconsumed, filter_beats]

/-- A packet with another magic, and one with the magic behind it. -/
def goodBehindBad : List Delivered :=
  [⟨0x6f4e, true, false, false, [(12, 7), (12, 8)], by decide⟩,
    ⟨0x4e6f, false, true, false, [(8, 9)], by decide⟩]

/-- Three beats, each there for three cycles, with a gap behind the first cycle that shows
the magic of no packet. -/
def gapped : List Surroundings :=
  ⟨true, default, true⟩ :: ⟨false, default, true⟩ :: List.replicate 8 ⟨true, default, true⟩

/-- The packet behind a bad one is passed. -/
theorem packets_filtered_goodBehindBad :
    moved accepted (fed.trace (init, goodBehindBad.flatMap Delivered.beats) gapped) =
      [⟨false, true, false, 8, 9, true⟩] :=
  ((packets_filtered goodBehindBad gapped).2.2.2 (by decide)).2.trans (by decide)

end EtherbonePacketRX

end UsbSniffer.Etherbone
