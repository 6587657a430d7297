/-
  Etherbone/Packet.lean --- Etherbone packets on the stream of the USB core
  (gateware/etherbone.py).

  The receiver takes the header of two words off a packet, waits a cycle for the check
  of its magic, and presents or drops the rest.  The transmitter puts the header in
  front, and lets the packet go once its first word is there.
-/
import UsbSniffer.Sync.Packet
import UsbSniffer.Sync.Bits

set_option autoImplicit false

namespace UsbSniffer.Etherbone

open UsbSniffer.Sync

/-- A word of `user_description`. -/
structure UserBeat where
  dst : BitVec 8
  length : BitVec 32
  data : BitVec 32
  last : Bool
  deriving DecidableEq, Repr, Inhabited

/-- A word of `eth_etherbone_packet_user_description`. -/
structure PacketBeat where
  pf : Bool
  pr : Bool
  nr : Bool
  length : BitVec 32
  data : BitVec 32
  last : Bool
  deriving DecidableEq, Repr, Inhabited

/-- `etherbone_magic`. -/
def etherboneMagic : BitVec 16 := 0x4e6f

/-- `etherbone_version`. -/
def etherboneVersion : BitVec 4 := 1

/-- `etherbone_packet_header.length`. -/
def packetHeaderLength : BitVec 32 := 8

/-! ## Receiver -/

namespace EtherbonePacketRX

/-- A word behind the depacketizer, with what is looked at of the header. -/
structure Decoded where
  magic : BitVec 16
  beat : PacketBeat
  deriving DecidableEq, Repr, Inhabited

/-- The fields of the header in front of a word of `sink`. -/
def decode (header : List (BitVec 32)) (last : Bool) (sink : UserBeat) : Decoded where
  magic := reverseHalf (slice (header.getD 0 0) 0 16)
  beat :=
    { pf := (header.getD 0 0).getLsbD 16
      pr := (header.getD 0 0).getLsbD 17
      nr := (header.getD 0 0).getLsbD 18
      length := sink.length - packetHeaderLength
      data := sink.data
      last := last }

/-- The states of `EtherbonePacketRX`. -/
inductive Fsm
  | idle
  | check
  | present
  | drop
  deriving DecidableEq, Repr

/-- The check of the magic, and the state. -/
structure State where
  /-- the register of the check -/
  valid : Bool
  fsm : Fsm
  deriving DecidableEq, Repr

/-- No packet is there. -/
def init : State := ⟨false, .idle⟩

/-- `source.valid`. -/
def sourceValid (s : State) (sinkValid : Bool) : Bool :=
  match s.fsm with
  | .present => sinkValid
  | _ => false

/-- `depacketizer.source.ready`. -/
def sinkReady (s : State) (sinkValid sourceReady : Bool) : Bool :=
  match s.fsm with
  | .idle => !sinkValid
  | .check => false
  | .present => sourceReady
  | .drop => true

/-- The clock edge. -/
def next (s : State) (sinkValid : Bool) (sink : Decoded) (sourceReady : Bool) : State where
  valid := sinkValid && sink.magic == etherboneMagic
  fsm :=
    match s.fsm with
    | .idle => if sinkValid then .check else .idle
    | .check => if s.valid then .present else .drop
    | .present => if sinkValid && sink.beat.last && sourceReady then .idle else .present
    | .drop => if sinkValid && sink.beat.last then .idle else .drop

/-- The machine behind the depacketizer. -/
def checker (ε : Type) : Stage ε Decoded PacketBeat where
  State := State
  init := init
  sourceValid s v _ := sourceValid s v
  source _ x := x.beat
  sinkReady s _ v _ ready := sinkReady s v ready
  next s _ := next s
  waits _ _ _ _ := false

/-- `EtherbonePacketRX`. -/
def stage (K : Depacketizer 2) (ε : Type) : Stage ε UserBeat PacketBeat :=
  (K.stage ε UserBeat.data UserBeat.last decode).comp (checker ε)

/-- A packet whose first word is checked is presented or dropped as a whole. -/
def words : Machine (Option Bool) Decoded (List PacketBeat) where
  out mode x := if mode.getD (x.magic == etherboneMagic) then [x.beat] else []
  next mode x :=
    if x.beat.last then none else some (mode.getD (x.magic == etherboneMagic))

/-- A packet with the magic is presented. -/
theorem words_packet {xs : List Decoded} (h : IsPacket (fun x => x.beat.last) xs)
    (hmagic : ∀ x ∈ xs, x.magic = etherboneMagic) :
    words.emits none xs = xs.map Decoded.beat ∧ words.run none xs = none := by
  -- the check of the first word does what is done with the others
  have hpresented : words.emits (some true) xs = xs.map Decoded.beat ∧
      words.run (some true) xs = none :=
    Machine.emits_packet h (fun x _ => rfl) fun x _ => rfl
  obtain ⟨x, xs', rfl⟩ := List.exists_cons_of_ne_nil h.ne_nil
  have hcheck : (x.magic == etherboneMagic) = true := by
    rw [hmagic x (List.mem_cons_self ..)]
    exact beq_self_eq_true _
  rw [Machine.emits_cons, Machine.run_cons] at hpresented ⊢
  simp only [words, Option.getD_none, hcheck] at hpresented ⊢
  exact hpresented

/-- The packet that the machine is in. -/
def mode (s : State) : Option Bool :=
  match s.fsm with
  | .idle | .check => none
  | .present => some true
  | .drop => some false

/-- The cycles spent on the word in front. -/
def spent (s : State) : Nat :=
  match s.fsm with
  | .idle => 0
  | .check => 1
  | .present | .drop => 2

/-- The block between its channels: the beats to be given are what the magic lets pass of those
to be taken. -/
structure Rel (s : State) (c : Chan Decoded) (d : Chan PacketBeat) (bound : Nat) : Prop where
  emits : words.emits (mode s) c.rest = d.rest
  checked : s.fsm = .check → c.held = true ∧ ∃ x xs, c.rest = x :: xs ∧
    s.valid = (x.magic == etherboneMagic)
  held : d.held = true → s.fsm = .present ∧ c.held = true
  bound : 3 * c.rest.length - spent s = bound

namespace Rel

variable {s : State} {c : Chan Decoded} {d : Chan PacketBeat} {bound : Nat} {v : Bool}
  {x : Decoded}

theorem done (h : Rel s c d 0) : c.rest = [] ∧ d.rest = [] := by
  have hspent : spent s < 3 := by
    unfold spent
    cases s.fsm <;> decide
  have hrest : c.rest = [] := Chan.rest_of_zero h.bound hspent
  have hemits := h.emits
  rw [hrest] at hemits
  exact ⟨hrest, hemits.symm⟩

/-- The word that is presented is in front of what is still to go out. -/
theorem rest_of_present (h : Rel s c d bound) (hfsm : s.fsm = .present) (hv : c.Offers true x) :
    d.rest = x.beat :: words.emits (if x.beat.last then none else some true) c.rest.tail := by
  have hemits := h.emits
  rw [hv.rest_eq, Machine.emits_cons] at hemits
  simp only [mode, hfsm, words, Option.getD_some, if_true] at hemits
  exact hemits.symm

theorem offers (h : Rel s c d bound) (hv : c.Offers v x) :
    d.Offers (sourceValid s v) x.beat := by
  unfold sourceValid
  cases hfsm : s.fsm with
  | present =>
    refine hv.pass (fun hheld => (h.held hheld).2) ?_
    rintro rfl
    exact ⟨_, h.rest_of_present hfsm hv⟩
  | idle | check | drop =>
    refine Chan.Offers.of_false (fun hheld => ?_) _
    have := (h.held hheld).1
    rw [hfsm] at this
    cases this

/-- Without a word to look at the machine stays where it is. -/
theorem next_false (h : Rel s c d bound) (hv : c.Offers false x) (ready : Bool) :
    Rel (next s false x ready) ⟨c.rest, false⟩ ⟨d.rest, false⟩ bound := by
  have hfsm : (EtherbonePacketRX.next s false x ready).fsm = s.fsm := by
    cases hfsm : s.fsm with
    | check =>
      have := hv.kept (h.checked hfsm).1
      cases this
    | idle | present | drop => simp [EtherbonePacketRX.next, hfsm]
  refine ⟨?_, fun hcheck => ?_, fun hheld => (by cases hheld), ?_⟩
  · unfold mode
    rw [hfsm]
    exact h.emits
  · rw [hfsm] at hcheck
    have := hv.kept (h.checked hcheck).1
    cases this
  · unfold spent
    rw [hfsm]
    exact h.bound

/-- The first word of a packet is held while its header is checked. -/
theorem next_idle (h : Rel s c d bound) (hfsm : s.fsm = .idle) (hv : c.Offers true x)
    (ready : Bool) :
    Rel (next s true x ready) ⟨c.rest, true⟩ ⟨d.rest, false⟩ (3 * c.rest.length - 1) := by
  have hnext : (EtherbonePacketRX.next s true x ready).fsm = .check := by
    simp [EtherbonePacketRX.next, hfsm]
  have hemits := h.emits
  refine ⟨?_, fun _ => ⟨rfl, x, c.rest.tail, hv.rest_eq, rfl⟩, fun hheld => (by cases hheld), ?_⟩
  · simp only [mode, hnext, hfsm] at hemits ⊢
    exact hemits
  · simp only [spent, hnext]

theorem next_check (h : Rel s c d bound) (hfsm : s.fsm = .check) (hv : c.Offers true x)
    (ready : Bool) :
    Rel (next s true x ready) ⟨c.rest, true⟩ ⟨d.rest, false⟩ (3 * c.rest.length - 2) := by
  obtain ⟨-, y, ys, hrest, hvalid⟩ := h.checked hfsm
  obtain ⟨rfl, rfl⟩ := List.cons.inj (hv.rest_eq.symm.trans hrest)
  have hemits := h.emits
  rw [hrest, Machine.emits_cons] at hemits
  simp only [mode, hfsm, words, Option.getD_none, ← hvalid] at hemits
  have hmode : mode (EtherbonePacketRX.next s true x ready) = some s.valid := by
    cases hs : s.valid <;> simp [mode, EtherbonePacketRX.next, hfsm, hs]
  have hnext : (EtherbonePacketRX.next s true x ready).fsm =
      if s.valid then .present else .drop := by
    simp [EtherbonePacketRX.next, hfsm]
  refine ⟨?_, fun hcheck => ?_, fun hheld => (by cases hheld), ?_⟩
  · rw [hmode, hrest, Machine.emits_cons]
    simp only [words, Option.getD_some]
    exact hemits
  · rw [hnext] at hcheck
    split_ifs at hcheck
  · unfold spent
    rw [hnext]
    cases s.valid <;> rfl

/-- A word of a packet that is presented, taken or not. -/
theorem next_present (h : Rel s c d bound) (hfsm : s.fsm = .present) (hv : c.Offers true x)
    (ready : Bool) :
    ∃ bound', Rel (next s true x ready) (c.next true ready) (d.next true ready) bound' ∧
      (bound' < bound ∨ bound' = bound ∧ ready = false) := by
  have hbound := h.bound
  simp only [spent, hfsm] at hbound
  cases ready with
  | false =>
    have hnext : (EtherbonePacketRX.next s true x false).fsm = .present := by
      simp [EtherbonePacketRX.next, hfsm]
    have hemits := h.emits
    refine ⟨bound, ⟨?_, fun hcheck => ?_, fun _ => ⟨hnext, rfl⟩, ?_⟩, Or.inr ⟨rfl, rfl⟩⟩
    · simp only [mode, hnext, hfsm] at hemits ⊢
      exact hemits
    · rw [hnext] at hcheck
      cases hcheck
    · simp only [spent, hnext]
      exact hbound
  | true =>
    have hnext : (EtherbonePacketRX.next s true x true).fsm =
        if x.beat.last then .idle else .present := by
      simp [EtherbonePacketRX.next, hfsm]
    have hlength := hv.length_eq
    refine ⟨_, ⟨?_, fun hcheck => ?_, fun hheld => (by cases hheld), rfl⟩, Or.inl ?_⟩
    · rw [Chan.next_take, Chan.next_take, h.rest_of_present hfsm hv, List.tail_cons]
      unfold mode
      rw [hnext]
      cases x.beat.last <;> rfl
    · rw [hnext] at hcheck
      split_ifs at hcheck
    · change 3 * c.rest.tail.length - _ < bound
      unfold spent
      rw [hnext]
      cases x.beat.last <;> simp <;> omega

/-- A word of a packet that is dropped. -/
theorem next_drop (h : Rel s c d bound) (hfsm : s.fsm = .drop) (hv : c.Offers true x)
    (ready : Bool) :
    ∃ bound', Rel (next s true x ready) (c.next true true) ⟨d.rest, false⟩ bound' ∧
      bound' < bound := by
  have hbound := h.bound
  simp only [spent, hfsm] at hbound
  have hnext : (EtherbonePacketRX.next s true x ready).fsm =
      if x.beat.last then .idle else .drop := by
    simp [EtherbonePacketRX.next, hfsm]
  have hlength := hv.length_eq
  have hemits := h.emits
  rw [hv.rest_eq, Machine.emits_cons] at hemits
  simp only [mode, hfsm, words, Option.getD_some, Bool.false_eq_true, if_false,
    List.nil_append] at hemits
  refine ⟨_, ⟨?_, fun hcheck => ?_, fun hheld => (by cases hheld), rfl⟩, ?_⟩
  · rw [Chan.next_take]
    unfold mode
    rw [hnext]
    cases hlast : x.beat.last <;> simp only [hlast] at hemits <;> exact hemits
  · rw [hnext] at hcheck
    split_ifs at hcheck
  · change 3 * c.rest.tail.length - _ < bound
    unfold spent
    rw [hnext]
    cases x.beat.last <;> simp <;> omega

theorem next (h : Rel s c d bound) (hv : c.Offers v x) (ready : Bool) :
    ∃ bound', Rel (next s v x ready) (c.next v (sinkReady s v ready))
        (d.next (sourceValid s v) ready) bound' ∧ bound' ≤ bound ∧
      (bound' < bound ∨ bound = 0 ∨ c.Starved v ∨ (sourceValid s v = true ∧ ready = false) ∨
        false = true) := by
  have hbound := h.bound
  cases v with
  | false =>
    have hvalid : sourceValid s false = false := by
      unfold sourceValid
      cases s.fsm <;> rfl
    rw [hvalid]
    refine ⟨bound, h.next_false hv ready, Nat.le_refl _, Or.inr ?_⟩
    exact (Chan.zero_or_starved hbound).imp_right Or.inl
  | true =>
    have hpos : 0 < c.rest.length := by
      rw [hv.rest_eq]
      exact Nat.succ_pos _
    unfold sinkReady sourceValid
    cases hfsm : s.fsm with
    | idle =>
      simp only [spent, hfsm] at hbound
      exact ⟨_, h.next_idle hfsm hv ready, by omega, Or.inl (by omega)⟩
    | check =>
      simp only [spent, hfsm] at hbound
      exact ⟨_, h.next_check hfsm hv ready, by omega, Or.inl (by omega)⟩
    | present =>
      obtain ⟨bound', hrel, hlt | ⟨heq, hready⟩⟩ := h.next_present hfsm hv ready
      · exact ⟨bound', hrel, Nat.le_of_lt hlt, Or.inl hlt⟩
      · exact ⟨bound', hrel, Nat.le_of_eq heq, Or.inr (Or.inr (Or.inr (Or.inl ⟨rfl, hready⟩)))⟩
    | drop =>
      obtain ⟨bound', hrel, hlt⟩ := h.next_drop hfsm hv ready
      exact ⟨bound', hrel, Nat.le_of_lt hlt, Or.inl hlt⟩

end Rel

/-- The block does what its words do, in three cycles for a beat at most. -/
def simulation (ε : Type) : Simulation (checker ε) where
  rel := Rel
  done := Rel.done
  offers := Rel.offers
  step _ ready h hv := h.next hv ready

/-- From reset. -/
theorem Rel.start (xs : List Decoded) :
    Rel init (Chan.start xs) (Chan.start (words.emits none xs)) (3 * xs.length) where
  emits := rfl
  checked h := by cases h
  held h := by cases h
  bound := rfl

/-- From reset, packets are presented one after the other. -/
theorem starts {γ : Type} (ε : Type) {f : γ → List Decoded} {g : γ → List PacketBeat}
    {xs : List γ} (h : ∀ x ∈ xs, words.emits none (f x) = g x ∧ words.run none (f x) = none) :
    (simulation ε).Starts (xs.flatMap f) (xs.flatMap g) (3 * (xs.flatMap f).length) := by
  rw [← (Machine.emits_flatMap h).1]
  exact Rel.start _

end EtherbonePacketRX

/-! ## Transmitter -/

namespace EtherbonePacketTX

/-- The words of the header in front of a word of `sink`. -/
def header (sink : PacketBeat) : List (BitVec 32) :=
  [cat (cat (cat (cat (cat (cat (cat (reverseHalf etherboneMagic) (BitVec.ofBool sink.pf))
      (BitVec.ofBool sink.pr)) (BitVec.ofBool sink.nr)) (0 : BitVec 1)) etherboneVersion)
      (4 : BitVec 4)) (4 : BitVec 4),
    0]

/-- The packetizer in front of the words of `sink`, with the parameters that `source` has
in SEND. -/
def format (identifier : BitVec 8) : Packetizer.Format PacketBeat UserBeat where
  header := header
  word := PacketBeat.data
  isLast := PacketBeat.last
  emit w last sink :=
    { dst := identifier, length := sink.length + packetHeaderLength, data := w, last := last }

/-- The states of `EtherbonePacketTX`. -/
inductive Fsm
  | idle
  | send
  deriving DecidableEq, Repr

/-- `packetizer.source.ready`. -/
def sinkReady (s : Fsm) (sinkValid sourceReady : Bool) : Bool :=
  match s with
  | .idle => !sinkValid
  | .send => sourceReady

/-- `source.valid`. -/
def sourceValid (s : Fsm) (sinkValid : Bool) : Bool :=
  match s with
  | .idle => false
  | .send => sinkValid

/-- The clock edge. -/
def next (s : Fsm) (sinkValid : Bool) (sink : UserBeat) (sourceReady : Bool) : Fsm :=
  match s with
  | .idle => if sinkValid then .send else .idle
  | .send => if sinkValid && sink.last && sourceReady then .idle else .send

/-- The machine behind the packetizer. -/
def gate (ε : Type) : Stage ε UserBeat UserBeat where
  State := Fsm
  init := .idle
  sourceValid s v _ := sourceValid s v
  source _ x := x
  sinkReady s _ v _ ready := sinkReady s v ready
  next s _ := next s
  waits _ _ _ _ := false

/-- `EtherbonePacketTX`. -/
def stage (K : Packetizer) (identifier : BitVec 8) (ε : Type) : Stage ε PacketBeat UserBeat :=
  (K.stage ε (format identifier)).comp (gate ε)

/-- The cycle that has been spent on the packet in front. -/
def spent : Fsm → Nat
  | .idle => 0
  | .send => 1

/-- The gate passes what comes. -/
structure Rel (s : Fsm) (c d : Chan UserBeat) (bound : Nat) : Prop where
  passes : c.rest = d.rest
  held : d.held = true → s = .send ∧ c.held = true
  bound : 2 * c.rest.length - spent s = bound

namespace Rel

variable {s : Fsm} {c d : Chan UserBeat} {bound : Nat} {v : Bool} {x : UserBeat}

theorem done (h : Rel s c d 0) : c.rest = [] ∧ d.rest = [] := by
  have hspent : spent s < 2 := by
    cases s <;> decide
  have hrest : c.rest = [] := Chan.rest_of_zero h.bound hspent
  exact ⟨hrest, h.passes ▸ hrest⟩

theorem offers (h : Rel s c d bound) (hv : c.Offers v x) : d.Offers (sourceValid s v) x := by
  cases s with
  | idle =>
    refine Chan.Offers.of_false (fun hheld => ?_) _
    have := (h.held hheld).1
    cases this
  | send =>
    refine hv.pass (fun hheld => (h.held hheld).2) ?_
    rintro rfl
    exact ⟨_, h.passes ▸ hv.rest_eq⟩

theorem next (h : Rel s c d bound) (hv : c.Offers v x) (ready : Bool) :
    ∃ bound', Rel (next s v x ready) (c.next v (sinkReady s v ready))
        (d.next (sourceValid s v) ready) bound' ∧ bound' ≤ bound ∧
      (bound' < bound ∨ bound = 0 ∨ c.Starved v ∨ (sourceValid s v = true ∧ ready = false) ∨
        false = true) := by
  have hbound := h.bound
  cases v with
  | false =>
    have hquiet : bound = 0 ∨ c.Starved false := Chan.zero_or_starved hbound
    refine ⟨bound, ?_, Nat.le_refl _, Or.inr (hquiet.imp_right Or.inl)⟩
    cases s <;> exact ⟨h.passes, (fun hheld => by cases hheld), hbound⟩
  | true =>
    have hlength := hv.length_eq
    cases s with
    | idle =>
      -- the first word stays while the gate opens
      simp only [spent] at hbound
      exact ⟨2 * c.rest.length - 1, ⟨h.passes, (fun hheld => by cases hheld), rfl⟩, by omega,
        Or.inl (by omega)⟩
    | send =>
      simp only [spent] at hbound
      cases ready with
      | false =>
        have hnext : EtherbonePacketTX.next .send true x false = .send := by
          simp [EtherbonePacketTX.next]
        rw [hnext]
        exact ⟨bound, ⟨h.passes, fun _ => ⟨rfl, rfl⟩, hbound⟩, Nat.le_refl _,
          Or.inr (Or.inr (Or.inr (Or.inl ⟨rfl, rfl⟩)))⟩
      | true =>
        have hlt : 2 * c.rest.tail.length - spent (EtherbonePacketTX.next .send true x true) <
            bound := by
          omega
        exact ⟨_, ⟨congrArg List.tail h.passes, (fun hheld => by cases hheld), rfl⟩,
          Nat.le_of_lt hlt, Or.inl hlt⟩

end Rel

/-- The gate gives the beats that it takes. -/
def simulation (ε : Type) : Simulation (gate ε) where
  rel := Rel
  done := Rel.done
  offers := Rel.offers
  step _ ready h hv := h.next hv ready

/-- From reset. -/
theorem Rel.start (xs : List UserBeat) :
    Rel .idle (Chan.start xs) (Chan.start xs) (2 * xs.length) where
  passes := rfl
  held h := by cases h
  bound := rfl

end EtherbonePacketTX

end UsbSniffer.Etherbone
