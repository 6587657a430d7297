/-
  Usb/Crossbar.lean --- the users of the USB link, and its transmit side (gateware/usb.py,
  USBCrossbar).

  Each user has a port with a stream identifier of its own.  An arbiter connects one
  sender at a time to the packetizer, and looks for another one only when no packet is
  under way.  So whatever the senders do and however the link stalls, what is on the link
  are whole packets, each of one sender.

  This asks of the senders that they keep to what they announce (`USBUser`).  Etherbone does
  so for whole words only: a probe of 14 bytes is sent on in three words.
-/
import UsbSniffer.Sync.Component
import UsbSniffer.Sync.Packet
import UsbSniffer.Sync.Switch
import UsbSniffer.Usb.Framing

set_option autoImplicit false

namespace UsbSniffer.Usb

open UsbSniffer.Sync

/-! ## The ports -/

namespace USBCrossbar

/-- `users`, by their destinations. -/
structure Users where
  dsts : List Nat
  distinct : dsts.Nodup

/-- No port has been taken. -/
def Users.empty : Users := ⟨[], List.nodup_nil⟩

/-- `{:#x}`. -/
def hex (n : Nat) : String := "0x" ++ String.ofList (Nat.toDigits 16 n)

/-- `get_port`. -/
def Users.getPort (users : Users) (dst : Nat) : Except String Users :=
  if h : dst ∈ users.dsts then .error ("Destination " ++ hex dst ++ " already assigned")
  else .ok
    { dsts := users.dsts ++ [dst]
      distinct := List.nodup_append.mpr ⟨users.distinct, List.nodup_singleton dst, by
        intro a ha b hb
        rw [List.mem_singleton.mp hb]
        exact fun heq => h (heq ▸ ha)⟩ }

/-- A port for each of these, one after the other. -/
def Users.getPorts (users : Users) (dsts : List Nat) : Except String Users :=
  dsts.foldlM Users.getPort users

/-- When no call fails, the users have the ports asked for. -/
theorem Users.dsts_getPorts {users users' : Users} {dsts : List Nat}
    (h : users.getPorts dsts = .ok users') : users'.dsts = users.dsts ++ dsts := by
  induction dsts generalizing users with
  | nil =>
    cases h
    exact (List.append_nil _).symm
  | cons dst dsts ih =>
    unfold getPorts at h
    rw [List.foldlM_cons] at h
    by_cases hmem : dst ∈ users.dsts
    · rw [getPort, dif_pos hmem] at h
      cases h
    · rw [getPort, dif_neg hmem] at h
      rw [ih h, List.append_assoc]
      rfl

end USBCrossbar

/-! ## A sender -/

/-- A user that sends packets: `left` words are left of the packet that it sends, all of
them while it is `fresh`.  A packet is announced with its length in bytes and ends with `last`
at that length, and its words are offered one after the other, whenever the user has them,
each until it is taken. -/
structure USBUser where
  dst : BitVec 8
  longest : Nat
  State : Type
  In : Type
  Out : Type
  source : State → In → UserSource
  /-- What it shows on its own side. -/
  out : State → In → Out
  /-- The clock edge, with `source.ready`. -/
  next : State → In → Bool → State
  Inv : State → Prop
  left : State → Nat
  fresh : State → Prop
  inv_next : ∀ s i ready, Inv s → Inv (next s i ready)
  left_le : ∀ s, Inv s → left s ≤ longest
  left_of_valid : ∀ s i, Inv s → (source s i).valid = true → 0 < left s
  dst_eq : ∀ s i, Inv s → 0 < left s → (source s i).dst = dst
  length_eq : ∀ s i, Inv s → 0 < left s → fresh s →
    (source s i).length = BitVec.ofNat 32 (4 * left s)
  last_eq : ∀ s i, Inv s → (source s i).valid = true → (source s i).last = decide (left s = 1)
  left_hold : ∀ s i ready, Inv s → 0 < left s → ((source s i).valid && ready) = false →
    left (next s i ready) = left s ∧ (fresh s → fresh (next s i ready))
  left_next : ∀ s i, Inv s → (source s i).valid = true → 1 < left s →
    left (next s i true) + 1 = left s
  fresh_next : ∀ s i ready, Inv s →
    left s = 0 ∨ ((source s i).valid = true ∧ ready = true ∧ left s = 1) →
    left (next s i ready) = 0 ∨ fresh (next s i ready)

namespace USBUser

variable (U : USBUser)

/-- A user by itself. -/
def machine : Machine U.State (U.In × Bool) (UserSource × U.Out) where
  out s i := (U.source s i.1, U.out s i.1)
  next s i := U.next s i.1 i.2

/-- The word that it hands over in a cycle. -/
def handedWord (c : (U.In × Bool) × (UserSource × U.Out)) : List (BitVec 32) :=
  beat c.2.1.valid c.1.2 c.2.1.data

end USBUser

namespace WrapSender

variable {C : Config}

/-! ## The sender of words as a user -/

/-- The words left of the burst that is sent. -/
def left (s : State C) : Nat :=
  match s.fsm with
  | .buffer => 0
  | .transfer => beatsLeft s.count

theorem transfer_of_left {s : State C} (h : 0 < left s) : s.fsm = .transfer := by
  unfold left at h
  cases hfsm : s.fsm with
  | buffer => simp [hfsm] at h
  | transfer => rfl

theorem left_of_transfer {s : State C} (h : s.fsm = .transfer) : left s = beatsLeft s.count := by
  unfold left
  rw [h]

theorem transfer_of_valid {s : State C} (h : (source s).valid = true) : s.fsm = .transfer := by
  unfold source at h
  cases hfsm : s.fsm with
  | buffer => simp [hfsm] at h
  | transfer => rfl

theorem beatsLeft_eq_one {count : BitVec 32} : beatsLeft count = 1 ↔ count = 1 := by
  refine ⟨fun h => ?_, fun h => by rw [h, beatsLeft_one]⟩
  have hlt := count.isLt
  rw [beatsLeft_eq] at h
  refine BitVec.eq_of_toNat_eq ?_
  change count.toNat = 1
  omega

/-- There is no burst without words. -/
theorem left_of_empty {s : State C} (hInv : Inv s) (h : C.Buf.contents s.buf = []) :
    left s = 0 := by
  by_contra hne
  have htransfer := transfer_of_left (Nat.pos_of_ne_zero hne)
  have hburst := hInv.burst htransfer
  have hpos := beatsLeft_pos s.count
  rw [h, List.length_nil] at hburst
  omega

/-- The sender is a user: its packets are its bursts. -/
def user (C : Config) : USBUser where
  dst := C.identifier
  longest := C.depth + 1
  State := State C
  In := Bool × BitVec 32
  Out := Bool
  source s _ := source s
  out s _ := sinkReady s
  next s i ready := next s i.1 i.2 ready
  Inv := Inv
  left := left
  fresh _ := True
  inv_next s i ready hInv := inv_next hInv i.1 i.2 ready
  left_le s hInv := by
    rcases Nat.eq_zero_or_pos (left s) with h | h
    · rw [h]
      exact Nat.zero_le _
    · have htransfer := transfer_of_left h
      rw [left_of_transfer htransfer]
      exact (hInv.burst htransfer).trans hInv.bounded
  left_of_valid s _ _ h := by
    rw [left_of_transfer (transfer_of_valid h)]
    exact beatsLeft_pos _
  dst_eq s _ _ h := by simp [source, transfer_of_left h]
  length_eq s _ _ h _ := by
    have htransfer := transfer_of_left h
    rw [left_of_transfer htransfer, ← length_eq]
    simp [source, htransfer]
  last_eq s _ _ h := by
    have htransfer := transfer_of_valid h
    rw [left_of_transfer htransfer]
    simp [source, htransfer, beatsLeft_eq_one, beq_eq_decide]
  left_hold s i ready hInv h hquiet := by
    have htransfer := transfer_of_left h
    rw [valid_of_transfer hInv htransfer, Bool.true_and] at hquiet
    obtain ⟨hfsm, hcount⟩ := next_hold htransfer i.1 i.2
    rw [hquiet, left_of_transfer hfsm, left_of_transfer htransfer, hcount]
    exact ⟨rfl, fun _ => trivial⟩
  left_next s i hInv h hmore := by
    have htransfer := transfer_of_valid h
    rw [left_of_transfer htransfer] at hmore ⊢
    have hne : s.count ≠ 1 := fun hone => by
      rw [hone, beatsLeft_one] at hmore
      exact lt_irrefl 1 hmore
    obtain ⟨hfsm, hcount⟩ := next_more hInv htransfer hne i.1 i.2
    rw [left_of_transfer hfsm]
    exact hcount
  fresh_next _ _ _ _ _ := Or.inr trivial

/-- The word that the sender takes in a cycle. -/
def acceptedWord (c : ((user C).In × Bool) × (UserSource × (user C).Out)) : List (BitVec 32) :=
  beat c.1.1.1 c.2.2 c.1.1.2

/-- What the sender hands over are the words of its buffer. -/
theorem user_refinesQueue : RefinesQueue (user C).machine (fun _ _ => True) (fun _ => True)
    (fun s => C.Buf.contents s.buf) acceptedWord (user C).handedWord where
  inv _ _ _ _ := trivial
  step s i _ _ := by
    have hbuf := C.Buf.queueStep s.buf i.1.1 i.1.2 (bufReady s i.2)
    have hpopped : beat (C.Buf.readable s.buf) (bufReady s i.2) (C.Buf.dout s.buf) =
        (user C).handedWord (i, (user C).machine.out s i) := by
      change _ = beat (source s).valid i.2 (source s).data
      unfold source bufReady
      cases s.fsm with
      | buffer => exact beat_false_right _ _
      | transfer => rfl
    rw [hpopped] at hbuf
    exact (next_buf (C := C) s i.1.1 i.1.2 i.2).symm ▸ hbuf

/-- A sender with this identifier, of library blocks. -/
def core (identifier : BitVec 8) : Config where
  identifier := identifier
  depth := 128
  depth_pos := depth_pos
  Buf := SyncFIFO.queue (BitVec 32) 129
  Timer := WaitTimer.counter 1000000 period_pos

end WrapSender

/-! ## The transmit side -/

namespace USBCrossbar.Tx

/-- The senders, and the blocks between them and the link. -/
structure Config (n : Nat) where
  users : Fin (n + 1) → USBUser
  Arbiter : Arbiter n
  Packetizer : USBPacketizer.Config

/-- The users have got their ports. -/
def Config.Built {n : Nat} (C : Config n) : Prop :=
  ∃ users, Users.empty.getPorts (List.ofFn fun u => (C.users u).dst.toNat) = .ok users

/-- No two users have the same stream. -/
theorem Config.Built.injective {n : Nat} {C : Config n} (h : C.Built) :
    Function.Injective fun u => (C.users u).dst := by
  obtain ⟨users, hports⟩ := h
  have hnodup := users.distinct
  rw [Users.dsts_getPorts hports] at hnodup
  have hinjective := List.nodup_ofFn.mp (List.Nodup.of_append_right hnodup)
  exact fun u v huv => hinjective (congrArg BitVec.toNat huv)

/-- The registers of the users, the arbiter and the packetizer. -/
structure State {n : Nat} (C : Config n) where
  users : ∀ u, (C.users u).State
  arbiter : C.Arbiter.State
  packetizer : USBPacketizer.State C.Packetizer

/-- What the users are given, and the answer of the link. -/
structure In {n : Nat} (C : Config n) where
  users : ∀ u, (C.users u).In
  sourceReady : Bool

/-- What the users show, and the word on the link. -/
structure Out {n : Nat} (C : Config n) where
  users : ∀ u, (C.users u).Out
  /-- The sources of the users, and what they are answered with. -/
  source : Fin (n + 1) → UserSource
  ready : Fin (n + 1) → Bool
  sourceValid : Bool
  sourceData : BitVec 32

variable {n : Nat} {C : Config n}

/-- The registers at a reset, with users in any state. -/
def init (users : ∀ u, (C.users u).State) : State C where
  users := users
  arbiter := C.Arbiter.init
  packetizer := USBPacketizer.init

/-- The user that is connected. -/
def grant (s : State C) : Fin (n + 1) := C.Arbiter.grant s.arbiter

/-- The source of a user. -/
def source (s : State C) (i : In C) (u : Fin (n + 1)) : UserSource :=
  (C.users u).source (s.users u) (i.users u)

/-- The source of the granted user. -/
def sink (s : State C) (i : In C) : UserSource := source s i (grant s)

/-- Only the granted user is answered. -/
def ready (s : State C) (i : In C) (u : Fin (n + 1)) : Bool :=
  if u = grant s then (USBPacketizer.out s.packetizer (sink s i) i.sourceReady).sinkReady
  else false

/-- What the arbiter sees of a user. -/
def port (s : State C) (i : In C) (u : Fin (n + 1)) : PortStatus :=
  ⟨(source s i u).valid, (source s i u).last, ready s i u⟩

/-- The outputs in a cycle. -/
def out (s : State C) (i : In C) : Out C :=
  let o := USBPacketizer.out s.packetizer (sink s i) i.sourceReady
  { users := fun u => (C.users u).out (s.users u) (i.users u)
    source := source s i
    ready := ready s i
    sourceValid := o.sourceValid
    sourceData := o.sourceData }

/-- The clock edge. -/
def next (s : State C) (i : In C) : State C where
  users u := (C.users u).next (s.users u) (i.users u) (ready s i u)
  arbiter := C.Arbiter.next s.arbiter (port s i)
  packetizer := USBPacketizer.next s.packetizer (sink s i) i.sourceReady

/-- The transmit side. -/
def machine (C : Config n) : Machine (State C) (In C) (Out C) where
  out := out
  next := next

/-- A user in its place. -/
def user (u : Fin (n + 1)) : Component (machine C) (C.users u).machine where
  proj s := s.users u
  view c := ((c.1.users u, c.2.ready u), (c.2.source u, c.2.users u))
  out_eq _ _ := rfl
  next_eq _ _ := rfl

/-- The word that a user hands over in a cycle. -/
def userWord (u : Fin (n + 1)) (c : In C × Out C) : List (BitVec 32) :=
  beat (c.2.source u).valid (c.2.ready u) (c.2.source u).data

/-- The word, with its mark. -/
def userBeat (u : Fin (n + 1)) (c : In C × Out C) : List (BitVec 32 × Bool) :=
  beat (c.2.source u).valid (c.2.ready u) ((c.2.source u).data, (c.2.source u).last)

/-- The word that the link takes in a cycle. -/
def sentWord (c : In C × Out C) : List (BitVec 32) :=
  beat c.2.sourceValid c.1.sourceReady c.2.sourceData

/-! ## One cycle -/

/-- The words left of the packet of a user. -/
def left (s : State C) (u : Fin (n + 1)) : Nat := (C.users u).left (s.users u)

/-- The user has all of its packet still to send. -/
def fresh (s : State C) (u : Fin (n + 1)) : Prop := (C.users u).fresh (s.users u)

/-- A payload that a user can send. -/
def IsPacket (C : Config n) (p : Fin (n + 1) × List (BitVec 32)) : Prop :=
  1 ≤ p.2.length ∧ p.2.length ≤ (C.users p.1).longest

/-- The packets with these payloads, each of the user that sends it. -/
def packetsOf (C : Config n) (done : List (Fin (n + 1) × List (BitVec 32))) : List (BitVec 32) :=
  done.flatMap fun p => Framing.packet (C.users p.1).dst p.2

/-- The words of a user in them. -/
def wordsOf (u : Fin (n + 1)) (done : List (Fin (n + 1) × List (BitVec 32))) :
    List (BitVec 32) :=
  (done.filter fun p => p.1 = u).flatMap Prod.snd

/-- These words, of which the last one of each packet is marked. -/
def marksOf (u : Fin (n + 1)) (done : List (Fin (n + 1) × List (BitVec 32))) :
    List (BitVec 32 × Bool) :=
  (done.filter fun p => p.1 = u).flatMap fun p => marked p.2

/-- Only a packet whose payload is on the link has begun. -/
structure Inv (s : State C) : Prop where
  users : ∀ u, (C.users u).Inv (s.users u)
  begun : ∀ u, left s u = 0 ∨ fresh s u ∨ (s.packetizer.fsm = .copy ∧ u = grant s)

/-- Where in a packet of the granted user the packetizer is: `part` is what it has sent of
the packet, and `sent` the payload words among it. -/
def InPacket (s : State C) (part sent : List (BitVec 32)) : Prop :=
  let g := grant s
  let pos := C.Packetizer.HeaderUnpack.pos s.packetizer.headerUnpack
  match s.packetizer.fsm with
  | .idle => pos = 0 ∧ part = [] ∧ sent = []
  | .insertHeader =>
      pos < 3 ∧ 0 < left s g ∧ C.Arbiter.ongoing s.arbiter g = true ∧
        part = [preamble, (C.users g).dst.setWidth 32].take pos ∧ sent = []
  | .copy =>
      let n := sent.length + left s g
      pos = 0 ∧ 0 < left s g ∧ C.Arbiter.ongoing s.arbiter g = true ∧
        n ≤ (C.users g).longest ∧ part = Framing.headerOf (C.users g).dst n ++ sent

/-- The words sent of the packet that is under way, if it is of this user. -/
def sentOf (s : State C) (sent : List (BitVec 32)) (u : Fin (n + 1)) : List (BitVec 32) :=
  if u = grant s then sent else []

/-- The words of a cycle take the packet on, or complete it. -/
def StepsPacket (s : State C) (i : In C) (part sent : List (BitVec 32)) : Prop :=
  ∃ done part' sent', (∀ p ∈ done, IsPacket C p) ∧ InPacket (next s i) part' sent' ∧
    part ++ sentWord (i, out s i) = packetsOf C done ++ part' ∧
    ∀ u, (sentOf s sent u).map (·, false) ++ userBeat u (i, out s i) =
      marksOf u done ++ (sentOf (next s i) sent' u).map (·, false)

theorem ready_of_not_copy {s : State C} (h : s.packetizer.fsm ≠ .copy) (i : In C)
    (u : Fin (n + 1)) : ready s i u = false := by
  unfold ready USBPacketizer.out
  cases hfsm : s.packetizer.fsm with
  | copy => exact absurd hfsm h
  | _ => exact ite_self _

theorem ready_of_ne {s : State C} {u : Fin (n + 1)} (h : u ≠ grant s) (i : In C) :
    ready s i u = false :=
  if_neg h

theorem ready_grant {s : State C} (h : s.packetizer.fsm = .copy) (i : In C) :
    ready s i (grant s) = i.sourceReady := by
  simp [ready, USBPacketizer.out, h]

theorem userBeat_of_quiet {s : State C} {i : In C} {u : Fin (n + 1)}
    (h : ready s i u = false) : userBeat u (i, out s i) = [] := by
  change beat _ (ready s i u) _ = []
  rw [h, beat_false_right]

/-- A user that is not answered keeps its packet. -/
theorem left_of_quiet {s : State C} {i : In C} (hInv : Inv s) {u : Fin (n + 1)}
    (h : ready s i u = false) (hleft : 0 < left s u) : left (next s i) u = left s u := by
  have hhold := ((C.users u).left_hold _ (i.users u) false (hInv.users u) hleft
    (Bool.and_false _)).1
  change (C.users u).left ((C.users u).next _ _ (ready s i u)) = _
  rw [h]
  exact hhold

/-- It begins no packet by itself. -/
theorem fresh_of_quiet {s : State C} {i : In C} (hInv : Inv s) {u : Fin (n + 1)}
    (h : ready s i u = false) (hfresh : left s u = 0 ∨ fresh s u) :
    left (next s i) u = 0 ∨ fresh (next s i) u := by
  by_cases hleft : left s u = 0
  · exact (C.users u).fresh_next _ (i.users u) (ready s i u) (hInv.users u) (Or.inl hleft)
  · have hbegun : fresh s u := hfresh.resolve_left hleft
    right
    have hhold := ((C.users u).left_hold _ (i.users u) false (hInv.users u)
      (Nat.pos_of_ne_zero hleft)
      (Bool.and_false _)).2 hbegun
    change (C.users u).fresh ((C.users u).next _ _ (ready s i u))
    rw [h]
    exact hhold

theorem users_next {s : State C} (i : In C) (hInv : Inv s) (u : Fin (n + 1)) :
    (C.users u).Inv ((next s i).users u) :=
  (C.users u).inv_next _ _ _ (hInv.users u)

/-- Before the payload nobody is answered. -/
theorem inv_of_not_copy {s : State C} (h : s.packetizer.fsm ≠ .copy) (i : In C)
    (hInv : Inv s) : Inv (next s i) := by
  have hfresh : ∀ u, left (next s i) u = 0 ∨ fresh (next s i) u := by
    intro u
    refine fresh_of_quiet hInv (ready_of_not_copy h i u) ?_
    rcases hInv.begun u with hleft | hfresh | ⟨hcopy, -⟩
    · exact Or.inl hleft
    · exact Or.inr hfresh
    · exact absurd hcopy h
  exact ⟨users_next i hInv, fun u => (hfresh u).imp_right Or.inl⟩

/-- The arbiter stays while a packet goes on. -/
theorem grant_next {s : State C} {i : In C}
    (hon : (source s i (grant s)).valid = true ∨
      C.Arbiter.ongoing s.arbiter (grant s) = true)
    (hends : (port s i (grant s)).ends = false) :
    grant (next s i) = grant s ∧
      C.Arbiter.ongoing (next s i).arbiter (grant s) = true := by
  have hrequest : (port s i (grant s)).request (C.Arbiter.ongoing s.arbiter (grant s)) = true := by
    change (_ && !(port s i (grant s)).ends) = true
    rw [hends, Bool.not_false, Bool.and_true]
    exact Bool.or_eq_true_iff.mpr hon
  exact C.Arbiter.hold hrequest

/-- No packet ends while nobody is answered. -/
theorem ends_of_quiet {s : State C} {i : In C} {u : Fin (n + 1)} (h : ready s i u = false) :
    (port s i u).ends = false := by
  change ((source s i u).valid && (source s i u).last && ready s i u) = false
  rw [h, Bool.and_false]

theorem step_idle {s : State C} (h : s.packetizer.fsm = .idle) (i : In C) (hInv : Inv s)
    {part sent : List (BitVec 32)} (hin : InPacket s part sent) :
    StepsPacket s i part sent := by
  have hnot : s.packetizer.fsm ≠ .copy := by simp [h]
  simp only [InPacket, h] at hin
  obtain ⟨hpos, rfl, rfl⟩ := hin
  have hpos' : C.Packetizer.HeaderUnpack.pos (next s i).packetizer.headerUnpack = 0 := by
    simp [next, USBPacketizer.next, h, C.Packetizer.HeaderUnpack.pos_next, hpos]
  refine ⟨[], [], [], by simp, ?_, ?_, fun u => ?_⟩
  · cases hvalid : (sink s i).valid with
    | false =>
      have hfsm : (next s i).packetizer.fsm = .idle := by
        simp [next, USBPacketizer.next, h, hvalid]
      simp [InPacket, hfsm, hpos']
    | true =>
      have hfsm : (next s i).packetizer.fsm = .insertHeader := by
        simp [next, USBPacketizer.next, h, hvalid]
      have hleft : 0 < left s (grant s) :=
        (C.users (grant s)).left_of_valid _ _ (hInv.users _) hvalid
      obtain ⟨hgrant, hongoing'⟩ :=
        grant_next (Or.inl hvalid) (ends_of_quiet (ready_of_not_copy hnot i (grant s)))
      have hleft' := left_of_quiet hInv (ready_of_not_copy hnot i (grant s)) hleft
      simp only [InPacket, hfsm, hpos']
      rw [hgrant, hleft']
      exact ⟨by omega, hleft, hongoing', rfl, trivial⟩
  · simp [sentWord, out, USBPacketizer.out, h, packetsOf]
  · rw [userBeat_of_quiet (ready_of_not_copy hnot i u)]
    simp [sentOf, marksOf]

theorem step_insertHeader {s : State C} (h : s.packetizer.fsm = .insertHeader) (i : In C)
    (hInv : Inv s) {part sent : List (BitVec 32)} (hin : InPacket s part sent) :
    StepsPacket s i part sent := by
  have hnot : s.packetizer.fsm ≠ .copy := by simp [h]
  simp only [InPacket, h] at hin
  obtain ⟨hpos, hleft, hongoing, rfl, rfl⟩ := hin
  obtain ⟨hgrant, hongoing'⟩ :=
    grant_next (Or.inr hongoing) (ends_of_quiet (ready_of_not_copy hnot i (grant s)))
  have hleft' := left_of_quiet hInv (ready_of_not_copy hnot i (grant s)) hleft
  have hfresh : fresh s (grant s) := by
    rcases hInv.begun (grant s) with hnil | hfresh | ⟨hcopy, -⟩
    · omega
    · exact hfresh
    · exact absurd hcopy hnot
  have hdst : (sink s i).dst = (C.users (grant s)).dst :=
    (C.users (grant s)).dst_eq _ _ (hInv.users _) hleft
  have hlength : (sink s i).length = BitVec.ofNat 32 (4 * left s (grant s)) :=
    (C.users (grant s)).length_eq _ _ (hInv.users _) hleft hfresh
  have hsent : sentWord (i, out s i) = beat true i.sourceReady
      (USBPacketizer.headerWord s.packetizer (sink s i)) := by
    simp [sentWord, out, USBPacketizer.out, h]
  have hwords : ∀ u, (sentOf s [] u).map (·, false) ++ userBeat u (i, out s i) =
      marksOf u [] ++ (sentOf (next s i) [] u).map (·, false) := by
    intro u
    rw [userBeat_of_quiet (ready_of_not_copy hnot i u)]
    simp [sentOf, marksOf]
  unfold StepsPacket
  rw [hsent]
  cases hready : i.sourceReady with
  | false =>
    have hfsm : (next s i).packetizer.fsm = .insertHeader := by
      simp [next, USBPacketizer.next, h, hready, Serializer.sinkReady]
    have hpos' : C.Packetizer.HeaderUnpack.pos (next s i).packetizer.headerUnpack =
        C.Packetizer.HeaderUnpack.pos s.packetizer.headerUnpack := by
      simp [next, USBPacketizer.next, h, hready, C.Packetizer.HeaderUnpack.pos_next]
    refine ⟨[], _, [], by simp, ?_, by simp [packetsOf]; rfl, hwords⟩
    simp only [InPacket, hfsm, hpos', hgrant, hleft']
    exact ⟨hpos, hleft, hongoing', trivial, trivial⟩
  | true =>
    by_cases htwo : C.Packetizer.HeaderUnpack.pos s.packetizer.headerUnpack = 2
    · -- the length word: the packet is all there
      have hfsm : (next s i).packetizer.fsm = .copy := by
        simp [next, USBPacketizer.next, h, hready, Serializer.sinkReady, htwo]
      have hpos' : C.Packetizer.HeaderUnpack.pos (next s i).packetizer.headerUnpack = 0 := by
        simp [next, USBPacketizer.next, h, hready, C.Packetizer.HeaderUnpack.pos_next, htwo]
      refine ⟨[], Framing.headerOf (C.users (grant s)).dst (left s (grant s)), [],
        by simp, ?_, ?_, hwords⟩
      · simp only [InPacket, hfsm, hpos', hgrant, hleft']
        refine ⟨trivial, hleft, hongoing', ?_, by simp⟩
        rw [List.length_nil, Nat.zero_add]
        exact (C.users (grant s)).left_le _ (hInv.users _)
      · simp only [htwo, USBPacketizer.headerWord, USBPacketizer.header, hlength]
        rfl
    · have hfsm : (next s i).packetizer.fsm = .insertHeader := by
        simp [next, USBPacketizer.next, h, hready, Serializer.sinkReady, htwo]
      have hpos' : C.Packetizer.HeaderUnpack.pos (next s i).packetizer.headerUnpack =
          C.Packetizer.HeaderUnpack.pos s.packetizer.headerUnpack + 1 := by
        simp [next, USBPacketizer.next, h, hready, C.Packetizer.HeaderUnpack.pos_next, htwo]
      refine ⟨[], [preamble, (C.users (grant s)).dst.setWidth 32].take
        (C.Packetizer.HeaderUnpack.pos s.packetizer.headerUnpack + 1), [], by simp, ?_, ?_, hwords⟩
      · simp only [InPacket, hfsm, hpos', hgrant, hleft']
        exact ⟨by omega, hleft, hongoing', trivial, trivial⟩
      · unfold USBPacketizer.headerWord USBPacketizer.header
        rw [hdst]
        rcases (by omega : C.Packetizer.HeaderUnpack.pos s.packetizer.headerUnpack = 0 ∨
          C.Packetizer.HeaderUnpack.pos s.packetizer.headerUnpack = 1) with hk | hk <;>
          rw [hk] <;> rfl

/-- What a cycle of the payload does: nothing moves, a word before the last one is taken,
or the last one is. -/
theorem copy_cases {s : State C} (h : s.packetizer.fsm = .copy) (i : In C) (hInv : Inv s)
    (hleft : 0 < left s (grant s)) :
    (((sink s i).valid && i.sourceReady) = false ∧ (next s i).packetizer.fsm = .copy ∧
      (port s i (grant s)).ends = false ∧ left (next s i) (grant s) = left s (grant s)) ∨
    ((sink s i).valid = true ∧ i.sourceReady = true ∧ (next s i).packetizer.fsm = .copy ∧
      (port s i (grant s)).ends = false ∧ (sink s i).last = false ∧
      left (next s i) (grant s) + 1 = left s (grant s) ∧ 0 < left (next s i) (grant s)) ∨
    ((sink s i).valid = true ∧ i.sourceReady = true ∧ (next s i).packetizer.fsm = .idle ∧
      left s (grant s) = 1 ∧ (sink s i).last = true ∧
      (left (next s i) (grant s) = 0 ∨ fresh (next s i) (grant s))) := by
  have hready := ready_grant h i
  have huser := hInv.users (grant s)
  cases hfire : (sink s i).valid && i.sourceReady with
  | false =>
    left
    refine ⟨rfl, ?_, ?_, ?_⟩
    · simp [next, USBPacketizer.next, h, Bool.and_comm i.sourceReady, hfire]
    · change ((sink s i).valid && (sink s i).last && ready s i (grant s)) = false
      rw [hready, Bool.and_right_comm, hfire, Bool.false_and]
    · have hhold := ((C.users (grant s)).left_hold _ (i.users _) i.sourceReady huser hleft hfire).1
      change (C.users _).left ((C.users _).next _ _ (ready s i (grant s))) = _
      rw [hready]
      exact hhold
  | true =>
    right
    obtain ⟨hvalid, hsource⟩ := Bool.and_eq_true_iff.mp hfire
    have hlast := (C.users (grant s)).last_eq _ (i.users _) huser hvalid
    change (sink s i).last = decide (left s (grant s) = 1) at hlast
    by_cases hone : left s (grant s) = 1
    · right
      rw [decide_eq_true hone] at hlast
      refine ⟨hvalid, hsource, ?_, hone, hlast, ?_⟩
      · simp [next, USBPacketizer.next, h, hvalid, hsource, hlast]
      · exact (C.users (grant s)).fresh_next _ (i.users _) _ huser
          (Or.inr ⟨hvalid, hready.trans hsource, hone⟩)
    · left
      rw [decide_eq_false hone] at hlast
      have hmore : 1 < left s (grant s) := by omega
      have htaken := (C.users (grant s)).left_next _ (i.users _) huser hvalid hmore
      have hnext : left (next s i) (grant s) + 1 = left s (grant s) := by
        change (C.users _).left ((C.users _).next _ _ (ready s i (grant s))) + 1 = _
        rw [hready, hsource]
        exact htaken
      refine ⟨hvalid, hsource, ?_, ?_, hlast, hnext, by omega⟩
      · simp [next, USBPacketizer.next, h, hvalid, hsource, hlast]
      · change ((sink s i).valid && (sink s i).last && _) = false
        rw [hlast, Bool.and_false, Bool.false_and]

/-- The users that are not granted do nothing in the payload of another one. -/
theorem begun_copy {s : State C} (i : In C) (hInv : Inv s) {u : Fin (n + 1)}
    (hu : u ≠ grant s) : left (next s i) u = 0 ∨ fresh (next s i) u := by
  refine fresh_of_quiet hInv (ready_of_ne hu i) ?_
  rcases hInv.begun u with hnil | hfresh | ⟨-, heq⟩
  · exact Or.inl hnil
  · exact Or.inr hfresh
  · exact absurd heq hu

theorem sentWord_copy {s : State C} (h : s.packetizer.fsm = .copy) (i : In C) :
    sentWord (i, out s i) = beat (sink s i).valid i.sourceReady (sink s i).data := by
  simp [sentWord, out, USBPacketizer.out, h]

theorem userBeat_copy {s : State C} (h : s.packetizer.fsm = .copy) (i : In C) :
    userBeat (grant s) (i, out s i) =
      beat (sink s i).valid i.sourceReady ((sink s i).data, (sink s i).last) := by
  change beat (sink s i).valid (ready s i (grant s)) _ = _
  rw [ready_grant h i]
  rfl

/-- The converter of the header stays at its first word. -/
theorem headerUnpack_copy {s : State C} (h : s.packetizer.fsm = .copy) (i : In C)
    (hpos : C.Packetizer.HeaderUnpack.pos s.packetizer.headerUnpack = 0) :
    C.Packetizer.HeaderUnpack.pos (next s i).packetizer.headerUnpack = 0 := by
  simp [next, USBPacketizer.next, h, C.Packetizer.HeaderUnpack.pos_next, hpos]

/-- A cycle in which the payload goes on, with the words that it sends. -/
theorem step_payload {s : State C} (h : s.packetizer.fsm = .copy) (i : In C) (hInv : Inv s)
    {part sent words : List (BitVec 32)} (hin : InPacket s part sent)
    (hfsm : (next s i).packetizer.fsm = .copy) (hends : (port s i (grant s)).ends = false)
    (hmore : 0 < left (next s i) (grant s))
    (hcount : words.length + left (next s i) (grant s) = left s (grant s))
    (hsent : sentWord (i, out s i) = words)
    (hmine : userBeat (grant s) (i, out s i) = words.map (·, false)) :
    Inv (next s i) ∧ StepsPacket s i part sent := by
  simp only [InPacket, h] at hin
  obtain ⟨hpos, -, hongoing, hlongest, rfl⟩ := hin
  obtain ⟨hgrant, hongoing'⟩ := grant_next (Or.inr hongoing) hends
  have hcurrent : (sent ++ words).length + left (next s i) (grant s) =
      sent.length + left s (grant s) := by
    rw [List.length_append]
    omega
  refine ⟨⟨users_next i hInv, fun u => ?_⟩, [],
    Framing.headerOf (C.users (grant s)).dst (sent.length + left s (grant s)) ++ (sent ++ words),
    sent ++ words, by simp, ?_, ?_, fun u => ?_⟩
  · by_cases hu : u = grant s
    · exact Or.inr (Or.inr ⟨hfsm, hu.trans hgrant.symm⟩)
    · exact (begun_copy i hInv hu).imp_right Or.inl
  · simp only [InPacket, hfsm, hgrant, hcurrent]
    exact ⟨headerUnpack_copy h i hpos, hmore, hongoing', hlongest, trivial⟩
  · rw [hsent, List.append_assoc]
    rfl
  · unfold sentOf
    by_cases hu : u = grant s
    · subst hu
      rw [hmine, hgrant]
      simp [marksOf]
    · rw [userBeat_of_quiet (ready_of_ne hu i), hgrant, List.append_nil]
      simp [marksOf, hu]

/-- The cycle of the last word, which completes the packet. -/
theorem step_last {s : State C} (h : s.packetizer.fsm = .copy) (i : In C) (hInv : Inv s)
    {part sent : List (BitVec 32)} (hin : InPacket s part sent)
    (hvalid : (sink s i).valid = true) (hsource : i.sourceReady = true)
    (hfsm : (next s i).packetizer.fsm = .idle) (hone : left s (grant s) = 1)
    (hlast : (sink s i).last = true)
    (hbegun : left (next s i) (grant s) = 0 ∨ fresh (next s i) (grant s)) :
    Inv (next s i) ∧ StepsPacket s i part sent := by
  simp only [InPacket, h] at hin
  obtain ⟨hpos, -, -, hlongest, rfl⟩ := hin
  have hsent := sentWord_copy h i
  have hmine := userBeat_copy h i
  rw [hvalid, hsource, beat_true_true] at hsent hmine
  rw [hlast] at hmine
  have hbegun' : ∀ u, left (next s i) u = 0 ∨ fresh (next s i) u := by
    intro u
    by_cases hu : u = grant s
    · rw [hu]
      exact hbegun
    · exact begun_copy i hInv hu
  refine ⟨⟨users_next i hInv, fun u => (hbegun' u).imp_right Or.inl⟩,
    [(grant s, sent ++ [(sink s i).data])], [], [], ?_, ?_, ?_, fun u => ?_⟩
  · rw [hone] at hlongest
    simp only [List.mem_singleton, IsPacket]
    rintro p rfl
    simp only [List.length_append, List.length_singleton]
    omega
  · simp only [InPacket, hfsm]
    exact ⟨headerUnpack_copy h i hpos, trivial, trivial⟩
  · rw [hsent, hone]
    simp [packetsOf, Framing.packet]
  · unfold sentOf
    by_cases hu : u = grant s
    · subst hu
      rw [hmine]
      simp [marksOf, marked_append]
    · rw [userBeat_of_quiet (ready_of_ne hu i), if_neg hu]
      simp [marksOf, Ne.symm hu]

theorem step_copy {s : State C} (h : s.packetizer.fsm = .copy) (i : In C) (hInv : Inv s)
    {part sent : List (BitVec 32)} (hin : InPacket s part sent) :
    Inv (next s i) ∧ StepsPacket s i part sent := by
  have hleft : 0 < left s (grant s) := by
    simp only [InPacket, h] at hin
    exact hin.2.1
  have hsent := sentWord_copy h i
  have hmine := userBeat_copy h i
  rcases copy_cases h i hInv hleft with
    ⟨hfire, hfsm, hends, hkeep⟩ | ⟨hvalid, hsource, hfsm, hends, hlast, hword, hmore⟩ |
    ⟨hvalid, hsource, hfsm, hone, hlast, hbegun⟩
  · -- nothing moves
    rw [beat_of_quiet hfire] at hsent hmine
    exact step_payload h i hInv hin hfsm hends (by omega)
      (by rw [List.length_nil, Nat.zero_add, hkeep]) hsent hmine
  · rw [hvalid, hsource, beat_true_true] at hsent hmine
    rw [hlast] at hmine
    exact step_payload h i hInv hin hfsm hends hmore
      (by rw [List.length_singleton, Nat.add_comm, hword]) hsent hmine
  · exact step_last h i hInv hin hvalid hsource hfsm hone hlast hbegun

theorem step {s : State C} (i : In C) (hInv : Inv s) {part sent : List (BitVec 32)}
    (hin : InPacket s part sent) : Inv (next s i) ∧ StepsPacket s i part sent := by
  cases h : s.packetizer.fsm with
  | idle => exact ⟨inv_of_not_copy (by simp [h]) i hInv, step_idle h i hInv hin⟩
  | insertHeader =>
    exact ⟨inv_of_not_copy (by simp [h]) i hInv, step_insertHeader h i hInv hin⟩
  | copy => exact step_copy h i hInv hin

/-! ## Whole runs -/

@[simp] theorem packetsOf_append (done more : List (Fin (n + 1) × List (BitVec 32))) :
    packetsOf C (done ++ more) = packetsOf C done ++ packetsOf C more := by
  simp [packetsOf]

@[simp] theorem marksOf_append (u : Fin (n + 1))
    (done more : List (Fin (n + 1) × List (BitVec 32))) :
    marksOf u (done ++ more) = marksOf u done ++ marksOf u more := by
  simp [marksOf]

/-- The link has whole packets and a part of one more, and what a user has handed over is
the payloads of its own. -/
def Framed (s : State C) (tr : List (In C × Out C)) : Prop :=
  ∃ done part sent, (∀ p ∈ done, IsPacket C p) ∧ InPacket s part sent ∧
    moved sentWord tr = packetsOf C done ++ part ∧
    ∀ u, moved (userBeat u) tr = marksOf u done ++ (sentOf s sent u).map (·, false)

/-- No user has begun a packet. -/
structure Starts (users : ∀ u, (C.users u).State) : Prop where
  inv : ∀ u, (C.users u).Inv (users u)
  unbegun : ∀ u, (C.users u).left (users u) = 0 ∨ (C.users u).fresh (users u)

theorem inv_init {users : ∀ u, (C.users u).State} (h : Starts users) :
    Inv (init users : State C) :=
  ⟨h.inv, fun u => (h.unbegun u).imp_right Or.inl⟩

theorem framed_init (users : ∀ u, (C.users u).State) : Framed (init users : State C) [] := by
  refine ⟨[], [], [], by simp, ?_, by simp [packetsOf], fun u => by simp [marksOf, sentOf]⟩
  simp [InPacket, init, USBPacketizer.init, C.Packetizer.HeaderUnpack.pos_init]

theorem framed_next {s : State C} {tr : List (In C × Out C)} (i : In C) (hInv : Inv s)
    (h : Framed s tr) : Inv (next s i) ∧ Framed (next s i) (tr ++ [(i, out s i)]) := by
  obtain ⟨done, part, sent, hdone, hin, hsent, hwords⟩ := h
  obtain ⟨hInv', more, part', sent', hmore, hin', hpart', hwords'⟩ := step i hInv hin
  refine ⟨hInv', done ++ more, part', sent', ?_, hin', ?_, fun u => ?_⟩
  · intro p hp
    rcases List.mem_append.mp hp with hp | hp
    · exact hdone p hp
    · exact hmore p hp
  · rw [moved_append, moved_singleton, hsent, List.append_assoc, hpart', packetsOf_append,
      List.append_assoc]
  · rw [moved_append, moved_singleton, hwords u, List.append_assoc, hwords' u, marksOf_append,
      List.append_assoc]

theorem framed_run {users : ∀ u, (C.users u).State} (h : Starts users) (is : List (In C)) :
    Inv ((machine C).run (init users) is) ∧
      Framed ((machine C).run (init users) is) ((machine C).trace (init users) is) :=
  (machine C).history_induction_always (fun s tr => Inv s ∧ Framed s tr)
    ⟨inv_init h, framed_init users⟩
    (fun _ _ i hs => framed_next i hs.1 hs.2) is

/-- The start of the packet that is under way: some of its header, or all of it and some of
the payload. -/
theorem exists_current {s : State C} {part sent : List (BitVec 32)} (hin : InPacket s part sent) :
    ∃ k, part = (Framing.headerOf (C.users (grant s)).dst
        (sent.length + left s (grant s))).take k ++ sent ∧
      (sent ≠ [] → k = 3) ∧ (0 < k → 0 < left s (grant s)) := by
  cases hfsm : s.packetizer.fsm with
  | idle =>
    simp only [InPacket, hfsm] at hin
    obtain ⟨-, rfl, rfl⟩ := hin
    exact ⟨0, rfl, fun h => absurd rfl h, fun h => absurd h (Nat.lt_irrefl 0)⟩
  | insertHeader =>
    simp only [InPacket, hfsm] at hin
    obtain ⟨hpos, hleft, -, rfl, rfl⟩ := hin
    generalize C.Packetizer.HeaderUnpack.pos s.packetizer.headerUnpack = pos at hpos ⊢
    refine ⟨pos, ?_, fun h => absurd rfl h, fun _ => hleft⟩
    rcases (by omega : pos = 0 ∨ pos = 1 ∨ pos = 2) with rfl | rfl | rfl <;> rfl
  | copy =>
    simp only [InPacket, hfsm] at hin
    obtain ⟨-, hleft, -, -, rfl⟩ := hin
    exact ⟨3, rfl, fun _ => rfl, fun _ => hleft⟩

/-- What is on the link, and in it what each user has handed over, with its marks. -/
theorem link_marked {users : ∀ u, (C.users u).State} (hstart : Starts users)
    (is : List (In C)) :
    let s := (machine C).run (init users) is
    let tr := (machine C).trace (init users) is
    ∃ (done : List (Fin (n + 1) × List (BitVec 32))) (sent : List (BitVec 32)) (k : Nat),
      moved sentWord tr = packetsOf C done ++ ((Framing.headerOf (C.users (grant s)).dst
          (sent.length + left s (grant s))).take k ++ sent) ∧
        (∀ u, moved (userBeat u) tr = marksOf u done ++ (sentOf s sent u).map (·, false)) ∧
        (∀ p ∈ done, IsPacket C p) ∧ (sent ≠ [] → k = 3) ∧ (0 < k → 0 < left s (grant s)) := by
  intro s tr
  obtain ⟨-, done, part, sent, hdone, hin, hsent, hbeats⟩ := framed_run hstart is
  obtain ⟨k, rfl, hwhole, hleft⟩ := exists_current hin
  exact ⟨done, sent, k, hsent, hbeats, hdone, hwhole, hleft⟩

theorem map_fst_marksOf (u : Fin (n + 1)) (done : List (Fin (n + 1) × List (BitVec 32))) :
    (marksOf u done).map Prod.fst = wordsOf u done := by
  unfold marksOf wordsOf
  rw [List.map_flatMap]
  exact List.flatMap_congr fun p _ => marked_map_fst p.2

/-- The words without their marks. -/
theorem moved_userWord {s : State C} {tr : List (In C × Out C)} {sent : List (BitVec 32)}
    {done : List (Fin (n + 1) × List (BitVec 32))} {u : Fin (n + 1)}
    (h : moved (userBeat u) tr = marksOf u done ++ (sentOf s sent u).map (·, false)) :
    moved (userWord u) tr = wordsOf u done ++ if u = grant s then sent else [] := by
  have hwords : (moved (userBeat u) tr).map Prod.fst = moved (userWord u) tr := by
    unfold moved
    rw [List.map_flatMap]
    exact List.flatMap_congr fun c _ => map_beat Prod.fst _ _ _
  have hsent : (sentOf s sent u).map (Prod.fst ∘ fun x => (x, false)) = sentOf s sent u :=
    List.map_id _
  rw [← hwords, h, List.map_append, map_fst_marksOf, List.map_map, hsent]
  rfl

/-- **The senders share the link packet by packet.**  What is on the link is whole packets
and the start of one more, each announced with its sender and its length; and the words
that a sender has handed over are the payloads of its own packets, in order, whatever the
others do and however the link stalls. -/
theorem link_shared {users : ∀ u, (C.users u).State} (hstart : Starts users)
    (is : List (In C)) :
    let s := (machine C).run (init users) is
    let tr := (machine C).trace (init users) is
    ∃ (done : List (Fin (n + 1) × List (BitVec 32))) (sent : List (BitVec 32)) (k : Nat),
      moved sentWord tr = packetsOf C done ++ ((Framing.headerOf (C.users (grant s)).dst
          (sent.length + left s (grant s))).take k ++ sent) ∧
        (∀ u, moved (userWord u) tr = wordsOf u done ++ if u = grant s then sent else []) ∧
        (∀ p ∈ done, IsPacket C p) ∧ (sent ≠ [] → k = 3) ∧ (0 < k → 0 < left s (grant s)) := by
  intro s tr
  obtain ⟨done, sent, k, hsent, hbeats, hdone, hwhole, hleft⟩ := link_marked hstart is
  exact ⟨done, sent, k, hsent, fun u => moved_userWord (hbeats u), hdone, hwhole, hleft⟩

/-- A sender and a second one, each with an empty buffer. -/
def wrapSenders : Config 1 where
  users u := WrapSender.user (WrapSender.core (BitVec.ofNat 8 u))
  Arbiter := Arbiter.roundRobin 1
  Packetizer := ⟨Serializer.mux 3⟩

/-- Both are offered a word, and the link is ready. -/
def bothCycle : In wrapSenders where
  users _ := (true, 0x01020304)
  sourceReady := true

/-- Both senders at a reset. -/
def idleSenders : State wrapSenders :=
  init fun u => WrapSender.init (C := WrapSender.core (BitVec.ofNat 8 u))

theorem link_shared_wrapSenders :
    ∃ (done : List (Fin 2 × List (BitVec 32))) (sent : List (BitVec 32)) (k : Nat),
      moved sentWord ((machine wrapSenders).trace idleSenders (List.replicate 600 bothCycle)) =
          packetsOf wrapSenders done ++ ((Framing.headerOf (wrapSenders.users
            (grant ((machine wrapSenders).run idleSenders (List.replicate 600 bothCycle)))).dst
          (sent.length + left ((machine wrapSenders).run idleSenders
            (List.replicate 600 bothCycle)) (grant ((machine wrapSenders).run idleSenders
              (List.replicate 600 bothCycle))))).take k ++ sent) ∧
        ∀ p ∈ done, 1 ≤ p.2.length ∧ p.2.length ≤ 129 := by
  have hstart : Starts (C := wrapSenders)
      fun u => WrapSender.init (C := WrapSender.core (BitVec.ofNat 8 u)) :=
    ⟨fun _ => WrapSender.inv_init, fun _ => Or.inr trivial⟩
  obtain ⟨done, sent, k, hsent, -, hdone, -⟩ := link_shared hstart (List.replicate 600 bothCycle)
  exact ⟨done, sent, k, hsent, hdone⟩

end USBCrossbar.Tx

end UsbSniffer.Usb
