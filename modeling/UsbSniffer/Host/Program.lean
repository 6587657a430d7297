/-
  Host/Program.lean --- programs of the host over the link (software/linux/compat.c).

  The tools of the host read and write registers one by one, and what they do next depends
  on what they have read: a loop polls a register until it is set.  Each access becomes a
  packet and each read waits for a packet.  When only the replies of the core are on the
  link, such a program does over the link what it does on the bus.
-/
import UsbSniffer.Host.Receive
import UsbSniffer.Etherbone.Serve

set_option autoImplicit false

namespace UsbSniffer.Host

open UsbSniffer.Sync UsbSniffer.Etherbone

/-- `eb_write_reg32`: nothing comes back. -/
def ebWriteReg32 (addr val : BitVec 32) (port : Port) : Port :=
  { port with sent := port.sent ++ ubarSendPacket (ebMakeWritePkt addr [val]) 0 }

/-- What a program with the state `σ` does next. -/
inductive Act (σ α : Type)
  | ret (a : α)
  | write (addr val : BitVec 32) (fits : Fits addr 1) (s : σ)
  | read (addr : BitVec 32) (fits : Fits addr 1) (s : BitVec 32 → σ)

namespace Program

variable {σ α : Type} (next : σ → Act σ α) (answer : List Access → BitVec 32)

/-! ## On the bus -/

/-- The accesses that the bus has seen when a word is written. -/
def written (addr val : BitVec 32) (fits : Fits addr 1) (log : List Access) : List Access :=
  log ++ (Request.write addr [val] fits).accesses

/-- The accesses that it has seen when a word is read. -/
def asked (addr : BitVec 32) (fits : Fits addr 1) (log : List Access) : List Access :=
  log ++ (Request.read addr 1 fits).accesses

/-- The program on the bus, for some number of turns: what it returns, and the accesses that
the bus has seen. -/
def onBus : Nat → σ → List Access → Option (α × List Access)
  | 0, _, _ => none
  | turns + 1, s, log =>
      match next s with
      | .ret a => some (a, log)
      | .write addr val fits s' => onBus turns s' (written addr val fits log)
      | .read addr fits s' => onBus turns (s' (answer (asked addr fits log))) (asked addr fits log)

/-- The requests that it makes. -/
def requests : Nat → σ → List Access → List Request
  | 0, _, _ => []
  | turns + 1, s, log =>
      match next s with
      | .ret _ => []
      | .write addr val fits s' =>
          .write addr [val] fits :: requests turns s' (written addr val fits log)
      | .read addr fits s' =>
          .read addr 1 fits ::
            requests turns (s' (answer (asked addr fits log))) (asked addr fits log)

/-- The bus sees the accesses of the requests. -/
theorem log_onBus {turns : Nat} {s : σ} {log log' : List Access} {a : α}
    (h : onBus next answer turns s log = some (a, log')) :
    log' = log ++ (requests next answer turns s log).flatMap Request.accesses := by
  induction turns generalizing s log with
  | zero => cases h
  | succ turns ih =>
    unfold onBus at h
    unfold requests
    cases hnext : next s with
    | ret b =>
      rw [hnext] at h
      cases h
      exact (List.append_nil _).symm
    | write addr val fits s' =>
      rw [hnext] at h
      rw [ih h, List.flatMap_cons, ← List.append_assoc]
      rfl
    | read addr fits s' =>
      rw [hnext] at h
      rw [ih h, List.flatMap_cons, ← List.append_assoc]
      rfl

/-! ## Over the link -/

/-- The program over the link, for some number of turns. -/
def overLink : Nat → σ → Port → Except Stop (Option (α × Port))
  | 0, _, _ => .ok none
  | turns + 1, s, port =>
      match next s with
      | .ret a => .ok (some (a, port))
      | .write addr val _ s' => overLink turns s' (ebWriteReg32 addr val port)
      | .read addr _ s' => do
          let (val, port) ← ebReadReg32 addr port
          overLink turns (s' val) port

/-- The packets of the replies. -/
def replyPackets (identifier : BitVec 8) (values : List (List (BitVec 32))) :
    List (BitVec 32 × List (BitVec 8)) :=
  values.map fun v => (identifier.setWidth 32, replyBytes identifier v)

/-- The packets of the requests, all of the stream of the bus. -/
def requestPackets (rs : List Request) : List (BitVec 32 × List (BitVec 8)) :=
  rs.map fun r => (wishbone, r.packet)

/-- A read takes the reply that is next. -/
theorem ebReadReg32_reply (addr : BitVec 32) (identifier : BitVec 8) {value : BitVec 32}
    {port : Port} {ys : List (BitVec 8)} (hlink : .failed ∉ port.arrivals)
    (h : pending port.arrivals =
      ubarSendPacket (replyBytes identifier [value]) (identifier.setWidth 32) ++ ys) :
    ∃ arrivals, ebReadReg32 addr port = .ok (value,
        ⟨port.sent ++ ubarSendPacket (ebMakeReadPkt addr 1) 0, arrivals⟩) ∧
      pending arrivals = ys ∧ .failed ∉ arrivals := by
  have hsize : (replyBytes identifier [value]).length ≤ 32768 := by
    rw [length_replyBytes, List.length_singleton]
    omega
  have hone : [value].length ≤ 255 := by
    rw [List.length_singleton]
    omega
  obtain ⟨arrivals, hrecv, hrest, hclean⟩ :=
    ubarRecvPacket_pending (List.not_mem_nil : Usb.preamble ∉ []) hlink hsize h
  have hread := ebReadReg32_of_recv addr hrecv
  rw [ebDecodeRcvPkt_replyBytes identifier hone] at hread
  exact ⟨arrivals, hread, hrest, hclean⟩

/-- A program that returns on the bus returns the same over the link. -/
theorem overLink_of_onBus (identifier : BitVec 8) {turns : Nat} {s : σ} {log log' : List Access}
    {a : α} (hbus : onBus next answer turns s log = some (a, log')) {port : Port}
    {ys : List (BitVec 8)} (hlink : .failed ∉ port.arrivals)
    (hpending : pending port.arrivals = sentPackets (replyPackets identifier
      (replies answer log (requests next answer turns s log))) ++ ys) :
    ∃ port', overLink next turns s port = .ok (some (a, port')) ∧
      port'.sent = port.sent ++
        sentPackets (requestPackets (requests next answer turns s log)) ∧
      pending port'.arrivals = ys := by
  induction turns generalizing s log port with
  | zero => cases hbus
  | succ turns ih =>
    unfold onBus at hbus
    unfold requests at hpending ⊢
    unfold overLink
    cases hnext : next s with
    | ret b =>
      simp only [hnext] at hbus hpending ⊢
      cases hbus
      exact ⟨port, rfl, (List.append_nil _).symm, hpending⟩
    | write addr val fits s' =>
      simp only [hnext] at hbus hpending ⊢
      have hlink' : .failed ∉ (ebWriteReg32 addr val port).arrivals := hlink
      obtain ⟨port', hrun, hsent, hrest⟩ := ih hbus hlink' hpending
      refine ⟨port', hrun, ?_, hrest⟩
      rw [hsent, requestPackets, requestPackets, List.map_cons, sentPackets_cons,
        ← List.append_assoc]
      rfl
    | read addr fits s' =>
      simp only [hnext] at hbus hpending ⊢
      -- the reply of this read is the first one on the link
      have hfirst : replies answer log (.read addr 1 fits :: requests next answer turns
          (s' (answer (asked addr fits log))) (asked addr fits log)) =
          [answer (asked addr fits log)] :: replies answer (asked addr fits log)
            (requests next answer turns (s' (answer (asked addr fits log)))
              (asked addr fits log)) := rfl
      rw [hfirst, replyPackets, List.map_cons, sentPackets_cons, List.append_assoc] at hpending
      obtain ⟨arrivals, hread, hrest, hclean⟩ := ebReadReg32_reply addr identifier hlink hpending
      let port₁ : Port := ⟨port.sent ++ ubarSendPacket (ebMakeReadPkt addr 1) 0, arrivals⟩
      have hlink₁ : .failed ∉ port₁.arrivals := hclean
      obtain ⟨port', hrun, hsent, hys⟩ := ih hbus hlink₁ hrest
      refine ⟨port', ?_, ?_, hys⟩
      · rw [hread]
        exact hrun
      · rw [hsent, requestPackets, requestPackets, List.map_cons, sentPackets_cons,
          ← List.append_assoc]
        rfl

/-- **A program of the host runs over USB as on the bus.**  When it returns on a bus with the
given answers, the core, fed with its requests, makes its accesses on that bus and replies
to its reads, in any run with enough free cycles; and with these replies on the link the
program returns the same over the link, having sent just its requests. -/
theorem program_served (E : Config) {turns : Nat} {s : σ} {a : α} {log : List Access}
    (hbus : onBus next answer turns s [] = some (a, log)) (is : List (Stage.Drive Bool))
    (hfree : 27 * ((requests next answer turns s []).flatMap
        (Request.userBeats E.identifier)).length ≤
      ((E.stage answer).driven.trace (E.fed answer (requests next answer turns s [])) is).countP
        Stage.free) :
    let rs := requests next answer turns s []
    let values := replies answer [] rs
    E.log ((E.stage answer).driven.run (E.fed answer rs) is).1 = log ∧
      moved Stage.given ((E.stage answer).driven.trace (E.fed answer rs) is) =
        values.flatMap (replyBeats E.identifier) ∧
      ∀ port ys, .failed ∉ port.arrivals →
        pending port.arrivals = sentPackets (replyPackets E.identifier values) ++ ys →
        ∃ port', overLink next turns s port = .ok (some (a, port')) ∧
          port'.sent = port.sent ++ sentPackets (requestPackets rs) ∧
          pending port'.arrivals = ys := by
  intro rs values
  obtain ⟨haccesses, hgiven⟩ := E.complete_of_free answer rs is hfree
  have hlog := log_onBus next answer hbus
  rw [List.nil_append] at hlog
  exact ⟨haccesses.trans hlog.symm, hgiven, fun port ys hlink hpending =>
    overLink_of_onBus next answer E.identifier hbus hlink hpending⟩

theorem fits_set : Fits 0x104 1 := ⟨by decide, by decide, by decide⟩

theorem fits_polled : Fits 0x100 1 := ⟨by decide, by decide, by decide⟩

/-- A register is set, and another one is polled until it is three. -/
def poll : Nat → Act Nat Unit
  | 0 => .write 0x104 1 fits_set 1
  | 1 => .read 0x100 fits_polled fun value => if value = 3 then 2 else 1
  | _ => .ret ()

/-- A bus that counts its accesses. -/
def counting (log : List Access) : BitVec 32 := BitVec.ofNat 32 log.length

/-- The second poll finds the three. -/
theorem program_served_poll :
    let rs := requests poll counting 4 0 []
    let values := replies counting [] rs
    let is := List.replicate (27 * (rs.flatMap (Request.userBeats Config.core.identifier)).length)
      (Stage.eager true)
    Config.core.log ((Config.core.stage counting).driven.run (Config.core.fed counting rs) is).1 =
        [⟨true, 0x41, 0xf, 1⟩, ⟨false, 0x40, 0, 0⟩, ⟨false, 0x40, 0, 0⟩] ∧
      moved Stage.given ((Config.core.stage counting).driven.trace
          (Config.core.fed counting rs) is) =
        values.flatMap (replyBeats Config.core.identifier) ∧
      ∀ port ys, .failed ∉ port.arrivals →
        pending port.arrivals =
          sentPackets (replyPackets Config.core.identifier values) ++ ys →
        ∃ port', overLink poll 4 0 port = .ok (some ((), port')) ∧
          port'.sent = port.sent ++ sentPackets (requestPackets rs) ∧
          pending port'.arrivals = ys := by
  intro rs values is
  exact program_served poll counting Config.core (by rfl) is
    (Stage.countP_eager (Config.core.waits_eager counting) _ _).ge

end Program

end UsbSniffer.Host
