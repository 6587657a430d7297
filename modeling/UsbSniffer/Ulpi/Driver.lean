/-
  Ulpi/Driver.lean --- the registers of the transceiver, as the host uses them
  (software/common/ulpi.c on gateware/ulpi.py).

  `ulpi_write_reg` and `ulpi_read_reg` set the registers of the core, start it and poll
  until it is done.  The accesses of the program come to the bus in its order, but at any
  cycles; the command words go through two FIFOs into the other clock.  Because the
  program does not touch the registers while the core is busy, the transceiver gets the
  commands of the calls whole, one behind the other, and each read returns the byte that
  was latched for it.
-/
import UsbSniffer.Ulpi.Read
import UsbSniffer.Sync.Component

set_option autoImplicit false

namespace UsbSniffer.Ulpi

open UsbSniffer.Sync

variable {δ : Type}

/-! ## The words of a command -/

/-- An immediate register write, and the byte to write. -/
def writeWords (adr : BitVec 6) (dat : BitVec 8) : List TxBeat :=
  [⟨0x80#8 ||| adr.setWidth 8, false⟩, ⟨dat, true⟩]

/-- An immediate register read. -/
def readWords (adr : BitVec 6) : List TxBeat := [⟨0xc0#8 ||| adr.setWidth 8, false⟩]

namespace ULPICore

/-- What the core has still to send for the command it is at. -/
def owed (s : State δ) (adr : BitVec 6) (dat : BitVec 8) : List TxBeat :=
  match s.fsm with
  | .writeRegAdr => writeWords adr dat
  | .writeRegDat => [⟨dat, true⟩]
  | .readFlush | .readRegAdr => readWords adr
  | .idle | .readRegDat => []

/-- The command that is started in a cycle. -/
def asked (s : State δ) (i : In) : List TxBeat :=
  if s.fsm == .idle then
    if i.regWrite then writeWords i.regAdr i.regDatW
    else if i.regRead then readWords i.regAdr else []
  else []

/-- The word that the core hands on in a cycle. -/
def pushed (s : State δ) (i : In) (phySinkReady : Bool) : List TxBeat :=
  beat (phySinkValid s i) phySinkReady (phySink s i)

/-- Without packets of the user, the core sends the commands that are asked of it. -/
theorem owed_next (s : State δ) {i : In} (h : i.sinkValid = false)
    (phySinkReady phySourceValid : Bool) (phySource : RxBeat δ) :
    QueueStep (owed s i.regAdr i.regDatW) (asked s i) (pushed s i phySinkReady)
      (owed (next s i phySinkReady phySourceValid phySource) i.regAdr i.regDatW) := by
  unfold QueueStep owed asked pushed next nextFsm
  cases hfsm : s.fsm with
  | idle =>
    cases hwrite : i.regWrite <;> cases hread : i.regRead <;>
      simp [phySinkValid, passes, hfsm, h, hwrite, hread]
  | writeRegAdr => cases phySinkReady <;> simp [phySinkValid, phySink, hfsm, writeWords]
  | writeRegDat => cases phySinkReady <;> simp [phySinkValid, phySink, hfsm]
  | readFlush => cases hcnt : s.flushcnt == 3 <;> simp [phySinkValid, hfsm]
  | readRegAdr => cases phySinkReady <;> simp [phySinkValid, phySink, hfsm, readWords]
  | readRegDat => cases phySourceValid <;> simp [phySinkValid, hfsm]

end ULPICore

namespace ULPIPHY

variable {F : Config δ}

/-- The words on their way to the transceiver, oldest first. -/
def transmitting (s : State F) : List TxBeat :=
  F.phy.txFifo.contents s.phy.tx ++ F.fifoSink.contents s.fifoSink

/-- The word that the core hands on at an instant. -/
def pushed (s : State F) (e : Edges δ) : List TxBeat :=
  e.sys.elim [] fun i => ULPICore.pushed s.core i (F.fifoSink.writable s.fifoSink)

/-- The word that the transceiver takes at an instant. -/
def taken (s : State F) (e : Edges δ) : List TxBeat :=
  e.ulpi.elim [] fun pads =>
    beat (F.phy.txFifo.readable s.phy.tx) (ULPIPHYS7.txReady pads) (F.phy.txFifo.dout s.phy.tx)

/-- The byte that a read latches at an instant. -/
def answered (s : State F) (e : Edges δ) : List δ :=
  if latches s e then [(F.fifoSource.dout s.fifoSource).data] else []

/-- Both FIFOs are one queue, whatever the edges. -/
theorem transmitting_next (s : State F) (e : Edges δ) :
    QueueStep (transmitting s) (pushed s e) (taken s e) (transmitting (next s e)) := by
  have hback := F.fifoSink.queueStep s.fifoSink
    ⟨e.sys.map fun i => (ULPICore.phySinkValid s.core i, ULPICore.phySink s.core i),
      e.ulpi.map fun pads => (ULPIPHYS7.out s.phy (phyIn s pads)).sinkReady⟩
  have hpushed : AsyncFIFO.sinkWord (⟨e.sys.map fun i =>
      (ULPICore.phySinkValid s.core i, ULPICore.phySink s.core i),
      e.ulpi.map fun pads => (ULPIPHYS7.out s.phy (phyIn s pads)).sinkReady⟩,
      F.fifoSink.out s.fifoSink) = pushed s e := by
    cases hsys : e.sys <;> simp [AsyncFIFO.sinkWord, pushed, ULPICore.pushed, hsys, AsyncFIFO.out]
  rw [hpushed] at hback
  refine hback.chain ?_
  cases hulpi : e.ulpi with
  | none => simp [QueueStep, AsyncFIFO.sourceWord, taken, next, hulpi]
  | some pads =>
    have hfront := F.phy.txFifo.queueStep s.phy.tx (F.fifoSink.readable s.fifoSink)
      (F.fifoSink.dout s.fifoSink) (ULPIPHYS7.txReady pads)
    simp only [AsyncFIFO.sourceWord, taken, next, hulpi, Option.map_some, Option.getD_some,
      Option.elim_some]
    exact hfront

/-! ## The calls of the host -/

/-- The registers of the core on the bus. -/
inductive Csr
  | regAdr
  | regDatW
  | regWrite
  | regRead
  deriving DecidableEq, Repr

/-- What a call of the host does on the bus. -/
inductive Stmt
  /-- `eb_write_reg32` -/
  | write (reg : Csr) (val : BitVec 32)
  /-- `while(!eb_read_reg32(fd, ..._REG_DONE_ADDR))` -/
  | waitDone
  /-- `return eb_read_reg32(fd, ..._REG_DAT_R_ADDR)` -/
  | returnDatR
  deriving DecidableEq, Repr

/-- A call of the driver. -/
inductive Call
  | readReg (addr : BitVec 8)
  | writeReg (addr val : BitVec 8)
  deriving DecidableEq, Repr

namespace Call

/-- `ulpi_read_reg` and `ulpi_write_reg`. -/
def body : Call → List Stmt
  | readReg addr =>
      [.write .regAdr (addr.setWidth 32), .write .regRead 1, .waitDone, .returnDatR]
  | writeReg addr val =>
      [.write .regAdr (addr.setWidth 32), .write .regDatW (val.setWidth 32), .write .regWrite 1,
        .waitDone]

/-- What the transceiver gets for a call. -/
def words : Call → List TxBeat
  | readReg addr => readWords (addr.setWidth 6)
  | writeReg addr val => writeWords (addr.setWidth 6) val

/-- It returns a byte. -/
def isRead : Call → Bool
  | readReg _ => true
  | writeReg _ _ => false

end Call

/-- The host with the core and the transceiver: the statements to come, the registers of the
core that keep what is written to them, and the bytes returned. -/
structure Session (F : Config δ) where
  prog : List Stmt
  regAdr : BitVec 6
  regDatW : BitVec 8
  returned : List δ
  phy : State F

namespace Session

/-- The edges of an instant.  At an edge of the system's clock the next access of the host may
be on the bus. -/
structure Sys where
  access : Bool
  enableSource : Bool
  sourceReady : Bool
  deriving DecidableEq, Repr

/-- The clock edges of an instant. -/
structure In (δ : Type) where
  sys : Option Sys
  ulpi : Option (Pads δ)
  deriving DecidableEq, Repr

/-- The words that the transceiver takes, and the bytes that the core latches. -/
structure Out (δ : Type) where
  taken : List TxBeat
  answered : List δ
  deriving DecidableEq, Repr

/-- The calls are made one after the other, from a reset. -/
def start [Inhabited δ] (calls : List Call) : Session F where
  prog := calls.flatMap Call.body
  regAdr := 0
  regDatW := 0
  returned := []
  phy := init

/-- The statement on the bus. -/
def onBus (s : Session F) (i : Sys) : Option Stmt := if i.access then s.prog.head? else none

/-- The inputs of the core; nothing is connected to its `sink`. -/
def coreIn (s : Session F) (i : Sys) : ULPICore.In where
  regAdr := s.regAdr
  regDatW := s.regDatW
  regWrite := onBus s i matches some (.write .regWrite _)
  regRead := onBus s i matches some (.write .regRead _)
  enableSource := i.enableSource
  sinkValid := false
  sink := default
  sourceReady := i.sourceReady

/-- The edges with the registers that the driver has written. -/
def edges (s : Session F) (i : In δ) : Edges δ := ⟨i.sys.map (coreIn s), i.ulpi⟩

/-- The host after its access. -/
def access (s : Session F) (stmt : Stmt) : Session F :=
  match stmt with
  | .write .regAdr val => { s with prog := s.prog.tail, regAdr := val.setWidth 6 }
  | .write .regDatW val => { s with prog := s.prog.tail, regDatW := val.setWidth 8 }
  | .write .regWrite _ | .write .regRead _ => { s with prog := s.prog.tail }
  | .waitDone => if ULPICore.regDone s.phy.core then { s with prog := s.prog.tail } else s
  | .returnDatR =>
      { s with prog := s.prog.tail, returned := s.returned ++ [s.phy.core.regDatR] }

/-- The host after an edge of the system's clock. -/
def host (s : Session F) (i : Sys) : Session F := (onBus s i).elim s (access s)

/-- The driver in front of the core. -/
def machine (F : Config δ) : Machine (Session F) (In δ) (Out δ) where
  out s i := ⟨taken s.phy (edges s i), answered s.phy (edges s i)⟩
  next s i := { i.sys.elim s (host s) with phy := next s.phy (edges s i) }

/-! ## Programs of calls -/

/-- A call begins, or there is none. -/
def Fresh (p : List Stmt) : Prop := p.head? ≠ some .waitDone ∧ p.head? ≠ some .returnDatR

/-- The program waits behind every start of the core, and takes the byte behind a read. -/
def Sound : List Stmt → Prop
  | [] => True
  | .write .regRead _ :: p => (∃ q, p = .waitDone :: .returnDatR :: q) ∧ Sound p
  | .write .regWrite _ :: p => (∃ q, p = .waitDone :: q ∧ Fresh q) ∧ Sound p
  | .write .regAdr _ :: p | .write .regDatW _ :: p | .returnDatR :: p => Fresh p ∧ Sound p
  | .waitDone :: p => p.head? ≠ some .waitDone ∧ Sound p

/-- The commands that a program will start, from the registers on. -/
def orders : BitVec 6 → BitVec 8 → List Stmt → List TxBeat
  | _, _, [] => []
  | _, dat, .write .regAdr val :: p => orders (val.setWidth 6) dat p
  | adr, _, .write .regDatW val :: p => orders adr (val.setWidth 8) p
  | adr, dat, .write .regWrite _ :: p => writeWords adr dat ++ orders adr dat p
  | adr, dat, .write .regRead _ :: p => readWords adr ++ orders adr dat p
  | adr, dat, .waitDone :: p | adr, dat, .returnDatR :: p => orders adr dat p

theorem fresh_program (calls : List Call) : Fresh (calls.flatMap Call.body) := by
  cases calls with
  | nil => simp [Fresh]
  | cons call calls => cases call <;> simp [Fresh, Call.body]

theorem sound_program (calls : List Call) : Sound (calls.flatMap Call.body) := by
  induction calls with
  | nil => exact trivial
  | cons call calls ih =>
    have hfresh := fresh_program calls
    rw [List.flatMap_cons]
    generalize calls.flatMap Call.body = p at ih hfresh
    cases call <;> simp_all [Call.body, Sound, Fresh]

theorem orders_program (adr : BitVec 6) (dat : BitVec 8) (calls : List Call) :
    orders adr dat (calls.flatMap Call.body) = calls.flatMap Call.words := by
  induction calls generalizing adr dat with
  | nil => rfl
  | cons call calls ih =>
    rw [List.flatMap_cons, List.flatMap_cons]
    cases call with
    | readReg addr => simp [Call.body, Call.words, orders, ih]
    | writeReg addr val => simp [Call.body, Call.words, orders, ih]

/-! ## The host and the core -/

/-- While the core is busy the host waits for it. -/
def Paired (fsm : ULPICore.Fsm) (prog : List Stmt) : Prop :=
  match fsm with
  | .idle => True
  | .writeRegAdr | .writeRegDat => ∃ q, prog = .waitDone :: q ∧ Fresh q
  | .readFlush | .readRegAdr | .readRegDat => ∃ q, prog = .waitDone :: .returnDatR :: q

/-- The program is the rest of some calls, and waits where the core is at work. -/
structure Inv (s : Session F) : Prop where
  sound : Sound s.prog
  paired : Paired s.phy.core.fsm s.prog

/-- The byte that is latched and not returned. -/
def unreturned (s : Session F) : List δ :=
  match s.prog with
  | .returnDatR :: _ => [s.phy.core.regDatR]
  | .waitDone :: .returnDatR :: _ =>
      if ULPICore.regDone s.phy.core then [s.phy.core.regDatR] else []
  | _ => []

theorem Paired.waits {fsm : ULPICore.Fsm} {prog : List Stmt} (h : Paired fsm prog)
    (hbusy : fsm ≠ .idle) : ∃ q, prog = .waitDone :: q := by
  cases fsm with
  | idle => exact absurd rfl hbusy
  | writeRegAdr | writeRegDat =>
    obtain ⟨q, hq, -⟩ := h
    exact ⟨q, hq⟩
  | readFlush | readRegAdr | readRegDat =>
    obtain ⟨q, hq⟩ := h
    exact ⟨_, hq⟩

/-- An access while the core is busy is a poll, and changes nothing. -/
theorem host_busy {s : Session F} (hInv : Inv s) (hbusy : s.phy.core.fsm ≠ .idle) (i : Sys) :
    host s i = s ∧ (coreIn s i).regWrite = false ∧ (coreIn s i).regRead = false := by
  obtain ⟨q, hq⟩ := hInv.paired.waits hbusy
  have hdone : ULPICore.regDone s.phy.core = false := by simp [ULPICore.regDone, hbusy]
  cases hi : i.access <;> simp [host, coreIn, onBus, access, hq, hi, hdone]

/-- What is on the bus is the next statement. -/
theorem prog_of_onBus {s : Session F} {i : Sys} {stmt : Stmt} (h : onBus s i = some stmt) :
    ∃ p, s.prog = stmt :: p := by
  unfold onBus at h
  split_ifs at h
  cases hp : s.prog with
  | nil =>
    rw [hp] at h
    cases h
  | cons x p =>
    rw [hp, List.head?_cons, Option.some.injEq] at h
    exact ⟨p, by rw [h]⟩

/-- The core after an edge of the system's clock. -/
theorem core_next (s : Session F) {i : In δ} {j : Sys} (h : i.sys = some j) :
    ((machine F).next s i).phy.core = ULPICore.next s.phy.core (coreIn s j)
      (F.fifoSink.writable s.phy.fifoSink) (F.fifoSource.readable s.phy.fifoSource)
      (F.fifoSource.dout s.phy.fifoSource) := by
  simp [machine, next, edges, h]

/-- An idle core starts what is asked of it. -/
theorem fsm_idle {s : Session F} {i : In δ} {j : Sys} (h : i.sys = some j)
    (hidle : s.phy.core.fsm = .idle) : ((machine F).next s i).phy.core.fsm =
      if (coreIn s j).regWrite then .writeRegAdr
      else if (coreIn s j).regRead then .readFlush else .idle := by
  rw [core_next s h]
  simp [ULPICore.next, ULPICore.nextFsm, hidle]

theorem prog_next (s : Session F) {i : In δ} {j : Sys} (h : i.sys = some j) :
    ((machine F).next s i).prog = (host s j).prog := by
  simp [machine, h]

/-- What is left of the program when the core is idle. -/
theorem prog_host {s : Session F} {i : Sys} {stmt : Stmt} {p : List Stmt}
    (hidle : s.phy.core.fsm = .idle) (hbus : onBus s i = some stmt) (hp : s.prog = stmt :: p) :
    (host s i).prog = p := by
  have hdone : ULPICore.regDone s.phy.core = true := by simp [ULPICore.regDone, hidle]
  cases stmt with
  | write reg val => cases reg <;> simp [host, hbus, access, hp]
  | waitDone => simp [host, hbus, access, hp, hdone]
  | returnDatR => simp [host, hbus, access, hp]

theorem inv_idle {s : Session F} {i : In δ} {j : Sys} (hInv : Inv s) (hsys : i.sys = some j)
    (hidle : s.phy.core.fsm = .idle) : Inv ((machine F).next s i) := by
  have hfsm := fsm_idle hsys hidle
  have hprog := prog_next s hsys
  have hsound := hInv.sound
  cases hbus : onBus s j with
  | none =>
    have hhost : host s j = s := by simp [host, hbus]
    rw [hhost] at hprog
    simp only [coreIn, hbus, Bool.false_eq_true, if_false] at hfsm
    exact ⟨hprog ▸ hsound, hfsm ▸ trivial⟩
  | some stmt =>
    obtain ⟨p, hp⟩ := prog_of_onBus hbus
    rw [prog_host hidle hbus hp] at hprog
    rw [hp] at hsound
    cases stmt with
    | write reg val =>
      cases reg with
      | regAdr | regDatW =>
        simp only [coreIn, hbus, Bool.false_eq_true, if_false] at hfsm
        exact ⟨hprog ▸ hsound.2, hfsm ▸ trivial⟩
      | regWrite =>
        obtain ⟨hwaits, hsound⟩ := hsound
        simp only [coreIn, hbus, if_true] at hfsm
        exact ⟨hprog ▸ hsound, by rw [hfsm, hprog]; exact hwaits⟩
      | regRead =>
        obtain ⟨hwaits, hsound⟩ := hsound
        simp only [coreIn, hbus, Bool.false_eq_true, if_false, if_true] at hfsm
        exact ⟨hprog ▸ hsound, by rw [hfsm, hprog]; exact hwaits⟩
    | waitDone | returnDatR =>
      simp only [coreIn, hbus, Bool.false_eq_true, if_false] at hfsm
      exact ⟨hprog ▸ hsound.2, hfsm ▸ trivial⟩

theorem inv_busy {s : Session F} {i : In δ} {j : Sys} (hInv : Inv s) (hsys : i.sys = some j)
    (hbusy : s.phy.core.fsm ≠ .idle) : Inv ((machine F).next s i) := by
  have hprog := prog_next s hsys
  rw [(host_busy hInv hbusy j).1] at hprog
  refine ⟨hprog ▸ hInv.sound, ?_⟩
  have hpaired := hInv.paired
  rw [hprog, core_next s hsys]
  unfold ULPICore.next ULPICore.nextFsm
  cases hfsm : s.phy.core.fsm with
  | idle => exact absurd hfsm hbusy
  | writeRegAdr | writeRegDat | readFlush | readRegAdr | readRegDat =>
    rw [hfsm] at hpaired
    dsimp only
    split_ifs
    · first | exact trivial | exact hpaired
    · exact hpaired

theorem inv_next {s : Session F} (i : In δ) (hInv : Inv s) : Inv ((machine F).next s i) := by
  cases hsys : i.sys with
  | none =>
    have hnext : (machine F).next s i = { s with phy := next s.phy (edges s i) } := by
      simp [machine, hsys]
    have hcore : (next s.phy (edges s i)).core = s.phy.core := by simp [next, edges, hsys]
    rw [hnext]
    exact ⟨hInv.sound, hcore ▸ hInv.paired⟩
  | some j =>
    by_cases hidle : s.phy.core.fsm = .idle
    · exact inv_idle hInv hsys hidle
    · exact inv_busy hInv hsys hidle

/-! ## The commands -/

/-- What the core has still to send, and what the host will ask of it. -/
def toSend (s : Session F) : List TxBeat :=
  ULPICore.owed s.phy.core s.regAdr s.regDatW ++ orders s.regAdr s.regDatW s.prog

/-- The host asks for the commands of its program. -/
theorem orders_host {s : Session F} (hInv : Inv s) (i : Sys) :
    orders s.regAdr s.regDatW s.prog = ULPICore.asked s.phy.core (coreIn s i) ++
      orders (host s i).regAdr (host s i).regDatW (host s i).prog := by
  by_cases hidle : s.phy.core.fsm = .idle
  · have hdone : ULPICore.regDone s.phy.core = true := by simp [ULPICore.regDone, hidle]
    cases hbus : onBus s i with
    | none => simp [ULPICore.asked, coreIn, host, hbus]
    | some stmt =>
      obtain ⟨p, hp⟩ := prog_of_onBus hbus
      cases stmt with
      | write reg val =>
        cases reg <;> simp [ULPICore.asked, coreIn, host, access, orders, hbus, hp, hidle]
      | waitDone => simp [ULPICore.asked, coreIn, host, access, orders, hbus, hp, hdone]
      | returnDatR => simp [ULPICore.asked, coreIn, host, access, orders, hbus, hp]
  · obtain ⟨hhost, -, -⟩ := host_busy hInv hidle i
    rw [hhost]
    simp [ULPICore.asked, hidle]

/-- The registers do not change under a command. -/
theorem owed_host {s : Session F} (hInv : Inv s) {i : In δ} {j : Sys} (hsys : i.sys = some j) :
    ULPICore.owed ((machine F).next s i).phy.core (host s j).regAdr (host s j).regDatW =
      ULPICore.owed ((machine F).next s i).phy.core s.regAdr s.regDatW := by
  by_cases hidle : s.phy.core.fsm = .idle
  · have hfsm := fsm_idle hsys hidle
    cases hbus : onBus s j with
    | none => simp [host, hbus]
    | some stmt =>
      cases stmt with
      | write reg val =>
        cases reg with
        | regAdr | regDatW =>
          simp only [coreIn, hbus, Bool.false_eq_true, if_false] at hfsm
          simp [ULPICore.owed, hfsm]
        | regWrite | regRead => simp [host, hbus, access]
      | waitDone =>
        simp only [host, hbus, access, Option.elim_some]
        split_ifs <;> rfl
      | returnDatR => simp [host, hbus, access]
  · rw [(host_busy hInv hidle j).1]

theorem toSend_next {s : Session F} (hInv : Inv s) (i : In δ) :
    toSend s = pushed s.phy (edges s i) ++ toSend ((machine F).next s i) := by
  cases hsys : i.sys with
  | none => simp [toSend, machine, pushed, next, edges, hsys]
  | some j =>
    have howed := ULPICore.owed_next s.phy.core (i := coreIn s j) rfl
      (F.fifoSink.writable s.phy.fifoSink) (F.fifoSource.readable s.phy.fifoSource)
      (F.fifoSource.dout s.phy.fifoSource)
    rw [← core_next s hsys] at howed
    have hregs := owed_host hInv hsys
    have hnext : toSend ((machine F).next s i) =
        ULPICore.owed ((machine F).next s i).phy.core (host s j).regAdr (host s j).regDatW ++
          orders (host s j).regAdr (host s j).regDatW (host s j).prog := by
      simp [toSend, machine, hsys]
    have hpushed : pushed s.phy (edges s i) =
        ULPICore.pushed s.phy.core (coreIn s j) (F.fifoSink.writable s.phy.fifoSink) := by
      simp [pushed, edges, hsys]
    rw [hnext, hregs, hpushed, toSend, orders_host hInv j, ← List.append_assoc,
      ← List.append_assoc]
    exact congrArg (· ++ _) howed

/-! ## The bytes that are read -/

theorem unreturned_fresh {s : Session F} (h : Fresh s.prog) : unreturned s = [] := by
  unfold unreturned
  split
  · next hp => exact absurd (by rw [hp]; rfl) h.2
  · next hp => exact absurd (by rw [hp]; rfl) h.1
  · rfl

theorem unreturned_waits {s : Session F} {p : List Stmt} (hp : s.prog = .waitDone :: p)
    (h : Fresh p) : unreturned s = [] := by
  unfold unreturned
  split
  · next hq =>
    rw [hp] at hq
    cases hq
  · next hq =>
    rw [hp, List.cons.injEq] at hq
    exact absurd (by rw [hq.2]; rfl) h.2
  · rfl

theorem unreturned_busy {s : Session F} {p : List Stmt} (hp : s.prog = .waitDone :: p)
    (hbusy : s.phy.core.fsm ≠ .idle) : unreturned s = [] := by
  have hdone : ULPICore.regDone s.phy.core = false := by simp [ULPICore.regDone, hbusy]
  unfold unreturned
  split
  · next hq =>
    rw [hp] at hq
    cases hq
  · rw [hdone]
    rfl
  · rfl

theorem answered_of_fsm {s : Session F} (h : s.phy.core.fsm ≠ .readRegDat) (i : In δ) :
    answered s.phy (edges s i) = [] := by
  simp [answered, latches, h]

theorem returned_idle {s : Session F} {i : In δ} {j : Sys} (hInv : Inv s)
    (hsys : i.sys = some j) (hidle : s.phy.core.fsm = .idle) :
    s.returned ++ unreturned s =
      ((machine F).next s i).returned ++ unreturned ((machine F).next s i) := by
  have hfsm := fsm_idle hsys hidle
  have hprog := prog_next s hsys
  have hsound := hInv.sound
  have hreturned : ((machine F).next s i).returned = (host s j).returned := by
    simp [machine, hsys]
  have hdatR : ((machine F).next s i).phy.core.regDatR = s.phy.core.regDatR := by
    rw [core_next s hsys]
    simp [ULPICore.next, hidle]
  have hdone : ULPICore.regDone s.phy.core = true := by simp [ULPICore.regDone, hidle]
  cases hbus : onBus s j with
  | none =>
    have hhost : host s j = s := by simp [host, hbus]
    rw [hhost] at hprog hreturned
    simp only [coreIn, hbus, Bool.false_eq_true, if_false] at hfsm
    rw [hreturned]
    simp only [unreturned, hprog, hdatR, ULPICore.regDone, hfsm, hidle]
  | some stmt =>
    obtain ⟨p, hp⟩ := prog_of_onBus hbus
    rw [prog_host hidle hbus hp] at hprog
    rw [hp] at hsound
    cases stmt with
    | write reg val =>
      have hnone : unreturned s = [] := by simp [unreturned, hp]
      have hkept : (host s j).returned = s.returned := by
        cases reg <;> simp [host, hbus, access]
      have hnext : unreturned ((machine F).next s i) = [] := by
        cases reg with
        | regAdr | regDatW => exact unreturned_fresh (hprog ▸ hsound.1)
        | regWrite =>
          obtain ⟨⟨q, hq, hfresh⟩, -⟩ := hsound
          exact unreturned_waits (hprog.trans hq) hfresh
        | regRead =>
          obtain ⟨⟨q, hq⟩, -⟩ := hsound
          simp only [coreIn, hbus, Bool.false_eq_true, if_false, if_true] at hfsm
          exact unreturned_busy (hprog.trans hq) (by rw [hfsm]; decide)
      rw [hnone, hnext, hreturned, hkept]
    | waitDone =>
      have hkept : (host s j).returned = s.returned := by simp [host, hbus, access, hdone]
      rw [hreturned, hkept]
      refine congrArg (s.returned ++ ·) ?_
      by_cases hread : p.head? = some .returnDatR
      · obtain ⟨q, rfl⟩ := List.head?_eq_some_iff.mp hread
        simp [unreturned, hp, hprog, hdone, hdatR]
      · have hfresh : Fresh p := ⟨hsound.1, hread⟩
        rw [unreturned_waits hp hfresh, unreturned_fresh (hprog ▸ hfresh)]
    | returnDatR =>
      have hgiven : (host s j).returned = s.returned ++ [s.phy.core.regDatR] := by
        simp [host, hbus, access]
      have hfresh : Fresh ((machine F).next s i).prog := hprog ▸ hsound.1
      have hwaiting : unreturned s = [s.phy.core.regDatR] := by simp [unreturned, hp]
      rw [hreturned, hgiven, hwaiting, unreturned_fresh hfresh, List.append_nil]

theorem returned_busy {s : Session F} {i : In δ} {j : Sys} (hInv : Inv s)
    (hsys : i.sys = some j) (hbusy : s.phy.core.fsm ≠ .idle) :
    s.returned ++ answered s.phy (edges s i) =
      ((machine F).next s i).returned ++ unreturned ((machine F).next s i) := by
  have hhost := (host_busy hInv hbusy j).1
  have hprog := prog_next s hsys
  have hreturned : ((machine F).next s i).returned = (host s j).returned := by
    simp [machine, hsys]
  have hpaired := hInv.paired
  have hcore := core_next s hsys
  rw [hhost] at hprog hreturned
  rw [hreturned]
  refine congrArg (s.returned ++ ·) ?_
  cases hfsm : s.phy.core.fsm with
  | idle => exact absurd hfsm hbusy
  | writeRegAdr | writeRegDat =>
    rw [hfsm] at hpaired
    obtain ⟨q, hq, hfresh⟩ := hpaired
    rw [answered_of_fsm (by rw [hfsm]; decide), unreturned_waits (hprog.trans hq) hfresh]
  | readFlush | readRegAdr =>
    rw [hfsm] at hpaired
    obtain ⟨q, hq⟩ := hpaired
    have hbusy' : ((machine F).next s i).phy.core.fsm ≠ .idle := by
      rw [hcore]
      simp only [ULPICore.next, ULPICore.nextFsm, hfsm]
      split_ifs
      all_goals decide
    rw [answered_of_fsm (by rw [hfsm]; decide), unreturned_busy (hprog.trans hq) hbusy']
  | readRegDat =>
    rw [hfsm] at hpaired
    obtain ⟨q, hq⟩ := hpaired
    cases hreadable : F.fifoSource.readable s.phy.fifoSource with
    | false =>
      have hbusy' : ((machine F).next s i).phy.core.fsm ≠ .idle := by
        simp [hcore, ULPICore.next, ULPICore.nextFsm, hfsm, hreadable]
      rw [unreturned_busy (hprog.trans hq) hbusy']
      simp [answered, latches, hreadable]
    | true =>
      have hlatched : unreturned ((machine F).next s i) =
          [(F.fifoSource.dout s.phy.fifoSource).data] := by
        unfold unreturned
        rw [hprog, hq, hcore]
        simp [ULPICore.regDone, ULPICore.next, ULPICore.nextFsm, hfsm, hreadable]
      rw [hlatched]
      simp [answered, latches, edges, hsys, hfsm, hreadable]

/-- A byte that is latched is returned, or waits to be. -/
theorem returned_next {s : Session F} (hInv : Inv s) (i : In δ) :
    s.returned ++ unreturned s ++ answered s.phy (edges s i) =
      ((machine F).next s i).returned ++ unreturned ((machine F).next s i) := by
  cases hsys : i.sys with
  | none =>
    have hcore : (next s.phy (edges s i)).core = s.phy.core := by simp [next, edges, hsys]
    simp [answered, latches, edges, machine, hsys, unreturned, next]
  | some j =>
    by_cases hidle : s.phy.core.fsm = .idle
    · rw [answered_of_fsm (by rw [hidle]; decide), List.append_nil]
      exact returned_idle hInv hsys hidle
    · obtain ⟨q, hq⟩ := hInv.paired.waits hidle
      rw [unreturned_busy hq hidle, List.append_nil]
      exact returned_busy hInv hsys hidle

/-- The reads that a program has to return from. -/
def returns (p : List Stmt) : Nat := p.count .returnDatR

theorem returns_program (calls : List Call) :
    returns (calls.flatMap Call.body) = calls.countP Call.isRead := by
  induction calls with
  | nil => rfl
  | cons call calls ih =>
    unfold returns at ih ⊢
    rw [List.flatMap_cons, List.count_append, ih, List.countP_cons]
    cases call <;> simp [Call.body, Call.isRead, Nat.add_comm]

theorem returns_next (s : Session F) (i : In δ) :
    ((machine F).next s i).returned.length + returns ((machine F).next s i).prog =
      s.returned.length + returns s.prog := by
  cases hsys : i.sys with
  | none => simp [machine, hsys]
  | some j =>
    have hhost : (host s j).returned.length + returns (host s j).prog =
        s.returned.length + returns s.prog := by
      cases hbus : onBus s j with
      | none => simp [host, hbus]
      | some stmt =>
        obtain ⟨p, hp⟩ := prog_of_onBus hbus
        cases stmt with
        | write reg val => cases reg <;> simp [host, hbus, access, hp, returns]
        | waitDone =>
          cases hdone : ULPICore.regDone s.phy.core <;>
            simp [host, hbus, access, hp, hdone, returns]
        | returnDatR => simp [host, hbus, access, hp, returns]; omega
    rw [← hhost]
    simp [machine, hsys]

/-! ## Runs -/

theorem inv_start [Inhabited δ] (calls : List Call) : Inv (start calls : Session F) where
  sound := sound_program calls
  paired := trivial

theorem toSend_start [Inhabited δ] (calls : List Call) :
    toSend (start calls : Session F) = calls.flatMap Call.words :=
  orders_program 0 0 calls

/-- **The transceiver gets the commands of the calls.**  Whenever the accesses of the host come
to the bus and the clocks have their edges: the words that the transceiver has taken are
those of the calls, whole and in order, up to what is on its way and what is still to be
sent; and when the host has returned from its calls, all of them are at least on the way. -/
theorem commands_taken [Inhabited δ] (calls : List Call) (is : List (In δ)) :
    let s : Session F := (machine F).run (start calls) is
    let words := moved (fun c => c.2.taken) ((machine F).trace (start calls : Session F) is)
    words ++ (transmitting s.phy ++ toSend s) = calls.flatMap Call.words ∧
      (s.prog = [] → words ++ transmitting s.phy = calls.flatMap Call.words) := by
  intro s words
  let P (s : Session F) (tr : List (In δ × Out δ)) : Prop :=
    Inv s ∧ moved (fun c => c.2.taken) tr ++ (transmitting s.phy ++ toSend s) =
      calls.flatMap Call.words
  have hrun : P s ((machine F).trace (start calls) is) := (machine F).history_induction_always P
    ⟨inv_start calls, by
      have hempty : transmitting (start calls : Session F).phy = [] :=
        List.append_eq_nil_iff.mpr ⟨F.phy.txFifo.contents_init, F.fifoSink.contents_init⟩
      rw [hempty, toSend_start]
      rfl⟩
    (by
      rintro s tr i ⟨hInv, heq⟩
      refine ⟨inv_next i hInv, ?_⟩
      have hqueue := transmitting_next s.phy (edges s i)
      unfold QueueStep at hqueue
      rw [toSend_next hInv i, ← List.append_assoc (transmitting s.phy), hqueue] at heq
      rw [moved_append, moved_singleton, List.append_assoc, ← heq, List.append_assoc]
      rfl)
    is
  obtain ⟨hInv, hwords⟩ := hrun
  refine ⟨hwords, fun hdone => ?_⟩
  have hidle : s.phy.core.fsm = .idle := by
    by_contra hbusy
    obtain ⟨q, hq⟩ := hInv.paired.waits hbusy
    rw [hdone] at hq
    cases hq
  have hnone : toSend s = [] := by simp [toSend, ULPICore.owed, hidle, hdone, orders]
  change words ++ (transmitting s.phy ++ toSend s) = _ at hwords
  rw [hnone, List.append_nil] at hwords
  exact hwords

/-- The words of a write are on the pads when the host has returned and the clock of the
transceiver has run on. -/
example :
    let is : List (In (BitVec 8)) :=
      List.replicate 12 ⟨some ⟨true, false, true⟩, some ⟨false, true, 0⟩⟩
    let start : Session (Config.synchronized (BitVec 8)) := start [.writeReg 0x44 0x48]
    ((machine _).run start is).prog = [] ∧
      moved (fun c => c.2.taken) ((machine _).trace start is) = [⟨0x84, false⟩, ⟨0x48, true⟩] := by
  decide +kernel

/-- The byte that each read returns is the one that was latched for it: at every instant the
bytes returned are those latched, in order, but for one that waits to be returned. -/
theorem bytes_returned [Inhabited δ] (calls : List Call) (is : List (In δ)) :
    let s : Session F := (machine F).run (start calls) is
    let bytes := moved (fun c => c.2.answered) ((machine F).trace (start calls : Session F) is)
    s.returned ++ unreturned s = bytes ∧ s.returned.length ≤ calls.countP Call.isRead ∧
      (s.prog = [] → s.returned = bytes ∧ bytes.length = calls.countP Call.isRead) := by
  intro s bytes
  let P (s : Session F) (tr : List (In δ × Out δ)) : Prop :=
    Inv s ∧ s.returned ++ unreturned s = moved (fun c => c.2.answered) tr ∧
      s.returned.length + returns s.prog = calls.countP Call.isRead
  have hrun : P s ((machine F).trace (start calls) is) := (machine F).history_induction_always P
    ⟨inv_start calls, unreturned_fresh (fresh_program calls), by
      rw [← returns_program calls]
      exact Nat.zero_add _⟩
    (by
      rintro s tr i ⟨hInv, hbytes, hcount⟩
      refine ⟨inv_next i hInv, ?_, ?_⟩
      · rw [moved_append, moved_singleton, ← hbytes]
        exact (returned_next hInv i).symm
      · rw [← hcount]
        exact returns_next s i)
    is
  obtain ⟨hInv, hbytes, hcount⟩ := hrun
  change s.returned ++ unreturned s = bytes at hbytes
  change s.returned.length + returns s.prog = _ at hcount
  refine ⟨hbytes, by omega, fun hdone => ?_⟩
  have hnone : unreturned s = [] := by simp [unreturned, hdone]
  rw [hnone, List.append_nil] at hbytes
  rw [hdone, hbytes] at hcount
  exact ⟨hbytes, hcount⟩

end Session

end ULPIPHY

end UsbSniffer.Ulpi
