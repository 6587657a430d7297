/-
  Host/Mux.lean --- registers read beside the captured records (software/etherbone.py).

  `USBMux` writes and reads packets with a stream identifier on one file, and `Etherbone`
  reads a register by a request and the next packet of its own stream.  The packets of
  other streams that stand in front of the reply are read and dropped, so that the values
  are right whatever is captured before the reply, and what is captured then is lost.  The
  file has one buffer for both directions: a request that is written when a raw read has
  brought bytes behind the reply goes over them (`send_ahead`).
-/
import UsbSniffer.Host.File
import UsbSniffer.Host.Receive
import UsbSniffer.Etherbone.Serve

set_option autoImplicit false

namespace UsbSniffer.Host

open UsbSniffer.Sync

/-! ## Packets on a file -/

/-- How a call ends without a value. -/
inductive Failure
  /-- `struct.error`: the data do not have the size of the format. -/
  | unpack (size : Nat)
  /-- `struct.error`: the number does not fit its format. -/
  | pack (n : Nat)
  /-- `assert(magic == self.magic)`. -/
  | assertion (magic : BitVec 32)
  /-- An error of the packet that is decoded. -/
  | packet
  /-- The device has nothing to be read, and the call waits. -/
  | waiting
  deriving DecidableEq, Repr

/-- A call that uses the file. -/
abbrev Call (α : Type) : Type := ExceptT Failure (StateM BufferedRandom) α

namespace Call

/-- A step that has succeeded. -/
theorem bind_of_ok {α β : Type} {x : Call α} {k : α → Call β} {f g : BufferedRandom} {a : α}
    (h : x f = (.ok a, g)) : (x >>= k) f = k a g := by
  change (match x f with | (r, f') => ExceptT.bindCont k r f') = _
  rw [h]
  rfl

theorem lift_ok {α : Type} {x : Except Failure α} {a : α} (h : x = .ok a) (f : BufferedRandom) :
    (liftM x : Call α) f = (.ok a, f) := by
  rw [h]
  rfl

end Call

namespace USBMux

/-- `self.f.read(n)`. -/
def readf (n : Nat) : Call (List (BitVec 8)) := fun f =>
  match f.read n with
  | none => (.error .waiting, f)
  | some (data, f) => (.ok data, f)

/-- `self.f.write(data)`. -/
def writef (data : List (BitVec 8)) : Call Unit := fun f => (.ok (), f.write data)

/-- `struct.unpack("I", data)`. -/
def unpack (data : List (BitVec 8)) : Except Failure (BitVec 32) :=
  match data with
  | [b₀, b₁, b₂, b₃] => .ok (littleWord b₀ b₁ b₂ b₃)
  | _ => .error (.unpack data.length)

/-- `struct.unpack("II", data)`. -/
def unpack2 (data : List (BitVec 8)) : Except Failure (BitVec 32 × BitVec 32) :=
  match data with
  | [b₀, b₁, b₂, b₃, b₄, b₅, b₆, b₇] => .ok (littleWord b₀ b₁ b₂ b₃, littleWord b₄ b₅ b₆ b₇)
  | _ => .error (.unpack data.length)

/-- `struct.pack` of a number as `I`. -/
def pack (n : Nat) : Except Failure (List (BitVec 8)) :=
  if n < 2 ^ 32 then .ok (bytes 4 (BitVec.ofNat 32 n)) else .error (.pack n)

/-- `send`. -/
def send (streamid : Nat) (packet : List (BitVec 8)) : Call Unit := do
  let sid ← pack streamid
  let length ← pack packet.length
  writef (bytes 4 Usb.preamble ++ sid ++ length ++ packet)

/-- `recv`.  The loop over `magic` has one turn, since a word that is not the magic is raised,
with 64 words more taken from the file. -/
def recv (streamid : Nat) : Call (Option (List (BitVec 8))) := do
  let data ← readf 4
  let magic ← unpack data
  if magic = Usb.preamble then
    let data ← readf 8
    let (sid, length) ← unpack2 data
    let packet ← readf length.toNat
    return if sid.toNat = streamid then some packet else none
  else
    (List.range 64).forM fun _ => discard (readf 4)
    throw (.assertion magic)

/-- `while data is None: data = self.io.recv(self.streamid)`.  A packet that is dropped takes the
twelve bytes of its header from the file at least, so that there are no more turns than
bytes. -/
def recvOwn (streamid : Nat) : Nat → Call (List (BitVec 8))
  | 0 => throw .waiting
  | turns + 1 => do
      match ← recv streamid with
      | none => recvOwn streamid turns
      | some data => return data

/-- The bytes of a packet of a stream with this payload, behind packets of other streams. -/
def Reply (streamid : Nat) (payload xs : List (BitVec 8)) : Prop :=
  ∃ others sid, (∀ p ∈ others, p.1.toNat ≠ streamid ∧ p.2.length < 2 ^ 32) ∧
    sid.toNat = streamid ∧ payload.length < 2 ^ 32 ∧
    xs = sentPackets others ++ ubarSendPacket payload sid

theorem pack_ok {n : Nat} (h : n < 2 ^ 32) : pack n = .ok (bytes 4 (BitVec.ofNat 32 n)) := if_pos h

/-- A packet is written as the other program of the host writes it. -/
theorem send_eq {streamid : Nat} {packet : List (BitVec 8)} (hsid : streamid < 2 ^ 32)
    (hsize : packet.length < 2 ^ 32) (f : BufferedRandom) :
    send streamid packet f =
      (.ok (), f.write (ubarSendPacket packet (BitVec.ofNat 32 streamid))) := by
  unfold send
  rw [Call.bind_of_ok (Call.lift_ok (pack_ok hsid) f),
    Call.bind_of_ok (Call.lift_ok (pack_ok hsize) f)]
  rfl

theorem unpack_bytes (w : BitVec 32) : unpack (bytes 4 w) = .ok w :=
  congrArg Except.ok (littleWord_byte w)

theorem unpack2_bytes (v w : BitVec 32) : unpack2 (bytes 4 v ++ bytes 4 w) = .ok (v, w) :=
  congrArg Except.ok (Prod.ext (littleWord_byte v) (littleWord_byte w))

theorem length_ubarSendPacket (packet : List (BitVec 8)) (sid : BitVec 32) :
    (ubarSendPacket packet sid).length = 12 + packet.length := by
  rw [ubarSendPacket, List.length_append]
  rfl

theorem length_le_sentPackets (packets : List (BitVec 32 × List (BitVec 8))) :
    packets.length ≤ (sentPackets packets).length := by
  induction packets with
  | nil => exact Nat.le_refl 0
  | cons p packets ih =>
    rw [sentPackets_cons, List.length_append, List.length_cons]
    have hheader := length_ubarSendPacket p.2 p.1
    omega

variable {f : BufferedRandom} {sent rest : List (BitVec 8)} {later : List Chunk}

/-- What is read from a file that holds it. -/
theorem readf_front {xs : List (BitVec 8)} (h : f.Holds sent (xs ++ rest) later) {n : Nat}
    (hn : xs.length = n) :
    ∃ g, readf n f = (.ok xs, g) ∧ g.Holds sent rest later ∧
      (f.writeEnd = none ∨ xs ≠ [] → g.writeEnd = none) := by
  obtain ⟨g, hread, hrest⟩ := h.read
  refine ⟨g, ?_, hrest⟩
  rw [readf, ← hn, hread]

/-- A packet in front is taken, and returned if it is of the stream. -/
theorem recv_sent {p : BitVec 32 × List (BitVec 8)} (hsize : p.2.length < 2 ^ 32) (streamid : Nat)
    (h : f.Holds sent (ubarSendPacket p.2 p.1 ++ rest) later) :
    ∃ g, recv streamid f = (.ok (if p.1.toNat = streamid then some p.2 else none), g) ∧
      g.Holds sent rest later ∧ g.writeEnd = none := by
  obtain ⟨sid, packet⟩ := p
  have hlength : (BitVec.ofNat 32 packet.length).toNat = packet.length := by
    rw [BitVec.toNat_ofNat, Nat.mod_eq_of_lt hsize]
  rw [ubarSendPacket, List.append_assoc, List.append_assoc, List.append_assoc] at h
  obtain ⟨f₁, hmagic, h₁, -⟩ := readf_front h (n := 4) rfl
  rw [← List.append_assoc] at h₁
  obtain ⟨f₂, hheader, h₂, hflushed⟩ := readf_front h₁ (n := 8) rfl
  obtain ⟨f₃, hpacket, h₃, hkept⟩ := readf_front h₂ rfl
  refine ⟨f₃, ?_, h₃, hkept (Or.inl (hflushed (Or.inr (List.cons_ne_nil _ _))))⟩
  rw [recv, Call.bind_of_ok hmagic, Call.bind_of_ok (Call.lift_ok (unpack_bytes _) f₁), if_pos rfl,
    Call.bind_of_ok hheader, Call.bind_of_ok (Call.lift_ok (unpack2_bytes _ _) f₂)]
  dsimp only
  rw [hlength, Call.bind_of_ok hpacket]
  rfl

/-- The packets of other streams in front of a packet are dropped. -/
theorem recvOwn_sent {others : List (BitVec 32 × List (BitVec 8))} {streamid : Nat}
    (hothers : ∀ p ∈ others, p.1.toNat ≠ streamid ∧ p.2.length < 2 ^ 32) {sid : BitVec 32}
    (hsid : sid.toNat = streamid) {payload : List (BitVec 8)} (hsize : payload.length < 2 ^ 32)
    {turns : Nat} (hturns : others.length < turns)
    (h : f.Holds sent (sentPackets others ++ (ubarSendPacket payload sid ++ rest)) later) :
    ∃ g, recvOwn streamid turns f = (.ok payload, g) ∧ g.Holds sent rest later ∧
      g.writeEnd = none := by
  induction others generalizing f turns with
  | nil =>
    obtain ⟨turns, rfl⟩ := Nat.exists_eq_add_one_of_ne_zero (Nat.ne_zero_of_lt hturns)
    obtain ⟨g, hrecv, hrest⟩ := recv_sent (p := (sid, payload)) hsize streamid h
    rw [if_pos hsid] at hrecv
    exact ⟨g, by rw [recvOwn, Call.bind_of_ok hrecv]; rfl, hrest⟩
  | cons p others ih =>
    obtain ⟨turns, rfl⟩ := Nat.exists_eq_add_one_of_ne_zero (Nat.ne_zero_of_lt hturns)
    obtain ⟨⟨hother, hother_size⟩, hothers⟩ := List.forall_mem_cons.mp hothers
    rw [sentPackets_cons, List.append_assoc] at h
    obtain ⟨f₁, hrecv, h₁, -⟩ := recv_sent hother_size streamid h
    rw [if_neg hother] at hrecv
    obtain ⟨g, hown, hrest⟩ := ih hothers (Nat.lt_of_succ_lt_succ hturns) h₁
    exact ⟨g, by rw [recvOwn, Call.bind_of_ok hrecv]; exact hown, hrest⟩

/-- A packet that is written with bytes read ahead goes over them, and the device does not
get it. -/
theorem send_ahead {streamid : Nat} {packet : List (BitVec 8)} (hsid : streamid < 2 ^ 32)
    (hsize : packet.length < 2 ^ 32) (h : f.Clean) (hahead : 12 + packet.length ≤ f.ahead.length) :
    ∃ g, send streamid packet f = (.ok (), g) ∧ g.device = f.device ∧
      g.ahead = f.ahead.drop (12 + packet.length) := by
  have hlength := length_ubarSendPacket packet (BitVec.ofNat 32 streamid)
  obtain ⟨hdevice, hdrop⟩ := BufferedRandom.write_ahead h
    (List.ne_nil_of_length_pos (by omega)) (by rwa [hlength])
  exact ⟨_, send_eq hsid hsize f, hdevice, by rw [hdrop, hlength]⟩

/-- The number of turns in `read` is enough. -/
theorem recvOwn_reply {streamid : Nat} {payload xs : List (BitVec 8)}
    (hreply : Reply streamid payload xs) (h : f.Holds sent (xs ++ rest) later) :
    ∃ g, recvOwn streamid (f.left + 1) f = (.ok payload, g) ∧ g.Holds sent rest later ∧
      g.writeEnd = none := by
  obtain ⟨others, sid, hothers, hsid, hsize, rfl⟩ := hreply
  have hleft := h.le_left
  have hcount := length_le_sentPackets others
  rw [List.length_append, List.length_append] at hleft
  rw [List.append_assoc] at h
  exact recvOwn_sent hothers hsid hsize (by omega) h

end USBMux

/-! ## Registers -/

namespace Etherbone

open USBMux

/-- The packets of the library (`EtherbonePacket`): that of a record with one read, and the
data of the writes in the last record of a packet. -/
structure Codec where
  readPacket : Nat → List (BitVec 8)
  datas : List (BitVec 8) → Option (List (BitVec 32))

/-- A turn of the loop of `read`. -/
def readWord (K : Codec) (streamid addr : Nat) : Call (BitVec 32) := do
  send streamid (K.readPacket addr)
  let f ← get
  let data ← recvOwn streamid (f.left + 1)
  match (K.datas data).bind List.head? with
  | none => throw .packet
  | some value => return value

/-- `read`, of `n` words from `addr` on. -/
def read (K : Codec) (streamid : Nat) : Nat → Nat → Call (List (BitVec 32))
  | _, 0 => return []
  | addr, n + 1 => do
      let value ← readWord K streamid addr
      let values ← read K streamid (addr + 4) n
      return value :: values

/-- The requests of `read`, as they are written. -/
def requests (K : Codec) (streamid : Nat) : Nat → Nat → List (BitVec 8)
  | _, 0 => []
  | addr, n + 1 =>
      ubarSendPacket (K.readPacket addr) (BitVec.ofNat 32 streamid) ++
        requests K streamid (addr + 4) n

/-- What the device brings behind requests of `size` bytes: for each request its reply, which
comes once the request has been written.  A raw read that ends the reply brings nothing behind
it, unless no request follows; `extra` and `later` is what is not read. -/
inductive Brings (streamid size : Nat) :
    Nat → List (List (BitVec 8)) → List Chunk → List (BitVec 8) → List Chunk → Prop
  | nil {sent : Nat} (later : List Chunk) : Brings streamid size sent [] later [] later
  | last {sent : Nat} {payload xs extra : List (BitVec 8)} {chunks : List Chunk}
      (hready : Chunk.Ready (sent + size) chunks) (hreply : Reply streamid payload xs)
      (hbytes : chunks.flatMap Chunk.bytes = xs ++ extra) (later : List Chunk) :
      Brings streamid size sent [payload] (chunks ++ later) extra later
  | more {sent : Nat} {payload extra : List (BitVec 8)} {payloads : List (List (BitVec 8))}
      {chunks chunks' later : List Chunk} (hready : Chunk.Ready (sent + size) chunks)
      (hreply : Reply streamid payload (chunks.flatMap Chunk.bytes))
      (hmore : Brings streamid size (sent + size) payloads chunks' extra later) :
      Brings streamid size sent (payload :: payloads) (chunks ++ chunks') extra later

variable {K : Codec} {streamid : Nat}

/-- A turn gets the value in the next packet of its stream. -/
theorem readWord_reply (hsid : streamid < 2 ^ 32) {addr : Nat}
    (hrequest : (K.readPacket addr).length < 2 ^ 32) {f : BufferedRandom}
    {sent payload xs rest : List (BitVec 8)} {chunks later : List Chunk}
    (h : f.Holds sent [] (chunks ++ later))
    (hready : Chunk.Ready (sent.length + (12 + (K.readPacket addr).length)) chunks)
    (hreply : Reply streamid payload xs) (hbytes : chunks.flatMap Chunk.bytes = xs ++ rest)
    {value : BitVec 32} (hvalue : (K.datas payload).bind List.head? = some value) :
    ∃ g, readWord K streamid addr f = (.ok value, g) ∧
      g.Holds (sent ++ ubarSendPacket (K.readPacket addr) (BitVec.ofNat 32 streamid)) rest later ∧
      g.writeEnd = none := by
  generalize hdata : ubarSendPacket (K.readPacket addr) (BitVec.ofNat 32 streamid) = data
  have hlength : data.length = 12 + (K.readPacket addr).length := by
    rw [← hdata, length_ubarSendPacket]
  have hwritten := (h.write data).next (by rwa [List.length_append, hlength])
  rw [hbytes] at hwritten
  obtain ⟨g, hrecv, hrest⟩ := recvOwn_reply hreply hwritten
  refine ⟨g, ?_, hrest⟩
  have hsend := send_eq hsid hrequest f
  rw [hdata] at hsend
  have hget : (get : Call BufferedRandom) (f.write data) = (.ok (f.write data), f.write data) := rfl
  rw [readWord, Call.bind_of_ok hsend, Call.bind_of_ok hget, Call.bind_of_ok hrecv, hvalue]
  rfl

/-- A loop of turns gets the values in the replies that the device brings. -/
theorem read_brings (hsid : streamid < 2 ^ 32) {size sent : Nat}
    {payloads : List (List (BitVec 8))} {chunks later : List Chunk} {extra : List (BitVec 8)}
    (hbrings : Brings streamid size sent payloads chunks extra later)
    (hsize : size < 2 ^ 32) {values : List (BitVec 32)}
    (hvalues : List.Forall₂ (fun payload value => (K.datas payload).bind List.head? = some value)
      payloads values)
    {addr : Nat} (hrequest : ∀ i < values.length, 12 + (K.readPacket (addr + 4 * i)).length = size)
    {f : BufferedRandom} {written : List (BitVec 8)} (hwritten : written.length = sent)
    (h : f.Holds written [] chunks) (hflushed : f.writeEnd = none) :
    ∃ g, read K streamid addr values.length f = (.ok values, g) ∧
      g.Holds (written ++ requests K streamid addr values.length) extra later ∧
      g.writeEnd = none := by
  induction hbrings generalizing values addr f written with
  | nil later =>
    cases hvalues
    exact ⟨f, rfl, by rwa [List.length_nil, requests, List.append_nil], hflushed⟩
  | last hready hreply hbytes later =>
    obtain ⟨value, values, hvalue, hnone, rfl⟩ := List.forall₂_cons_left_iff.mp hvalues
    obtain rfl := List.forall₂_nil_left_iff.mp hnone
    have hlength := hrequest 0 Nat.zero_lt_one
    rw [Nat.mul_zero, Nat.add_zero] at hlength
    rw [← hlength, ← hwritten] at hready
    obtain ⟨g, hword, hrest⟩ := readWord_reply hsid (by omega) h hready hreply hbytes hvalue
    refine ⟨g, ?_, ?_⟩
    · rw [List.length_singleton, read, Call.bind_of_ok hword]
      rfl
    · rwa [List.length_singleton, requests, requests, List.append_nil]
  | more hready hreply hmore ih =>
    obtain ⟨value, values, hvalue, hrest, rfl⟩ := List.forall₂_cons_left_iff.mp hvalues
    have hlength := hrequest 0 (Nat.zero_lt_succ _)
    rw [Nat.mul_zero, Nat.add_zero] at hlength
    rw [← hlength, ← hwritten] at hready
    obtain ⟨f₁, hword, h₁, hflushed₁⟩ :=
      readWord_reply hsid (by omega) h hready hreply (List.append_nil _).symm hvalue
    have hrequest' : ∀ i < values.length,
        12 + (K.readPacket (addr + 4 + 4 * i)).length = size := fun i hi => by
      have hnext := hrequest (i + 1) (Nat.succ_lt_succ hi)
      rwa [show addr + 4 * (i + 1) = addr + 4 + 4 * i by omega] at hnext
    obtain ⟨g, hread, hholds, hflushed'⟩ := ih hrest hrequest'
      (by rw [List.length_append, length_ubarSendPacket, hwritten, hlength]) h₁ hflushed₁
    refine ⟨g, ?_, ?_, hflushed'⟩
    · rw [List.length_cons, read, Call.bind_of_ok hword, Call.bind_of_ok hread]
      rfl
    · rwa [List.length_cons, requests, ← List.append_assoc]

end Etherbone

end UsbSniffer.Host

namespace UsbSniffer.Etherbone

open UsbSniffer.Sync

/-! ## The registers behind the core -/

/-- The requests for `n` words from `addr` on, one word each. -/
def reads (addr : BitVec 32) (haligned : addr.toNat % 4 = 0) (n : Nat) : List Request :=
  (List.range n).map fun i => .read (addr + BitVec.ofNat 32 (4 * i)) 1
    { pos := Nat.le_refl 1
      le := by omega
      aligned := by
        rw [BitVec.toNat_add, BitVec.toNat_ofNat]
        omega }

/-- The accesses that they make. -/
def readAccesses (addr : BitVec 32) (n : Nat) : List Access :=
  (List.range n).map fun i => ⟨false, BitVec.ofNat 30 (addr.toNat / 4 + i), 0, 0⟩

theorem accesses_reads (addr : BitVec 32) (haligned : addr.toNat % 4 = 0) (n : Nat) :
    (reads addr haligned n).flatMap Request.accesses = readAccesses addr n := by
  unfold reads readAccesses
  rw [List.flatMap_map, List.map_eq_flatMap]
  refine List.flatMap_congr fun i _ => ?_
  have haddr : BitVec.ofNat 30 ((addr + BitVec.ofNat 32 (4 * i)).toNat / 4 + 0) =
      BitVec.ofNat 30 (addr.toNat / 4 + i) := by
    apply BitVec.eq_of_toNat_eq
    rw [BitVec.toNat_ofNat, BitVec.toNat_ofNat, BitVec.toNat_add, BitVec.toNat_ofNat]
    omega
  change [(⟨false, BitVec.ofNat 30 ((addr + BitVec.ofNat 32 (4 * i)).toNat / 4 + 0), 0, 0⟩ :
    Access)] = _
  rw [haddr]

/-- Each of them is replied with the word that the bus answers. -/
theorem replies_reads (answer : List Access → BitVec 32) (log : List Access) {rs : List Request}
    (h : ∀ r ∈ rs, ∃ addr fits, r = .read addr 1 fits) :
    replies answer log rs =
      (EtherboneWishboneMaster.answers answer log (rs.flatMap Request.accesses)).map
        fun value => [value] := by
  induction rs generalizing log with
  | nil => rfl
  | cons r rs ih =>
    obtain ⟨addr, fits, rfl⟩ := h r List.mem_cons_self
    have hrest := ih (log ++ (Request.read addr 1 fits).accesses) fun q hq =>
      h q (List.mem_cons_of_mem _ hq)
    rw [replies, hrest]
    rfl

end UsbSniffer.Etherbone

namespace UsbSniffer.Host.Etherbone

open UsbSniffer.Sync UsbSniffer.Etherbone

/-- What the packets of the library are. -/
structure Codec.Lawful (K : Codec) : Prop where
  readPacket : ∀ addr : BitVec 32, K.readPacket addr.toNat = ebMakeReadPkt addr 1
  datas : ∀ identifier values, 1 ≤ values.length → values.length ≤ 255 →
    K.datas (replyBytes identifier values) = some values

theorem length_ebMakeReadPkt (addr : BitVec 32) : (ebMakeReadPkt addr 1).length = 20 := by
  unfold ebMakeReadPkt
  rw [List.length_append, List.length_append, EbHeader.length_bytes]
  rfl

/-- What `read` writes are the packets of its requests. -/
theorem requests_eq {K : Codec} (hK : K.Lawful) (identifier : BitVec 8) {addr : BitVec 32}
    (haligned : addr.toNat % 4 = 0) {n : Nat} (hrange : addr.toNat + 4 * n ≤ 2 ^ 32) :
    requests K identifier.toNat addr.toNat n =
      sentPackets ((reads addr haligned n).map fun r => (identifier.setWidth 32, r.packet)) := by
  have key : ∀ k a, a + 4 * k ≤ 2 ^ 32 → requests K identifier.toNat a k =
      (List.range k).flatMap fun i =>
        ubarSendPacket (ebMakeReadPkt (BitVec.ofNat 32 (a + 4 * i)) 1) (identifier.setWidth 32) := by
    intro k
    induction k with
    | zero => exact fun a _ => rfl
    | succ k ih =>
      intro a hle
      have hpacket := hK.readPacket (BitVec.ofNat 32 a)
      rw [BitVec.toNat_ofNat, Nat.mod_eq_of_lt (by omega)] at hpacket
      have hsid : BitVec.ofNat 32 identifier.toNat = identifier.setWidth 32 :=
        BitVec.eq_of_toNat_eq (by simp)
      rw [requests, ih (a + 4) (by omega), hpacket, hsid, List.range_succ_eq_map, List.flatMap_cons,
        List.flatMap_map]
      refine congrArg _ (List.flatMap_congr fun i _ => ?_)
      rw [show a + 4 + 4 * i = a + 4 * (i + 1) by omega]
  rw [key n _ hrange]
  unfold sentPackets reads
  rw [List.map_map, List.flatMap_map]
  refine List.flatMap_congr fun i _ => ?_
  have haddr : BitVec.ofNat 32 (addr.toNat + 4 * i) = addr + BitVec.ofNat 32 (4 * i) := by
    rw [BitVec.ofNat_add, BitVec.ofNat_toNat, BitVec.setWidth_eq]
  rw [haddr]
  rfl

/-- **Registers are read beside the captured records.**  When the device brings the core's
replies to the requests of `read`, each once its request has been written, with any packets of
other streams in front of it, and no raw read brings bytes behind a reply to which a request
follows, it returns the words that the bus has answered.  The device has got the requests,
and of what the device brings all is taken up to the last reply. -/
theorem registers_read {K : Codec} (hK : K.Lawful) (answer : List Access → BitVec 32)
    (identifier : BitVec 8) {addr : BitVec 32} (haligned : addr.toNat % 4 = 0) {n : Nat}
    (hrange : addr.toNat + 4 * n ≤ 2 ^ 32) {chunks later : List Chunk} {extra : List (BitVec 8)}
    (hbrings : Brings identifier.toNat 32 0
      ((replies answer [] (reads addr haligned n)).map (replyBytes identifier)) chunks extra later)
    {size : Nat} (hsize : 0 < size) :
    ∃ f, read K identifier.toNat addr.toNat n (BufferedRandom.opened size ⟨[], chunks⟩) =
        (.ok (EtherboneWishboneMaster.answers answer [] (readAccesses addr n)), f) ∧
      f.device.sent = sentPackets ((reads addr haligned n).map fun r =>
        (identifier.setWidth 32, r.packet)) ∧
      f.Holds f.device.sent extra later := by
  have hreads : ∀ r ∈ reads addr haligned n, ∃ a fits, r = Request.read a 1 fits := by
    intro r hr
    obtain ⟨i, -, rfl⟩ := List.mem_map.mp hr
    exact ⟨_, _, rfl⟩
  rw [replies_reads answer [] hreads, accesses_reads, List.map_map] at hbrings
  generalize hvalues : EtherboneWishboneMaster.answers answer [] (readAccesses addr n) =
    values at hbrings ⊢
  have hlength : values.length = n := by
    rw [← hvalues, EtherboneWishboneMaster.length_answers, readAccesses, List.length_map,
      List.length_range]
  have hdatas : List.Forall₂
      (fun payload value => (K.datas payload).bind List.head? = some value)
      (values.map (replyBytes identifier ∘ fun value => [value])) values := by
    rw [List.forall₂_map_left_iff, List.forall₂_same]
    intro value _
    change (K.datas (replyBytes identifier [value])).bind List.head? = some value
    rw [hK.datas identifier [value] (Nat.le_refl 1) (by simp)]
    rfl
  have hrequest : ∀ i < values.length, 12 + (K.readPacket (addr.toNat + 4 * i)).length = 32 := by
    intro i hi
    have hpacket := hK.readPacket (BitVec.ofNat 32 (addr.toNat + 4 * i))
    rw [BitVec.toNat_ofNat, Nat.mod_eq_of_lt (by omega)] at hpacket
    rw [hpacket, length_ebMakeReadPkt]
  have hsid : identifier.toNat < 2 ^ 32 := by
    have := identifier.isLt
    omega
  have hopened : (BufferedRandom.opened size ⟨[], chunks⟩).Holds [] [] chunks :=
    BufferedRandom.holds_opened hsize
  obtain ⟨f, hread, hrest, hflushed⟩ :=
    read_brings hsid hbrings (by omega) hdatas hrequest rfl hopened rfl
  have hsent := hrest.sent_eq
  rw [BufferedRandom.unsent_of_none hflushed, List.append_nil] at hsent
  rw [hlength] at hread
  refine ⟨f, hread, ?_, by rw [hsent]; exact hrest⟩
  rw [hsent, hlength, List.nil_append, requests_eq hK identifier haligned hrange]

/-- The packets as the other program of the host makes and reads them. -/
def codec : Codec where
  readPacket addr := ebMakeReadPkt (BitVec.ofNat 32 addr) 1
  datas packet :=
    match ebDecodeRcvPkt packet packet.length with
    | .ok values => values
    | .error _ => none

theorem codec_lawful : codec.Lawful where
  readPacket addr := by
    change ebMakeReadPkt (BitVec.ofNat 32 addr.toNat) 1 = _
    rw [BitVec.ofNat_toNat, BitVec.setWidth_eq]
  datas identifier values _ hle := by
    change (match ebDecodeRcvPkt (replyBytes identifier values)
      (replyBytes identifier values).length with | .ok values => values | .error _ => none) = _
    rw [ebDecodeRcvPkt_replyBytes identifier hle]


/-- Two words are read from a bus that counts, with a packet of records in front of each, and
more behind the last reply. -/
theorem registers_read_two :
    ∃ f, read codec (0 : BitVec 8).toNat (0x100 : BitVec 32).toNat 2
        (BufferedRandom.opened 64 ⟨[], [⟨0, ubarSendPacket [1, 2, 3, 4] 1⟩,
          ⟨32, ubarSendPacket (replyBytes 0 [1]) 0⟩] ++
          ([⟨64, ubarSendPacket [5, 6] 1 ++ (ubarSendPacket (replyBytes 0 [2]) 0 ++ [7])⟩] ++
            [⟨100, [8]⟩])⟩) = (.ok [1, 2], f) ∧
      f.device.sent = sentPackets ((reads 0x100 (by decide) 2).map fun r =>
        ((0 : BitVec 8).setWidth 32, r.packet)) ∧
      f.Holds f.device.sent [7] [⟨100, [8]⟩] :=
  registers_read codec_lawful (fun log => BitVec.ofNat 32 log.length) 0 (by decide) (by decide)
    (.more (by decide) ⟨[(1, [1, 2, 3, 4])], 0, by decide, by decide, by decide, by decide⟩
      (.last (by decide) ⟨[(1, [5, 6])], 0, by decide, by decide, by decide, rfl⟩ (by decide) _))
    (by decide)

-- A packet of records that comes in the same raw read as the first reply.
example : (read codec 0 0x100 2 (BufferedRandom.opened 64 ⟨[],
      [⟨32, ubarSendPacket (replyBytes 0 [1]) 0 ++ ubarSendPacket (List.replicate 28 0) 1⟩,
        ⟨64, ubarSendPacket (replyBytes 0 [2]) 0⟩, ⟨64, List.replicate 256 0⟩]⟩)).1 =
    .error (.assertion 0) := by
  decide +kernel

end UsbSniffer.Host.Etherbone
