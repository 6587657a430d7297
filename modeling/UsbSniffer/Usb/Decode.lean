/-
  Usb/Decode.lean --- the host's packets, decoded by the depacketizer.

  The two sides of one format: `ubar_send_packet` of the host and the state machine
  of the gateware.  A script gives for each word on the link what the depacketizer
  answers it with; whatever the gaps and the back-pressure, what is answered goes
  through the script as the words do.
-/
import UsbSniffer.Host.Link
import UsbSniffer.Usb.Depacketizer

set_option autoImplicit false

namespace UsbSniffer.Usb.USBDepacketizer

open UsbSniffer.Sync

/-! ## What the host sends -/

/-- A packet of the host. -/
structure Packet where
  dst : BitVec 8
  payload : List (BitVec 32)
  payload_ne : payload ≠ []

/-- What stands on the link: a packet, or a word between packets. -/
inductive Item
  | word (w : BitVec 32) (h : w ≠ preamble)
  | packet (p : Packet)

/-- The words of a packet as `ubar_send_packet` writes it. -/
def Packet.words (p : Packet) : List (BitVec 32) :=
  Host.littleWords (Host.ubarSendPacket (p.payload.flatMap (bytes 4)) (p.dst.setWidth 32))

/-- The words on the link. -/
def Item.words : Item → List (BitVec 32)
  | word w _ => [w]
  | packet p => p.words

/-- The beat of a payload word. -/
def Packet.beat (p : Packet) (w : BitVec 32) (last : Bool) : UserSource where
  valid := true
  last := last
  dst := p.dst
  length := BitVec.ofNat 32 (4 * p.payload.length)
  data := w

/-- The beats of the payload words that are left: the last of them is marked. -/
def Packet.beatsOf (p : Packet) : List (BitVec 32) → List UserSource
  | [] => []
  | w :: ws => p.beat w ws.isEmpty :: p.beatsOf ws

/-- The beats that they are answered with. -/
def Item.beats : Item → List UserSource
  | word _ _ => []
  | packet p => p.beatsOf p.payload

/-- The number of its packets. -/
def Item.packets : Item → Nat
  | word _ _ => 0
  | packet _ => 1

/-- The length of the packet fits its field. -/
def Packet.Fits (p : Packet) : Prop := 4 * p.payload.length < 2 ^ 32

/-! ## The script -/

/-- A word, and the beats that it is answered with. -/
abbrev Slot := BitVec 32 × List UserSource

/-- The two words of the header. -/
def Packet.header (p : Packet) : List (BitVec 32) :=
  [p.dst.setWidth 32, BitVec.ofNat 32 (4 * p.payload.length)]

/-- Each word of the payload is answered with its beat. -/
def Packet.payloadScript (p : Packet) : List (BitVec 32) → List Slot
  | [] => []
  | w :: ws => (w, [p.beat w ws.isEmpty]) :: p.payloadScript ws

/-- Words and answers of an item. -/
def Item.script : Item → List Slot
  | word w _ => [(w, [])]
  | packet p =>
      (preamble, []) :: (p.header.map fun w => (w, [])) ++ p.payloadScript p.payload

theorem Packet.words_payloadScript (p : Packet) (ws : List (BitVec 32)) :
    (p.payloadScript ws).map Prod.fst = ws := by
  induction ws with
  | nil => rfl
  | cons w ws ih => simp only [payloadScript, List.map_cons, ih]

theorem Packet.beats_payloadScript (p : Packet) (ws : List (BitVec 32)) :
    (p.payloadScript ws).flatMap Prod.snd = p.beatsOf ws := by
  induction ws with
  | nil => rfl
  | cons w ws ih => simp only [payloadScript, beatsOf, List.flatMap_cons, ih, List.singleton_append]

theorem Item.words_script (item : Item) : item.script.map Prod.fst = item.words := by
  cases item with
  | word w h => rfl
  | packet p =>
    simp only [script, words, Packet.words, Host.littleWords_ubarSendPacket, List.map_cons,
      p.words_payloadScript, Packet.header, List.map_nil, List.cons_append,
      List.nil_append]

theorem Item.beats_script (item : Item) : item.script.flatMap Prod.snd = item.beats := by
  cases item with
  | word w h => rfl
  | packet p =>
    simp only [script, beats, Packet.header, List.map_cons, List.map_nil, List.cons_append,
      List.nil_append, List.flatMap_cons, p.beats_payloadScript]

theorem words_script (items : List Item) :
    (items.flatMap Item.script).map Prod.fst = items.flatMap Item.words := by
  rw [List.map_flatMap]
  exact congrArg (fun f => items.flatMap f) (funext Item.words_script)

theorem beats_script (items : List Item) :
    (items.flatMap Item.script).flatMap Prod.snd = items.flatMap Item.beats := by
  rw [List.flatMap_assoc]
  exact congrArg (fun f => items.flatMap f) (funext Item.beats_script)

/-! ## The machine follows the script -/

variable {D : Config}

/-- A word is offered to a ready source. -/
def offered (c : In × Out) : Bool := c.1.sinkValid && c.1.sourceReady

/-- The number of packets among the items. -/
def packetCount (items : List Item) : Nat := (items.map Item.packets).sum

/-- The packets of the link fit their length field. -/
def Fits (items : List Item) : Prop := ∀ item ∈ items,
  match item with
  | .word _ _ => True
  | .packet p => p.Fits

/-- The machine stands where `rest` is what is left of the script, with `heads` headers
still to be completed. -/
def Expects (s : State D) (rest : List Slot) (heads : Nat) : Prop :=
  ∃ items, Fits items ∧
    match s.fsm with
    | .idle =>
        (loaded s = [] ∨ full s = true) ∧ rest = items.flatMap Item.script ∧
          heads = packetCount items
    | .receiveHeader =>
        ∃ (p : Packet) (k : Nat), p.Fits ∧ s.cnt = 0 ∧ k ≤ 2 ∧ loaded s = p.header.take k ∧
          rest = (p.header.drop k).map (fun w => (w, [])) ++
            (p.payloadScript p.payload ++ items.flatMap Item.script) ∧
          heads = packetCount items + 1
    | .copy =>
        ∃ (p : Packet) (ws : List (BitVec 32)), p.Fits ∧ ws ≠ [] ∧ loaded s = p.header ∧
          s.cnt.toNat + ws.length = p.payload.length ∧
          rest = p.payloadScript ws ++ items.flatMap Item.script ∧ heads = packetCount items

/-- A cycle answers the words that it takes from the script, and one that offers a word
to a ready source takes it or completes a header. -/
structure Answers (c : In × Out) (s' : State D) (rest : List Slot) (heads : Nat) (taken : List Slot)
    (rest' : List Slot) (heads' : Nat) : Prop where
  split : rest = taken ++ rest'
  words : sinkWord c = taken.map Prod.fst
  beats : sourceBeat c = taken.flatMap Prod.snd
  moves : (offered c).toNat + heads' ≤ taken.length + heads
  expects : Expects s' rest' heads'

theorem expects_idle {s : State D} {rest : List Slot} {heads : Nat} (i : In)
    (hfsm : s.fsm = .idle) (h : Expects s rest heads)
    (hin : sinkWord (i, out s i) <+: rest.map Prod.fst) :
    ∃ taken rest' heads', Answers (i, out s i) (next s i) rest heads taken rest' heads' := by
  obtain ⟨items, hfits, h⟩ := h
  simp only [hfsm] at h
  obtain ⟨hempty, hrest, hheads⟩ := h
  have hsource : sourceBeat (i, out s i) = [] := by
    simp [sourceBeat, out, source, sourceValid, hfsm]
  have hsink : sinkWord (i, out s i) = beat i.sinkValid true i.sinkData := by
    simp [sinkWord, out, sinkReady, hfsm]
  obtain ⟨hcnt, -, hloaded, hnext⟩ := next_idle hfsm i
  have hloaded' : loaded (next s i) = [] := by
    rw [hloaded]
    rcases hempty with h | h <;> simp [h]
  cases hvalid : i.sinkValid with
  | false =>
    rw [hvalid] at hsink
    rw [hvalid, Bool.and_false] at hnext
    refine ⟨[], rest, heads, rfl, hsink, hsource, by simp [offered, hvalid], items, hfits, ?_⟩
    rw [hnext]
    exact ⟨Or.inl hloaded', hrest, hheads⟩
  | true =>
    have hmoves : (offered (i, out s i)).toNat ≤ 1 := Bool.toNat_le _
    rw [hvalid, beat_true_true] at hsink
    rw [hvalid, Bool.and_true] at hnext
    rw [hsink, hrest] at hin
    cases items with
    | nil => simp at hin
    | cons item items =>
      have hfits' : Fits items := fun x hx => hfits x (List.mem_cons_of_mem item hx)
      cases item with
      | word w hw =>
        have hdata : i.sinkData = w := by simpa [Item.script] using hin
        have hne : (i.sinkData == preamble) = false := by simpa [hdata] using hw
        rw [hne] at hnext
        refine ⟨[(w, [])], items.flatMap Item.script, heads, by rw [hrest]; rfl,
          by rw [hsink, hdata]; rfl, hsource, by simp; omega, items, hfits', ?_⟩
        rw [hnext]
        exact ⟨Or.inl hloaded', rfl, by rw [hheads]; simp [packetCount, Item.packets]⟩
      | packet p =>
        have hdata : i.sinkData = preamble := by simpa [Item.script] using hin
        have heq : (i.sinkData == preamble) = true := by simp [hdata]
        rw [heq] at hnext
        refine ⟨[(preamble, [])], p.header.map (fun w => (w, [])) ++
            (p.payloadScript p.payload ++ items.flatMap Item.script), heads,
          by rw [hrest]; simp [Item.script], by rw [hsink, hdata]; rfl, hsource,
          by simp; omega, items, hfits', ?_⟩
        rw [hnext]
        exact ⟨p, 0, hfits (.packet p) (by simp), hcnt, by omega, hloaded', rfl,
          by rw [hheads]; simp [packetCount, Item.packets]; omega⟩

theorem full_iff (s : State D) : full s = true ↔ (loaded s).length = 2 := by
  simp [full, Pack.full, loaded]

theorem expects_header {s : State D} {rest : List Slot} {heads : Nat} (i : In)
    (hfsm : s.fsm = .receiveHeader) (hdone : done s = false) (h : Expects s rest heads)
    (hin : sinkWord (i, out s i) <+: rest.map Prod.fst) :
    ∃ taken rest' heads', Answers (i, out s i) (next s i) rest heads taken rest' heads' := by
  obtain ⟨items, hfits, h⟩ := h
  simp only [hfsm] at h
  obtain ⟨p, k, hp, hcnt, hk, hloaded, hrest, hheads⟩ := h
  have hmoves : (offered (i, out s i)).toNat ≤ 1 := Bool.toNat_le _
  have hsource : sourceBeat (i, out s i) = [] := by
    simp [sourceBeat, out, source, sourceValid, hfsm]
  have hsink : sinkWord (i, out s i) = beat i.sinkValid (!full s) i.sinkData := by
    simp [sinkWord, out, sinkReady, hfsm, hdone]
  obtain ⟨hcnt', hloaded', hnext⟩ := next_header hfsm hdone i
  have hlength : (loaded s).length = k := by
    rw [hloaded, List.length_take]
    simp [Packet.header, hk]
  by_cases hwhole : k = 2
  · -- the header is whole: no word is taken
    have hfull : full s = true := (full_iff s).mpr (hlength.trans hwhole)
    rw [hfull] at hsink hloaded' hnext
    rw [if_pos rfl, hloaded, hwhole] at hloaded'
    refine ⟨[], rest, packetCount items, rfl, by rw [hsink]; simp, hsource,
      by simp; omega, items, hfits, ?_⟩
    rw [hnext]
    exact ⟨p, p.payload, hp, p.payload_ne, hloaded', by rw [hcnt', hcnt]; simp,
      by rw [hrest, hwhole]; rfl, rfl⟩
  · have hfull : full s = false := by
      rw [← Bool.not_eq_true, full_iff]
      omega
    rw [hfull] at hsink hloaded' hnext
    cases hvalid : i.sinkValid with
    | false =>
      rw [hvalid] at hsink hloaded'
      refine ⟨[], rest, heads, rfl, hsink, hsource, by simp [offered, hvalid], items, hfits, ?_⟩
      rw [hnext]
      exact ⟨p, k, hp, hcnt'.trans hcnt, hk, by rw [hloaded']; simpa using hloaded, hrest, hheads⟩
    | true =>
      have hlt : k < p.header.length := by
        simp [Packet.header]
        omega
      have hsplit : p.header.drop k = p.header[k] :: p.header.drop (k + 1) :=
        List.drop_eq_getElem_cons hlt
      rw [hvalid, Bool.not_false, beat_true_true] at hsink
      rw [hvalid, beat_true_true] at hloaded'
      rw [hsplit] at hrest
      rw [hsink, hrest] at hin
      have hdata : i.sinkData = p.header[k] := by
        simp only [List.map_append, List.map_cons, List.cons_append, List.cons_prefix_cons] at hin
        exact hin.1
      refine ⟨[(i.sinkData, [])], (p.header.drop (k + 1)).map (fun w => (w, [])) ++
          (p.payloadScript p.payload ++ items.flatMap Item.script), heads,
        by rw [hrest, hdata]; rfl, hsink, hsource, by simp; omega, items, hfits, ?_⟩
      rw [hnext]
      refine ⟨p, k + 1, hp, hcnt'.trans hcnt, by omega, ?_, rfl, hheads⟩
      rw [hloaded', hloaded, hdata]
      simp

/-- The last payload word is the one that nothing is left behind. -/
theorem last_eq_isEmpty {s : State D} {p : Packet} {w : BitVec 32} {ws : List (BitVec 32)}
    (hfits : p.Fits) (hloaded : loaded s = p.header)
    (hcnt : s.cnt.toNat + (w :: ws).length = p.payload.length) : last s = ws.isEmpty := by
  unfold Packet.Fits at hfits
  have hlength : (length s).toNat = 4 * p.payload.length := by
    simp [length, hloaded, Packet.header]
    omega
  have hlast := last_iff s
  rw [hlength] at hlast
  rw [List.length_cons] at hcnt
  cases ws with
  | nil =>
    rw [List.length_nil] at hcnt
    rw [List.isEmpty_nil, hlast]
    omega
  | cons v ws =>
    rw [List.length_cons] at hcnt
    rw [List.isEmpty_cons, ← Bool.not_eq_true, hlast]
    omega

theorem expects_copy {s : State D} {rest : List Slot} {heads : Nat} (i : In)
    (hfsm : s.fsm = .copy) (hdone : done s = false) (h : Expects s rest heads)
    (hin : sinkWord (i, out s i) <+: rest.map Prod.fst) :
    ∃ taken rest' heads', Answers (i, out s i) (next s i) rest heads taken rest' heads' := by
  obtain ⟨items, hfits, h⟩ := h
  simp only [hfsm] at h
  obtain ⟨p, ws, hp, hne, hloaded, hcnt, hrest, hheads⟩ := h
  have hfull : full s = true := by
    rw [full_iff, hloaded]
    rfl
  have hsink : sinkWord (i, out s i) = beat i.sinkValid i.sourceReady i.sinkData := by
    simp [sinkWord, out, sinkReady, hfsm]
  have hsource : sourceBeat (i, out s i) =
      beat i.sinkValid i.sourceReady (p.beat i.sinkData (last s)) := by
    have hdst : dst s = p.dst := by simp [dst, hloaded, Packet.header]
    have hlength : length s = BitVec.ofNat 32 (4 * p.payload.length) := by
      simp [length, hloaded, Packet.header]
    simp only [sourceBeat, out, source, sourceValid, hfsm, hdst, hlength, Packet.beat]
    cases i.sinkValid <;> cases i.sourceReady <;> simp
  obtain ⟨hcnt', hloaded', hnext⟩ := next_copy hfsm hdone hfull i
  cases hfire : i.sinkValid && i.sourceReady with
  | false =>
    rw [hfire] at hcnt' hnext
    rw [beat_of_quiet hfire] at hsink hsource
    refine ⟨[], rest, heads, rfl, hsink, hsource, by simp [offered, hfire], items, hfits, ?_⟩
    rw [hnext]
    exact ⟨p, ws, hp, hne, hloaded'.trans hloaded, by rw [hcnt']; exact hcnt, hrest, hheads⟩
  | true =>
    rw [hfire] at hcnt' hnext
    rw [beat_of_fire hfire] at hsink hsource
    cases ws with
    | nil => exact absurd rfl hne
    | cons w ws =>
      rw [last_eq_isEmpty hp hloaded hcnt] at hsource hnext
      rw [hsink, hrest] at hin
      have hdata : i.sinkData = w := by simpa [Packet.payloadScript] using hin
      refine ⟨[(w, [p.beat w ws.isEmpty])], p.payloadScript ws ++ items.flatMap Item.script, heads,
        by rw [hrest]; rfl, by rw [hsink, hdata]; rfl, by rw [hsource, hdata]; rfl,
        by simp [offered, hfire], items, hfits, ?_⟩
      cases ws with
      | nil =>
        rw [hnext]
        refine ⟨Or.inr ?_, rfl, hheads⟩
        rw [full_of_loaded_eq hloaded', hfull]
      | cons v ws =>
        have hlt := s.cnt.isLt
        unfold Packet.Fits at hp
        rw [hnext]
        refine ⟨p, v :: ws, hp, by simp, hloaded'.trans hloaded, ?_, rfl, hheads⟩
        rw [hcnt', if_pos rfl, BitVec.toNat_add]
        simp only [List.length_cons] at hcnt ⊢
        simp
        omega

theorem expects_next {s : State D} {rest : List Slot} {heads : Nat} (i : In)
    (hdone : done s = false) (h : Expects s rest heads)
    (hin : sinkWord (i, out s i) <+: rest.map Prod.fst) :
    ∃ taken rest' heads', Answers (i, out s i) (next s i) rest heads taken rest' heads' := by
  cases hfsm : s.fsm with
  | idle => exact expects_idle i hfsm h hin
  | receiveHeader => exact expects_header i hfsm hdone h hin
  | copy => exact expects_copy i hfsm hdone h hin

theorem expects_run (is : List In) {s : State D} {rest : List Slot} {heads : Nat}
    (hok : (machine D).AllSteps NoExpiry s is) (h : Expects s rest heads)
    (hin : moved sinkWord ((machine D).trace s is) <+: rest.map Prod.fst) :
    ∃ taken rest' heads', rest = taken ++ rest' ∧
      moved sinkWord ((machine D).trace s is) = taken.map Prod.fst ∧
      moved sourceBeat ((machine D).trace s is) = taken.flatMap Prod.snd ∧
      ((machine D).trace s is).countP offered + heads' ≤ taken.length + heads := by
  induction is generalizing s rest heads with
  | nil => exact ⟨[], rest, heads, rfl, rfl, rfl, by simp⟩
  | cons i is ih =>
    rw [Machine.trace_cons, moved_cons] at hin
    obtain ⟨taken, rest', heads', hstep⟩ :=
      expects_next i hok.1 h ((List.prefix_append _ _).trans hin)
    have hwords : sinkWord (i, (machine D).out s i) = taken.map Prod.fst := hstep.words
    have hbeats : sourceBeat (i, (machine D).out s i) = taken.flatMap Prod.snd := hstep.beats
    rw [hwords, hstep.split, List.map_append, List.prefix_append_right_inj] at hin
    obtain ⟨taken', rest'', heads'', hsplit', hwords', hbeats', hmoves'⟩ :=
      ih hok.2 hstep.expects hin
    refine ⟨taken ++ taken', rest'', heads'', by rw [hstep.split, hsplit', List.append_assoc],
      ?_, ?_, ?_⟩
    · rw [Machine.trace_cons, moved_cons, hwords, hwords', List.map_append]
    · rw [Machine.trace_cons, moved_cons, hbeats, hbeats', List.flatMap_append]
    · have hmoves := hstep.moves
      change (offered (i, (machine D).out s i)).toNat + heads' ≤ _ at hmoves
      rw [Machine.trace_cons, countP_cons_toNat, List.length_append]
      omega

/-- **The host's packets are decoded exactly.**  When the words taken from the link are
those of a list of packets, and of words between them, the beats given out so far are
those that the packets taken so far have; and a word offered to a ready source is taken,
but for one cycle for each packet. -/
theorem packets_decoded (items : List Item) (hfits : Fits items) (is : List In)
    (hok : (machine D).AllSteps NoExpiry init is)
    (hin : moved sinkWord ((machine D).trace init is) <+: items.flatMap Item.words) :
    let tr := (machine D).trace init is
    moved sourceBeat tr =
        ((items.flatMap Item.script).take (moved sinkWord tr).length).flatMap Prod.snd ∧
      (moved sinkWord tr = items.flatMap Item.words →
        moved sourceBeat tr = items.flatMap Item.beats) ∧
      tr.countP offered ≤ (moved sinkWord tr).length + packetCount items := by
  intro tr
  have hstart : Expects (init : State D) (items.flatMap Item.script) (packetCount items) :=
    ⟨items, hfits, Or.inl D.HeaderPack.loaded_init, rfl, rfl⟩
  rw [← words_script] at hin
  obtain ⟨taken, rest, heads, hsplit, hwords, hbeats, hmoves⟩ := expects_run is hok hstart hin
  change moved sinkWord tr = _ at hwords
  change moved sourceBeat tr = _ at hbeats
  change tr.countP offered + heads ≤ _ at hmoves
  have hlength : (moved sinkWord tr).length = taken.length := by rw [hwords, List.length_map]
  refine ⟨?_, fun hall => ?_, by omega⟩
  · rw [hlength, hsplit, List.take_left, hbeats]
  · have hnil : rest = [] := by
      have hlen := congrArg List.length hall
      rw [hlength, ← words_script, List.length_map, hsplit, List.length_append] at hlen
      exact List.length_eq_zero_iff.mp (by omega)
    rw [hbeats, ← beats_script, hsplit, hnil, List.append_nil]

/-- A packet with two words, and a word in front of it. -/
theorem packets_decoded_two :
    let items := [Item.word 3 (by decide), .packet ⟨1, [7, 8], by simp⟩]
    let is := [wordCycle 3, wordCycle preamble, wordCycle 1, wordCycle 8, wordCycle 7,
      wordCycle 7, ⟨true, 8, false⟩, wordCycle 8]
    let tr := (machine (withPeriod 1000 (by decide))).trace init is
    moved sourceBeat tr =
        ((items.flatMap Item.script).take (moved sinkWord tr).length).flatMap Prod.snd ∧
      (moved sinkWord tr = items.flatMap Item.words →
        moved sourceBeat tr = items.flatMap Item.beats) ∧
      tr.countP offered ≤ (moved sinkWord tr).length + packetCount items :=
  packets_decoded _
    (by
      intro item hitem
      rcases List.mem_cons.mp hitem with rfl | hitem
      · trivial
      · rw [List.mem_singleton.mp hitem]
        exact (by decide : 4 * [(7 : BitVec 32), 8].length < 2 ^ 32))
    _ (by decide) (by decide)

/-- The packet of zero words with the given number of words behind the first. -/
def zeroPacket (more : Nat) : Packet := ⟨1, List.replicate (more + 1) 0, by simp⟩

theorem words_zeroPacket (more : Nat) : (zeroPacket more).words =
    preamble :: 1 :: BitVec.ofNat 32 (4 * (more + 1)) :: 0 :: List.replicate more 0 := by
  have hwords := Host.littleWords_ubarSendPacket (List.replicate (more + 1) 0) 1
  rw [List.length_replicate] at hwords
  exact hwords

theorem beats_zeroPacket {more : Nat} (h : 0 < more) :
    ∃ rest, (Item.packet (zeroPacket more)).beats = (zeroPacket more).beat 0 false :: rest := by
  obtain ⟨n, rfl⟩ : ∃ n, more = n + 1 := ⟨more - 1, by omega⟩
  exact ⟨_, rfl⟩

/-- With `2 ^ 30 + 1` words the length does not fit its field, and the first word is
given out as the last one. -/
theorem long_packet_cut :
    let items := [Item.packet (zeroPacket (2 ^ 30))]
    let is := [wordCycle preamble, wordCycle 1, wordCycle 4, wordCycle 0, wordCycle 0]
    let tr := (machine (withPeriod 1000000000 (by decide))).trace init is
    (machine (withPeriod 1000000000 (by decide))).AllSteps NoExpiry init is ∧
      moved sinkWord tr <+: items.flatMap Item.words ∧
      ¬ moved sourceBeat tr <+: items.flatMap Item.beats := by
  intro items is tr
  have hwords : items.flatMap Item.words = preamble :: 1 :: 4 :: 0 :: List.replicate (2 ^ 30) 0 := by
    change (zeroPacket (2 ^ 30)).words ++ [] = _
    rw [List.append_nil, words_zeroPacket]
    rfl
  have hsink : moved sinkWord tr = [preamble, 1, 4, 0] := by decide
  have hsource : moved sourceBeat tr = [⟨true, true, 1, 4, 0⟩] := by decide
  refine ⟨by decide, ?_, ?_⟩
  · rw [hsink, hwords]
    exact ⟨List.replicate (2 ^ 30) 0, rfl⟩
  · obtain ⟨rest, hrest⟩ := beats_zeroPacket (by decide : 0 < 2 ^ 30)
    have hbeats : items.flatMap Item.beats = (zeroPacket (2 ^ 30)).beat 0 false :: rest := by
      change (Item.packet (zeroPacket (2 ^ 30))).beats ++ [] = _
      rw [List.append_nil, hrest]
    rw [hsource, hbeats, List.cons_prefix_cons]
    rintro ⟨hfirst, -⟩
    exact absurd (congrArg UserSource.last hfirst) (by decide)

end UsbSniffer.Usb.USBDepacketizer
