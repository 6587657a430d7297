/-
  Iti/Stream.lean --- reading the stream of the capture core.

  What the core sends are records and repetitions of the start pattern, which read like
  records themselves.  So a reader takes the stream record by record; what it has not
  received whole it leaves for later.
-/
import UsbSniffer.Iti.Core

set_option autoImplicit false

namespace UsbSniffer.Iti

open UsbSniffer.Sync

/-! ## Pieces -/

/-- A beat of the core: a record, or one repetition of the pattern. -/
inductive Piece
  | record (r : Record)
  | pattern
  deriving DecidableEq, Repr

namespace Piece

/-- The beat that the core sends for it. -/
def beat : Piece → Beat
  | record r => r.beat
  | pattern => corePattern.beat

/-- The bytes of its beat. -/
def bytes (p : Piece) : List (BitVec 8) := p.beat.bytes

/-- What the reader gets out of it. -/
def reading : Piece → Reading
  | record r => r.reading
  | pattern => { payloadType := PAYLOAD_EVENT, diff := 0, payload := some 0xe0 }

theorem bytes_pattern : Piece.pattern.bytes = [0x50, 0x00, 0xe0] := by decide

theorem bytes_ne_nil (p : Piece) : p.bytes ≠ [] := by
  cases p with
  | record r => exact Iti.bytes_ne_nil r
  | pattern => rw [bytes_pattern]; exact List.cons_ne_nil _ _

theorem reads : Reads Piece.bytes readRecord Piece.reading := by
  intro p rest
  cases p with
  | record r => exact reads_record r rest
  | pattern =>
    rw [bytes_pattern]
    rfl

/-- The header says how many bytes follow. -/
theorem header (p : Piece) : ∃ h tail, p.bytes = h :: tail ∧
    tail.length = headerLength h + if headerType h = PAYLOAD_NONE then 0 else 1 := by
  cases p with
  | pattern => exact ⟨0x50, [0x00, 0xe0], bytes_pattern, by decide⟩
  | record r =>
    obtain ⟨h, tail, hbytes, hlen, htype⟩ := headerLength_record r
    refine ⟨h, tail, hbytes, ?_⟩
    have hlength := length_bytes_record r
    rw [hbytes, List.length_cons] at hlength
    rw [hlen, htype]
    cases r with
    | overflow =>
      rw [if_pos rfl] at hlength
      exact Nat.succ.inj hlength
    | item kind diff payload =>
      rw [if_neg (by simp)] at hlength
      change tail.length = _ + if kind.code = PAYLOAD_NONE then 0 else 1
      rw [if_neg kind.code_ne_none]
      omega

end Piece

/-- With fewer bytes behind the header than it announces there is nothing to read. -/
theorem readRecord_short {h : BitVec 8} {tail : List (BitVec 8)}
    (hshort : tail.length < headerLength h + if headerType h = PAYLOAD_NONE then 0 else 1) :
    readRecord (h :: tail) = none := by
  unfold readRecord
  rcases Nat.lt_or_ge tail.length (headerLength h) with hlt | hge
  · have htake : (tail.take (headerLength h)).length < headerLength h := by
      rw [List.length_take]
      omega
    simp only [htake, if_true]
  · -- only the payload is missing
    have hne : headerType h ≠ PAYLOAD_NONE := by
      intro hnone
      rw [if_pos hnone] at hshort
      omega
    rw [if_neg hne] at hshort
    have htake : ¬ (tail.take (headerLength h)).length < headerLength h := by
      rw [List.length_take]
      omega
    have hdrop : tail.drop (headerLength h) = [] := List.drop_eq_nil_of_le (by omega)
    simp only [htake, hne, hdrop, if_false]

theorem Piece.waits : Waits Piece.bytes readRecord := by
  intro p bs hbs hshort
  obtain ⟨h, tail, hbytes, hlen⟩ := p.header
  rw [hbytes] at hbs hshort
  cases bs with
  | nil => rfl
  | cons b bs =>
    obtain ⟨rfl, hrest⟩ := List.cons_prefix_cons.mp hbs
    rw [List.length_cons, List.length_cons] at hshort
    exact readRecord_short (by omega)

/-- The beats of an item, as pieces. -/
def Item.pieces : Item → List Piece
  | record r => [.record r]
  | block => List.replicate corePattern.repeats .pattern

theorem Item.beats_eq (item : Item) : item.beats = item.pieces.map Piece.beat := by
  cases item with
  | record r => rfl
  | block => exact List.map_replicate.symm

/-- The beats that the core has sent are pieces. -/
theorem ITICore.Blocks.pieces {s : ITICore.State} {tr : List (ITICore.In × ITICore.Out)}
    (h : ITICore.Blocks s tr) :
    ∃ ps : List Piece, moved ITICore.sourceBeat tr = ps.map Piece.beat := by
  obtain ⟨items, hbeats, -⟩ := h
  refine ⟨items.flatMap Item.pieces ++ List.replicate (ITICore.patternSent s) .pattern, ?_⟩
  rw [hbeats, List.map_append, List.map_flatMap, List.map_replicate]
  exact congrArg (· ++ _) (List.flatMap_congr fun item _ => item.beats_eq)

theorem flatMap_bytes_map_beat (ps : List Piece) :
    (ps.map Piece.beat).flatMap Beat.bytes = ps.flatMap Piece.bytes :=
  List.flatMap_map ..

/-! ## The captured bytes -/

/-- The captured byte that a reading carries, if any. -/
def Reading.captured (r : Reading) : List (Bool × BitVec 8) :=
  match r.payload with
  | none => []
  | some payload =>
      if r.payloadType = PAYLOAD_RXCMD then [(true, payload)]
      else if r.payloadType = PAYLOAD_DATA then [(false, payload)]
      else []

theorem captured_beat (p : Piece) : ITICore.captured p.beat = p.reading.captured := by
  have hread := Piece.reads p []
  rw [List.append_nil] at hread
  unfold ITICore.captured
  rw [show p.beat.bytes = p.bytes from rfl, hread]
  obtain ⟨payloadType, diff, payload⟩ := p.reading
  cases payload <;> rfl

/-- What a reader knows of the captured traffic, from the bytes of the stream it has. -/
def decode (bs : List (BitVec 8)) : List (Bool × BitVec 8) :=
  (readAvailable readRecord bs).1.flatMap Reading.captured

/-- **From the start of the stream the reader gets the start of the traffic**, and from
the whole stream all of it. -/
theorem decode_of_prefix {ps : List Piece} {bs : List (BitVec 8)}
    (h : bs <+: ps.flatMap Piece.bytes) :
    decode bs <+: (ps.map Piece.beat).flatMap ITICore.captured ∧
      (bs = ps.flatMap Piece.bytes → decode bs = (ps.map Piece.beat).flatMap ITICore.captured) := by
  have hall : (ps.map Piece.beat).flatMap ITICore.captured =
      (ps.map Piece.reading).flatMap Reading.captured := by
    rw [List.flatMap_map, List.flatMap_map]
    exact List.flatMap_congr fun p _ => captured_beat p
  rw [hall]
  unfold decode
  constructor
  · obtain ⟨got, tail, hcut, hread⟩ :=
      readAvailable_of_prefix Piece.reads Piece.waits Piece.bytes_ne_nil h
    obtain ⟨post, rfl⟩ := hcut.got_prefix
    rw [hread, List.map_append, List.flatMap_append]
    exact List.prefix_append _ _
  · rintro rfl
    rw [readAvailable_encode Piece.reads Piece.waits Piece.bytes_ne_nil]

end UsbSniffer.Iti
