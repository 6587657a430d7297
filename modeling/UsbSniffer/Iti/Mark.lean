/-
  Iti/Mark.lean --- the start pattern as a resynchronisation mark.

  Between records the core may insert a block: the pattern `50 00 e0`, four
  times.  It reads like an EVENT record with one further time stamp byte whose
  increment is zero, and that is what the packer never writes, because it always
  chooses the shortest time stamp.  So no record can begin inside an occurrence
  of the mark, at whatever alignment, and a record is too short to cover one.
-/
import Mathlib.Data.List.Chain
import UsbSniffer.Iti.Format
import UsbSniffer.Iti.Pattern

set_option autoImplicit false

namespace UsbSniffer.Iti

open UsbSniffer.Sync

/-- `ITIPattern(0xe00050, 3, 4)` of `ITICore`. -/
def corePattern : ITIPattern.Config where
  pattern := 0xe00050
  length := 3
  repeats := 4
  length_ge := by decide
  length_le := by decide

/-- The beats of a whole pattern block. -/
def blockBeats : List Beat := List.replicate corePattern.repeats corePattern.beat

/-- The bytes of a whole pattern block. -/
def blockBytes : List (BitVec 8) := blockBeats.flatMap Beat.bytes

theorem blockBytes_eq : blockBytes =
    [0x50, 0x00, 0xe0, 0x50, 0x00, 0xe0, 0x50, 0x00, 0xe0, 0x50, 0x00, 0xe0] := by
  decide

/-- What is laid end to end on the stream. -/
inductive Item
  | record (r : Record)
  | block
  deriving DecidableEq, Repr

/-- The beats of a record, or of a block of patterns. -/
def Item.beats : Item → List Beat
  | record r => [r.beat]
  | block => blockBeats

/-- Its bytes. -/
def Item.bytes : Item → List (BitVec 8)
  | record r => r.bytes
  | block => blockBytes

/-- Any two blocks have a record between them. -/
def Separated (items : List Item) : Prop :=
  items.IsChain fun x y => ¬ (x = .block ∧ y = .block)

/-- The bytes of a pattern block occur at offset `p`. -/
def MarkAt (stream : List (BitVec 8)) (p : Nat) : Prop := blockBytes <+: stream.drop p

/-- A pattern block starts at offset `p` of the stream of `items`. -/
def BlockStartsAt (items : List Item) (p : Nat) : Prop :=
  ∃ pre post, items = pre ++ .block :: post ∧ p = (pre.flatMap Item.bytes).length

/-! ## What the bytes of a record can be -/

/-- The header announces the length of the record. -/
theorem headerLength_record (r : Record) :
    ∃ header tail, r.bytes = header :: tail ∧ headerLength header = r.length.toNat ∧
      headerType header = r.payloadType := by
  cases r with
  | overflow => exact ⟨0x3f, [0xff, 0xff, 0xff], bytes_overflow, by decide, by decide⟩
  | item kind diff payload =>
    obtain ⟨hlen, htype, -⟩ := header_fields kind.code diff (ITITime.len diff)
    exact ⟨_, _, bytes_item kind diff payload, hlen, htype⟩

/-- A further time stamp byte, as a number. -/
theorem toNat_stamp (diff : BitVec 28) (k : Nat) :
    (byte (slice diff 4 28) k).toNat = diff.toNat / 16 % 2 ^ 24 / 2 ^ (8 * k) % 256 := by
  have hslice : (slice diff 4 28).toNat = diff.toNat / 16 % 2 ^ 24 := by
    simp [slice, BitVec.extractLsb'_toNat, Nat.shiftRight_eq_div_pow]
  rw [← hslice]
  simp [byte, BitVec.extractLsb'_toNat, Nat.shiftRight_eq_div_pow]

/-- The last further time stamp byte is not zero: with one byte less the increment
would not fit. -/
theorem stamp_ne_zero {diff : BitVec 28} {k : Nat} (hk : k + 1 = (ITITime.len diff).toNat) :
    byte (slice diff 4 28) k ≠ 0 := by
  intro hzero
  have hvalue := congrArg BitVec.toNat hzero
  rw [toNat_stamp] at hvalue
  rcases len_cases diff with ⟨hl, -⟩ | ⟨hl, hge, hlt⟩ | ⟨hl, hge, hlt⟩ | ⟨hl, hge, hlt⟩ <;>
    rw [hl] at hk
  · cases hk
  · obtain rfl : k = 0 := by simpa using hk
    simp at hvalue
    omega
  · obtain rfl : k = 1 := by simpa using hk
    simp at hvalue
    omega
  · obtain rfl : k = 2 := by simpa using hk
    simp at hvalue
    omega

theorem last_stamp_ne_zero (r : Record) (h : 0 < r.length.toNat) :
    r.bytes[r.length.toNat]? ≠ some 0 := by
  cases r with
  | overflow => rw [bytes_overflow]; decide
  | item kind diff payload =>
    obtain ⟨k, hk⟩ := Nat.exists_eq_add_of_lt h
    rw [Nat.zero_add] at hk
    have hstamp : (Record.item kind diff payload).bytes[k + 1]? =
        some (byte (slice diff 4 28) k) := by
      have hlt : k < (ITITime.len diff).toNat := Nat.lt_of_succ_le (Nat.le_of_eq hk.symm)
      rw [bytes_item, List.getElem?_cons_succ, List.getElem?_append_left (by simpa using hlt)]
      simp [bytes, hlt]
    rw [hk, hstamp]
    intro heq
    exact stamp_ne_zero hk.symm (Option.some.inj heq)

/-- Number of bytes of a record. -/
theorem length_bytes_record (r : Record) :
    r.bytes.length = if r = .overflow then 4 else r.length.toNat + 2 := by
  cases r with
  | overflow => rw [bytes_overflow]; rfl
  | item kind diff payload => rw [bytes_item]; simp [Record.length]

theorem length_bytes_record_le (r : Record) :
    r.length.toNat < r.bytes.length ∧ 2 ≤ r.bytes.length ∧ r.bytes.length ≤ 5 := by
  have hlt : r.length.toNat < 4 := r.length.isLt
  rw [length_bytes_record]
  split_ifs with h
  · subst h; decide
  · omega

/-! ## Where a record can begin -/

/-- The bytes of the mark, by their place in the pattern. -/
theorem blockBytes_getElem? {k : Nat} (hk : k < 12) : blockBytes[k]? =
    some (if k % 3 = 0 then 0x50 else if k % 3 = 1 then 0x00 else 0xe0) := by
  rw [blockBytes_eq]
  revert k
  decide

/-- No record begins inside an occurrence of the mark, except at its last byte:
the pattern byte there would be its header, and each of the three makes a record
that the packer does not write. -/
theorem no_record_at (r : Record) (rest : List (BitVec 8)) {j : Nat} (hj : j ≤ 10)
    (h : ∀ i, j + i < 12 → (r.bytes ++ rest)[i]? = blockBytes[j + i]?) : False := by
  obtain ⟨header, tail, hbytes, hlen, htype⟩ := headerLength_record r
  have hheader : blockBytes[j]? = some header := by
    have hzero := h 0 (by omega)
    rw [hbytes] at hzero
    exact hzero.symm
  have hinside : ∀ k, k = r.length.toNat → j + k < 12 →
      r.bytes[k]? = blockBytes[j + k]? := by
    intro k hk hlt
    rw [← h k hlt, List.getElem?_append_left (by
      have := (length_bytes_record_le r).1
      omega)]
  rw [blockBytes_getElem? (by omega)] at hheader
  have hmod : j % 3 = 0 ∨ j % 3 = 1 ∨ j % 3 = 2 := by omega
  rcases hmod with h0 | h1 | h2
  · -- `50`: one time stamp byte, and it is `00`
    rw [if_pos h0] at hheader
    have hone : 1 = r.length.toNat := by
      rw [← hlen, ← Option.some.inj hheader]
      rfl
    have hbyte := hinside 1 hone (by omega)
    rw [blockBytes_getElem? (by omega), if_neg (by omega), if_pos (by omega)] at hbyte
    exact last_stamp_ne_zero r (by omega) (hone ▸ hbyte)
  · -- `00`: type NONE, whose only record begins with `3f`
    rw [if_neg (by omega), if_pos h1] at hheader
    have hnone : r.payloadType = PAYLOAD_NONE := by
      rw [← htype, ← Option.some.inj hheader]
      rfl
    cases r with
    | overflow =>
      rw [bytes_overflow] at hbytes
      rw [← Option.some.inj hheader] at hbytes
      cases hbytes
    | item kind diff payload => exact kind.code_ne_none hnone
  · -- `e0`: two time stamp bytes, and the second is `00`
    rw [if_neg (by omega), if_neg (by omega)] at hheader
    have htwo : 2 = r.length.toNat := by
      rw [← hlen, ← Option.some.inj hheader]
      rfl
    have hbyte := hinside 2 htwo (by omega)
    rw [blockBytes_getElem? (by omega), if_neg (by omega), if_pos (by omega)] at hbyte
    exact last_stamp_ne_zero r (by omega) (htwo ▸ hbyte)

/-- A record does not end with the three bytes of the pattern after another
byte. -/
theorem no_record_before (r : Record) (hlong : 4 ≤ r.bytes.length)
    (h : r.bytes[r.bytes.length - 2]? = some 0x00) : False := by
  by_cases ho : r = .overflow
  · subst ho
    rw [bytes_overflow] at h
    revert h
    decide
  · rw [length_bytes_record, if_neg ho] at hlong h
    rw [Nat.add_sub_cancel] at h
    exact last_stamp_ne_zero r (by omega) h

/-- The bytes of an occurrence, one by one. -/
theorem MarkAt.getElem? {stream : List (BitVec 8)} {p : Nat} (h : MarkAt stream p)
    {i : Nat} (hi : i < 12) : (stream.drop p)[i]? = blockBytes[i]? := by
  obtain ⟨rest, hrest⟩ := h
  rw [← hrest, List.getElem?_append_left (by rw [blockBytes_eq]; exact hi)]

theorem MarkAt.length_le {stream : List (BitVec 8)} {p : Nat} (h : MarkAt stream p) :
    12 ≤ (stream.drop p).length := by
  have := List.IsPrefix.length_le h
  rwa [blockBytes_eq] at this

/-! ## The mark in a stream of records and blocks -/

/-- An occurrence that begins inside a record is impossible. -/
theorem no_mark_in_record {r : Record} {post : List Item} {k : Nat}
    (hk : k < r.bytes.length)
    (h : ∀ i < 12, (r.bytes.drop k ++ post.flatMap Item.bytes)[i]? = blockBytes[i]?)
    (hlen : 12 ≤ (r.bytes.drop k ++ post.flatMap Item.bytes).length) : False := by
  rcases Nat.eq_zero_or_pos k with rfl | hpos
  · -- the record begins where the mark does
    refine no_record_at r (post.flatMap Item.bytes) (j := 0) (by decide) fun i hi => ?_
    simpa using h i (by omega)
  · -- the record ends inside the mark
    have hshort := (length_bytes_record_le r).2
    have hrest : (r.bytes.drop k).length = r.bytes.length - k := List.length_drop
    cases post with
    | nil =>
      rw [List.length_append, hrest] at hlen
      simp at hlen
      omega
    | cons item post =>
      have hafter : ∀ i, (r.bytes.length - k) + i < 12 →
          (item.bytes ++ post.flatMap Item.bytes)[i]? =
            blockBytes[(r.bytes.length - k) + i]? := by
        intro i hi
        have hat := h _ hi
        rwa [List.getElem?_append_right (by omega), hrest, Nat.add_sub_cancel_left,
          List.flatMap_cons] at hat
      cases item with
      | record next =>
        exact no_record_at next (post.flatMap Item.bytes) (j := r.bytes.length - k)
          (by omega) hafter
      | block =>
        -- the block is in step with the mark, so three bytes of the record are in it
        have hfirst := hafter 0 (by omega)
        rw [List.getElem?_append_left (by simp [Item.bytes, blockBytes_eq]), Item.bytes,
          blockBytes_getElem? (by omega), blockBytes_getElem? (by omega)] at hfirst
        have hthree : r.bytes.length - k = 3 := by
          by_contra hne
          rcases (by omega : r.bytes.length - k = 1 ∨ r.bytes.length - k = 2 ∨
            r.bytes.length - k = 4) with hm | hm | hm <;>
            rw [hm] at hfirst <;> revert hfirst <;> decide
        refine no_record_before r (by omega) ?_
        have hmiddle := h 1 (by decide)
        rw [List.getElem?_append_left (by omega), List.getElem?_drop,
          blockBytes_getElem? (by decide)] at hmiddle
        rw [show r.bytes.length - 2 = k + 1 by omega, hmiddle]
        rfl

/-- An occurrence that begins inside a block, but not with it, is impossible. -/
theorem no_mark_in_block {post : List Item} {k : Nat} (hpos : 0 < k) (hk : k < 12)
    (hsep : ∀ item, post.head? = some item → item ≠ .block)
    (h : ∀ i < 12, (blockBytes.drop k ++ post.flatMap Item.bytes)[i]? = blockBytes[i]?)
    (hlen : 12 ≤ (blockBytes.drop k ++ post.flatMap Item.bytes).length) : False := by
  have hrest : (blockBytes.drop k).length = 12 - k := by
    rw [List.length_drop, blockBytes_eq]
    rfl
  -- both begin with `50`, so the mark is a whole number of patterns late
  have hfirst := h 0 (by decide)
  rw [List.getElem?_append_left (by omega), List.getElem?_drop, Nat.add_zero,
    blockBytes_getElem? hk, blockBytes_getElem? (by decide)] at hfirst
  have hmod : k % 3 = 0 := by
    by_contra hne
    rcases (by omega : k % 3 = 1 ∨ k % 3 = 2) with hm | hm <;>
      rw [hm] at hfirst <;> revert hfirst <;> decide
  cases post with
  | nil =>
    rw [List.length_append, hrest] at hlen
    simp at hlen
    omega
  | cons item post =>
    cases item with
    | block => exact hsep .block rfl rfl
    | record next =>
      refine no_record_at next (post.flatMap Item.bytes) (j := 12 - k) (by omega) ?_
      intro i hi
      have hat := h _ hi
      rwa [List.getElem?_append_right (by omega), hrest, Nat.add_sub_cancel_left,
        List.flatMap_cons] at hat

/-- The mark occurs only where a block starts. -/
theorem MarkAt.blockStartsAt {items : List Item} (hsep : Separated items) {p : Nat}
    (hmark : MarkAt (items.flatMap Item.bytes) p) : BlockStartsAt items p := by
  have hlen := hmark.length_le
  rw [List.length_drop] at hlen
  obtain ⟨pre, item, post, k, rfl, rfl, hk⟩ :=
    exists_split_of_lt Item.bytes items p (by omega)
  have hdrop := drop_flatMap Item.bytes pre item post (Nat.le_of_lt hk)
  have hat : ∀ i < 12,
      (item.bytes.drop k ++ post.flatMap Item.bytes)[i]? = blockBytes[i]? := by
    intro i hi
    rw [← hdrop]
    exact hmark.getElem? hi
  have hroom := hmark.length_le
  rw [hdrop] at hroom
  cases item with
  | record r => exact (no_mark_in_record hk hat hroom).elim
  | block =>
    rcases Nat.eq_zero_or_pos k with rfl | hpos
    · exact ⟨pre, post, rfl, Nat.add_zero _⟩
    · refine (no_mark_in_block hpos ?_ ?_ hat hroom).elim
      · rwa [Item.bytes, blockBytes_eq] at hk
      · intro next hnext hblock
        have hchain := (List.isChain_append.mp hsep).2.1
        cases post with
        | nil => cases hnext
        | cons y post =>
          obtain rfl := Option.some.inj hnext
          exact (List.isChain_cons_cons.mp hchain).1 ⟨rfl, hblock⟩

theorem BlockStartsAt.markAt {items : List Item} {p : Nat} (h : BlockStartsAt items p) :
    MarkAt (items.flatMap Item.bytes) p := by
  obtain ⟨pre, post, rfl, rfl⟩ := h
  have hdrop := drop_flatMap Item.bytes pre .block post (Nat.zero_le _)
  rw [Nat.add_zero] at hdrop
  unfold MarkAt
  rw [hdrop]
  exact List.prefix_append _ _

theorem separated_records (rs : List Record) : Separated (rs.map Item.record) := by
  refine List.Pairwise.isChain (List.pairwise_map.mpr (List.pairwise_of_forall ?_))
  rintro a b ⟨h, -⟩
  cases h

/-- **The mark is unambiguous.**  It occurs exactly where a pattern block starts,
and in a stream of records alone it does not occur. -/
theorem markAt_iff_blockStartsAt :
    (∀ items, Separated items → ∀ p,
      MarkAt (items.flatMap Item.bytes) p ↔ BlockStartsAt items p) ∧
    ∀ (rs : List Record) (p : Nat), ¬ MarkAt (rs.flatMap Record.bytes) p := by
  refine ⟨fun items hsep p => ⟨MarkAt.blockStartsAt hsep, BlockStartsAt.markAt⟩,
    fun rs p hmark => ?_⟩
  have hbytes : (rs.map Item.record).flatMap Item.bytes = rs.flatMap Record.bytes :=
    List.flatMap_map ..
  rw [← hbytes] at hmark
  obtain ⟨pre, post, hitems, -⟩ := hmark.blockStartsAt (separated_records rs)
  have hmem : Item.block ∈ rs.map Item.record := by
    rw [hitems]
    simp
  simp at hmem

/-- The mark of a block after a record of two bytes. -/
theorem markAt_after_record :
    MarkAt ([.record (.item .data 5 0xa5), .block, .record .overflow].flatMap Item.bytes) 2 :=
  (markAt_iff_blockStartsAt.1 [.record (.item .data 5 0xa5), .block, .record .overflow]
    (by simp [Separated]) 2).mpr ⟨[.record (.item .data 5 0xa5)], [.record .overflow], rfl,
      by decide⟩

end UsbSniffer.Iti
