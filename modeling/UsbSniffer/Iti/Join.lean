/-
  Iti/Join.lean --- joining a running stream.

  A reader that has missed the start of the stream does not know where a record begins.
  It looks for the start pattern.  A mark stands at the border of two records whatever
  the reader has missed, and whether or not the blocks of the pattern have records
  between them, so that from the first mark on the reader is in step.
-/
import UsbSniffer.Iti.Stream

set_option autoImplicit false

namespace UsbSniffer.Iti

open UsbSniffer.Sync

/-! ## Marks and borders -/

/-- The bytes of a stretch of the stream agree with the mark from its byte `j` on, as far
as that goes. -/
def MarkFrom (j : Nat) (bs : List (BitVec 8)) : Prop :=
  ∀ i, j + i < 12 → bs[i]? = blockBytes[j + i]?

theorem MarkFrom.of_prefix {bs : List (BitVec 8)} (h : blockBytes <+: bs) : MarkFrom 0 bs := by
  obtain ⟨rest, rfl⟩ := h
  intro i hi
  rw [Nat.zero_add] at hi ⊢
  exact List.getElem?_append_left (by rw [blockBytes_eq]; exact hi)

/-- Behind the first bytes the mark goes on. -/
theorem MarkFrom.append {j : Nat} {xs ys : List (BitVec 8)} (h : MarkFrom j (xs ++ ys)) :
    MarkFrom (j + xs.length) ys := by
  intro i hi
  have hat := h (xs.length + i) (by omega)
  rw [List.getElem?_append_right (by omega), Nat.add_sub_cancel_left] at hat
  rw [hat, Nat.add_assoc]

/-- The rest of a mark begins with a pattern, unless it is its last byte. -/
theorem MarkFrom.pattern {j : Nat} {p : Piece} {rest : List (BitVec 8)} (hj : j ≤ 10)
    (h : MarkFrom j (p.bytes ++ rest)) : p = .pattern ∧ j % 3 = 0 := by
  cases p with
  | record r => exact (no_record_at r rest hj h).elim
  | pattern =>
    refine ⟨rfl, ?_⟩
    have hfirst := h 0 (by omega)
    rw [blockBytes_getElem? (by omega), Piece.bytes_pattern] at hfirst
    by_contra hne
    rcases (by omega : j % 3 = 1 ∨ j % 3 = 2) with hmod | hmod <;>
      simp [hmod] at hfirst

/-- No mark begins inside a piece. -/
theorem no_mark_inside {p : Piece} {post : List Piece} {k : Nat} (hpos : 0 < k)
    (hk : k < p.bytes.length) (h : blockBytes <+: p.bytes.drop k ++ post.flatMap Piece.bytes) :
    False := by
  have hmark := MarkFrom.of_prefix h
  have hroom := h.length_le
  rw [blockBytes_eq, List.length_append, List.length_drop] at hroom
  cases p with
  | pattern =>
    -- the mark begins with `50`, which is only at the start of the pattern
    have hfirst := hmark 0 (by decide)
    rw [blockBytes_eq] at hfirst
    rw [Piece.bytes_pattern] at hk hfirst
    rcases (by simp at hk; omega : k = 1 ∨ k = 2) with rfl | rfl <;> simp at hfirst
  | record r =>
    have hshort := (length_bytes_record_le r).2
    change k < r.bytes.length at hk
    change 12 ≤ r.bytes.length - k + _ at hroom
    have hlen : (r.bytes.drop k).length = r.bytes.length - k := List.length_drop
    cases post with
    | nil =>
      simp at hroom
      omega
    | cons q post =>
      have hnext := hmark.append
      rw [List.flatMap_cons] at hnext
      change MarkFrom (0 + (r.bytes.drop k).length) _ at hnext
      obtain ⟨rfl, hmod⟩ := hnext.pattern (by omega)
      -- the piece behind is in step with the mark, so three bytes of the record are in it
      have hthree : r.bytes.length - k = 3 := by omega
      have hmiddle := hmark 1 (by decide)
      change (r.bytes.drop k ++ _)[1]? = _ at hmiddle
      rw [List.getElem?_append_left (by omega), List.getElem?_drop,
        blockBytes_getElem? (by decide)] at hmiddle
      refine no_record_before r (by omega) ?_
      rw [show r.bytes.length - 2 = k + 1 by omega, hmiddle]
      rfl

/-- A mark at a border is four patterns. -/
theorem patterns_of_mark (n : Nat) (ps : List Piece)
    (h : MarkFrom (12 - 3 * n) (ps.flatMap Piece.bytes)) (hn : n ≤ 4) :
    ∃ rest, ps = List.replicate n .pattern ++ rest := by
  induction n generalizing ps with
  | zero => exact ⟨ps, rfl⟩
  | succ n ih =>
    cases ps with
    | nil =>
      have hfirst := h 0 (by omega)
      rw [blockBytes_getElem? (by omega)] at hfirst
      cases hfirst
    | cons p ps =>
      rw [List.flatMap_cons] at h
      obtain ⟨rfl, -⟩ := h.pattern (by omega)
      have htail := h.append
      have hnext : 12 - 3 * (n + 1) + Piece.pattern.bytes.length = 12 - 3 * n := by
        rw [Piece.bytes_pattern, List.length_cons, List.length_cons, List.length_singleton]
        omega
      rw [hnext] at htail
      obtain ⟨rest, rfl⟩ := ih ps htail (by omega)
      exact ⟨rest, rfl⟩

/-- **A mark stands at a border**, and four patterns follow it. -/
theorem MarkAt.border {ps : List Piece} {p : Nat} (h : MarkAt (ps.flatMap Piece.bytes) p) :
    ∃ pre post, ps = pre ++ (List.replicate 4 .pattern ++ post) ∧
      p = (pre.flatMap Piece.bytes).length := by
  have hlen := h.length_le
  rw [List.length_drop] at hlen
  obtain ⟨pre, x, post, k, rfl, rfl, hk⟩ :=
    exists_split_of_lt Piece.bytes ps p (by omega)
  unfold MarkAt at h
  rw [drop_flatMap Piece.bytes pre x post (Nat.le_of_lt hk)] at h
  rcases Nat.eq_zero_or_pos k with rfl | hpos
  · rw [List.drop_zero, ← List.flatMap_cons] at h
    obtain ⟨rest, hrest⟩ := patterns_of_mark 4 (x :: post) (MarkFrom.of_prefix h) (Nat.le_refl 4)
    exact ⟨pre, rest, by rw [hrest], Nat.add_zero _⟩
  · exact (no_mark_inside hpos hk h).elim

/-! ## The reader that joins -/

/-- Drop what stands in front of the first mark. -/
def findMark : List (BitVec 8) → Option (List (BitVec 8))
  | [] => none
  | b :: bs => if blockBytes.isPrefixOf (b :: bs) then some (b :: bs) else findMark bs

theorem findMark_none {bs : List (BitVec 8)} (h : findMark bs = none) (p : Nat) :
    ¬ MarkAt bs p := by
  induction bs generalizing p with
  | nil =>
    intro hmark
    have := hmark.length_le
    simp at this
  | cons b bs ih =>
    unfold findMark at h
    split_ifs at h with hat
    cases p with
    | zero => exact fun hmark => hat (List.isPrefixOf_iff_prefix.mpr hmark)
    | succ p => exact ih h p

theorem findMark_some {bs rest : List (BitVec 8)} (h : findMark bs = some rest) :
    ∃ p, rest = bs.drop p ∧ MarkAt bs p ∧ ∀ q < p, ¬ MarkAt bs q := by
  induction bs with
  | nil => cases h
  | cons b bs ih =>
    unfold findMark at h
    split_ifs at h with hat
    · obtain rfl := Option.some.inj h
      exact ⟨0, rfl, List.isPrefixOf_iff_prefix.mp hat, fun q hq => by omega⟩
    · obtain ⟨p, hrest, hmark, hfirst⟩ := ih h
      refine ⟨p + 1, hrest, hmark, fun q hq => ?_⟩
      cases q with
      | zero => exact fun hzero => hat (List.isPrefixOf_iff_prefix.mpr hzero)
      | succ q => exact hfirst q (by omega)

/-- A mark in what arrives of a stream is a mark of the stream. -/
theorem MarkAt.of_arrived {stream bs : List (BitVec 8)} {j p : Nat} (h : bs <+: stream.drop j)
    (hmark : MarkAt bs p) : MarkAt stream (j + p) := by
  unfold MarkAt at hmark ⊢
  rw [← List.drop_drop]
  exact hmark.trans (h.drop p)

/-- A mark of the stream is seen once its last byte has arrived. -/
theorem MarkAt.arrived {stream bs : List (BitVec 8)} {j p : Nat} (h : bs <+: stream.drop j)
    (hmark : MarkAt stream (j + p)) (hlen : p + 12 ≤ bs.length) : MarkAt bs p := by
  unfold MarkAt at hmark ⊢
  rw [← List.drop_drop] at hmark
  refine List.prefix_of_prefix_length_le hmark (h.drop p) ?_
  rw [blockBytes_eq, List.length_drop]
  change 12 ≤ _
  omega

/-- Four patterns are a mark. -/
theorem markAt_patterns (pre post : List Piece) :
    MarkAt ((pre ++ (List.replicate 4 Piece.pattern ++ post)).flatMap Piece.bytes)
      (pre.flatMap Piece.bytes).length := by
  unfold MarkAt
  rw [List.flatMap_append, List.drop_left, List.flatMap_append]
  exact List.prefix_append blockBytes _

/-- **From the first mark on the reader is in step.**  What it reads are the pieces of the
stream from a border on, as far as they have arrived; no whole block has passed before. -/
theorem findMark_in_step {ps : List Piece} {j : Nat} {bs rest : List (BitVec 8)}
    (h : bs <+: (ps.flatMap Piece.bytes).drop j) (hfind : findMark bs = some rest) :
    ∃ pre post, ps = pre ++ (List.replicate 4 .pattern ++ post) ∧
      j ≤ (pre.flatMap Piece.bytes).length ∧
      rest = bs.drop ((pre.flatMap Piece.bytes).length - j) ∧
      rest <+: (List.replicate 4 Piece.pattern ++ post).flatMap Piece.bytes ∧
      ∀ pre' post', ps = pre' ++ (List.replicate 4 .pattern ++ post') →
        j ≤ (pre'.flatMap Piece.bytes).length →
        (pre.flatMap Piece.bytes).length ≤ (pre'.flatMap Piece.bytes).length := by
  obtain ⟨p, rfl, hmark, hfirst⟩ := findMark_some hfind
  obtain ⟨pre, post, hps, hborder⟩ := (hmark.of_arrived h).border
  have hdrop : (ps.flatMap Piece.bytes).drop (j + p) =
      (List.replicate 4 Piece.pattern ++ post).flatMap Piece.bytes := by
    rw [hps, hborder, List.flatMap_append, List.drop_left]
  refine ⟨pre, post, hps, by omega, by rw [← hborder, Nat.add_sub_cancel_left], ?_, ?_⟩
  · rw [← hdrop, ← List.drop_drop]
    exact h.drop p
  · intro pre' post' hps' hj
    rw [← hborder]
    by_contra hlt
    have hearlier := markAt_patterns pre' post'
    rw [← hps', ← Nat.add_sub_cancel' hj] at hearlier
    have hroom := hmark.length_le
    rw [List.length_drop] at hroom
    exact hfirst _ (by omega) (hearlier.arrived h (by omega))

/-- Without a mark no whole block has arrived. -/
theorem findMark_no_block {ps : List Piece} {j : Nat} {bs : List (BitVec 8)}
    (h : bs <+: (ps.flatMap Piece.bytes).drop j) (hfind : findMark bs = none)
    {pre post : List Piece} (hps : ps = pre ++ (List.replicate 4 .pattern ++ post))
    (hj : j ≤ (pre.flatMap Piece.bytes).length) :
    j + bs.length < (pre.flatMap Piece.bytes).length + 12 := by
  have hblock := markAt_patterns pre post
  rw [← hps, ← Nat.add_sub_cancel' hj] at hblock
  by_contra hlen
  exact findMark_none hfind _ (hblock.arrived h (by omega))

/-! ## Joining the stream of the core -/

/-- Only the pattern is sent as the pattern. -/
theorem Piece.eq_pattern {p : Piece} (h : p.beat = corePattern.beat) : p = .pattern := by
  have hmark : blockBytes <+: p.bytes ++ (List.replicate 3 Piece.pattern).flatMap Piece.bytes := by
    unfold Piece.bytes
    rw [h]
    exact List.prefix_rfl
  exact ((MarkFrom.of_prefix hmark).pattern (by decide)).1

theorem pieces_of_beats {ps : List Piece} {before after : List Beat}
    (h : ps.map Piece.beat = before ++ (blockBeats ++ after)) :
    ∃ pre post, ps = pre ++ (List.replicate 4 .pattern ++ post) ∧ before = pre.map Piece.beat ∧
      after = post.map Piece.beat := by
  obtain ⟨pre, rest, rfl, hbefore, hrest⟩ := List.map_eq_append_iff.mp h
  obtain ⟨block, post, rfl, hblock, hafter⟩ := List.map_eq_append_iff.mp hrest
  have hpatterns : block = List.replicate 4 .pattern := by
    refine List.eq_replicate_iff.mpr ⟨?_, fun p hp => Piece.eq_pattern ?_⟩
    · rw [← List.length_map Piece.beat, hblock]
      rfl
    · have hmem : p.beat ∈ blockBeats := hblock ▸ List.mem_map_of_mem hp
      exact List.eq_of_mem_replicate hmem
  exact ⟨pre, post, by rw [hpatterns], hbefore.symm, hafter.symm⟩

namespace ITICore

/-- What a reader gets that has missed the first `j` bytes of the stream: nothing before
the whole of a block has arrived, and from the first block on the captured bytes of the
records behind it, as far as they have arrived. -/
def Joins (beats : List Beat) (j : Nat) (bs : List (BitVec 8)) : Prop :=
  match findMark bs with
  | none => ∀ before after, beats = before ++ (blockBeats ++ after) →
      j ≤ (before.flatMap Beat.bytes).length →
      j + bs.length < (before.flatMap Beat.bytes).length + 12
  | some rest => ∃ before after, beats = before ++ (blockBeats ++ after) ∧
      j ≤ (before.flatMap Beat.bytes).length ∧
      (∀ before' after', beats = before' ++ (blockBeats ++ after') →
        j ≤ (before'.flatMap Beat.bytes).length →
        (before.flatMap Beat.bytes).length ≤ (before'.flatMap Beat.bytes).length) ∧
      decode rest <+: after.flatMap captured ∧
      (bs = (beats.flatMap Beat.bytes).drop j → decode rest = after.flatMap captured)

theorem captured_blockBeats : blockBeats.flatMap captured = [] := by decide

theorem joins_pieces {ps : List Piece} {j : Nat} {bs : List (BitVec 8)}
    (h : bs <+: (ps.flatMap Piece.bytes).drop j) : Joins (ps.map Piece.beat) j bs := by
  unfold Joins
  cases hfind : findMark bs with
  | none =>
    intro before after hbeats hj
    obtain ⟨pre, post, hps, rfl, -⟩ := pieces_of_beats hbeats
    rw [flatMap_bytes_map_beat] at hj ⊢
    exact findMark_no_block h hfind hps hj
  | some rest =>
    obtain ⟨pre, post, hps, hj, hrest, hin, hfirst⟩ := findMark_in_step h hfind
    have hcaptured : ((List.replicate 4 Piece.pattern ++ post).map Piece.beat).flatMap captured =
        (post.map Piece.beat).flatMap captured := by
      rw [List.map_append, List.flatMap_append]
      change blockBeats.flatMap captured ++ _ = _
      rw [captured_blockBeats, List.nil_append]
    obtain ⟨hpart, hwhole⟩ := decode_of_prefix hin
    rw [hcaptured] at hpart hwhole
    refine ⟨pre.map Piece.beat, post.map Piece.beat, ?_, ?_, ?_, hpart, fun hall => hwhole ?_⟩
    · rw [hps, List.map_append, List.map_append]
      rfl
    · rwa [flatMap_bytes_map_beat]
    · intro before' after' hbeats hj'
      obtain ⟨pre', post', hps', rfl, -⟩ := pieces_of_beats hbeats
      rw [flatMap_bytes_map_beat] at hj' ⊢
      rw [flatMap_bytes_map_beat]
      exact hfirst pre' post' hps' hj'
    · rw [flatMap_bytes_map_beat] at hall
      rw [hrest, hall, List.drop_drop, Nat.add_sub_cancel' hj, hps, List.flatMap_append,
        List.drop_left]

/-- **A reader may join at any byte.**  Whatever part of the stream of a run it gets, from
whatever byte on, it finds the first block in that part, and reads from there the bytes
captured since; what it misses are the ones captured before. -/
theorem joins_running (is : List In) {j : Nat} {bs : List (BitVec 8)}
    (h : bs <+: ((moved sourceBeat (machine.trace init is)).flatMap Beat.bytes).drop j) :
    Joins (moved sourceBeat (machine.trace init is)) j bs ∧
      ∀ before after, moved sourceBeat (machine.trace init is) = before ++ (blockBeats ++ after) →
        moved sinkBeat (machine.trace init is) =
          before.flatMap captured ++ after.flatMap captured := by
  have hcaptured : (moved sourceBeat (machine.trace init is)).flatMap captured =
      moved sinkBeat (machine.trace init is) := by
    unfold moved
    rw [List.flatMap_assoc]
    exact List.flatMap_congr (machine.trace_forall captured_cycle init is)
  obtain ⟨ps, hps⟩ := (blocks_run is).2.pieces
  constructor
  · rw [hps] at h ⊢
    rw [flatMap_bytes_map_beat] at h
    exact joins_pieces h
  · intro before after hbeats
    rw [← hcaptured, hbeats, List.flatMap_append, List.flatMap_append, captured_blockBeats,
      List.nil_append]

/-- A byte, a strobe of the pattern, its block, and another byte. -/
def blockRun : List In :=
  [{ readyCycle with sinkValid := true, sinkData := 0xa5 }, { readyCycle with startPattern := true },
    readyCycle, readyCycle, readyCycle, readyCycle,
    { readyCycle with sinkValid := true, sinkData := 0x5a }]

theorem joins_blockRun :
    Joins (moved sourceBeat (machine.trace init blockRun)) 1
        (((moved sourceBeat (machine.trace init blockRun)).flatMap Beat.bytes).drop 1) ∧
      ∀ before after, moved sourceBeat (machine.trace init blockRun) =
          before ++ (blockBeats ++ after) →
        moved sinkBeat (machine.trace init blockRun) =
          before.flatMap captured ++ after.flatMap captured :=
  joins_running blockRun List.prefix_rfl

/-- The second byte is read behind the block. -/
example : ((findMark (((moved sourceBeat (machine.trace init blockRun)).flatMap
    Beat.bytes).drop 1)).map decode) = some [(false, 0x5a)] := by decide

end ITICore

end UsbSniffer.Iti
