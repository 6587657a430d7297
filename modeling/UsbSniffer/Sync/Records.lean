/-
  Sync/Records.lean --- streams of self-delimiting records.

  A record format is an encoder of values as nonempty lists of symbols and a
  reader that takes one record off the front of a stream.  When the reader gets
  back each encoded value with whatever follows left untouched, it gets back
  every sequence of them from the concatenation, so the format is uniquely
  decodable.  `exists_split_of_lt` finds the record that covers a given offset of
  the concatenation.
-/
import Mathlib.Data.List.Basic

set_option autoImplicit false

namespace UsbSniffer.Sync

variable {α β γ : Type}

/-- The reader gives `view a` for an encoded `a` and leaves the rest alone. -/
def Reads (encode : α → List β) (read : List β → Option (γ × List β)) (view : α → γ) :
    Prop :=
  ∀ a rest, read (encode a ++ rest) = some (view a, rest)

/-- Read at most `fuel` records, up to the end of the stream. -/
def readMany (read : List β → Option (γ × List β)) : Nat → List β → Option (List γ)
  | _, [] => some []
  | 0, _ :: _ => none
  | fuel + 1, b :: bs =>
      match read (b :: bs) with
      | none => none
      | some (c, rest) => (readMany read fuel rest).map (c :: ·)

/-- Read a whole stream as records, with no symbol left over. -/
def readAll (read : List β → Option (γ × List β)) (bs : List β) : Option (List γ) :=
  readMany read bs.length bs

theorem readMany_encode {encode : α → List β} {read : List β → Option (γ × List β)}
    {view : α → γ} (h : Reads encode read view) (hne : ∀ a, encode a ≠ []) :
    ∀ (as : List α) (fuel : Nat), (as.flatMap encode).length ≤ fuel →
      readMany read fuel (as.flatMap encode) = some (as.map view) := by
  intro as
  induction as with
  | nil => intro fuel _; cases fuel <;> rfl
  | cons a as ih =>
    intro fuel hfuel
    rw [List.flatMap_cons] at hfuel ⊢
    have hread := h a (as.flatMap encode)
    obtain ⟨b, bs, hb⟩ := List.exists_cons_of_ne_nil (hne a)
    rw [hb, List.cons_append, List.length_cons, List.length_append] at hfuel
    obtain ⟨fuel, rfl⟩ : ∃ n, fuel = n + 1 := ⟨fuel - 1, by omega⟩
    rw [hb, List.cons_append] at hread ⊢
    simp only [readMany, hread, ih fuel (by omega), Option.map_some, List.map_cons]

/-- **Unique decoding.**  The reader recovers every sequence of records. -/
theorem readAll_encode {encode : α → List β} {read : List β → Option (γ × List β)}
    {view : α → γ} (h : Reads encode read view) (hne : ∀ a, encode a ≠ [])
    (as : List α) : readAll read (as.flatMap encode) = some (as.map view) :=
  readMany_encode h hne as _ (Nat.le_refl _)

/-- Every offset of a concatenation lies in one of its parts. -/
theorem exists_split_of_lt (f : α → List β) :
    ∀ (xs : List α) (p : Nat), p < (xs.flatMap f).length →
      ∃ pre x post k, xs = pre ++ x :: post ∧ p = (pre.flatMap f).length + k ∧
        k < (f x).length := by
  intro xs
  induction xs with
  | nil => intro p hp; simp at hp
  | cons x xs ih =>
    intro p hp
    rw [List.flatMap_cons, List.length_append] at hp
    rcases Nat.lt_or_ge p (f x).length with hin | hpast
    · exact ⟨[], x, xs, p, rfl, by simp, hin⟩
    · obtain ⟨pre, y, post, k, hxs, hp', hk⟩ := ih (p - (f x).length) (by omega)
      refine ⟨x :: pre, y, post, k, by rw [hxs]; rfl, ?_, hk⟩
      rw [List.flatMap_cons, List.length_append]
      omega

/-- What a concatenation looks like from an offset inside one of its parts. -/
theorem drop_flatMap (f : α → List β) (pre : List α) (x : α) (post : List α) {k : Nat}
    (hk : k ≤ (f x).length) :
    ((pre ++ x :: post).flatMap f).drop ((pre.flatMap f).length + k) =
      (f x).drop k ++ post.flatMap f := by
  rw [List.flatMap_append, List.flatMap_cons, List.drop_length_add_append,
    List.drop_append_of_le_length hk]

/-! ## Streams that are cut off -/

/-- The reader asks for more when it has only the start of a record. -/
def Waits (encode : α → List β) (read : List β → Option (γ × List β)) : Prop :=
  ∀ a bs, bs <+: encode a → bs.length < (encode a).length → read bs = none

/-- Read at most `fuel` records, as long as there are whole ones, and leave the rest. -/
def readSome (read : List β → Option (γ × List β)) : Nat → List β → List γ × List β
  | _, [] => ([], [])
  | 0, b :: bs => ([], b :: bs)
  | fuel + 1, b :: bs =>
      match read (b :: bs) with
      | none => ([], b :: bs)
      | some (c, rest) =>
          let more := readSome read fuel rest
          (c :: more.1, more.2)

/-- Read the whole records of a stream, and leave the start of the next one. -/
def readAvailable (read : List β → Option (γ × List β)) (bs : List β) : List γ × List β :=
  readSome read bs.length bs

/-- A stream is cut off behind the records `got`: it goes on with `tail`, which is less than
the next record. -/
structure CutOff (encode : α → List β) (as : List α) (bs : List β) (got : List α)
    (tail : List β) : Prop where
  got_prefix : got <+: as
  split : bs = got.flatMap encode ++ tail
  short : ∀ a, (as.drop got.length).head? = some a → tail.length < (encode a).length

theorem readSome_of_prefix {encode : α → List β} {read : List β → Option (γ × List β)}
    {view : α → γ} (h : Reads encode read view) (hwaits : Waits encode read)
    (hne : ∀ a, encode a ≠ []) :
    ∀ (as : List α) (bs : List β) (fuel : Nat), bs.length ≤ fuel → bs <+: as.flatMap encode →
      ∃ got tail, CutOff encode as bs got tail ∧ readSome read fuel bs = (got.map view, tail) := by
  intro as
  induction as with
  | nil =>
    intro bs fuel _ hbs
    obtain rfl := List.prefix_nil.mp hbs
    exact ⟨[], [], ⟨List.nil_prefix, rfl, by simp⟩, by cases fuel <;> rfl⟩
  | cons a as ih =>
    intro bs fuel hfuel hbs
    rw [List.flatMap_cons] at hbs
    have ha : encode a <+: encode a ++ as.flatMap encode := List.prefix_append _ _
    rcases Nat.lt_or_ge bs.length (encode a).length with hshort | hlong
    · -- the stream ends in this record
      have hpart := List.prefix_of_prefix_length_le hbs ha (Nat.le_of_lt hshort)
      refine ⟨[], bs, ⟨List.nil_prefix, rfl, ?_⟩, ?_⟩
      · rintro a' ha'
        obtain rfl := Option.some.inj ha'
        exact hshort
      · have hread := hwaits a bs hpart hshort
        cases bs with
        | nil => cases fuel <;> rfl
        | cons b bs =>
          cases fuel with
          | zero => rfl
          | succ fuel => simp only [readSome, hread, List.map_nil]
    · obtain ⟨rest, rfl⟩ := List.prefix_of_prefix_length_le ha hbs hlong
      have hrest : rest <+: as.flatMap encode := (List.prefix_append_right_inj _).mp hbs
      have hread := h a rest
      obtain ⟨b, bs, hb⟩ := List.exists_cons_of_ne_nil (hne a)
      rw [hb, List.cons_append, List.length_cons, List.length_append] at hfuel
      obtain ⟨fuel, rfl⟩ : ∃ n, fuel = n + 1 := ⟨fuel - 1, by omega⟩
      obtain ⟨got, tail, hcut, hmore⟩ := ih rest fuel (by omega) hrest
      refine ⟨a :: got, tail, ⟨?_, ?_, ?_⟩, ?_⟩
      · exact (List.prefix_cons_inj a).mpr hcut.got_prefix
      · rw [List.flatMap_cons, List.append_assoc, ← hcut.split]
      · exact hcut.short
      · rw [hb, List.cons_append] at hread ⊢
        simp only [readSome, hread, hmore, List.map_cons]

/-- **What arrives of a stream is read as far as its records are whole.** -/
theorem readAvailable_of_prefix {encode : α → List β} {read : List β → Option (γ × List β)}
    {view : α → γ} (h : Reads encode read view) (hwaits : Waits encode read)
    (hne : ∀ a, encode a ≠ []) {as : List α} {bs : List β} (hbs : bs <+: as.flatMap encode) :
    ∃ got tail, CutOff encode as bs got tail ∧ readAvailable read bs = (got.map view, tail) :=
  readSome_of_prefix h hwaits hne as bs _ (Nat.le_refl _) hbs

/-- A whole stream is read whole. -/
theorem readAvailable_encode {encode : α → List β} {read : List β → Option (γ × List β)}
    {view : α → γ} (h : Reads encode read view) (hwaits : Waits encode read)
    (hne : ∀ a, encode a ≠ []) (as : List α) :
    readAvailable read (as.flatMap encode) = (as.map view, []) := by
  obtain ⟨got, tail, ⟨⟨post, rfl⟩, hsplit, hshort⟩, hread⟩ :=
    readAvailable_of_prefix h hwaits hne (List.prefix_rfl : as.flatMap encode <+: _)
  rw [List.flatMap_append] at hsplit
  obtain rfl : post.flatMap encode = tail := List.append_cancel_left hsplit
  rw [List.drop_left] at hshort
  cases post with
  | nil =>
    rw [hread, List.append_nil]
    rfl
  | cons a post =>
    have hlt := hshort a rfl
    rw [List.flatMap_cons, List.length_append] at hlt
    omega

end UsbSniffer.Sync
