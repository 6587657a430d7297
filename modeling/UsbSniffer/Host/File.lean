/-
  Host/File.lean --- a device opened by Python as "r+b" (software/etherbone.py).

  `open` gives an `io.BufferedRandom`, which has one buffer and one position for what is read
  and for what is written.  A raw read may bring more bytes than are asked for, and what is
  written then goes into the buffer on top of them.  What is written reaches the device when a
  read finds the buffer empty.  A file that is opened so must have a `seek`; that of the device
  is taken to do nothing.
-/
import UsbSniffer.Sync.Bits

set_option autoImplicit false

namespace UsbSniffer.Host

/-- Bytes that one raw read may bring, once so many bytes have been written to the device.
With none the read is at the end of the file. -/
structure Chunk where
  after : Nat
  bytes : List (BitVec 8)
  deriving DecidableEq, Repr

/-- The device: the bytes written to it, and what raw reads bring, one after the other. -/
structure Device where
  sent : List (BitVec 8)
  chunks : List Chunk
  deriving DecidableEq, Repr

/-- `readinto` with this room, and what it leaves.  `none` waits: nothing more comes, or nothing
before more is written. -/
def Device.read (room : Nat) (d : Device) : Option (List (BitVec 8) × Device) :=
  match d.chunks with
  | [] => none
  | a :: rest =>
      if d.sent.length < a.after then none
      else if a.bytes.length ≤ room then some (a.bytes, { d with chunks := rest })
      else
        let left : Chunk := { a with bytes := a.bytes.drop room }
        some (a.bytes.take room, { d with chunks := left :: rest })

/-- Each of the chunks has bytes, and comes once so many have been written. -/
def Chunk.Ready (sent : Nat) (chunks : List Chunk) : Prop :=
  ∀ a ∈ chunks, a.bytes ≠ [] ∧ a.after ≤ sent

namespace Chunk

instance (sent : Nat) (chunks : List Chunk) : Decidable (Ready sent chunks) :=
  inferInstanceAs (Decidable (∀ a ∈ chunks, a.bytes ≠ [] ∧ a.after ≤ sent))

theorem ready_nil (sent : Nat) : Ready sent [] := fun _ ha => absurd ha List.not_mem_nil

/-- Chunks that have no bytes are none. -/
theorem Ready.eq_nil {sent : Nat} {chunks : List Chunk} (h : Ready sent chunks)
    (hbytes : chunks.flatMap bytes = []) : chunks = [] := by
  cases chunks with
  | nil => rfl
  | cons a chunks =>
    rw [List.flatMap_cons] at hbytes
    exact absurd (List.append_eq_nil_iff.mp hbytes).1 (h a List.mem_cons_self).1

end Chunk

/-- The registers of a buffered file.  `readEnd` and `writeEnd` are `none` when the buffer has
no bytes read, or none to be written. -/
structure BufferedRandom where
  size : Nat
  buffer : List (BitVec 8)
  pos : Nat
  readEnd : Option Nat
  writePos : Nat
  writeEnd : Option Nat
  device : Device
  deriving DecidableEq, Repr

namespace BufferedRandom

/-- The file as `open` gives it, with a buffer of this size. -/
def opened (size : Nat) (device : Device) : BufferedRandom :=
  ⟨size, List.replicate size 0, 0, none, 0, none, device⟩

/-- The bytes of a buffer from one place to another. -/
def between (buffer : List (BitVec 8)) (a b : Nat) : List (BitVec 8) :=
  (buffer.drop a).take (b - a)

/-- A buffer with some bytes stored at a place. -/
def overlay (buffer : List (BitVec 8)) (a : Nat) (xs : List (BitVec 8)) : List (BitVec 8) :=
  buffer.take a ++ xs ++ buffer.drop (a + xs.length)

variable (f : BufferedRandom)

/-- What has been read ahead: brought by the device and not been asked for. -/
def ahead : List (BitVec 8) := between f.buffer f.pos (f.readEnd.getD f.pos)

/-- What has been written and has not reached the device. -/
def unsent : List (BitVec 8) :=
  match f.writeEnd with
  | none => []
  | some e => between f.buffer f.writePos e

/-- The number of bytes that can still be read. -/
def left : Nat := f.ahead.length + (f.device.chunks.flatMap Chunk.bytes).length

/-- What is to be written reaches the device. -/
def flush : BufferedRandom :=
  { f with
    device := { f.device with sent := f.device.sent ++ f.unsent }
    writePos := 0
    writeEnd := none }

/-- Where the next byte goes: an empty buffer is filled from its start. -/
def place : Nat := if f.readEnd = none ∧ f.writeEnd = none then 0 else f.pos

/-- `write` of bytes that the buffer has room for. -/
def store (xs : List (BitVec 8)) : BufferedRandom :=
  { f with
    buffer := overlay f.buffer f.place xs
    pos := f.place + xs.length
    readEnd := f.readEnd.map fun e => max e (f.place + xs.length)
    writePos := if f.writeEnd = none then f.place else min f.writePos f.place
    writeEnd := some (max (f.writeEnd.getD 0) (f.place + xs.length)) }

/-- `write` of bytes that it has no room for: what is in it goes first, and more than it holds
goes to the device at once. -/
def storeBehind (xs : List (BitVec 8)) : BufferedRandom :=
  let through := if f.size < xs.length then xs else []
  let rest := if f.size < xs.length then [] else xs
  { f.flush with
    device := { f.flush.device with sent := f.flush.device.sent ++ through }
    buffer := overlay f.buffer 0 rest
    pos := rest.length
    readEnd := none
    writeEnd := some rest.length }

/-- `write`. -/
def write (xs : List (BitVec 8)) : BufferedRandom :=
  if xs.length ≤ f.size - f.place then f.store xs else f.storeBehind xs

/-- The first loop of `read`: whole buffers are read past the buffer.  It gives the bytes, the
number of those still wanted, and whether the file is at its end.  Each turn brings a byte at
least, so that there are no more turns than bytes. -/
def readBlocks (size : Nat) : Nat → Nat → Device → Option (List (BitVec 8) × Nat × Bool × Device)
  | 0, n, d => some ([], n, false, d)
  | turns + 1, n, d =>
      if n < size then some ([], n, false, d)
      else do
        let (xs, d) ← d.read (n - n % size)
        if xs = [] then some ([], n, true, d)
        else
          let (ys, rest) ← readBlocks size turns (n - xs.length) d
          some (xs ++ ys, rest)

/-- The second loop: the buffer is filled until it has what is wanted. -/
def readBuffer : Nat → Nat → BufferedRandom → Option (List (BitVec 8) × BufferedRandom)
  | 0, _, f => some ([], f)
  | turns + 1, n, f =>
      let e := f.readEnd.getD 0
      if n = 0 ∨ f.size ≤ e then some ([], f)
      else do
        let (xs, d) ← f.device.read (f.size - e)
        if xs = [] then some ([], { f with device := d })
        else
          let k := min n xs.length
          let buffer := overlay f.buffer e xs
          let (ys, g) ← readBuffer turns (n - k)
            { f with
              buffer := buffer
              pos := f.pos + k
              readEnd := some (e + xs.length)
              device := d }
          some (between buffer f.pos (f.pos + k) ++ ys, g)

/-- `read`, of `n` bytes; `none` waits for the device. -/
def read (n : Nat) : Option (List (BitVec 8) × BufferedRandom) :=
  if n ≤ f.ahead.length then
    some (between f.buffer f.pos (f.pos + n), { f with pos := f.pos + n })
  else do
    let g := f.flush
    let left := n - f.ahead.length
    let (ys, left, eof, d) ← readBlocks g.size left left g.device
    if eof then
      some (f.ahead ++ ys, { g with pos := f.pos + f.ahead.length, readEnd := none, device := d })
    else
      let (zs, g) ← readBuffer left left { g with pos := 0, readEnd := some 0, device := d }
      some (f.ahead ++ ys ++ zs, g)

/-! ## Between requests -/

/-- The buffer has bytes that have been read or bytes to be written, but not both, and what is
to be written ends where the position is. -/
structure Clean : Prop where
  size_pos : 0 < f.size
  length_buffer : f.buffer.length = f.size
  pos_le : f.pos ≤ f.size
  readEnd : ∀ e, f.readEnd = some e → f.pos ≤ e ∧ e ≤ f.size
  writeEnd : ∀ e, f.writeEnd = some e →
    f.writePos ≤ e ∧ e = f.pos ∧ f.readEnd.getD f.pos = f.pos

/-- `sent` has been written, to the buffer or the device, and `xs` is what comes in front of
the chunks `later`, none of which has been touched. -/
structure Holds (sent xs : List (BitVec 8)) (later : List Chunk) : Prop where
  clean : f.Clean
  sent_eq : f.device.sent ++ f.unsent = sent
  exists_chunks : ∃ chunks, Chunk.Ready sent.length chunks ∧
    f.device.chunks = chunks ++ later ∧ f.ahead ++ chunks.flatMap Chunk.bytes = xs

variable {f}

theorem length_between {buffer : List (BitVec 8)} {a b : Nat} (h : b ≤ buffer.length) :
    (between buffer a b).length = b - a := by
  unfold between
  rw [List.length_take, List.length_drop]
  omega

theorem between_self (buffer : List (BitVec 8)) (a : Nat) : between buffer a a = [] := by
  unfold between
  rw [Nat.sub_self, List.take_zero]

/-- Pieces that meet. -/
theorem between_append (buffer : List (BitVec 8)) {a b c : Nat} (hab : a ≤ b) (hbc : b ≤ c) :
    between buffer a b ++ between buffer b c = between buffer a c := by
  unfold between
  have hdrop : buffer.drop b = (buffer.drop a).drop (b - a) := by
    rw [List.drop_drop, Nat.add_sub_cancel' hab]
  rw [hdrop, ← List.take_add]
  congr 1
  omega

theorem length_overlay {buffer xs : List (BitVec 8)} {a : Nat} (h : a + xs.length ≤ buffer.length) :
    (overlay buffer a xs).length = buffer.length := by
  unfold overlay
  rw [List.length_append, List.length_append, List.length_take, List.length_drop]
  omega

/-- What is stored is there. -/
theorem between_overlay {buffer xs : List (BitVec 8)} {a : Nat} (h : a ≤ buffer.length) :
    between (overlay buffer a xs) a (a + xs.length) = xs := by
  unfold between overlay
  rw [List.append_assoc, List.drop_left' (List.length_take_of_le h), Nat.add_sub_cancel_left,
    List.take_left]

/-- What is in front of it stays. -/
theorem between_overlay_of_le {buffer xs : List (BitVec 8)} {a b c : Nat} (hba : b ≤ a)
    (h : a ≤ buffer.length) : between (overlay buffer a xs) c b = between buffer c b := by
  have htake : (overlay buffer a xs).take b = buffer.take b := by
    unfold overlay
    rw [List.append_assoc, List.take_append_of_le_length (by rw [List.length_take]; omega),
      List.take_take, Nat.min_eq_left hba]
  unfold between
  rw [← List.drop_take, ← List.drop_take, htake]

/-- What is behind it stays. -/
theorem between_overlay_of_ge {buffer xs : List (BitVec 8)} {a c : Nat}
    (h : a + xs.length ≤ buffer.length) :
    between (overlay buffer a xs) (a + xs.length) c = between buffer (a + xs.length) c := by
  unfold between overlay
  rw [List.drop_left' (by rw [List.length_append, List.length_take]; omega)]

/-- Bytes stored at the end of others. -/
theorem between_overlay_append {buffer xs : List (BitVec 8)} {a c : Nat} (hca : c ≤ a)
    (h : a ≤ buffer.length) :
    between (overlay buffer a xs) c (a + xs.length) = between buffer c a ++ xs := by
  rw [← between_append _ hca (Nat.le_add_right a xs.length),
    between_overlay_of_le (Nat.le_refl a) h, between_overlay h]

namespace Clean

theorem readEnd_le (h : f.Clean) :
    f.pos ≤ f.readEnd.getD f.pos ∧ f.readEnd.getD f.pos ≤ f.size := by
  cases he : f.readEnd with
  | none => exact ⟨Nat.le_refl _, h.pos_le⟩
  | some e => exact h.readEnd e he

theorem length_ahead (h : f.Clean) : f.ahead.length = f.readEnd.getD f.pos - f.pos :=
  length_between (by rw [h.length_buffer]; exact h.readEnd_le.2)

/-- With nothing read ahead the position is at the end of what has been read. -/
theorem readEnd_eq (h : f.Clean) (hahead : f.ahead = []) : f.readEnd.getD f.pos = f.pos := by
  have hlength := h.length_ahead
  have hle := h.readEnd_le.1
  rw [hahead, List.length_nil] at hlength
  omega

theorem place_le (h : f.Clean) : f.place ≤ f.size := by
  have hpos := h.pos_le
  unfold place
  split_ifs <;> omega

/-- The bytes that have been read end at the place of the next one. -/
theorem readEnd_place (h : f.Clean) (hahead : f.ahead = []) {e : Nat} (he : f.readEnd = some e) :
    e = f.place := by
  have hend := h.readEnd_eq hahead
  rw [he, Option.getD_some] at hend
  rw [place, if_neg (by simp [he]), hend]

/-- So do those to be written. -/
theorem writeEnd_place (h : f.Clean) {e : Nat} (he : f.writeEnd = some e) :
    e = f.place ∧ f.writePos ≤ e := by
  obtain ⟨hle, hend, -⟩ := h.writeEnd e he
  rw [place, if_neg (by simp [he])]
  exact ⟨hend, hle⟩

/-- With bytes read ahead, none are to be written. -/
theorem writeEnd_eq (h : f.Clean) (hahead : f.ahead ≠ []) : f.writeEnd = none := by
  cases he : f.writeEnd with
  | none => rfl
  | some e =>
    have hend := (h.writeEnd e he).2.2
    have hlength := h.length_ahead
    rw [hend, Nat.sub_self] at hlength
    exact absurd (List.length_eq_zero_iff.mp hlength) hahead

/-- With nothing to be written. -/
theorem of_read {e : Nat} (hsize : 0 < f.size) (hlength : f.buffer.length = f.size)
    (hread : f.readEnd = some e) (hpos : f.pos ≤ e) (he : e ≤ f.size)
    (hwrite : f.writeEnd = none) : f.Clean := by
  refine ⟨hsize, hlength, by omega, fun e' he' => ?_, fun e' he' => ?_⟩
  · rw [hread] at he'
    obtain rfl := Option.some.inj he'
    exact ⟨hpos, he⟩
  · rw [hwrite] at he'
    cases he'

/-- What is asked for of the bytes read ahead, and the rest of them. -/
theorem between_advance (h : f.Clean) {n : Nat} (hn : n ≤ f.ahead.length) :
    between f.buffer f.pos (f.pos + n) ++ { f with pos := f.pos + n }.ahead = f.ahead := by
  have hlength := h.length_ahead
  have hle := h.readEnd_le.1
  have hgetD : f.readEnd.getD (f.pos + n) = f.readEnd.getD f.pos := by
    cases he : f.readEnd with
    | none =>
      rw [he, Option.getD_none] at hlength
      rw [Option.getD_none, Option.getD_none]
      omega
    | some e => rfl
  change _ ++ between f.buffer (f.pos + n) (f.readEnd.getD (f.pos + n)) = between _ _ _
  rw [hgetD]
  exact between_append _ (Nat.le_add_right _ _) (by omega)

theorem length_between_advance (h : f.Clean) {n : Nat} (hn : n ≤ f.ahead.length) :
    (between f.buffer f.pos (f.pos + n)).length = n := by
  have hlength := h.length_ahead
  have hread := h.readEnd_le
  rw [length_between (by rw [h.length_buffer]; omega), Nat.add_sub_cancel_left]

/-- Bytes that have been read ahead are asked for. -/
theorem advance (h : f.Clean) {n : Nat} (hn : n ≤ f.ahead.length) :
    { f with pos := f.pos + n }.Clean := by
  have hlength := h.length_ahead
  have hread := h.readEnd_le
  refine ⟨h.size_pos, h.length_buffer, ?_, fun e he => ?_, fun e he => ?_⟩
  · change f.pos + n ≤ f.size
    omega
  · change f.readEnd = some e at he
    rw [he, Option.getD_some] at hread hlength
    change f.pos + n ≤ e ∧ e ≤ f.size
    omega
  · obtain ⟨hle, hend, hgetD⟩ := h.writeEnd e he
    obtain rfl : n = 0 := by omega
    exact ⟨hle, hend, hgetD⟩

end Clean

theorem ahead_of_read {e : Nat} (h : f.readEnd = some e) : f.ahead = between f.buffer f.pos e := by
  rw [ahead, h, Option.getD_some]

theorem readBuffer_zero (turns : Nat) (g : BufferedRandom) :
    readBuffer turns 0 g = some ([], g) := by
  cases turns with
  | zero => rfl
  | succ turns => rw [readBuffer, if_pos (Or.inl rfl)]

theorem unsent_of_none (h : f.writeEnd = none) : f.unsent = [] := by
  unfold unsent
  rw [h]

/-- A file that is opened. -/
theorem holds_opened {size : Nat} (hsize : 0 < size) {device : Device} :
    (opened size device).Holds device.sent [] device.chunks where
  clean := by
    refine ⟨hsize, List.length_replicate, Nat.zero_le _, fun e he => ?_, fun e he => ?_⟩
    · cases he
    · cases he
  sent_eq := List.append_nil _
  exists_chunks := ⟨[], Chunk.ready_nil _, rfl, by
    rw [List.flatMap_nil, List.append_nil]
    exact between_self _ _⟩

namespace Holds

variable {sent xs : List (BitVec 8)} {later : List Chunk}

/-- With nothing in front of the later chunks, they are the next ones. -/
theorem of_nil (h : f.Holds sent [] later) : f.ahead = [] ∧ f.device.chunks = later := by
  obtain ⟨chunks, hready, hchunks, hbytes⟩ := h.exists_chunks
  obtain ⟨hahead, hflat⟩ := List.append_eq_nil_iff.mp hbytes
  rw [hready.eq_nil hflat, List.nil_append] at hchunks
  exact ⟨hahead, hchunks⟩

theorem le_left (h : f.Holds sent xs later) : xs.length ≤ f.left := by
  obtain ⟨chunks, -, hchunks, rfl⟩ := h.exists_chunks
  rw [left, hchunks, List.flatMap_append, List.length_append, List.length_append]
  omega

/-- Chunks that come next. -/
theorem next {chunks : List Chunk} (h : f.Holds sent [] (chunks ++ later))
    (hready : Chunk.Ready sent.length chunks) :
    f.Holds sent (chunks.flatMap Chunk.bytes) later := by
  obtain ⟨hahead, hchunks⟩ := h.of_nil
  exact ⟨h.clean, h.sent_eq, chunks, hready, hchunks, by rw [hahead, List.nil_append]⟩

theorem readEnd_store (h : f.Clean) (hahead : f.ahead = []) (data : List (BitVec 8)) :
    (f.store data).readEnd = f.readEnd.map fun _ => f.place + data.length := by
  change f.readEnd.map _ = _
  cases he : f.readEnd with
  | none => rfl
  | some e => rw [h.readEnd_place hahead he]; simp

theorem writeEnd_store (h : f.Clean) (data : List (BitVec 8)) :
    (f.store data).writeEnd = some (f.place + data.length) := by
  change some (max (f.writeEnd.getD 0) _) = _
  cases he : f.writeEnd with
  | none => simp
  | some e => rw [(h.writeEnd_place he).1]; simp

theorem writePos_store_le (f : BufferedRandom) (data : List (BitVec 8)) :
    (f.store data).writePos ≤ f.place := by
  change (if f.writeEnd = none then f.place else min f.writePos f.place) ≤ _
  split_ifs <;> omega

/-- The bytes have their place behind those to be written. -/
theorem unsent_store (h : f.Clean) (data : List (BitVec 8)) :
    (f.store data).unsent = f.unsent ++ data := by
  have hplace : f.place ≤ f.buffer.length := h.length_buffer ▸ h.place_le
  unfold unsent
  rw [writeEnd_store h]
  change between (overlay f.buffer f.place data)
    (if f.writeEnd = none then f.place else min f.writePos f.place) (f.place + data.length) = _
  cases he : f.writeEnd with
  | none => exact between_overlay hplace
  | some e =>
    obtain ⟨rfl, hle⟩ := h.writeEnd_place he
    rw [if_neg (by simp), Nat.min_eq_left hle]
    exact between_overlay_append hle hplace

/-- What is written goes behind what was, where there is room for it. -/
theorem store (h : f.Holds sent [] later) {data : List (BitVec 8)}
    (hroom : data.length ≤ f.size - f.place) : (f.store data).Holds (sent ++ data) [] later := by
  obtain ⟨hahead, hchunks⟩ := h.of_nil
  have hplace := h.clean.place_le
  have hread := readEnd_store h.clean hahead data
  have hend : (f.store data).readEnd.getD (f.store data).pos = (f.store data).pos := by
    rw [hread]
    cases f.readEnd <;> rfl
  have hclean : (f.store data).Clean := by
    refine ⟨h.clean.size_pos, ?_, ?_, fun e he => ?_, fun e he => ?_⟩
    · exact (length_overlay (by rw [h.clean.length_buffer]; omega)).trans h.clean.length_buffer
    · change f.place + data.length ≤ f.size
      omega
    · rw [hread] at he
      obtain ⟨-, -, rfl⟩ := Option.map_eq_some_iff.mp he
      change f.place + data.length ≤ f.place + data.length ∧ f.place + data.length ≤ f.size
      omega
    · rw [writeEnd_store h.clean] at he
      obtain rfl := Option.some.inj he
      exact ⟨Nat.le_add_right_of_le (writePos_store_le f data), rfl, hend⟩
  refine ⟨hclean, ?_, [], Chunk.ready_nil _, hchunks, ?_⟩
  · change f.device.sent ++ _ = _
    rw [unsent_store h.clean, ← List.append_assoc, h.sent_eq]
  · rw [List.flatMap_nil, List.append_nil, ahead, hend]
    exact between_self _ _

/-- It goes through the buffer otherwise, or past it. -/
theorem storeBehind (h : f.Holds sent [] later) (data : List (BitVec 8)) :
    (f.storeBehind data).Holds (sent ++ data) [] later := by
  have hsent : f.flush.device.sent = sent := h.sent_eq
  have hfits : (if f.size < data.length then [] else data).length ≤ f.size := by
    split_ifs with hlong
    · exact Nat.zero_le _
    · exact Nat.not_lt.mp hlong
  have hsplit : (if f.size < data.length then data else []) ++
      (if f.size < data.length then [] else data) = data := by
    split_ifs
    · exact List.append_nil _
    · rfl
  unfold BufferedRandom.storeBehind
  generalize (if f.size < data.length then data else []) = through at hsplit ⊢
  generalize (if f.size < data.length then [] else data) = rest at hfits hsplit ⊢
  have hstored : between (overlay f.buffer 0 rest) 0 (0 + rest.length) = rest :=
    between_overlay (Nat.zero_le _)
  rw [Nat.zero_add] at hstored
  have hlength : (overlay f.buffer 0 rest).length = f.size :=
    (length_overlay (by rw [h.clean.length_buffer]; omega)).trans h.clean.length_buffer
  refine ⟨⟨h.clean.size_pos, hlength, hfits, fun e he => ?_, fun e he => ?_⟩, ?_, [],
    Chunk.ready_nil _, h.of_nil.2, ?_⟩
  · cases he
  · obtain rfl := Option.some.inj he
    exact ⟨Nat.zero_le _, rfl, rfl⟩
  · change (f.flush.device.sent ++ through) ++ between (overlay f.buffer 0 rest) 0 rest.length = _
    rw [hsent, hstored, List.append_assoc, hsplit]
  · rw [List.flatMap_nil, List.append_nil]
    exact between_self _ _

/-- What is written with nothing read ahead is written behind what was. -/
theorem write (h : f.Holds sent [] later) (data : List (BitVec 8)) :
    (f.write data).Holds (sent ++ data) [] later := by
  unfold BufferedRandom.write
  split_ifs with hroom
  · exact h.store hroom
  · exact h.storeBehind data

end Holds

/-- **What is written with bytes read ahead goes over them.**  The device does not get it, and
as many of the bytes read ahead are lost. -/
theorem write_ahead (h : f.Clean) (hsome : f.ahead ≠ []) {data : List (BitVec 8)}
    (hdata : data.length ≤ f.ahead.length) :
    (f.write data).device = f.device ∧ (f.write data).ahead = f.ahead.drop data.length := by
  obtain ⟨e, he⟩ : ∃ e, f.readEnd = some e := Option.ne_none_iff_exists'.mp fun hnone =>
    hsome (by rw [ahead, hnone, Option.getD_none, between_self])
  obtain ⟨hpos, hsize⟩ := h.readEnd e he
  have hplace : f.place = f.pos := by rw [place, if_neg (by simp [he])]
  have hlength : data.length ≤ e - f.pos := by
    rwa [h.length_ahead, he, Option.getD_some] at hdata
  unfold BufferedRandom.write
  rw [if_pos (by omega)]
  refine ⟨rfl, ?_⟩
  have hread : (f.store data).readEnd = some e := by
    change f.readEnd.map _ = _
    rw [he, hplace, Option.map_some, Nat.max_eq_left (by omega)]
  rw [ahead_of_read hread, ahead_of_read he]
  change between (overlay f.buffer f.place data) (f.place + data.length) e = _
  rw [hplace, between_overlay_of_ge (by rw [h.length_buffer]; omega)]
  unfold between
  rw [List.drop_take, List.drop_drop]
  congr 1
  omega

/-! ## Reading -/

section Reading

variable {later : List Chunk}

/-- A raw read brings bytes of the chunk in front. -/
theorem device_read {d : Device} {chunks : List Chunk} {room : Nat}
    (hd : d.chunks = chunks ++ later) (hready : Chunk.Ready d.sent.length chunks)
    (hsome : chunks ≠ []) (hroom : 0 < room) :
    ∃ xs chunks', d.read room = some (xs, ⟨d.sent, chunks' ++ later⟩) ∧ xs ≠ [] ∧
      xs.length ≤ room ∧ Chunk.Ready d.sent.length chunks' ∧
      xs ++ chunks'.flatMap Chunk.bytes = chunks.flatMap Chunk.bytes := by
  obtain ⟨a, chunks, rfl⟩ := List.exists_cons_of_ne_nil hsome
  obtain ⟨⟨hsome, hafter⟩, hrest⟩ := List.forall_mem_cons.mp hready
  unfold Device.read
  rw [hd, List.cons_append]
  dsimp only
  rw [if_neg (Nat.not_lt.mpr hafter)]
  split_ifs with hfits
  · exact ⟨a.bytes, chunks, rfl, hsome, hfits, hrest, rfl⟩
  · have htake : (a.bytes.take room).length = room := List.length_take_of_le (by omega)
    have hdrop : (a.bytes.drop room).length = a.bytes.length - room := List.length_drop
    refine ⟨a.bytes.take room, { a with bytes := a.bytes.drop room } :: chunks, rfl, ?_,
      Nat.le_of_eq htake, List.forall_mem_cons.mpr ⟨⟨?_, hafter⟩, hrest⟩, ?_⟩
    · exact List.ne_nil_of_length_pos (by omega)
    · exact List.ne_nil_of_length_pos (by rw [hdrop]; omega)
    · rw [List.flatMap_cons, List.flatMap_cons, ← List.append_assoc, List.take_append_drop]

theorem ne_nil_of_length {chunks : List Chunk} {n : Nat} (hn : 0 < n)
    (h : n ≤ (chunks.flatMap Chunk.bytes).length) : chunks ≠ [] := by
  rintro rfl
  rw [List.flatMap_nil, List.length_nil] at h
  omega

/-- The first loop leaves less than a buffer to be read. -/
theorem readBlocks_front {size : Nat} (hsize : 0 < size) {turns n : Nat} {d : Device}
    {chunks : List Chunk} (hturns : n ≤ turns)
    (hd : d.chunks = chunks ++ later) (hready : Chunk.Ready d.sent.length chunks)
    (hn : n ≤ (chunks.flatMap Chunk.bytes).length) :
    ∃ ys left chunks',
      readBlocks size turns n d = some (ys, left, false, ⟨d.sent, chunks' ++ later⟩) ∧
        ys.length + left = n ∧ left < size ∧ Chunk.Ready d.sent.length chunks' ∧
        ys ++ chunks'.flatMap Chunk.bytes = chunks.flatMap Chunk.bytes := by
  have hnone : d = ⟨d.sent, chunks ++ later⟩ := by rw [← hd]
  induction turns generalizing n d chunks with
  | zero =>
    obtain rfl := Nat.le_zero.mp hturns
    exact ⟨[], 0, chunks, by rw [readBlocks, ← hnone], rfl, hsize, hready, rfl⟩
  | succ turns ih =>
    unfold readBlocks
    split_ifs with hless
    · exact ⟨[], n, chunks, by rw [← hnone], Nat.zero_add n, hless, hready, rfl⟩
    · have hmod := Nat.mod_lt n hsize
      obtain ⟨xs, chunks₁, hread, hxs, hroom, hready₁, hbytes₁⟩ :=
        device_read hd hready (ne_nil_of_length (by omega) hn) (by omega : 0 < n - n % size)
      have hpos := List.length_pos_iff.mpr hxs
      rw [← hbytes₁, List.length_append] at hn
      obtain ⟨ys, left, chunks₂, hblocks, hlength, hleft, hready₂, hbytes₂⟩ :=
        ih (n := n - xs.length) (d := ⟨d.sent, chunks₁ ++ later⟩) (by omega) rfl hready₁ (by omega)
          rfl
      refine ⟨xs ++ ys, left, chunks₂, ?_, ?_, hleft, hready₂, ?_⟩
      · simp only [hread, Option.bind_eq_bind, Option.bind_some, if_neg hxs, hblocks]
      · rw [List.length_append]
        omega
      · rw [List.append_assoc, hbytes₂, hbytes₁]

/-- The second loop fills the buffer until it has what is wanted, and keeps the rest. -/
theorem readBuffer_front {turns n e : Nat} {g : BufferedRandom}
    {chunks : List Chunk} (hturns : n ≤ turns) (hsize : 0 < g.size)
    (hlength : g.buffer.length = g.size) (hread : g.readEnd = some e) (hpos : g.pos = e)
    (hwrite : g.writeEnd = none) (hroom : e + n ≤ g.size)
    (hd : g.device.chunks = chunks ++ later) (hready : Chunk.Ready g.device.sent.length chunks)
    (hn : n ≤ (chunks.flatMap Chunk.bytes).length) :
    ∃ zs g' chunks', readBuffer turns n g = some (zs, g') ∧ g'.Clean ∧
      g'.writeEnd = none ∧ g'.device = ⟨g.device.sent, chunks' ++ later⟩ ∧
      Chunk.Ready g.device.sent.length chunks' ∧ zs.length = n ∧
      zs ++ (g'.ahead ++ chunks'.flatMap Chunk.bytes) = chunks.flatMap Chunk.bytes := by
  induction turns generalizing n e g chunks with
  | zero =>
    obtain rfl := Nat.le_zero.mp hturns
    exact ⟨[], g, chunks, rfl, Clean.of_read hsize hlength hread (by omega) (by omega) hwrite,
      hwrite, by rw [← hd], hready, rfl, by rw [ahead_of_read hread, hpos, between_self]; rfl⟩
  | succ turns ih =>
    unfold readBuffer
    rw [hread, Option.getD_some]
    by_cases hzero : n = 0
    · rw [if_pos (Or.inl hzero)]
      exact ⟨[], g, chunks, rfl, Clean.of_read hsize hlength hread (by omega) (by omega) hwrite,
        hwrite, by rw [← hd], hready, hzero.symm, by
          rw [ahead_of_read hread, hpos, between_self]; rfl⟩
    rw [if_neg (by omega)]
    obtain ⟨xs, chunks₁, hraw, hxs, hfits, hready₁, hbytes₁⟩ :=
      device_read hd hready (ne_nil_of_length (by omega) hn) (by omega : 0 < g.size - e)
    have hxs' := List.length_pos_iff.mpr hxs
    have hover : (overlay g.buffer e xs).length = g.size :=
      (length_overlay (by omega)).trans hlength
    simp only [hraw, Option.bind_eq_bind, Option.bind_some, if_neg hxs, hpos]
    rw [← hbytes₁, List.length_append] at hn
    rcases Nat.lt_or_ge xs.length n with hshort | hlong
    · -- all that has come is wanted, and more
      rw [Nat.min_eq_right (by omega), between_overlay (by omega)]
      obtain ⟨zs, g', chunks₂, hbuffer, hclean, hwrite', hdevice, hready₂, hzs, hbytes₂⟩ :=
        ih (n := n - xs.length) (e := e + xs.length)
          (g := { g with
            buffer := overlay g.buffer e xs
            pos := e + xs.length
            readEnd := some (e + xs.length)
            device := ⟨g.device.sent, chunks₁ ++ later⟩ })
          (by omega) hsize hover rfl rfl hwrite (by change _ ≤ g.size; omega) rfl hready₁ (by omega)
      refine ⟨xs ++ zs, g', chunks₂, by rw [hbuffer]; rfl, hclean, hwrite', hdevice, hready₂,
        ?_, ?_⟩
      · rw [List.length_append]
        omega
      · rw [List.append_assoc, hbytes₂, hbytes₁]
    · -- what is not wanted stays in the buffer
      have hall : between (overlay g.buffer e xs) e (e + xs.length) = xs :=
        between_overlay (by omega)
      rw [← between_append _ (Nat.le_add_right e n) (by omega)] at hall
      rw [Nat.min_eq_left hlong, Nat.sub_self, readBuffer_zero]
      refine ⟨between (overlay g.buffer e xs) e (e + n),
        { g with
          buffer := overlay g.buffer e xs
          pos := e + n
          readEnd := some (e + xs.length)
          device := ⟨g.device.sent, chunks₁ ++ later⟩ }, chunks₁, by
        rw [Option.bind_some, List.append_nil], Clean.of_read hsize hover rfl ?_ ?_ hwrite, hwrite,
        rfl, hready₁, ?_, ?_⟩
      · change e + n ≤ e + xs.length
        omega
      · change e + xs.length ≤ g.size
        omega
      · rw [length_between (by omega), Nat.add_sub_cancel_left]
      · rw [ahead_of_read rfl, ← List.append_assoc, hall, hbytes₁]

/-- **A read brings what comes next.**  Behind bytes that it brings nothing is left to be
written. -/
theorem Holds.read {sent xs ys : List (BitVec 8)} (h : f.Holds sent (xs ++ ys) later) :
    ∃ g, f.read xs.length = some (xs, g) ∧ g.Holds sent ys later ∧
      (f.writeEnd = none ∨ xs ≠ [] → g.writeEnd = none) := by
  obtain ⟨chunks, hready, hchunks, hbytes⟩ := h.exists_chunks
  unfold BufferedRandom.read
  split_ifs with hfast
  · have hsplit := h.clean.between_advance hfast
    rw [← hsplit, List.append_assoc] at hbytes
    obtain ⟨hxs, hys⟩ := List.append_inj hbytes (h.clean.length_between_advance hfast)
    refine ⟨{ f with pos := f.pos + xs.length }, by rw [hxs],
      ⟨h.clean.advance hfast, h.sent_eq, chunks, hready, hchunks, hys⟩, fun hsome => ?_⟩
    rcases hsome with hwrite | hsome
    · exact hwrite
    · refine h.clean.writeEnd_eq (List.ne_nil_of_length_pos ?_)
      have hpos := List.length_pos_iff.mpr hsome
      omega
  · -- the buffer is used up, and the rest of what is wanted comes from the chunks
    obtain ⟨wanted, hxs, hflat⟩ := List.append_eq_append_iff.mp hbytes |>.resolve_right
      fun ⟨as, hahead, _⟩ => hfast (by rw [hahead, List.length_append]; omega)
    subst hxs
    rw [List.length_append, Nat.add_sub_cancel_left]
    have hsent : f.flush.device.sent = sent := h.sent_eq
    rw [← hsent] at hready
    obtain ⟨zs, left, chunks₁, hblocks, hlength₁, hleft, hready₁, hbytes₁⟩ :=
      readBlocks_front h.clean.size_pos (Nat.le_refl wanted.length) (d := f.flush.device) hchunks
        hready (by rw [hflat, List.length_append]; omega)
    obtain ⟨zs', g, chunks₂, hbuffer, hclean, hwrite, hdevice, hready₂, hlength₂, hbytes₂⟩ :=
      readBuffer_front (e := 0)
        (g := { f.flush with
          pos := 0
          readEnd := some 0
          device := ⟨f.flush.device.sent, chunks₁ ++ later⟩ })
        (Nat.le_refl left) h.clean.size_pos h.clean.length_buffer rfl rfl rfl
        (by change 0 + left ≤ f.size; omega) rfl hready₁ (by
          have htotal := congrArg List.length hbytes₁
          rw [hflat, List.length_append, List.length_append] at htotal
          omega)
    rw [hflat, ← hbytes₂, ← List.append_assoc] at hbytes₁
    obtain ⟨hwanted, hys⟩ := List.append_inj hbytes₁ (by rw [List.length_append]; omega)
    refine ⟨g, ?_, ⟨hclean, ?_, chunks₂, hsent ▸ hready₂,
      by rw [hdevice], hys⟩, fun _ => hwrite⟩
    · change (readBlocks f.flush.size wanted.length wanted.length f.flush.device).bind _ = _
      have hsize : f.flush.size = f.size := rfl
      rw [hsize, hblocks, Option.bind_some]
      refine (congrArg (Option.bind · _) hbuffer).trans ?_
      rw [Option.bind_some, ← hwanted, ← List.append_assoc]
    · rw [hdevice, unsent_of_none hwrite, List.append_nil]
      exact h.sent_eq

end Reading

end BufferedRandom

end UsbSniffer.Host
