/-
  Sync/Merge.lean --- stages whose source is a merge of several streams of packets.

  What such a stage gives depends on the order in which its streams come, and that is
  decided as it runs.  So it is said of each run that there is an order: the streams are
  given packet by packet, and each one in its own order.  A stage behind it sees one of
  these orders, whole, and treats it as any other stream.
-/
import Mathlib.Data.List.FinRange
import UsbSniffer.Sync.Packet
import UsbSniffer.Sync.Switch

set_option autoImplicit false

namespace UsbSniffer.Sync

variable {ε α β γ κ : Type}

/-! ## Whole packets -/

/-- The words end with the last word of a packet, if there are any. -/
def Closed (isLast : β → Bool) (xs : List β) : Prop :=
  ∀ h : xs ≠ [], isLast (xs.getLast h) = true

namespace Closed

variable {isLast : β → Bool}

theorem nil : Closed isLast [] := fun h => absurd rfl h

theorem singleton {x : β} : Closed isLast [x] ↔ isLast x = true :=
  ⟨fun h => h (List.cons_ne_nil x []), fun h _ => h⟩

theorem cons_iff {xs : List β} (h : xs ≠ []) (x : β) :
    Closed isLast (x :: xs) ↔ Closed isLast xs := by
  have hlast : (x :: xs).getLast (List.cons_ne_nil x xs) = xs.getLast h := List.getLast_cons h
  exact ⟨fun hxs _ => hlast ▸ hxs (List.cons_ne_nil x xs), fun hxs _ => hlast.symm ▸ hxs h⟩

/-- Behind a word that is not the last one of its packet there are more. -/
theorem ne_nil_of_cons {x : β} {xs : List β} (h : Closed isLast (x :: xs))
    (hx : isLast x = false) : xs ≠ [] := by
  rintro rfl
  rw [singleton.mp h] at hx
  cases hx

theorem tail {xs : List β} (h : Closed isLast xs) : Closed isLast xs.tail := by
  cases xs with
  | nil => exact nil
  | cons x xs =>
    cases xs with
    | nil => exact nil
    | cons y ys => exact (cons_iff (List.cons_ne_nil y ys) x).mp h

theorem of_packet {xs : List β} (h : IsPacket isLast xs) : Closed isLast xs := by
  induction xs with
  | nil => exact nil
  | cons x xs ih =>
    cases xs with
    | nil => exact singleton.mpr h
    | cons y ys => exact (cons_iff (List.cons_ne_nil y ys) x).mpr (ih h.2)

theorem append {xs ys : List β} (hxs : Closed isLast xs) (hys : Closed isLast ys) :
    Closed isLast (xs ++ ys) := by
  by_cases hnil : ys = []
  · rw [hnil, List.append_nil]
    exact hxs
  · intro h
    rw [List.getLast_append_of_ne_nil h hnil]
    exact hys hnil

theorem flatMap {f : γ → List β} {xs : List γ} (h : ∀ x ∈ xs, Closed isLast (f x)) :
    Closed isLast (xs.flatMap f) := by
  induction xs with
  | nil => exact nil
  | cons x xs ih =>
    rw [List.flatMap_cons]
    exact append (h x (List.mem_cons_self ..)) (ih fun y hy => h y (List.mem_cons_of_mem x hy))

/-- All of them are packets. -/
theorem exists_packets {xs : List β} (h : Closed isLast xs) :
    ∃ ps : List (List β), (∀ p ∈ ps, IsPacket isLast p) ∧ ps.flatten = xs := by
  induction xs with
  | nil => exact ⟨[], by simp, rfl⟩
  | cons x xs ih =>
    obtain ⟨ps, hps, rfl⟩ := ih h.tail
    cases hx : isLast x with
    | true => exact ⟨[x] :: ps, List.forall_mem_cons.mpr ⟨hx, hps⟩, rfl⟩
    | false =>
      -- the word goes to the packet behind it
      cases ps with
      | nil => exact absurd rfl (h.ne_nil_of_cons hx)
      | cons p ps =>
        obtain ⟨hp, hps⟩ := List.forall_mem_cons.mp hps
        have hxp := (IsPacket.cons_iff hp.ne_nil x).mpr ⟨hx, hp⟩
        exact ⟨(x :: p) :: ps, List.forall_mem_cons.mpr ⟨hxp, hps⟩, rfl⟩

/-- The first packet of some words. -/
theorem exists_packet {xs : List β} (h : Closed isLast xs) (hne : xs ≠ []) :
    ∃ p rest, IsPacket isLast p ∧ Closed isLast rest ∧ xs = p ++ rest := by
  obtain ⟨ps, hps, rfl⟩ := h.exists_packets
  cases ps with
  | nil => exact absurd rfl hne
  | cons p ps =>
    obtain ⟨hp, hps⟩ := List.forall_mem_cons.mp hps
    refine ⟨p, ps.flatten, hp, ?_, rfl⟩
    rw [← List.flatMap_id]
    exact flatMap fun q hq => of_packet (hps q hq)

end Closed

/-- A packet at the front of some words is the same one, however they go on. -/
theorem IsPacket.append_inj {isLast : β → Bool} {p q xs ys : List β} (hp : IsPacket isLast p)
    (hq : IsPacket isLast q) (h : p ++ xs = q ++ ys) : p = q ∧ xs = ys := by
  induction p generalizing q with
  | nil => exact absurd rfl hp.ne_nil
  | cons x p ih =>
    obtain ⟨y, q, rfl⟩ := List.exists_cons_of_ne_nil hq.ne_nil
    obtain ⟨rfl, hrest⟩ := List.cons.inj h
    cases p with
    | nil =>
      cases q with
      | nil => exact ⟨rfl, hrest⟩
      | cons z q =>
        have hx : isLast x = true := hp
        rw [hq.1] at hx
        cases hx
    | cons z p =>
      cases q with
      | nil =>
        have hx : isLast x = true := hq
        rw [hp.1] at hx
        cases hx
      | cons w q =>
        obtain ⟨hpq, hxs⟩ := ih hp.2 hq.2 hrest
        exact ⟨congrArg (x :: ·) hpq, hxs⟩

/-- Words are cut into packets in one way. -/
theorem IsPacket.flatten_inj {isLast : β → Bool} {ps qs : List (List β)}
    (hps : ∀ p ∈ ps, IsPacket isLast p) (hqs : ∀ q ∈ qs, IsPacket isLast q)
    (h : ps.flatten = qs.flatten) : ps = qs := by
  induction ps generalizing qs with
  | nil =>
    cases qs with
    | nil => rfl
    | cons q qs =>
      have hq := (hqs q (List.mem_cons_self ..)).ne_nil
      exact absurd (List.append_eq_nil_iff.mp h.symm).1 hq
  | cons p ps ih =>
    obtain ⟨hp, hps⟩ := List.forall_mem_cons.mp hps
    cases qs with
    | nil => exact absurd (List.append_eq_nil_iff.mp h).1 hp.ne_nil
    | cons q qs =>
      obtain ⟨hq, hqs⟩ := List.forall_mem_cons.mp hqs
      obtain ⟨hpq, hrest⟩ := hp.append_inj hq h
      rw [hpq, ih hps hqs hrest]

/-- Whole packets at the front of some words are packets of theirs. -/
theorem Closed.exists_prefix {isLast : β → Bool} {f : γ → List β} {xs : List γ} {ys : List β}
    (hf : ∀ x ∈ xs, f x = [] ∨ IsPacket isLast (f x)) (hys : Closed isLast ys)
    (hpre : ys <+: xs.flatMap f) : ∃ zs, zs <+: xs ∧ ys = zs.flatMap f := by
  induction xs generalizing ys with
  | nil => exact ⟨[], List.nil_prefix, List.prefix_nil.mp hpre⟩
  | cons x xs ih =>
    obtain ⟨hx, hxs⟩ := List.forall_mem_cons.mp hf
    rw [List.flatMap_cons] at hpre
    rcases hx with hnil | hpacket
    · rw [hnil, List.nil_append] at hpre
      obtain ⟨zs, hzs, rfl⟩ := ih hxs hys hpre
      exact ⟨x :: zs, List.cons_prefix_cons.mpr ⟨rfl, hzs⟩, by simp [hnil]⟩
    · by_cases hne : ys = []
      · exact ⟨[], List.nil_prefix, hne⟩
      · obtain ⟨p, rest, hp, hrest, rfl⟩ := hys.exists_packet hne
        obtain ⟨more, hmore⟩ := hpre
        rw [List.append_assoc] at hmore
        obtain ⟨rfl, hbehind⟩ := hp.append_inj hpacket hmore
        obtain ⟨zs, hzs, rfl⟩ := ih hxs hrest ⟨more, hbehind⟩
        exact ⟨x :: zs, List.cons_prefix_cons.mpr ⟨rfl, hzs⟩, rfl⟩

/-! ## Orders -/

section Orders

variable [DecidableEq κ]

/-- The words of the packets of one stream. -/
def streamOf (u : κ) (order : List (κ × List β)) : List β :=
  (order.filter fun p => p.1 = u).flatMap Prod.snd

@[simp] theorem streamOf_nil (u : κ) : streamOf u ([] : List (κ × List β)) = [] := rfl

@[simp] theorem streamOf_cons_self (u : κ) (q : List β) (order : List (κ × List β)) :
    streamOf u ((u, q) :: order) = q ++ streamOf u order := by
  simp [streamOf]

theorem streamOf_cons_of_ne {u w : κ} (h : u ≠ w) (q : List β) (order : List (κ × List β)) :
    streamOf u ((w, q) :: order) = streamOf u order := by
  simp [streamOf, Ne.symm h]

theorem streamOf_append (u : κ) (order more : List (κ × List β)) :
    streamOf u (order ++ more) = streamOf u order ++ streamOf u more := by
  simp [streamOf]

/-- `order` are packets, each of a stream, and those of each stream are the ones to come. -/
structure Ordered (isLast : β → Bool) (outs : κ → List β) (order : List (κ × List β)) :
    Prop where
  packets : ∀ p ∈ order, IsPacket isLast p.2
  streams : ∀ u, streamOf u order = outs u

/-- The words of an order. -/
def merged (order : List (κ × List β)) : List β := order.flatMap Prod.snd

/-- The first packet is of `g`. -/
def StartsWith (g : κ) (order : List (κ × List β)) : Prop := ∃ q rest, order = (g, q) :: rest

end Orders

namespace Ordered

variable [DecidableEq κ] {isLast : β → Bool} {outs outs' : κ → List β} {g : κ} {x : β}
  {order : List (κ × List β)}

/-- With nothing to come, there is nothing to order. -/
theorem merged_nil (h : Ordered isLast outs order) (hempty : ∀ u, outs u = []) :
    merged order = [] := by
  cases order with
  | nil => rfl
  | cons p order =>
    have hstream := h.streams p.1
    rw [hempty, streamOf_cons_self] at hstream
    have hp := (h.packets p (List.mem_cons_self ..)).ne_nil
    exact absurd (List.append_eq_nil_iff.mp hstream).1 hp

/-- The front of an order is the front of its first stream. -/
theorem head_merged (h : Ordered isLast outs order) (hg : StartsWith g order) :
    (merged order).head? = (outs g).head? := by
  obtain ⟨q, rest, rfl⟩ := hg
  have hq := (h.packets _ (List.mem_cons_self ..)).ne_nil
  rw [← h.streams g, streamOf_cons_self, merged, List.flatMap_cons,
    List.head?_append_of_ne_nil _ hq, List.head?_append_of_ne_nil _ hq]

/-- A packet of one word in front. -/
theorem cons_last (h : Ordered isLast outs' order) (hx : isLast x = true)
    (hg : outs g = x :: outs' g) (hothers : ∀ u ≠ g, outs u = outs' u) :
    Ordered isLast outs ((g, [x]) :: order) where
  packets := List.forall_mem_cons.mpr ⟨hx, h.packets⟩
  streams u := by
    by_cases hu : u = g
    · subst hu
      rw [streamOf_cons_self, h.streams, hg]
      rfl
    · rw [streamOf_cons_of_ne hu, h.streams, hothers u hu]

/-- A word in front of the first packet. -/
theorem cons_more {q : List β} {rest : List (κ × List β)}
    (h : Ordered isLast outs' ((g, q) :: rest)) (hx : isLast x = false)
    (hg : outs g = x :: outs' g) (hothers : ∀ u ≠ g, outs u = outs' u) :
    Ordered isLast outs ((g, x :: q) :: rest) where
  packets := by
    obtain ⟨hq, hrest⟩ := List.forall_mem_cons.mp h.packets
    exact List.forall_mem_cons.mpr ⟨(IsPacket.cons_iff hq.ne_nil x).mpr ⟨hx, hq⟩, hrest⟩
  streams u := by
    have hstream := h.streams u
    by_cases hu : u = g
    · subst hu
      rw [streamOf_cons_self] at hstream ⊢
      rw [hg, ← hstream]
      rfl
    · rw [streamOf_cons_of_ne hu] at hstream ⊢
      rw [hstream, hothers u hu]

/-- The packets of some streams, one stream behind the other. -/
theorem streamOf_streams (f : κ → List (List β)) {us : List κ} (hus : us.Nodup) (u : κ) :
    streamOf u (us.flatMap fun w => (f w).map (w, ·)) =
      if u ∈ us then (f u).flatten else [] := by
  have hone : ∀ w (qs : List (List β)),
      streamOf u (qs.map (w, ·)) = if u = w then qs.flatten else [] := by
    intro w qs
    induction qs with
    | nil => simp
    | cons q qs ih =>
      rw [List.map_cons]
      by_cases hu : u = w
      · rw [if_pos hu] at ih ⊢
        subst hu
        rw [streamOf_cons_self, ih]
        rfl
      · rw [if_neg hu] at ih ⊢
        rw [streamOf_cons_of_ne hu, ih]
  induction us with
  | nil => rfl
  | cons w us ih =>
    obtain ⟨hw, hus⟩ := List.nodup_cons.mp hus
    rw [List.flatMap_cons, streamOf_append, hone, ih hus]
    by_cases hu : u = w
    · subst hu
      simp [hw]
    · simp [hu]

/-- Streams of whole packets have an order, and it may begin with any stream that is not
empty. -/
theorem exists_of_closed {n : Nat} {outs : Fin (n + 1) → List β}
    (h : ∀ u, Closed isLast (outs u)) (g : Fin (n + 1)) :
    ∃ order, Ordered isLast outs order ∧ (outs g ≠ [] → StartsWith g order) := by
  choose f hpackets hflatten using fun u => (h u).exists_packets
  have hnodup : (g :: (List.finRange (n + 1)).filter (· ≠ g)).Nodup :=
    List.nodup_cons.mpr ⟨by simp, (List.nodup_finRange _).filter _⟩
  refine ⟨_, ⟨?_, fun u => (streamOf_streams f hnodup u).trans ?_⟩, fun hne => ?_⟩
  · intro p hp
    obtain ⟨u, -, hp⟩ := List.mem_flatMap.mp hp
    obtain ⟨q, hq, rfl⟩ := List.mem_map.mp hp
    exact hpackets u q hq
  · rw [if_pos (by by_cases hu : u = g <;> simp [hu]), hflatten]
  · rw [← hflatten g] at hne
    have hf : f g ≠ [] := fun hnil => hne (by rw [hnil]; rfl)
    obtain ⟨q, qs, hqs⟩ := List.exists_cons_of_ne_nil hf
    rw [List.flatMap_cons, hqs]
    exact ⟨q, _, rfl⟩

/-- When the streams are packets of some things, so is an order of them. -/
theorem exists_items {f : γ → List β} {key : γ → κ} {xs : κ → List γ}
    (hkey : ∀ u, ∀ x ∈ xs u, key x = u) (hf : ∀ u, ∀ x ∈ xs u, IsPacket isLast (f x))
    (h : Ordered isLast (fun u => (xs u).flatMap f) order) :
    ∃ zs : List γ, merged order = zs.flatMap f ∧ ∀ u, (zs.filter fun z => key z = u) = xs u := by
  induction order generalizing xs with
  | nil =>
    refine ⟨[], rfl, fun u => ?_⟩
    cases hxs : xs u with
    | nil => rfl
    | cons x rest =>
      have hstream := h.streams u
      rw [hxs, List.flatMap_cons] at hstream
      have hx := (hf u x (by rw [hxs]; exact List.mem_cons_self ..)).ne_nil
      exact absurd (List.append_eq_nil_iff.mp hstream.symm).1 hx
  | cons p order ih =>
    obtain ⟨w, q⟩ := p
    obtain ⟨hq, horder⟩ := List.forall_mem_cons.mp h.packets
    have hstream := h.streams w
    rw [streamOf_cons_self] at hstream
    cases hxs : xs w with
    | nil =>
      rw [hxs] at hstream
      exact absurd (List.append_eq_nil_iff.mp hstream).1 hq.ne_nil
    | cons x rest =>
      have hmem : x ∈ xs w := by
        rw [hxs]
        exact List.mem_cons_self ..
      rw [hxs, List.flatMap_cons] at hstream
      obtain ⟨rfl, hbehind⟩ := hq.append_inj (hf w x hmem) hstream
      have hsub : ∀ u, ∀ y ∈ Function.update xs w rest u, y ∈ xs u := by
        intro u y hy
        by_cases hu : u = w
        · subst hu
          rw [Function.update_self] at hy
          rw [hxs]
          exact List.mem_cons_of_mem x hy
        · rwa [Function.update_of_ne hu] at hy
      obtain ⟨zs, hzs, hfilter⟩ := @ih (Function.update xs w rest)
        (fun u y hy => hkey u y (hsub u y hy)) (fun u y hy => hf u y (hsub u y hy))
        ⟨horder, fun u => by
          by_cases hu : u = w
          · subst hu
            rw [Function.update_self]
            exact hbehind
          · rw [Function.update_of_ne hu, ← streamOf_cons_of_ne hu (f x) order]
            exact h.streams u⟩
      refine ⟨x :: zs, by rw [List.flatMap_cons, ← hzs]; rfl, fun u => ?_⟩
      rw [List.filter_cons, hfilter u]
      by_cases hu : u = w
      · subst hu
        rw [Function.update_self, hxs, if_pos (decide_eq_true (hkey u x hmem))]
      · rw [Function.update_of_ne hu, if_neg]
        rw [hkey w x hmem]
        simpa using Ne.symm hu

end Ordered

/-! ## Merging stages -/

/-- The streams behind a cycle in which the first word of `g` is taken, or none. -/
def takenFrom [DecidableEq κ] (outs : κ → List β) (g : κ) (fire : Bool) : κ → List β :=
  fun u => if u = g ∧ fire = true then (outs u).tail else outs u

/-- A stage whose source is a merge of streams.  The packet on the source is of the stream
`grant`, and while it is `begun` so is the next one.  The bound decreases as that of a
`Simulation` does. -/
structure Merging (n : Nat) (isLast : β → Bool) (M : Stage ε α β) where
  rel : M.State → Chan α → (Fin (n + 1) → List β) → Bool → Nat → Prop
  grant : M.State → Fin (n + 1)
  begun : M.State → Bool
  done : ∀ {s c outs h}, rel s c outs h 0 → c.rest = [] ∧ ∀ u, outs u = []
  closed : ∀ {s c outs h k}, rel s c outs h k → ∀ u, Closed isLast (outs u)
  rest_of_begun : ∀ {s c outs h k}, rel s c outs h k → begun s = true → outs (grant s) ≠ []
  offers : ∀ {s c outs h k v x}, rel s c outs h k → c.Offers v x →
    (⟨outs (grant s), h⟩ : Chan β).Offers (M.sourceValid s v x) (M.source s x)
  hold : ∀ {s c outs h k v x} (e : ε) (ready : Bool), rel s c outs h k → c.Offers v x →
    (⟨M.sourceValid s v x, isLast (M.source s x), ready⟩ : PortStatus).request (begun s) =
      true →
    grant (M.next s e v x ready) = grant s ∧ begun (M.next s e v x ready) = true
  step : ∀ {s c outs h k v x} (e : ε) (ready : Bool), rel s c outs h k → c.Offers v x →
    ∃ k', rel (M.next s e v x ready) (c.next v (M.sinkReady s e v x ready))
        (takenFrom outs (grant s) (M.sourceValid s v x && ready))
        (M.sourceValid s v x && !ready) k' ∧ k' ≤ k ∧
      (k' < k ∨ k = 0 ∨ c.Starved v ∨ (M.sourceValid s v x = true ∧ ready = false) ∨
        M.waits s e v x = true)

/-- Two stages in a row move together.  When neither does, the first one waits for the
second one only if that one has work, and the second one for the first one likewise. -/
theorem Simulation.moves_comp {c : Chan α} {m : Chan β} {v offer ready waits waits' : Bool}
    {stalled : Prop} {j j' l l' : Nat} (hj : j' ≤ j) (hl : l' ≤ l)
    (hmoveA : j' < j ∨ j = 0 ∨ c.Starved v ∨ (offer = true ∧ ready = false) ∨ waits = true)
    (hmoveB : l' < l ∨ l = 0 ∨ m.Starved offer ∨ stalled ∨ waits' = true)
    (hA : j = 0 → m.rest = []) (hB : l = 0 → offer = false) :
    j' + l' < j + l ∨ j + l = 0 ∨ c.Starved v ∨ stalled ∨ (waits || waits') = true := by
  rw [Bool.or_eq_true]
  rcases hmoveB with hlt | hzero | ⟨hrest, hidle⟩ | hstalled | hslow
  · exact Or.inl (by omega)
  · rcases moves_of_idle hmoveA (hB hzero) with hnone | hlt | hstarved | hslow
    · exact Or.inr (Or.inl (by omega))
    · exact Or.inl (by omega)
    · exact Or.inr (Or.inr (Or.inl hstarved))
    · exact Or.inr (Or.inr (Or.inr (Or.inr (Or.inl hslow))))
  · rcases moves_of_idle hmoveA hidle with hnone | hlt | hstarved | hslow
    · exact absurd (hA hnone) hrest
    · exact Or.inl (by omega)
    · exact Or.inr (Or.inr (Or.inl hstarved))
    · exact Or.inr (Or.inr (Or.inr (Or.inr (Or.inl hslow))))
  · exact Or.inr (Or.inr (Or.inr (Or.inl hstalled)))
  · exact Or.inr (Or.inr (Or.inr (Or.inr (Or.inr hslow))))

/-- A stage in front of a merging one. -/
def Simulation.merge {n : Nat} {isLast : γ → Bool} {M : Stage ε α β} {N : Stage ε β γ}
    (A : Simulation M) (B : Merging n isLast N) : Merging n isLast (M.comp N) where
  rel s c outs h k := ∃ m j l, A.rel s.1 c m j ∧ B.rel s.2 m outs h l ∧ k = j + l
  grant s := B.grant s.2
  begun s := B.begun s.2
  done := by
    rintro s c outs h ⟨m, j, l, hA, hB, hk⟩
    obtain ⟨rfl, rfl⟩ := Nat.add_eq_zero_iff.mp hk.symm
    exact ⟨(A.done hA).1, (B.done hB).2⟩
  closed := by
    rintro s c outs h k ⟨m, j, l, -, hB, -⟩
    exact B.closed hB
  rest_of_begun := by
    rintro s c outs h k ⟨m, j, l, -, hB, -⟩
    exact B.rest_of_begun hB
  offers := by
    rintro s c outs h k v x ⟨m, j, l, hA, hB, -⟩ hv
    exact B.offers hB (A.offers hA hv)
  hold := by
    rintro s c outs h k v x e ready ⟨m, j, l, hA, hB, -⟩ hv
    exact B.hold e ready hB (A.offers hA hv)
  step := by
    rintro s c outs h k v x e ready ⟨m, j, l, hA, hB, rfl⟩ hv
    have hm := A.offers hA hv
    obtain ⟨l', hB', hl, hmoveB⟩ := B.step e ready hB hm
    obtain ⟨j', hA', hj, hmoveA⟩ :=
      A.step e (N.sinkReady s.2 e (M.sourceValid s.1 v x) (M.source s.1 x) ready) hA hv
    refine ⟨j' + l', ⟨_, j', l', hA', hB', rfl⟩, Nat.add_le_add hj hl, ?_⟩
    have hidle : l = 0 → M.sourceValid s.1 v x = false := by
      rintro rfl
      rw [← Bool.not_eq_true]
      intro hoffer
      have hfront := hm.front hoffer
      rw [(B.done hB).1] at hfront
      cases hfront
    exact Simulation.moves_comp hj hl hmoveA hmoveB
      (fun hzero => by subst hzero; exact (A.done hA).2) hidle

namespace Merging

variable {n : Nat} {isLast : β → Bool} {M : Stage ε α β} {N : Stage ε β γ}

/-- An order of what comes behind a cycle goes on one of what there was: the word of the cycle
is in front of it. -/
theorem exists_ordered_next (A : Merging n isLast M) {s : M.State} {c : Chan α}
    {outs : Fin (n + 1) → List β} {h : Bool} {k : Nat} {v : Bool} {x : α} (e : ε) (ready : Bool)
    (hrel : A.rel s c outs h k) (hv : c.Offers v x) {order : List (Fin (n + 1) × List β)}
    (horder : Ordered isLast
      (takenFrom outs (A.grant s) (M.sourceValid s v x && ready)) order)
    (hbegun : A.begun (M.next s e v x ready) = true →
      StartsWith (A.grant (M.next s e v x ready)) order) :
    ∃ order', Ordered isLast outs order' ∧
      (A.begun s = true → StartsWith (A.grant s) order') ∧
      (⟨merged order', h⟩ : Chan β).next (M.sourceValid s v x) ready =
        ⟨merged order, M.sourceValid s v x && !ready⟩ ∧
      (⟨merged order', h⟩ : Chan β).Offers (M.sourceValid s v x) (M.source s x) := by
  have hoffers := A.offers hrel hv
  have hhold := A.hold e ready hrel hv
  generalize hvalid : M.sourceValid s v x = valid at horder hoffers hhold ⊢
  generalize hsource : M.source s x = y at hoffers hhold ⊢
  have hsame : ∀ {order'}, Ordered isLast outs order' →
      (valid = true → StartsWith (A.grant s) order') →
      (⟨merged order', h⟩ : Chan β).Offers valid y := fun horder' hstarts =>
    ⟨hoffers.kept, fun hval => (horder'.head_merged (hstarts hval)).trans (hoffers.front hval)⟩
  cases hfire : valid && ready with
  | false =>
    -- nothing is taken, so that the order stays
    have houts : takenFrom outs (A.grant s) false = outs := by
      funext u
      simp [takenFrom]
    rw [hfire, houts] at horder
    have hgoes : (valid || A.begun s) = true → StartsWith (A.grant s) order := by
      intro hgoes
      obtain ⟨hgrant, hbegun'⟩ := hhold (by
        simp only [PortStatus.request, PortStatus.ends, Bool.and_right_comm, hfire]
        simpa using hgoes)
      exact hgrant ▸ hbegun hbegun'
    refine ⟨order, horder, fun hs => hgoes (by simp [hs]), ?_, hsame horder fun hval =>
      hgoes (by simp [hval])⟩
    simp [Chan.next, hfire]
  | true =>
    obtain ⟨hval, hready⟩ := Bool.and_eq_true_iff.mp hfire
    have hrest : outs (A.grant s) = y :: (outs (A.grant s)).tail := by
      rw [hval] at hoffers
      exact hoffers.rest_eq
    have hg : outs (A.grant s) = y :: takenFrom outs (A.grant s) true (A.grant s) := by
      simpa [takenFrom] using hrest
    have hothers : ∀ u ≠ A.grant s, outs u = takenFrom outs (A.grant s) true u := fun u hu => by
      simp [takenFrom, hu]
    rw [hfire] at horder
    subst hval hready
    cases hlast : isLast y with
    | true =>
      have horder' := horder.cons_last hlast hg hothers
      have hstarts : StartsWith (A.grant s) ((A.grant s, [y]) :: order) := ⟨_, _, rfl⟩
      exact ⟨_, horder', fun _ => hstarts, rfl, hsame horder' fun _ => hstarts⟩
    | false =>
      obtain ⟨hgrant, hbegun'⟩ := hhold (by
        simp [PortStatus.request, PortStatus.ends, hlast])
      obtain ⟨q, rest, rfl⟩ := hgrant ▸ hbegun hbegun'
      have horder' := horder.cons_more hlast hg hothers
      have hstarts : StartsWith (A.grant s) ((A.grant s, y :: q) :: rest) := ⟨_, _, rfl⟩
      exact ⟨_, horder', fun _ => hstarts, rfl, hsame horder' fun _ => hstarts⟩

variable [Inhabited α]

open Stage

/-- **A merge and the stage behind it.**  For every run there is an order of the streams,
packet by packet, such that the stage behind treats the words in this order as a stream:
what was given out and is still to go is what it makes of them, it offers them one after the
other, and the free cycles are bounded as long as there is something to do. -/
theorem run (A : Merging n isLast M) (B : Simulation N) {s : M.State} {t : N.State} {c : Chan α}
    {outs : Fin (n + 1) → List β} {h : Bool} {k : Nat} (hrel : A.rel s c outs h k)
    (hheld : c.held = true → c.rest ≠ []) (is : List (Drive ε)) :
    ∃ order, Ordered isLast outs order ∧ (A.begun s = true → StartsWith (A.grant s) order) ∧
      ∀ {d l}, B.rel t ⟨merged order, h⟩ d l →
        ∃ outs' h' k' m d' l',
          A.rel ((M.comp N).driven.run ((s, t), c) is).1.1
            ((M.comp N).driven.run ((s, t), c) is).2 outs' h' k' ∧
          B.rel ((M.comp N).driven.run ((s, t), c) is).1.2 m d' l' ∧
          moved given ((M.comp N).driven.trace ((s, t), c) is) ++ d'.rest = d.rest ∧
          d.Follows (((M.comp N).driven.trace ((s, t), c) is).map handshake) ∧
          (k' + l' = 0 ∨
            ((M.comp N).driven.trace ((s, t), c) is).countP free + (k' + l') ≤ k + l) := by
  induction is generalizing s t c outs h k with
  | nil =>
    obtain ⟨order, horder, hstarts⟩ := Ordered.exists_of_closed (A.closed hrel) (A.grant s)
    exact ⟨order, horder, fun hbegun => hstarts (A.rest_of_begun hrel hbegun), fun hB =>
      ⟨outs, h, k, _, _, _, hrel, hB, rfl, trivial, Or.inr (by simp)⟩⟩
  | cons i is ih =>
    have hv := Simulation.offers_driven hheld i.offer
    obtain ⟨k₁, hrel₁, hk, hmoveA⟩ := A.step i.env (N.sinkReady t i.env
      (M.sourceValid s (offered c i.offer) (front c)) (M.source s (front c)) i.ready) hrel hv
    obtain ⟨order₁, horder₁, hstarts₁, hrun⟩ :=
      ih (t := N.next t i.env (M.sourceValid s (offered c i.offer) (front c))
        (M.source s (front c)) i.ready) hrel₁ hv.rest_ne_nil
    obtain ⟨order, horder, hstarts, hmerged, hm⟩ :=
      A.exists_ordered_next i.env _ hrel hv horder₁ hstarts₁
    refine ⟨order, horder, hstarts, fun {d l} hB => ?_⟩
    have hd := B.offers hB hm
    obtain ⟨l₁, hB₁, hl, hmoveB⟩ := B.step i.env i.ready hB hm
    have hmove := Simulation.moves_comp hk hl hmoveA hmoveB
      (fun hzero => by subst hzero; exact horder.merged_nil (A.done hrel).2)
      (fun hzero => by
        subst hzero
        rw [← Bool.not_eq_true]
        intro hoffer
        have hfront := hm.front hoffer
        rw [(B.done hB).1] at hfront
        cases hfront)
    rw [hmerged] at hB₁
    obtain ⟨outs', h', k', m', d', l', hA', hB', hgiven, hfollows, hcount⟩ := hrun hB₁
    refine ⟨outs', h', k', m', d', l', hA', hB', ?_, ⟨hd, hfollows⟩, ?_⟩
    · rw [Machine.trace_cons, moved_cons, List.append_assoc]
      exact (congrArg _ hgiven).trans (hd.rest_next _)
    · rw [Machine.trace_cons, countP_cons_toNat]
      have hfree := Simulation.free_bound (M := M.comp N) (s := (s, t)) (by omega) hmove
      change k' + l' = 0 ∨ ((M.comp N).driven.trace ((M.comp N).driven.next ((s, t), c) i) is).countP
        free + (k' + l') ≤ k₁ + l₁ at hcount
      omega

end Merging

end UsbSniffer.Sync
