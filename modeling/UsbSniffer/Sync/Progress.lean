/-
  Sync/Progress.lean --- what a machine is bound to reach.

  A number that every step lowers until the goal is reached bounds the cycles that it can
  take.  The steps are those of a run in which the environment does its part.
-/
import UsbSniffer.Sync.Queue

set_option autoImplicit false

namespace UsbSniffer.Sync.Machine

variable {σ ι ω : Type} {M : Machine σ ι ω}

/-- **A rank that falls bounds the wait.**  From registers of rank `rank s` the goal is
reached within that many cycles. -/
theorem reaches {ok : σ → ι → Prop} {Inv goal : σ → Prop} (rank : σ → Nat)
    (hinv : ∀ s i, ok s i → Inv s → Inv (M.next s i))
    (hfalls : ∀ s i, ok s i → Inv s → ¬ goal s → rank (M.next s i) < rank s)
    {s : σ} (hs : Inv s) (is : List ι) (hok : M.AllSteps ok s is)
    (hlen : rank s < is.length) : ∃ n ≤ rank s, goal (M.run s (is.take n)) := by
  induction is generalizing s with
  | nil => exact absurd hlen (Nat.not_lt_zero _)
  | cons i is ih =>
    by_cases hgoal : goal s
    · exact ⟨0, Nat.zero_le _, hgoal⟩
    · have hlt := hfalls s i hok.1 hs hgoal
      rw [List.length_cons] at hlen
      obtain ⟨n, hn, hreached⟩ := ih (hinv s i hok.1 hs) hok.2 (by omega)
      exact ⟨n + 1, by omega, hreached⟩

/-- **A queue that is paid for is drained.**  `P s r` says that `r` words are to come out of
the registers `s`.  When every cycle that counts lowers their cost, or the words that come
out are all of them, they are out after as many cycles that count as they cost. -/
theorem drains {α : Type} {port : ι × ω → List α} {P : σ → Nat → Prop} (cost : σ → Nat → Nat)
    (counts : ι → Bool)
    (hstep : ∀ s i r, P s r → 0 < r →
      r ≤ (port (i, M.out s i)).length ∨
        (P (M.next s i) (r - (port (i, M.out s i)).length) ∧
          cost (M.next s i) (r - (port (i, M.out s i)).length) + (counts i).toNat ≤ cost s r))
    {s : σ} {r : Nat} (hs : P s r) (is : List ι) (hcount : cost s r < is.countP counts) :
    r ≤ (moved port (M.trace s is)).length := by
  induction is generalizing s r with
  | nil => exact absurd hcount (Nat.not_lt_zero _)
  | cons i is ih =>
    rw [trace_cons, moved_cons, List.length_append]
    rcases Nat.eq_zero_or_pos r with rfl | hr
    · exact Nat.zero_le _
    · rcases hstep s i r hs hr with hall | ⟨hs', hcost⟩
      · omega
      · rw [countP_cons_toNat] at hcount
        have hrest := ih hs' (by omega)
        omega

/-- A condition on the inputs alone. -/
theorem allSteps_of_mem {P : ι → Prop} (s : σ) {is : List ι} (h : ∀ i ∈ is, P i) :
    M.AllSteps (fun _ i => P i) s is := by
  induction is generalizing s with
  | nil => exact trivial
  | cons i is ih =>
    exact ⟨h i List.mem_cons_self, ih (M.next s i) fun j hj => h j (List.mem_cons_of_mem i hj)⟩

end UsbSniffer.Sync.Machine
