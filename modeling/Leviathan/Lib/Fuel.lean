/-!
# Computations with fuel

A function that the source writes as an unbounded recursion is modelled with a number of rounds
and returns nothing when they do not suffice.  `Settles p a` says that `p` returns `a` whenever
it is given enough, which is what the unbounded function returns.
-/

namespace Leviathan

/-- With enough fuel the computation returns `a`. -/
def Settles {α : Type} (p : Nat → Option α) (a : α) : Prop := ∃ N, ∀ n, N ≤ n → p n = some a

namespace Settles

variable {α β : Type} {p : Nat → Option α} {a : α}

theorem of_forall (h : ∀ n, p n = some a) : Settles p a := ⟨0, fun n _ => h n⟩

theorem pure (a : α) : Settles (fun _ => some a) a := of_forall fun _ => rfl

theorem bind {f : Nat → α → Option β} {b : β} (hp : Settles p a)
    (hf : Settles (fun n => f n a) b) : Settles (fun n => p n >>= f n) b := by
  obtain ⟨N, hN⟩ := hp
  obtain ⟨M, hM⟩ := hf
  refine ⟨max N M, fun n hn => ?_⟩
  have hpn : p n = some a := hN n (Nat.le_trans (Nat.le_max_left N M) hn)
  have hfn : f n a = some b := hM n (Nat.le_trans (Nat.le_max_right N M) hn)
  show p n >>= f n = some b
  rw [hpn]
  exact hfn

/-- Some rounds more than its body. -/
theorem shift (k : Nat) {q : Nat → Option α} (hq : Settles q a) (h : ∀ n, p (n + k) = q n) :
    Settles p a := by
  obtain ⟨N, hN⟩ := hq
  refine ⟨N + k, fun n hn => ?_⟩
  have hle : N ≤ n - k := Nat.le_sub_of_add_le hn
  have hsplit : n - k + k = n := Nat.sub_add_cancel (Nat.le_trans (Nat.le_add_left k N) hn)
  rw [← hsplit, h (n - k)]
  exact hN (n - k) hle

/-- A round more than its body. -/
theorem succ {q : Nat → Option α} (hq : Settles q a) (h : ∀ n, p (n + 1) = q n) :
    Settles p a := shift 1 hq h

theorem unique {b : α} (ha : Settles p a) (hb : Settles p b) : a = b := by
  obtain ⟨N, hN⟩ := ha
  obtain ⟨M, hM⟩ := hb
  have h : some a = some b := by
    rw [← hN (max N M) (Nat.le_max_left N M), hM (max N M) (Nat.le_max_right N M)]
  cases h
  rfl

end Settles

end Leviathan
