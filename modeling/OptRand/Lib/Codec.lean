import Mathlib.Algebra.Group.Nat.Defs
import Mathlib.Data.List.Basic
import Mathlib.Data.List.TakeWhile
import Mathlib.Data.Nat.Bits

/-!
# Writing and reading back

A reader takes what it needs from the front of a stream of tokens, or fails. `Reads r w a` says that
`r` reads `a` back from the text `w` whatever comes after it, and takes exactly `w`; `ReadsBefore c`
says so when the separator `c` comes next. The rules below follow the reader: one for each way in
which readers are put together.
-/

namespace OptRand.Lib

/-- A reader of tokens `β` that gives an `α`. -/
abbrev Reader (β α : Type) := StateT (List β) Option α

variable {β α γ ι : Type}

/-- `r` reads `a` back from `w`, whatever follows `w`, and takes no more than `w`. -/
def Reads (r : Reader β α) (w : List β) (a : α) : Prop :=
  ∀ rest, r.run (w ++ rest) = some (a, rest)

/-- `r` reads `a` back from `w` when `c` follows, and leaves `c`. -/
def ReadsBefore (c : β) (r : Reader β α) (w : List β) (a : α) : Prop :=
  ∀ rest, r.run (w ++ c :: rest) = some (a, c :: rest)

/-- How the values of a type are written, and how they are read. -/
structure Codec (β α : Type) where
  write : α → List β
  read : Reader β α

/-- Every value that is written is read back. -/
def Codec.RoundTrips (c : Codec β α) : Prop := ∀ a, Reads c.read (c.write a) a

/-- Every value that is written is read back when `sep` comes after it. -/
def Codec.RoundTripsBefore (sep : β) (c : Codec β α) : Prop :=
  ∀ a, ReadsBefore sep c.read (c.write a) a

/-! ## Readers -/

/-- The next token. -/
def next : Reader β β
  | [] => none
  | b :: rest => some (b, rest)

/-- The next `n` tokens. -/
def takeTokens (n : ℕ) : Reader β (List β) := fun s =>
  if n ≤ s.length then some (s.take n, s.drop n) else none

/-- `n` values, one after another. -/
def readMany (r : Reader β α) : ℕ → Reader β (List α)
  | 0 => return []
  | n + 1 => do
    let a ← r
    let as ← readMany r n
    return a :: as

/-- A value, and the token after it. -/
def terminated (r : Reader β α) : Reader β α := do
  let a ← r
  let _ ← next
  return a

/-! ## Rules -/

theorem run_bind_eq_some {r : Reader β α} {f : α → Reader β γ} {s t : List β} {b : γ} :
    (r >>= f).run s = some (b, t) ↔ ∃ a u, r.run s = some (a, u) ∧ (f a).run u = some (b, t) := by
  rw [StateT.run_bind]
  constructor
  · intro h
    obtain ⟨⟨a, u⟩, hr, hf⟩ := Option.bind_eq_some_iff.mp h
    exact ⟨a, u, hr, hf⟩
  · rintro ⟨a, u, hr, hf⟩
    exact Option.bind_eq_some_iff.mpr ⟨(a, u), hr, hf⟩

theorem Reads.pure (a : α) : Reads (Pure.pure a : Reader β α) [] a := fun _ => rfl

theorem Reads.bind {r : Reader β α} {f : α → Reader β γ} {w w' : List β} {a : α} {b : γ}
    (hr : Reads r w a) (hf : Reads (f a) w' b) : Reads (r >>= f) (w ++ w') b := by
  intro rest
  rw [StateT.run_bind, List.append_assoc, hr]
  exact hf rest

theorem Reads.map {r : Reader β α} {w : List β} {a : α} (hr : Reads r w a) (f : α → γ) :
    Reads (r >>= fun x => Pure.pure (f x)) w (f a) := by
  have hret : Reads (Pure.pure (f a) : Reader β γ) [] (f a) := Reads.pure (f a)
  rw [← List.append_nil w]
  exact hr.bind hret

/-- A step that takes nothing from the stream. -/
theorem Reads.lift {x : Option α} {a : α} (h : x = some a) :
    Reads (StateT.lift x : Reader β α) [] a := by
  subst h
  exact fun _ => rfl

/-- What is read back is determined by the text. -/
theorem Reads.unique {r : Reader β α} {w : List β} {a b : α} (ha : Reads r w a)
    (hb : Reads r w b) : a = b := by
  have h := (ha []).symm.trans (hb [])
  exact congrArg Prod.fst (Option.some.inj h)

theorem Reads.before {r : Reader β α} {w : List β} {a : α} (hr : Reads r w a) (c : β) :
    ReadsBefore c r w a :=
  fun rest => hr (c :: rest)

/-- A value and the separator after it. -/
theorem ReadsBefore.bind {r : Reader β α} {f : α → Reader β γ} {w w' : List β} {a : α} {b : γ}
    {c : β} (hr : ReadsBefore c r w a) (hf : Reads (f a) w' b) :
    Reads (r >>= fun x => next >>= fun _ => f x) (w ++ c :: w') b := by
  intro rest
  rw [StateT.run_bind, List.append_assoc, List.cons_append, hr]
  exact hf rest

theorem ReadsBefore.map {r : Reader β α} {w : List β} {a : α} {c : β} (hr : ReadsBefore c r w a)
    (f : α → γ) : ReadsBefore c (r >>= fun x => Pure.pure (f x)) w (f a) := by
  intro rest
  rw [StateT.run_bind, hr]
  rfl

theorem ReadsBefore.terminated {r : Reader β α} {w : List β} {a : α} {c : β}
    (hr : ReadsBefore c r w a) : Reads (terminated r) (w ++ [c]) a :=
  hr.bind (Reads.pure a)

theorem reads_takeTokens (w : List β) : Reads (takeTokens w.length) w w := by
  intro rest
  have hle : w.length ≤ (w ++ rest).length := by simp
  show (if w.length ≤ (w ++ rest).length then _ else none) = _
  rw [if_pos hle, List.take_left, List.drop_left]

theorem reads_readMany {r : Reader β α} {w : α → List β} {as : List α}
    (h : ∀ a ∈ as, Reads r (w a) a) : Reads (readMany r as.length) (as.flatMap w) as := by
  induction as with
  | nil => exact Reads.pure []
  | cons a as ih =>
    have htail := (ih fun x hx => h x (List.mem_cons_of_mem a hx)).map (List.cons a)
    rw [List.flatMap_cons]
    exact (h a List.mem_cons_self).bind htail

/-- Values of different kinds, one after another. -/
theorem reads_mapM {f : ι → Reader β α} {g : ι → α} {w : ι → List β} {is : List ι}
    (h : ∀ i ∈ is, Reads (f i) (w i) (g i)) : Reads (is.mapM f) (is.flatMap w) (is.map g) := by
  induction is with
  | nil => exact Reads.pure []
  | cons i is ih =>
    have htail := (ih fun j hj => h j (List.mem_cons_of_mem i hj)).map (List.cons (g i))
    rw [List.flatMap_cons, List.mapM_cons, List.map_cons]
    exact (h i List.mem_cons_self).bind htail

theorem run_lift_eq_some {x : Option α} {s t : List β} {a : α}
    (h : (StateT.lift x : Reader β α).run s = some (a, t)) : x = some a := by
  obtain ⟨b, hx, hret⟩ := Option.bind_eq_some_iff.mp h
  cases Option.some.inj hret
  exact hx

/-! ## Numbers in bytes -/

/-- The `k` lowest bytes of a number, the lowest first. -/
def bytesOf : ℕ → ℕ → List UInt8
  | 0, _ => []
  | k + 1, n => UInt8.ofNat n :: bytesOf k (n / 256)

/-- The number in the next `k` bytes. -/
def readBytes : ℕ → Reader UInt8 ℕ
  | 0 => return 0
  | k + 1 => do
    let b ← next
    let n ← readBytes k
    return b.toNat + 256 * n

theorem reads_readBytes {k n : ℕ} (hn : n < 256 ^ k) : Reads (readBytes k) (bytesOf k n) n := by
  induction k generalizing n with
  | zero =>
    have hzero : n = 0 := by simpa using hn
    subst hzero
    exact Reads.pure 0
  | succ k ih =>
    have hlt : n / 256 < 256 ^ k := by
      apply Nat.div_lt_of_lt_mul
      rwa [← Nat.pow_succ']
    intro rest
    have htail := ih hlt rest
    have hlow : (UInt8.ofNat n).toNat = n % 256 := UInt8.toNat_ofNat'
    show (readBytes k >>= fun m => Pure.pure ((UInt8.ofNat n).toNat + 256 * m)).run
      (bytesOf k (n / 256) ++ rest) = _
    rw [StateT.run_bind, htail, hlow]
    show some (n % 256 + 256 * (n / 256), rest) = _
    rw [Nat.mod_add_div]

/-! ## Decimal numbers -/

/-- White space between numbers. -/
def isSpace (c : Char) : Bool := c = ' ' || ('\t' ≤ c && c ≤ '\r')

/-- The number in the next decimal digits, after white space and a sign, if it is below `bound`. A
number with the sign `-` is counted down from `bound`. -/
def readDecimal (bound : ℕ) : Reader Char ℕ := fun s =>
  let s := s.dropWhile isSpace
  let minus := s.head? = some '-'
  let s := if minus ∨ s.head? = some '+' then s.tail else s
  let digits := s.takeWhile Char.isDigit
  let n := Nat.ofDigitChars 10 digits 0
  if digits = [] ∨ bound ≤ n then none
  else some (if minus then (bound - n) % bound else n, s.dropWhile Char.isDigit)

theorem ne_of_isDigit {c d : Char} (hc : c.isDigit = true) (hd : d.isDigit = false) : c ≠ d := by
  rintro rfl
  exact Bool.false_ne_true (hd.symm.trans hc)

theorem isSpace_of_isDigit {c : Char} (hc : c.isDigit = true) : isSpace c = false := by
  have hblank : c ≠ ' ' := ne_of_isDigit hc rfl
  have hlow : ¬ c ≤ '\r' := by
    intro hle
    have hzero : '0' ≤ c := by
      unfold Char.isDigit at hc
      simp only [Bool.and_eq_true, decide_eq_true_eq] at hc
      exact hc.1
    have hnot : ¬ '0' ≤ '\r' := by decide
    exact hnot (Char.le_trans hzero hle)
  simp [isSpace, hblank, hlow]

/-- What is written in decimal digits is read back when something else comes next. -/
theorem readsBefore_readDecimal {bound n : ℕ} {sep : Char} (hn : n < bound)
    (hsep : sep.isDigit = false) :
    ReadsBefore sep (readDecimal bound) (Nat.toDigits 10 n) n := by
  have hdigits : ∀ c ∈ Nat.toDigits 10 n, c.isDigit = true :=
    fun c hc => Nat.isDigit_of_mem_toDigits (by decide) (by decide) hc
  intro rest
  obtain ⟨d, ds, hds⟩ := List.exists_cons_of_ne_nil (Nat.toDigits_ne_nil (n := n) (b := 10))
  have hd : d.isDigit = true := hdigits d (hds ▸ List.mem_cons_self)
  have hspace : (Nat.toDigits 10 n ++ sep :: rest).dropWhile isSpace =
      Nat.toDigits 10 n ++ sep :: rest := by
    rw [hds, List.cons_append, List.dropWhile_cons_of_neg]
    rw [isSpace_of_isDigit hd]
    exact Bool.false_ne_true
  have hhead : (Nat.toDigits 10 n ++ sep :: rest).head? = some d := by
    rw [hds, List.cons_append, List.head?_cons]
  have hsign : ∀ c : Char, c.isDigit = false → some d ≠ some c :=
    fun c hc heq => ne_of_isDigit hd hc (Option.some.inj heq)
  have htake : (Nat.toDigits 10 n ++ sep :: rest).takeWhile Char.isDigit = Nat.toDigits 10 n := by
    rw [List.takeWhile_append_of_pos hdigits, List.takeWhile_cons_of_neg, List.append_nil]
    rw [hsep]
    exact Bool.false_ne_true
  have hdrop : (Nat.toDigits 10 n ++ sep :: rest).dropWhile Char.isDigit = sep :: rest := by
    rw [List.dropWhile_append_of_pos hdigits, List.dropWhile_cons_of_neg]
    rw [hsep]
    exact Bool.false_ne_true
  have hvalue : Nat.ofDigitChars 10 (Nat.toDigits 10 n) 0 = n :=
    Nat.ofDigitChars_toDigits (by decide) (by decide)
  have hok : ¬ (Nat.toDigits 10 n = [] ∨ bound ≤ n) :=
    not_or.mpr ⟨Nat.toDigits_ne_nil, not_le.mpr hn⟩
  show readDecimal bound (Nat.toDigits 10 n ++ sep :: rest) = _
  unfold readDecimal
  simp only [hspace, hhead, hsign '-' rfl, hsign '+' rfl, or_self, if_false, htake, hdrop, hvalue,
    if_neg hok]

end OptRand.Lib
