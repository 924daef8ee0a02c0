import NetProg.Lib.CString
import Mathlib.Algebra.Order.Ring.Int

/-!
# `sprintf("%d")` and `atoi`

`decimal n` is what `sprintf(s, "%d", n)` leaves in `s`; `strtol` skips white space, takes one sign and reads digits
up to the first other byte, and `atoi` cuts its value down to an `int`.  `atoi` reads an `int` back (`atoi_decimal`).
-/

namespace NetProg.Lib

/-- The decimal digits of `n`; the first argument bounds their number. -/
def digits : ℕ → ℕ → List Byte
  | 0, _ => []
  | fuel + 1, n => if n < 10 then [(48 + n).toUInt8] else digits fuel (n / 10) ++ [(48 + n % 10).toUInt8]

/-- `sprintf("%d")` of a number that is not negative. -/
def decBytes (n : ℕ) : List Byte := digits (n + 1) n

/-- `isdigit`. -/
def isDigit (b : Byte) : Bool := 48 ≤ b.toNat && b.toNat ≤ 57

/-- `isspace`. -/
def isSpace (b : Byte) : Bool := b.toNat == 32 || (9 ≤ b.toNat && b.toNat ≤ 13)

/-- A word that `scanf("%s")` reads, with room for it in a field of `size` bytes. -/
structure Word (size : ℕ) where
  str : CStr
  nonempty : str.bytes ≠ []
  solid : ∀ b ∈ str.bytes, isSpace b = false
  short : str.bytes.length < size

/-- The value of the digits at the front, read after a prefix of value `acc`. -/
def readDigits : ℕ → List Byte → ℕ
  | acc, [] => acc
  | acc, b :: l => if isDigit b then readDigits (acc * 10 + (b.toNat - 48)) l else acc

/-- The number that a string begins with. -/
def signed (s : CStr) : ℤ :=
  match s.bytes.dropWhile isSpace with
  | [] => 0
  | b :: l =>
    if b = 45 then -(readDigits 0 l : ℤ)
    else if b = 43 then readDigits 0 l
    else readDigits 0 (b :: l)

/-- `strtol`, into a `long` of 64 bits: what is too large or too small becomes the largest or the smallest. -/
def strtol (s : CStr) : ℤ := max (-2 ^ 63) (min (signed s) (2 ^ 63 - 1))

/-- `atoi`: `strtol`, converted to an `int` of 32 bits. -/
def atoi (s : CStr) : ℤ := (strtol s).bmod (2 ^ 32)

lemma toNat_digit {n : ℕ} (h : n < 10) : ((48 + n).toUInt8).toNat = 48 + n := by
  simp only [Nat.toUInt8, UInt8.toNat_ofNat']
  omega

lemma isDigit_digit {n : ℕ} (h : n < 10) : isDigit (48 + n).toUInt8 = true := by
  simp only [isDigit, toNat_digit h]
  simp; omega

theorem isDigit_of_mem_digits : ∀ {fuel n : ℕ} {b : Byte}, b ∈ digits fuel n → isDigit b = true
  | fuel + 1, n, b, h => by
    unfold digits at h
    split at h
    · next hn =>
      rw [List.mem_singleton] at h
      exact h ▸ isDigit_digit hn
    · rcases List.mem_append.1 h with h | h
      · exact isDigit_of_mem_digits h
      · rw [List.mem_singleton] at h
        exact h ▸ isDigit_digit (Nat.mod_lt _ (by omega))

theorem decBytes_nul_free (n : ℕ) : (0 : Byte) ∉ decBytes n := by
  intro h
  have := isDigit_of_mem_digits h
  simp [isDigit] at this

theorem decBytes_ne_nil (n : ℕ) : decBytes n ≠ [] := by
  unfold decBytes digits
  split <;> simp

/-- `sprintf("%d")`. -/
def decimal : ℤ → CStr
  | .ofNat n => ⟨decBytes n, decBytes_nul_free n⟩
  | .negSucc n => ⟨45 :: decBytes (n + 1), by simp [decBytes_nul_free]⟩

/-- A string of digits and nothing else. -/
theorem readDigits_append : ∀ (l m : List Byte) (acc : ℕ), (∀ b ∈ l, isDigit b = true) →
    readDigits acc (l ++ m) = readDigits (readDigits acc l) m
  | [], _, _, _ => rfl
  | b :: l, m, acc, h => by
    have hb := h b (by simp)
    simp only [List.cons_append, readDigits, hb, if_true]
    exact readDigits_append l m _ fun c hc => h c (List.mem_cons_of_mem _ hc)

theorem readDigits_digits : ∀ {fuel n : ℕ}, n < fuel → readDigits 0 (digits fuel n) = n
  | fuel + 1, n, h => by
    unfold digits
    split
    · next hn =>
      simp only [readDigits, isDigit_digit hn, toNat_digit hn, if_true]
      omega
    · next hn =>
      have hm : n % 10 < 10 := Nat.mod_lt _ (by omega)
      rw [readDigits_append _ _ _ fun b hb => isDigit_of_mem_digits hb,
        readDigits_digits (show n / 10 < fuel by omega)]
      simp only [readDigits, isDigit_digit hm, toNat_digit hm, if_true]
      omega

theorem isSpace_of_isDigit {b : Byte} (h : isDigit b = true) : isSpace b = false := by
  simp only [isDigit, Bool.and_eq_true, decide_eq_true_eq] at h
  simp only [isSpace, Bool.or_eq_false_iff, Bool.and_eq_false_iff, beq_eq_false_iff_ne, decide_eq_false_iff_not]
  omega

theorem signed_decimal (n : ℕ) : signed (decimal n) = n := by
  have hd : ∀ b ∈ decBytes n, isDigit b = true := fun b hb => isDigit_of_mem_digits hb
  have hv : readDigits 0 (decBytes n) = n := readDigits_digits (Nat.lt_succ_self n)
  show signed ⟨decBytes n, decBytes_nul_free n⟩ = n
  unfold signed
  obtain ⟨b, l, e⟩ := List.exists_cons_of_ne_nil (decBytes_ne_nil n)
  have hb := hd b (by simp [e])
  have hs : isSpace b = false := isSpace_of_isDigit hb
  have h45 : b ≠ 45 := by rintro rfl; simp [isDigit] at hb
  have h43 : b ≠ 43 := by rintro rfl; simp [isDigit] at hb
  rw [e] at hv
  simp only [e, List.dropWhile_cons, hs, Bool.false_eq_true, if_false, h45, h43, hv]

/-- **`atoi` reads back the `int` that `sprintf` wrote.** -/
theorem atoi_decimal {n : ℕ} (hn : n < 2 ^ 31) : atoi (decimal n) = n := by
  have hclamp : strtol (decimal n) = n := by
    rw [strtol, signed_decimal]
    omega
  rw [atoi, hclamp]
  exact Int.bmod_eq_of_le (by omega) (by omega)

/-- As many digits as the number has. -/
theorem length_digits_le : ∀ {fuel n d : ℕ}, n < fuel → 0 < d → ((digits fuel n).length ≤ d ↔ n < 10 ^ d)
  | fuel + 1, n, d + 1, hn, _ => by
    unfold digits
    split
    · next h =>
      have : 10 ≤ 10 ^ (d + 1) := Nat.le_self_pow (Nat.succ_ne_zero d) 10
      simp
      omega
    · next h =>
      have hpos : digits fuel (n / 10) ≠ [] := by
        obtain ⟨m, rfl⟩ : ∃ m, fuel = m + 1 := ⟨fuel - 1, by omega⟩
        unfold digits
        split <;> simp
      have := List.length_pos_iff.2 hpos
      rw [List.length_append, List.length_singleton, Nat.succ_le_succ_iff]
      cases d with
      | zero =>
        rw [Nat.zero_add, Nat.pow_one]
        omega
      | succ d => rw [length_digits_le (by omega) (Nat.succ_pos d), Nat.div_lt_iff_lt_mul (by decide), ← Nat.pow_succ]

theorem length_decBytes_le {n d : ℕ} (hd : 0 < d) : (decBytes n).length ≤ d ↔ n < 10 ^ d :=
  length_digits_le (Nat.lt_succ_self n) hd

/-- Different counts print differently. -/
theorem decBytes_injective : Function.Injective decBytes := by
  intro m n h
  have hm : readDigits 0 (decBytes m) = m := readDigits_digits (Nat.lt_succ_self m)
  rw [← hm, h]
  exact readDigits_digits (Nat.lt_succ_self n)

end NetProg.Lib
