import Mathlib.Data.List.Basic
import Mathlib.Logic.Function.Basic

/-!
# Dealing out in turn

Item `i` goes to place `i % k`, in round `i / k`.  `dealt k f n i j` is what place `j` gets of the `n` items from `i` on,
`inTurn k f σ n` is what `σ` becomes where item `i` changes its place by `f i`, and `block B l i` is the `i`-th piece of a
list that is cut into pieces of size `B`.
-/

namespace NetProg.Lib

section Turns

variable {k i : ℕ}

/-- The next place. -/
theorem next_turn : (i % k + 1) % k = (i + 1) % k := by rw [Nat.mod_add_mod]

/-- A round ends at the last place. -/
theorem next_round (hk : 0 < k) : (if i % k + 1 = k then i / k + 1 else i / k) = (i + 1) / k := by
  have hd : i % k + 1 = k ↔ k ∣ i + 1 := by
    constructor
    · intro h
      rw [Nat.dvd_iff_mod_eq_zero, ← next_turn, h, Nat.mod_self]
    · intro h
      rw [Nat.dvd_iff_mod_eq_zero, ← next_turn] at h
      have hlt : i % k < k := Nat.mod_lt i hk
      by_contra hne
      rw [Nat.mod_eq_of_lt (by omega)] at h
      omega
  rw [Nat.succ_div]
  simp only [hd]
  split <;> rfl

/-- The first round takes each place once. -/
theorem turn_of_round (hk : 0 < k) (h : i / k = 0) : i % k = i := by
  rw [Nat.div_eq_zero_iff] at h
  exact Nat.mod_eq_of_lt (by omega)

end Turns

section Dealt

variable {α : Type}

/-- What place `j` gets of the items `f i`, …, `f (i + n - 1)`. -/
def dealt (k : ℕ) (f : ℕ → List α) : ℕ → ℕ → ℕ → List α
  | 0, _, _ => []
  | n + 1, i, j => if j = i % k then f i ++ dealt k f n (i + 1) j else dealt k f n (i + 1) j

variable {k : ℕ} {f : ℕ → List α} {n i : ℕ}

@[simp] theorem dealt_zero : dealt k f 0 i = fun _ => [] := rfl

theorem dealt_succ :
    dealt k f (n + 1) i = fun j => Function.update (fun _ => []) (i % k) (f i) j ++ dealt k f n (i + 1) j := by
  funext j
  by_cases hj : j = i % k
  · subst hj
    simp [dealt]
  · simp [dealt, hj]

theorem dealt_congr {g : ℕ → List α} (h : ∀ m, i ≤ m → m < i + n → f m = g m) : dealt k f n i = dealt k g n i := by
  induction n generalizing i with
  | zero => rfl
  | succ n ih =>
    rw [dealt_succ, dealt_succ, h i (Nat.le_refl i) (by omega), ih fun m hm hlt => h m (by omega) (by omega)]

theorem map_dealt {β : Type} {g : α → β} {j : ℕ} : (dealt k f n i j).map g = dealt k (fun m => (f m).map g) n i j := by
  induction n generalizing i with
  | zero => rfl
  | succ n ih =>
    rw [dealt, dealt]
    split
    · rw [List.map_append, ih]
    · exact ih

theorem dealt_append {m j : ℕ} : dealt k f (n + m) i j = dealt k f n i j ++ dealt k f m (i + n) j := by
  induction n generalizing i with
  | zero => simp
  | succ n ih =>
    rw [Nat.succ_add, dealt, dealt, ih, show i + 1 + n = i + (n + 1) by omega]
    split <;> simp

/-- Every item is dealt out to its place. -/
theorem mem_dealt {a : α} {m : ℕ} (hi : i ≤ m) (hm : m < i + n) (ha : a ∈ f m) : a ∈ dealt k f n i (m % k) := by
  induction n generalizing i with
  | zero => omega
  | succ n ih =>
    rw [dealt]
    rcases Nat.eq_or_lt_of_le hi with rfl | hlt
    · rw [if_pos rfl]
      exact List.mem_append_left _ ha
    · have h := ih hlt (by omega)
      split
      · exact List.mem_append_right _ h
      · exact h

/-- Nothing is dealt out of items that are empty. -/
theorem dealt_of_nil (h : ∀ m, i ≤ m → f m = []) : dealt k f n i = fun _ => [] := by
  induction n generalizing i with
  | zero => rfl
  | succ n ih =>
    rw [dealt_succ, h i (Nat.le_refl i), ih fun m hm => h m (Nat.le_of_succ_le hm)]
    simp

end Dealt

section InTurn

variable {α β : Type}

/-- The places once the first `n` items have changed theirs. -/
def inTurn (k : ℕ) (f : ℕ → α → α) (σ : ℕ → α) : ℕ → ℕ → α
  | 0 => σ
  | n + 1 => Function.update (inTurn k f σ n) (n % k) (f n (inTurn k f σ n (n % k)))

variable {k n i j : ℕ} {f : ℕ → α → α} {σ : ℕ → α}

theorem inTurn_succ_self : inTurn k f σ (n + 1) (n % k) = f n (inTurn k f σ n (n % k)) := by simp [inTurn]

theorem inTurn_succ_of_ne (h : n % k ≠ j) : inTurn k f σ (n + 1) j = inTurn k f σ n j := by
  rw [inTurn, Function.update_of_ne (Ne.symm h)]

/-- **What the later items keep of a place**, it has after the first `m` of them. -/
theorem inTurn_congr {g : α → β} {m : ℕ} (hm : m ≤ n) (h : ∀ i < n, m ≤ i → i % k = j → ∀ a, g (f i a) = g a) :
    g (inTurn k f σ n j) = g (inTurn k f σ m j) := by
  induction hm with
  | refl => rfl
  | @step n hn ih =>
    by_cases hj : n % k = j
    · have hg := h n (Nat.lt_succ_self n) hn hj
      rw [← hj, inTurn_succ_self, hg, hj]
      exact ih fun i hi => h i (Nat.lt_succ_of_lt hi)
    · rw [inTurn_succ_of_ne hj]
      exact ih fun i hi => h i (Nat.lt_succ_of_lt hi)

/-- What all items keep of a place, it has from the beginning. -/
theorem inTurn_eq {g : α → β} (h : ∀ i < n, i % k = j → ∀ a, g (f i a) = g a) :
    g (inTurn k f σ n j) = g (σ j) :=
  inTurn_congr (m := 0) (Nat.zero_le n) fun i hi _ => h i hi

/-- What every item keeps of its place. -/
theorem inTurn_inv {Q : α → Prop} (h : Q (σ j)) (hkeep : ∀ i a, Q a → Q (f i a)) : Q (inTurn k f σ n j) := by
  induction n with
  | zero => exact h
  | succ n ih =>
    by_cases hn : n % k = j
    · rw [← hn, inTurn_succ_self, hn]
      exact hkeep n _ ih
    · rwa [inTurn_succ_of_ne hn]

/-- What an item sets up at its place and the later ones keep. -/
theorem inTurn_keeps {Q : α → Prop} {m : ℕ} (hm : m < n) (hj : m % k = j) (hset : ∀ a, Q (f m a))
    (hkeep : ∀ i a, Q a → Q (f i a)) : Q (inTurn k f σ n j) := by
  induction n with
  | zero => omega
  | succ n ih =>
    by_cases hn : n % k = j
    · rw [← hn, inTurn_succ_self]
      rcases Nat.lt_succ_iff_lt_or_eq.1 hm with hlt | rfl
      · rw [hn]
        exact hkeep n _ (ih hlt)
      · exact hset _
    · rw [inTurn_succ_of_ne hn]
      apply ih
      have hne : m ≠ n := by
        rintro rfl
        exact hn hj
      omega

/-- In the first round, a place is as it was until it has its turn. -/
theorem inTurn_of_le (h : n ≤ j) (hj : j < k) : inTurn k f σ n j = σ j := by
  refine inTurn_eq (g := id) fun i hi hij => ?_
  have hlt : i < k := by omega
  rw [Nat.mod_eq_of_lt hlt] at hij
  omega

end InTurn

section Blocks

variable {α : Type}

/-- The `i`-th piece of size `B`. -/
def block (B : ℕ) (l : List α) (i : ℕ) : List α := (l.drop (i * B)).take B

variable {B : ℕ} {l : List α} {i : ℕ}

theorem length_block_le : (block B l i).length ≤ B := List.length_take_le B _

theorem mem_of_mem_block {a : α} (h : a ∈ block B l i) : a ∈ l := List.mem_of_mem_drop (List.mem_of_mem_take h)

/-- The pieces make up the list. -/
theorem take_append_block : l.take (i * B) ++ block B l i = l.take ((i + 1) * B) := by
  rw [block, ← List.take_add, Nat.succ_mul]

theorem take_append_blocks {n : ℕ} :
    l.take (i * B) ++ (List.range' i n).flatMap (block B l) = l.take ((i + n) * B) := by
  induction n generalizing i with
  | zero => simp
  | succ n ih =>
    rw [List.range'_succ, List.flatMap_cons, ← List.append_assoc, take_append_block, ih,
      show i + 1 + n = i + (n + 1) by omega]

theorem block_eq_nil_iff (hB : 0 < B) : block B l i = [] ↔ l.length ≤ i * B := by
  simp [block, Nat.pos_iff_ne_zero.1 hB]

end Blocks

end NetProg.Lib
