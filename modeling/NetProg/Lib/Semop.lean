import Mathlib.Logic.Function.Basic
import Mathlib.Data.Int.Order.Basic

/-!
# Operations on a set of semaphores

`semop` carries out a list of operations on a set of semaphores: all of them, or, where one of them would have to wait,
none.
-/

namespace NetProg.Lib

variable {κ : Type} [DecidableEq κ]

/-- One operation; `nowait` is the flag `IPC_NOWAIT`. -/
structure Sembuf (κ : Type) where
  sem_num : κ
  sem_op : ℤ
  nowait : Bool

/-- What comes of a list of operations. -/
inductive Semop (κ : Type) where
  | done (v : κ → ℕ)
  /-- the call waits -/
  | wait
  /-- the call fails with `EAGAIN` -/
  | again

/-- An operation that cannot be carried out. -/
def Sembuf.blocked (o : Sembuf κ) : Semop κ := if o.nowait then .again else .wait

/-- 0 waits until the semaphore is 0; anything else is added, and the semaphore is never negative. -/
def semop : List (Sembuf κ) → (κ → ℕ) → Semop κ
  | [], v => .done v
  | o :: ops, v =>
    if o.sem_op = 0 then
      if v o.sem_num = 0 then semop ops v else o.blocked
    else if 0 ≤ v o.sem_num + o.sem_op then
      semop ops (Function.update v o.sem_num (v o.sem_num + o.sem_op).toNat)
    else o.blocked

variable {v : κ → ℕ} {k : κ} {b : Bool} {ops : List (Sembuf κ)}

theorem semop_test : semop (⟨k, 0, b⟩ :: ops) v = if v k = 0 then semop ops v else (⟨k, 0, b⟩ : Sembuf κ).blocked := by
  rw [semop, if_pos rfl]

theorem semop_up : semop (⟨k, 1, b⟩ :: ops) v = semop ops (Function.update v k (v k + 1)) := by
  rw [semop, if_neg (show (1 : ℤ) ≠ 0 by decide), if_pos (by dsimp only; omega)]
  rfl

theorem semop_down : semop (⟨k, -1, b⟩ :: ops) v =
    if 0 < v k then semop ops (Function.update v k (v k - 1)) else (⟨k, -1, b⟩ : Sembuf κ).blocked := by
  rw [semop, if_neg (show (-1 : ℤ) ≠ 0 by decide)]
  by_cases h : 0 < v k
  · rw [if_pos (by dsimp only; omega), if_pos h]
    congr 2
    dsimp only
    omega
  · rw [if_neg (by dsimp only; omega), if_neg h]

end NetProg.Lib
