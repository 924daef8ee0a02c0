import Mathlib.Data.List.Basic

/-!
# A reader of messages

A `Reader` goes through phases and in each of them takes the next message, if it takes one at all, for something of one
kind.  `r.Follows p l` says that a reader in the phase `p` takes every message of `l` that it comes to for what it is.

The messages of a channel are kept whole: `sent` is what has been written to it and `got` what the reader has taken of it,
so that `sent.drop got.length` is what it has still to read.
-/

namespace NetProg.Lib

/-- What is read in a phase, what a message is, and the phase behind a message: `none` where the reader is gone. -/
structure Reader (P M K : Type) where
  expects : P → Option K
  kind : M → K
  next : P → M → Option P

variable {P M K : Type} {r : Reader P M K} {p p' : P} {k : K} {m : M} {l l' : List M}

namespace Reader

/-- The reader takes each message for what it is, as far as it reads them. -/
def Follows (r : Reader P M K) : P → List M → Prop
  | _, [] => True
  | p, m :: l => ∀ k, r.expects p = some k → r.kind m = k ∧ ∀ p', r.next p m = some p' → Follows r p' l

@[simp] theorem follows_nil : r.Follows p [] := trivial

/-- Nothing is read in such a phase. -/
theorem follows_of_expects (h : r.expects p = none) : r.Follows p l := by
  cases l with
  | nil => exact follows_nil
  | cons m l =>
    intro k hk
    rw [h] at hk
    cases hk

theorem Follows.kind_eq (h : r.Follows p (m :: l)) (hk : r.expects p = some k) : r.kind m = k := (h k hk).1

theorem Follows.tail (h : r.Follows p (m :: l)) (hk : r.expects p = some k) (hp : r.next p m = some p') :
    r.Follows p' l := (h k hk).2 p' hp

/-- What follows may be left away. -/
theorem Follows.left : ∀ {l : List M} {p : P}, r.Follows p (l ++ l') → r.Follows p l
  | [], _, _ => follows_nil
  | _ :: _, _, h => fun k hk => ⟨(h k hk).1, fun p' hp => ((h k hk).2 p' hp).left⟩

end Reader

/-! ### What has been read of a channel -/

section Channel

variable {sent got : List M}

/-- The next message has been taken for what it is. -/
theorem prefix_snoc (h : got <+: sent) (hm : sent.drop got.length = m :: l) :
    got ++ [m] <+: sent ∧ sent.drop (got ++ [m]).length = l := by
  obtain ⟨l', rfl⟩ := h
  rw [List.drop_left] at hm
  subst hm
  have hassoc : got ++ m :: l = got ++ [m] ++ l := by simp
  rw [hassoc, List.drop_left]
  exact ⟨List.prefix_append _ _, rfl⟩

/-- What is sent comes behind what there is to read. -/
theorem drop_append_of_prefix (h : got <+: sent) : (sent ++ l).drop got.length = sent.drop got.length ++ l :=
  List.drop_append_of_le_length h.length_le

end Channel

end NetProg.Lib
