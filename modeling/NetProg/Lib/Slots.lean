import Mathlib.Data.List.Basic

/-!
# Tables of a fixed size

`store` and `load` are the accesses to a table, with an error for a place outside of it.  A table that is filled from
the front holds a list as a prefix: `fill` puts it there, `prefix_store` puts one more value behind it,
`prefix_store_of_le` writes past it, and `load_of_prefix` reads it.
-/

namespace NetProg.Lib.Slots

variable {α ε : Type} {k i : ℕ} {e : ε} {table table' : Vector α k} {l : List α} {x : α}

/-- `table[i] = x`. -/
def store (e : ε) (table : Vector α k) (i : ℕ) (x : α) : Except ε (Vector α k) :=
  if h : i < k then .ok (table.set i x h) else .error e

/-- `table[i]`. -/
def load (e : ε) (table : Vector α k) (i : ℕ) : Except ε α :=
  if h : i < k then .ok (table.get ⟨i, h⟩) else .error e

/-- The values of a list from the front on; those without a place are left out. -/
def fill (table : Vector α k) (l : List α) : Vector α k :=
  ⟨((l ++ table.toList.drop l.length).take k).toArray, by
    rw [List.size_toArray, List.length_take, List.length_append, List.length_drop, Vector.length_toList]
    omega⟩

theorem store_of_lt (h : i < k) : store e table i x = .ok (table.set i x h) := dif_pos h

theorem store_eq_ok : store e table i x = .ok table' ↔ ∃ h : i < k, table' = table.set i x h := by
  unfold store
  split
  · next h => simp [h, eq_comm]
  · next h => simp [h]

theorem length_le_of_prefix (h : l <+: table.toList) : l.length ≤ k := by simpa using h.length_le

theorem prefix_fill (h : l.length ≤ k) : l <+: (fill table l).toList := by
  show l <+: (l ++ table.toList.drop l.length).take k
  rw [List.take_append, List.take_of_length_le h]
  exact List.prefix_append _ _

theorem prefix_store (h : l <+: table.toList) (hs : store e table l.length x = .ok table') :
    l ++ [x] <+: table'.toList := by
  obtain ⟨hk, rfl⟩ := store_eq_ok.1 hs
  obtain ⟨r, hr⟩ := h
  have hlen : l.length + r.length = k := by simpa using congrArg List.length hr
  obtain ⟨y, r, rfl⟩ := List.exists_cons_of_length_pos (show 0 < r.length by omega)
  refine ⟨r, ?_⟩
  rw [Vector.toList_set, ← hr, List.set_append_right _ _ (Nat.le_refl _)]
  simp

theorem prefix_store_of_le (h : l <+: table.toList) (hi : l.length ≤ i) (hs : store e table i x = .ok table') :
    l <+: table'.toList := by
  obtain ⟨hk, rfl⟩ := store_eq_ok.1 hs
  obtain ⟨r, hr⟩ := h
  rw [Vector.toList_set, ← hr, List.set_append_right _ _ hi]
  exact List.prefix_append _ _

theorem load_of_prefix (h : l <+: table.toList) (hi : i < l.length) : load e table i = .ok l[i] := by
  have hk := length_le_of_prefix h
  rw [load, dif_pos (by omega), h.getElem hi]
  rfl

end NetProg.Lib.Slots
