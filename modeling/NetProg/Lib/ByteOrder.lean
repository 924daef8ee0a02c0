import Mathlib.Tactic.Ring
import NetProg.Lib.CString

/-!
# Numbers in memory

A little-endian host loads `littleEndian l` from the bytes `l`; in network byte order they are `bigEndian l`.  `ntohs` turns
one into the other for numbers of two bytes (`ntohs_of_length_two`).  Of a longer number it keeps the two bytes in front, so
that only zero comes out right of four bytes (`ntohs_eq_iff_of_length_four`).
-/

namespace NetProg.Lib

/-- What a little-endian host loads. -/
def littleEndian : List Byte → ℕ
  | [] => 0
  | b :: l => b.toNat + 256 * littleEndian l

/-- The number in network byte order. -/
def bigEndian (l : List Byte) : ℕ := l.foldl (fun n b => 256 * n + b.toNat) 0

/-- `ntohs` on a little-endian host; the argument is cut to sixteen bits. -/
def ntohs (n : ℕ) : ℕ := 256 * (n % 256) + n / 256 % 256

/-- The `width` bytes from `offset` on. -/
def slice (l : List Byte) (offset width : ℕ) : List Byte := (l.drop offset).take width

variable {l m : List Byte} {n offset width : ℕ}

theorem bigEndian_append (l m : List Byte) : bigEndian (l ++ m) = 256 ^ m.length * bigEndian l + bigEndian m := by
  have hgen : ∀ (m : List Byte) (n : ℕ), m.foldl (fun n b => 256 * n + b.toNat) n = 256 ^ m.length * n + bigEndian m := by
    intro m
    induction m with
    | nil => intro n; simp [bigEndian]
    | cons b m ih =>
      intro n
      rw [bigEndian, List.foldl_cons, List.foldl_cons, ih, ih, List.length_cons]
      ring
  show (l ++ m).foldl (fun n b => 256 * n + b.toNat) 0 = _
  rw [List.foldl_append, hgen]
  rfl

/-- `ntohs` takes the two bytes in front. -/
theorem ntohs_littleEndian (h : 2 ≤ l.length) : ntohs (littleEndian l) = bigEndian (l.take 2) := by
  obtain ⟨a, l, rfl⟩ := List.exists_cons_of_length_pos (show 0 < l.length by omega)
  rw [List.length_cons] at h
  obtain ⟨b, l, rfl⟩ := List.exists_cons_of_length_pos (show 0 < l.length by omega)
  have ha := a.toNat_lt
  have hb := b.toNat_lt
  show 256 * ((a.toNat + 256 * (b.toNat + 256 * littleEndian l)) % 256) +
    (a.toNat + 256 * (b.toNat + 256 * littleEndian l)) / 256 % 256 = 256 * (256 * 0 + a.toNat) + b.toNat
  omega

theorem ntohs_of_length_two (h : l.length = 2) : ntohs (littleEndian l) = bigEndian l := by
  rw [ntohs_littleEndian (by omega), List.take_of_length_le (by omega)]

theorem ntohs_eq_iff_of_length_four (h : l.length = 4) : ntohs (littleEndian l) = bigEndian l ↔ bigEndian l = 0 := by
  have hsplit : bigEndian l = 256 ^ (l.drop 2).length * bigEndian (l.take 2) + bigEndian (l.drop 2) := by
    rw [← bigEndian_append, List.take_append_drop]
  rw [List.length_drop, h] at hsplit
  rw [ntohs_littleEndian (by omega)]
  omega

theorem littleEndian_singleton (b : Byte) : littleEndian [b] = bigEndian [b] := by
  show b.toNat + 256 * 0 = 256 * 0 + b.toNat
  omega

/-! ### Slices -/

theorem length_slice (h : offset + width ≤ l.length) : (slice l offset width).length = width := by
  rw [slice, List.length_take, List.length_drop]
  omega

/-- Bytes behind a slice do not change it. -/
theorem slice_append (h : offset + width ≤ l.length) : slice (l ++ m) offset width = slice l offset width := by
  rw [slice, slice, List.drop_append_of_le_length (by omega), List.take_append_of_le_length]
  rw [List.length_drop]
  omega

/-- A slice of the front is one of the whole. -/
theorem slice_take (h : offset + width ≤ n) : slice (l.take n) offset width = slice l offset width := by
  rw [slice, slice, List.drop_take, List.take_take, min_eq_left (by omega)]

/-- A slice of one byte. -/
theorem slice_one (h : offset < l.length) : slice l offset 1 = [l[offset]] := by
  rw [slice, List.drop_eq_getElem_cons h]
  rfl

/-- The second half of a slice. -/
theorem slice_add (l : List Byte) (offset k width : ℕ) : slice l offset (k + width) = slice l offset k ++ slice l (offset + k) width := by
  rw [slice, slice, slice, List.take_add, List.drop_drop]

end NetProg.Lib
