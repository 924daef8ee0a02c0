import NetProg.DataServer.Commands

/-!
# Blocks on a data server

`stored` is what `tobigfs` leaves of a block under a new name, and `printfile_run` runs `cat` on the string of one
request.  The bytes that `printfile` writes of a block are strings that are not empty, which make up the block, and an
empty one behind them; of an empty block it writes nothing (`printed_eq`).
-/

namespace NetProg.DataServer

open NetProg.Lib NetProg.Receive

/-! ### Storing a block -/

/-- The path of the file that stands for `name`, and of the block `i` of it. -/
def location (name : CStr) : CStr := (lit "data/").cat name

def path (name : CStr) (i : ℕ) : CStr := (location name).cat (decimal i)

theorem path_ne_location (name : CStr) (i : ℕ) : path name i ≠ location name := by
  intro h
  exact decBytes_ne_nil i (by simpa [path, CStr.cat, decimal] using congrArg CStr.bytes h)

theorem path_injective (name : CStr) : Function.Injective (path name) := by
  intro i j h
  have := congrArg CStr.bytes h
  simp only [path, CStr.cat, List.append_cancel_left_eq] at this
  exact decBytes_injective this

/-- What `tobigfs` leaves of the block `i`, and of the file that stands for `name`. -/
def stored (s : Store) (name : CStr) (i : ℕ) (block : List Byte) : Store :=
  (s.put (location name) []).put (path name i) block

section Stored

variable {s : Store} {name : CStr} {i j : ℕ} {block : List Byte}

@[simp] theorem get_stored : (stored s name i block).get (path name i) = some block := by
  simp [stored, Store.put, Store.get]

theorem get_stored_of_ne (h : j ≠ i) : (stored s name i block).get (path name j) = s.get (path name j) := by
  have hp : path name j ≠ path name i := fun e => h (path_injective name e)
  simp [stored, Store.put, Store.get, List.lookup_cons, beq_eq_false_iff_ne.2 hp,
    beq_eq_false_iff_ne.2 (path_ne_location name j)]

end Stored

/-! ### Sending a block -/

/-- What the loop of `printfile` writes. -/
def printed : ℕ → List Byte → List Byte
  | 0, _ => []
  | fuel + 1, rest =>
    if rest = [] then []
    else if rest.length ≤ BLOCKSIZE / 1000 then rest ++ [0, 0] ++ printed fuel (rest.drop (BLOCKSIZE / 1000))
    else rest.take (BLOCKSIZE / 1000) ++ [0] ++ printed fuel (rest.drop (BLOCKSIZE / 1000))

theorem printLoop_run {k : Op} {ins : List CStr} (fuel : ℕ) (rest : List Byte) :
    (printLoop fuel rest k).run ins = (printed fuel rest ++ (k.run ins).1, (k.run ins).2) := by
  induction fuel generalizing rest with
  | zero => rfl
  | succ fuel ih =>
    unfold printLoop printed
    split_ifs
    · rfl
    · simp [ih]
    · simp [ih]

/-- The answer to the request for a block. -/
def answer (block : List Byte) : List Byte := printed block.length block

theorem printfile_answer {s : Store} {data_loc : CStr} {block : List Byte} (h : s.get data_loc = some block)
    (hl : block.length ≤ BLOCKSIZE) : (printfile s).run [data_loc] = (answer block, .ret s, []) := by
  simp only [printfile, Proc.run_read, h, List.take_of_length_le hl, printLoop_run, Proc.run_ret, List.append_nil, answer]

theorem printfile_run {s : Store} {data_loc : CStr} {block : List Byte} (h : s.get data_loc = some block)
    (hl : block.length ≤ BLOCKSIZE) : (dispatch s (lit "cat")).run [data_loc] = (answer block, .ret s, []) := by
  have hc : lit "cat" ≠ lit "tobigfs" := by decide
  rw [dispatch, if_neg hc, if_pos rfl]
  exact printfile_answer h hl

@[simp] theorem answer_nil : answer [] = [] := rfl

/-- A block that is not empty is sent as strings that are not empty, with an empty one behind them. -/
theorem printed_eq {fuel : ℕ} {rest : List Byte} (h : rest.length ≤ fuel) (h0 : (0 : Byte) ∉ rest) (hne : rest ≠ []) :
    ∃ pieces : List CStr, (∀ s ∈ pieces, s ≠ lit "") ∧ pieces.flatMap CStr.bytes = rest ∧
      printed fuel rest = pieces.flatMap CStr.z ++ (lit "").z := by
  induction fuel generalizing rest with
  | zero => exact absurd (List.length_eq_zero_iff.1 (Nat.le_zero.1 h)) hne
  | succ fuel ih =>
    have hpos := List.length_pos_iff.2 hne
    have hP : 0 < BLOCKSIZE / 1000 := by decide
    unfold printed
    rw [if_neg hne]
    split
    · next hl =>
      refine ⟨[⟨rest, h0⟩], by simpa [eq_empty_iff] using hne, by simp, ?_⟩
      have hd : rest.drop (BLOCKSIZE / 1000) = [] := List.drop_eq_nil_of_le hl
      have hp : printed fuel [] = [] := by cases fuel <;> rfl
      simp [hd, hp, CStr.z, eq_empty_iff.1 (Eq.refl (lit ""))]
    · next hl =>
      have hlen : (rest.drop (BLOCKSIZE / 1000)).length = rest.length - BLOCKSIZE / 1000 := List.length_drop
      have hle : (rest.drop (BLOCKSIZE / 1000)).length ≤ fuel := by omega
      obtain ⟨pieces, hp, hb, he⟩ := ih hle (fun h => h0 (List.mem_of_mem_drop h))
        (List.length_pos_iff.1 (by omega))
      refine ⟨⟨rest.take (BLOCKSIZE / 1000), fun h => h0 (List.mem_of_mem_take h)⟩ :: pieces, ?_, ?_, ?_⟩
      · rintro s (_ | ⟨_, hs⟩)
        · rw [Ne, eq_empty_iff, List.take_eq_nil_iff]
          rintro (h | h)
          · exact hP.ne' h
          · exact hne h
        · exact hp s hs
      · rw [List.flatMap_cons, hb, List.take_append_drop]
      · simp [he, CStr.z]

end NetProg.DataServer
