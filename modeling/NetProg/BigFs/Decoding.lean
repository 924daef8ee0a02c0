import NetProg.BigFs.Files
import NetProg.BigFs.Transfer
import NetProg.Lib.Tally

/-!
# The commands that the data servers decode

A file goes to the data servers between strings, and the end of a block is marked as that of a string is.  A NUL in the
file ends the block, and what is behind it is read as a name, a number or a command.

* `decodes_intended`: every run of `transfertoBigFS` ends with each data server having read the commands that the client
  means it to (`intended`), the blocks apart, if what is read of the file is text;
* `owes_transfer`: the strings that the client writes to a server in any case, the NULs in the file among them;
* `decodes_iff`: so the commands are those that are meant for texts only, and then depend on the length only.
-/

namespace NetProg.BigFs

open NetProg.Lib NetProg.Client NetProg.Receive NetProg.DataServer

/-- A command, without the block of the file in it. -/
def header : List CStr → List CStr
  | choice :: block :: args => if choice = lit "tobigfs" then choice :: args else choice :: block :: args
  | cs => cs

/-- The directory that the client sends with part `i`: the name of the file, and then that of the location which the
first data server has reported. -/
def dirOf (σ : ℕ → Store) (name : CStr) (i : ℕ) : CStr := if i = 0 then name else baseName (newLoc σ name)

/-- What the client means to tell the data server `j` with a file of `len` bytes: command, file name, count and chunk
number of each of its parts. -/
def intended (k : ℕ) (σ : ℕ → Store) (name : CStr) (len j : ℕ) : List (List CStr) :=
  dealt k (fun i => [[lit "tobigfs", dirOf σ name i, decimal (i / k : ℕ), decimal i]]) (1 + len / BLOCKSIZE) 0 j

/-- The client begins to transfer a file, of which the name server waits for the number of parts and the location. -/
def transferring (c : Config) (t : ℕ) (q : CStr → CStr → NameServer.Mem) (σ : ℕ → Store) (file_name : CStr) : Conf where
  client := transfertoBigFS c t file_name
  name := .read () fun parts => .read () fun loc => .ret (q parts loc)
  store := σ
  reply := []
  answers _ := []
  typed := []
  printed := []

/-- Every transfer of the file ends with the commands `l` decoded, the blocks apart. -/
def Decodes (c : Config) (t : ℕ) (σ : ℕ → Store) (file_name : CStr) (l : ℕ → List (List CStr)) : Prop :=
  ∀ q : CStr → CStr → NameServer.Mem,
    AlwaysEnds (Star.tracedStep (S := bigfs c)) ⟨(transferring c t q σ file_name).state c, fun _ => []⟩
      fun x => ∀ j, (x.commands (.data j)).map header = l j

/-- The commands that one run has come to be told are those of every run. -/
theorem Hears.alwaysEnds_iff {c : Config} {f g : Conf} {l : ℕ → List (List CStr)} (h : Hears c f g l)
    (hend : Ended (Star.step (S := bigfs c)) (g.state c)) {Q : (ℕ → List (List CStr)) → Prop} :
    AlwaysEnds (Star.tracedStep (S := bigfs c)) ⟨f.state c, fun _ => []⟩ (fun x => Q fun j => x.commands (.data j)) ↔
      Q l := by
  obtain ⟨l', hr, hl⟩ := h fun _ => []
  have hl' : (fun j => l' (.data j)) = l := funext fun j => by rw [hl, List.nil_append]
  rw [Star.tracedStep_comm.alwaysEnds_iff hr (Star.ended_tracedStep.2 hend), hl']

section Text

variable {c : Config} {t : ℕ} {σ : ℕ → Store} {dir : CStr} {content : List Byte} {f : Conf}

/-- What the client tells a data server with part `i`. -/
def partCommand (k : ℕ) (hnul : (0 : Byte) ∉ content) (dir : CStr) (i : ℕ) : List CStr :=
  [lit "tobigfs", ⟨block BLOCKSIZE content i, fun h => hnul (mem_of_mem_block h)⟩, dir, decimal (i / k : ℕ), decimal i]

/-- The parts behind the first one are told. -/
theorem hears_parts (hk : 0 < c.no_of_dataservers) (hnul : (0 : Byte) ∉ content) {n i : ℕ} (hi0 : i ≠ 0)
    (hi : i + n ≤ 10 ^ 9)
    (hf : f.client =
      sendParts c t n i (i % c.no_of_dataservers) (i / c.no_of_dataservers) dir (content.drop (i * BLOCKSIZE)))
    (ha : f.answers = fun _ => []) : ∃ store, Hears c f { f with client := done t, store := store }
      (dealt c.no_of_dataservers (fun m => [partCommand c.no_of_dataservers hnul dir m]) n i) := by
  induction n generalizing i f with
  | zero =>
    have hc : f.client = done t := hf
    refine ⟨f.store, ?_⟩
    rw [← hc]
    exact Hears.refl
  | succ n ih =>
    have hlt : i < 10 ^ 9 := by omega
    have hpart := hears_part hlt (Nat.lt_of_le_of_lt (Nat.div_le_self i _) hlt)
      (fun h => hnul (mem_of_mem_block (B := BLOCKSIZE) h)) hf ha
    simp only [partSent, if_neg hi0, advance_eq hk, next_turn, next_round hk, List.drop_drop] at hpart
    rw [show i * BLOCKSIZE + BLOCKSIZE = (i + 1) * BLOCKSIZE from (Nat.succ_mul i BLOCKSIZE).symm] at hpart
    obtain ⟨store, hrest⟩ := ih (f := { f with client := _, store := _ }) (i := i + 1) (Nat.succ_ne_zero i) (by omega) rfl ha
    refine ⟨store, ?_⟩
    rw [dealt_succ]
    exact hpart.trans hrest

/-- What the client tells a data server with part `i` of a file that it transfers. -/
def transferCommand (k : ℕ) (hnul : (0 : Byte) ∉ content) (σ : ℕ → Store) (name : CStr) (i : ℕ) : List CStr :=
  partCommand k hnul (dirOf σ name i) i

/-- The first part has the name of the file, and the others have that of its location. -/
theorem dealt_transferCommand {k n : ℕ} {name : CStr} (hnul : (0 : Byte) ∉ content) :
    dealt k (fun m => [transferCommand k hnul σ name m]) (n + 1) 0 =
      fun j => (Function.update (fun _ => []) 0 [[lit "tobigfs", ⟨content.take BLOCKSIZE,
        fun h => hnul (List.mem_of_mem_take h)⟩, name, decimal (0 : ℕ), decimal (0 : ℕ)]] : ℕ → _) j ++
      dealt k (fun m => [partCommand k hnul (baseName (newLoc σ name)) m]) n 1 j := by
  have hrest : dealt k (fun m => [transferCommand k hnul σ name m]) n 1 =
      dealt k (fun m => [partCommand k hnul (baseName (newLoc σ name)) m]) n 1 :=
    dealt_congr fun m hm _ => by rw [transferCommand, dirOf, if_neg (by omega)]
  rw [dealt_succ, Nat.zero_mod, hrest]
  simp [transferCommand, partCommand, dirOf, block]

/-- **A transfer**: the data servers are told all parts, and nothing else. -/
theorem hears_transfer {q : CStr → CStr → NameServer.Mem} {file_name : CStr} (hk : 0 < c.no_of_dataservers)
    (hdisk : c.disk t file_name = some content) (hnul : (0 : Byte) ∉ readable c content)
    (hparts : partsOf content < 10 ^ 9) :
    ∃ name store, Hears c (transferring c t q σ file_name)
      { transferring c t q σ file_name with client := done t, name := .ret name, store := store }
      (dealt c.no_of_dataservers (fun m => [transferCommand c.no_of_dataservers hnul σ (baseName file_name) m])
        (partsOf content) 0) := by
  -- the number of parts
  let f₁ : Conf := { transferring c t q σ file_name with
    client := sendParts c t (partsOf content) 0 0 0 (baseName file_name) (readable c content)
    name := .read () fun loc => .ret (q (decimal (partsOf content)) loc) }
  have hsend : Star.Sends (bigfs c) .name (transferring c t q σ file_name).client (decimal (partsOf content)).z
      f₁.client := by
    show Star.Sends (bigfs c) .name (transfertoBigFS c t file_name) _ _
    rw [transfertoBigFS_baseName hdisk hparts]
    exact sends_one
  have h₁ : Hears c (transferring c t q σ file_name) f₁ fun _ => [] := hears_name (q := f₁.name) hsend rfl
  -- the first part, and the location it is given
  have hpart := hears_part (f := f₁) (by decide) (by decide) (fun h => hnul (List.mem_of_mem_take h))
    (show _ = sendParts c t (content.length / BLOCKSIZE + 1) 0 0 0 (baseName file_name) (readable c content) from rfl) rfl
  have hplaced : placed (σ 0) (baseName file_name) (decimal ((0 : ℕ) : ℤ)) = newLoc σ (baseName file_name) :=
    if_pos (by decide)
  have hround := next_round (i := 0) hk
  rw [Nat.zero_mod, Nat.zero_div] at hround
  rw [show f₁.store = σ from rfl, hplaced] at hpart
  simp only [partSent, if_true, advance_eq hk, hround, Nat.zero_add] at hpart
  let f₂ : Conf := { f₁ with
    client := sendParts c t (content.length / BLOCKSIZE) 1 (1 % c.no_of_dataservers) (1 / c.no_of_dataservers)
      (baseName (newLoc σ (baseName file_name))) ((readable c content).drop BLOCKSIZE)
    name := .ret (q (decimal (partsOf content)) (newLoc σ (baseName file_name)))
    store := Function.update σ 0
      (storedAt (σ 0) (newLoc σ (baseName file_name)) (decimal (0 : ℕ)) ((readable c content).take BLOCKSIZE)) }
  have hloc : Hears c { f₁ with client := _, store := _ } f₂ fun _ => [] :=
    hears_name (m := newLoc σ (baseName file_name)) (k := f₂.client) (q := f₂.name) sends_one rfl
  have h₂ := hpart.trans_silent hloc
  -- and the others
  obtain ⟨store, h₃⟩ := hears_parts (n := content.length / BLOCKSIZE) (i := 1) (f := f₂) hk hnul one_ne_zero
    (by unfold partsOf at hparts; omega) (by rw [Nat.one_mul]) rfl
  refine ⟨q (decimal (partsOf content)) (newLoc σ (baseName file_name)), store, ?_⟩
  rw [show partsOf content = content.length / BLOCKSIZE + 1 from rfl, dealt_transferCommand]
  exact h₁.silent_trans (h₂.trans h₃)

/-- Every run of the transfer of a text ends with the commands that are meant. -/
theorem decodes_intended {file_name : CStr} (hk : 0 < c.no_of_dataservers)
    (hdisk : c.disk t file_name = some content) (hnul : (0 : Byte) ∉ readable c content)
    (hparts : partsOf content < 10 ^ 9) :
    Decodes c t σ file_name (intended c.no_of_dataservers σ (baseName file_name) content.length) := by
  intro q
  obtain ⟨mem, store, h⟩ := hears_transfer (q := q) (σ := σ) hk hdisk hnul hparts
  refine (h.alwaysEnds_iff (ended_state rfl rfl rfl rfl rfl) (Q := fun l => ∀ j, (l j).map header =
    intended c.no_of_dataservers σ (baseName file_name) content.length j)).2 fun j => ?_
  rw [map_dealt, intended, partsOf, Nat.add_comm 1]
  rfl

end Text

/-! ### What the client writes in any case -/

section Owed

variable {c : Config} {t : ℕ} {s : Server} {l : Label} {k : Client.Op} {w r : ℕ} {content : List Byte}

theorem owes_write (fd : Server) (b : List Byte) (h : Star.Owes (bigfs c) s l k w r) :
    Star.Owes (bigfs c) s l (.write (.inl fd) b k) ((if fd = s then b.count 0 else 0) + w) r := by
  by_cases hs : fd = s
  · subst hs
    rw [if_pos rfl]
    exact .send h
  · rw [if_neg hs, Nat.zero_add]
    exact .write (fun he => hs (Sum.inl.inj he)) h

theorem count_z (m : CStr) : m.z.count 0 = 1 := by
  rw [CStr.z, List.count_append, List.count_eq_zero.2 m.nul_free]
  rfl

theorem owes_send (fd : Server) (m : CStr) (h : Star.Owes (bigfs c) s l k w r) :
    Star.Owes (bigfs c) s l (send fd m k) ((if fd = s then 1 else 0) + w) r := by
  have hw := owes_write fd m.z h
  rwa [count_z] at hw

theorem owes_receive (fd : Server) {k : CStr → Client.Op} (h : ∀ m, Star.Owes (bigfs c) s l (k m) w r) :
    Star.Owes (bigfs c) s l (receive fd k) w ((if fd = s then 1 else 0) + r) := by
  by_cases hs : fd = s
  · subst hs
    rw [if_pos rfl, Nat.add_comm]
    exact .receive h
  · rw [if_neg hs, Nat.zero_add]
    exact .wait hs h

theorem owes_pieces (fd : Server) (h : Star.Owes (bigfs c) s l k w r) {fuel : ℕ} {rest : List Byte} (hl : rest.length ≤ fuel) :
    Star.Owes (bigfs c) s l (sendPieces fd fuel rest k) ((if fd = s then rest.count 0 else 0) + w) r := by
  induction fuel generalizing rest with
  | zero =>
    rw [List.length_eq_zero_iff.1 (Nat.le_zero.1 hl)]
    show Star.Owes (bigfs c) s l k ((if fd = s then ([] : List Byte).count 0 else 0) + w) r
    simpa using h
  | succ fuel ih =>
    unfold sendPieces
    split
    · next hr =>
      rw [hr]
      simpa using h
    · next hr =>
      have hpos := List.length_pos_iff.2 hr
      have hP : 0 < PIECE := by decide
      have hleft : (rest.drop PIECE).length ≤ fuel := by
        rw [List.length_drop]
        omega
      have hrest := owes_write fd (rest.take PIECE) (ih hleft)
      have hcount : (rest.take PIECE).count 0 + (rest.drop PIECE).count 0 = rest.count 0 := by
        rw [← List.count_append, List.take_append_drop]
      rw [← Nat.add_assoc] at hrest
      by_cases hs : fd = s
      · simp only [if_pos hs] at hrest ⊢
        rwa [hcount] at hrest
      · simp only [if_neg hs, Nat.zero_add] at hrest ⊢
        exact hrest

/-- The parts of a file that the data server `j` gets. -/
def turns (k n i j : ℕ) : List ℕ := dealt k (fun m => [m]) n i j

theorem turns_succ {k n i j : ℕ} :
    turns k (n + 1) i j = if j = i % k then i :: turns k n (i + 1) j else turns k n (i + 1) j := rfl

/-- The strings that are written to a server with `n` parts from part `i` on. -/
def told (k : ℕ) (content : List Byte) (n i : ℕ) : Server → ℕ
  | .name => if i = 0 ∧ n ≠ 0 then 1 else 0
  | .data j => ((turns k n i j).map fun m => 5 + (block BLOCKSIZE content m).count 0).sum

/-- The strings that are read from it. -/
def answered (k n i : ℕ) : Server → ℕ
  | .name => 0
  | .data j => (turns k n i j).length

theorem told_succ {n i : ℕ} : told c.no_of_dataservers content (n + 1) i s =
    (if .data (i % c.no_of_dataservers) = s then 5 + (block BLOCKSIZE content i).count 0 else 0) +
      ((if i = 0 ∧ .name = s then 1 else 0) + told c.no_of_dataservers content n (i + 1) s) := by
  cases s with
  | name => simp [told]
  | data j =>
    rw [told, turns_succ]
    by_cases hj : j = i % c.no_of_dataservers
    · subst hj
      simp [told]
    · simp [told, hj, Ne.symm hj]

theorem answered_succ {n i : ℕ} : answered c.no_of_dataservers (n + 1) i s =
    (if .data (i % c.no_of_dataservers) = s then 1 else 0) + answered c.no_of_dataservers n (i + 1) s := by
  cases s with
  | name => simp [answered]
  | data j =>
    rw [answered, turns_succ]
    by_cases hj : j = i % c.no_of_dataservers
    · subst hj
      simp [answered, Nat.add_comm]
    · simp [answered, hj, Ne.symm hj]

theorem owes_sendParts (hk : 0 < c.no_of_dataservers) (content : List Byte) {n i : ℕ} (dir : CStr) (hi : i + n ≤ 10 ^ 9) :
    Star.Owes (bigfs c) s (.prompt (t + 1))
      (sendParts c t n i (i % c.no_of_dataservers) (i / c.no_of_dataservers) dir (content.drop (i * BLOCKSIZE)))
      (told c.no_of_dataservers content n i s) (answered c.no_of_dataservers n i s) := by
  induction n generalizing i dir with
  | zero =>
    have htold : told c.no_of_dataservers content 0 i s = 0 := by cases s <;> simp [told, turns]
    have hanswered : answered c.no_of_dataservers 0 i s = 0 := by cases s <;> simp [answered, turns]
    rw [htold, hanswered]
    exact .ret
  | succ n ih =>
    have hlt : i < 10 ^ 9 := by omega
    have hnext (dir : CStr) : Star.Owes (bigfs c) s (.prompt (t + 1))
        (Client.advance c t (i % c.no_of_dataservers) fun ptr' => sendParts c t n (i + 1) ptr'
          (if i % c.no_of_dataservers + 1 = c.no_of_dataservers then i / c.no_of_dataservers + 1
            else i / c.no_of_dataservers) dir ((content.drop (i * BLOCKSIZE)).drop BLOCKSIZE))
        (told c.no_of_dataservers content n (i + 1) s) (answered c.no_of_dataservers n (i + 1) s) := by
      rw [advance_eq hk, next_turn, next_round hk, List.drop_drop, ← Nat.succ_mul]
      exact ih _ (by omega)
    rw [sendParts, sprintf_eq (Nat.lt_of_le_of_lt (Nat.div_le_self i _) hlt), Proc.attempt_ok, sprintf_eq hlt,
      Proc.attempt_ok]
    have hreply (data_loc : CStr) : Star.Owes (bigfs c) s (.prompt (t + 1))
        (partSent c t n i (i % c.no_of_dataservers) (i / c.no_of_dataservers) dir data_loc (content.drop (i * BLOCKSIZE)))
        ((if i = 0 ∧ .name = s then 1 else 0) + told c.no_of_dataservers content n (i + 1) s)
        (answered c.no_of_dataservers n (i + 1) s) := by
      unfold partSent
      by_cases hi0 : i = 0
      · simp only [hi0, true_and, if_true]
        subst hi0
        exact owes_send .name data_loc (hnext (Client.baseName data_loc))
      · simp only [hi0, false_and, if_false, Nat.zero_add]
        exact hnext dir
    let ptr : Server := .data (i % c.no_of_dataservers)
    let b := (content.drop (i * BLOCKSIZE)).take BLOCKSIZE
    have h := owes_send ptr (lit "tobigfs") <| owes_pieces ptr (owes_write ptr [0] <| owes_send ptr dir <|
      owes_send ptr (decimal (i / c.no_of_dataservers : ℕ)) <| owes_send ptr (decimal i) <|
        owes_receive ptr hreply) (le_refl b.length)
    have hsum (w : ℕ) : (if ptr = s then 1 else 0) + ((if ptr = s then b.count 0 else 0) +
        ((if ptr = s then ([0] : List Byte).count 0 else 0) + ((if ptr = s then 1 else 0) +
          ((if ptr = s then 1 else 0) + ((if ptr = s then 1 else 0) + w))))) =
        (if ptr = s then 5 + b.count 0 else 0) + w := by
      rw [show ([0] : List Byte).count 0 = 1 from rfl]
      split_ifs
      · omega
      · simp
    rw [hsum] at h
    rw [told_succ, answered_succ]
    exact h

/-- The transfer, with the number of parts and the location that the name server is sent. -/
def transferred (k : ℕ) (content : List Byte) (n : ℕ) : Server → ℕ
  | .name => 1 + told k content n 0 .name
  | .data j => told k content n 0 (.data j)

theorem owes_transfer (hk : 0 < c.no_of_dataservers) {file_name : CStr} (hdisk : c.disk t file_name = some content)
    (hparts : partsOf content < 10 ^ 9) : Star.Owes (bigfs c) s (.prompt (t + 1)) (transfertoBigFS c t file_name)
      (transferred c.no_of_dataservers (readable c content) (partsOf content) s)
      (answered c.no_of_dataservers (partsOf content) 0 s) := by
  rw [transfertoBigFS_baseName hdisk hparts]
  have hrest := owes_sendParts (t := t) (s := s) (n := partsOf content) (i := 0) hk (readable c content) (baseName file_name)
    (by omega)
  rw [Nat.zero_mod, Nat.zero_div, Nat.zero_mul, List.drop_zero] at hrest
  have h := owes_send .name (decimal (partsOf content)) hrest
  cases s with
  | name => exact h
  | data j =>
    rw [if_neg (by simp), Nat.zero_add] at h
    exact h

/-! ### Texts only -/

/-- A data server answers a part once it has been told all of it. -/
theorem pays_tobigfs (σ : Store) : Pays 4 (DataServer.dispatch σ (lit "tobigfs")) := by
  refine .read fun temp_buf => .read fun name => .read fun count => .read fun num => ?_
  have hok : ∃ dir, (if count = lit "0" ∧ σ.Exists ((lit "data/").cat name) then
      freeName σ ((lit "data/").cat name) (σ.length + 1) 0 else .ok ((lit "data/").cat name)) = .ok dir := by
    rw [freeName_eq_ok]
    split_ifs
    · exact ⟨_, rfl⟩
    · exact ⟨_, rfl⟩
  obtain ⟨dir, hdir⟩ := hok
  dsimp only
  rw [hdir, Proc.attempt_ok]
  exact .answer (by simp [CStr.z])

/-- A command that is one with a name and two numbers has a block before these. -/
theorem entire_of_header {cs : List CStr} {dir count num : CStr} (h : header cs = [lit "tobigfs", dir, count, num]) :
    Entire (lit "tobigfs") 4 cs := by
  match cs with
  | [] => cases h
  | [_] => cases h
  | choice :: block :: args =>
    rw [header] at h
    split at h
    · next hc =>
      rw [List.cons.injEq] at h
      exact ⟨congrArg some hc, by simp [h.2]⟩
    · next hc => exact absurd (List.cons.inj h).1 hc

theorem intended_eq_map {k len j : ℕ} {σ : ℕ → Store} {name : CStr} : intended k σ name len j =
    (turns k (1 + len / BLOCKSIZE) 0 j).map fun i =>
      [lit "tobigfs", dirOf σ name i, decimal (i / k : ℕ), decimal i] := by
  rw [turns, map_dealt]
  rfl

/-- Five strings a part are written, and the NULs in the parts. -/
theorem eq_zero_of_sum {l : List ℕ} {a : ℕ → ℕ} (h : (l.map fun m => 5 + a m).sum = 5 * l.length) {m : ℕ}
    (hm : m ∈ l) : a m = 0 := by
  have hle (l : List ℕ) : 5 * l.length ≤ (l.map fun m => 5 + a m).sum := by
    induction l with
    | nil => exact Nat.zero_le _
    | cons m l ih =>
      simp only [List.map_cons, List.sum_cons, List.length_cons]
      omega
  induction l with
  | nil => cases hm
  | cons m' l ih =>
    have hl := hle l
    simp only [List.map_cons, List.sum_cons, List.length_cons] at h
    rcases List.mem_cons.1 hm with rfl | hm
    · omega
    · exact ih (by omega) hm

theorem mem_block_of_mem {b : Byte} {n : ℕ} (h : b ∈ content) (hn : content.length ≤ n * BLOCKSIZE) :
    ∃ m < n, b ∈ block BLOCKSIZE content m := by
  have hall := take_append_blocks (B := BLOCKSIZE) (l := content) (i := 0) (n := n)
  rw [Nat.zero_mul, List.take_zero, List.nil_append, Nat.zero_add, List.take_of_length_le hn] at hall
  rw [← hall, List.mem_flatMap] at h
  obtain ⟨m, hm, hb⟩ := h
  rw [List.mem_range'_1, Nat.zero_add] at hm
  exact ⟨m, hm.2, hb⟩

/-- Where the data servers decode the commands that are meant, the file is a text. -/
theorem text_of_run {file_name : CStr} (hk : 0 < c.no_of_dataservers) (hdisk : c.disk t file_name = some content)
    (hparts : partsOf content < 10 ^ 9) {q : CStr → CStr → NameServer.Mem} {σ : ℕ → Store} {as : List (Option Server)}
    {x : Star.Traced (bigfs c)}
    (hrun : Run Star.tracedStep (fun _ _ => True) ⟨(transferring c t q σ file_name).state c, fun _ => []⟩ as x)
    (hend : Ended Star.tracedStep x)
    (hx : ∀ j, (x.commands (.data j)).map header =
      intended c.no_of_dataservers σ (baseName file_name) content.length j) : (0 : Byte) ∉ readable c content := by
  let D (s : Server) : Prop := ∃ j, s = .data j
  have hmain : ∀ s, D s → ∀ l, ∃ k, (bigfs c).main s l = .read () k ∧ Pays 4 (k (lit "tobigfs")) := by
    rintro _ ⟨j, rfl⟩ σ
    exact ⟨_, rfl, pays_tobigfs σ⟩
  have htally (s : Server) : Star.Tally (S := bigfs c) D (lit "tobigfs") 4 (Label.prompt (t + 1)) Local.terminal
      (transferred c.no_of_dataservers (readable c content) (partsOf content))
      (answered c.no_of_dataservers (partsOf content) 0) x s := by
    refine (Star.tally_start rfl (owes_transfer hk hdisk hparts) ?_).run rfl hmain hrun
    rintro ⟨j, rfl⟩
    exact ⟨rfl, rfl, _, rfl⟩
  have hcs : ∀ s, D s → (x.commands s).length = answered c.no_of_dataservers (partsOf content) 0 s ∧
      ∀ c ∈ x.commands s, Entire (lit "tobigfs") 4 c := by
    rintro _ ⟨j, rfl⟩
    have hj := hx j
    rw [intended_eq_map, Nat.add_comm 1] at hj
    refine ⟨?_, fun cs hcs => ?_⟩
    · simpa [answered, partsOf] using congrArg List.length hj
    · have hmem := List.mem_map_of_mem (f := header) hcs
      rw [hj] at hmem
      obtain ⟨i, -, hi⟩ := List.mem_map.1 hmem
      exact entire_of_header hi.symm
  have hD : ∀ s, ¬ D s → answered c.no_of_dataservers (partsOf content) 0 s = 0 := by
    rintro (_ | j) hs
    · rfl
    · exact absurd ⟨j, rfl⟩ hs
  intro h0
  obtain ⟨m, hm, hb⟩ := mem_block_of_mem h0 (length_readable_le.trans length_le_partsOf)
  have hsettled := Star.Tally.settled hmain htally hD hend hcs ⟨m % c.no_of_dataservers, rfl⟩
  have hzero := eq_zero_of_sum (a := fun m => (block BLOCKSIZE (readable c content) m).count 0) hsettled
    (mem_dealt (f := fun m => [m]) (Nat.zero_le m) (by omega) (List.mem_singleton.2 rfl))
  exact absurd hb (List.count_eq_zero.1 hzero)

/-- With too many parts the client stops, and nothing is decoded. -/
theorem not_decodes_of_many {file_name : CStr} {σ : ℕ → Store} (hdisk : c.disk t file_name = some content)
    (hmany : ¬ partsOf content < 10 ^ 9) :
    ¬ Decodes c t σ file_name (intended c.no_of_dataservers σ (baseName file_name) content.length) := by
  intro h
  let q (_ _ : CStr) : NameServer.Mem := NameServer.fresh NameServer.zeroed
  have hstuck : Star.clientStep ((transferring c t q σ file_name).state c) = none := by
    have hclient : ((transferring c t q σ file_name).state c).client.enter (bigfs c).code = .halt .overflow (.prompt t) := by
      show (transfertoBigFS c t file_name).enter _ = _
      rw [transfertoBigFS_eq_halt hdisk hmany]
      rfl
    rw [Star.clientStep, hclient]
  have hend := Star.ended_tracedStep (s := ⟨_, fun _ => []⟩).2 (ended_of_client hstuck rfl)
  have hnone := (Star.tracedStep_comm.alwaysEnds_iff Reaches.refl hend).1 (h q) 0
  rw [intended_eq_map, Nat.add_comm 1, turns_succ, if_pos (Nat.zero_mod _).symm] at hnone
  cases hnone

/-- What the data servers decode is what is meant for texts only. -/
theorem text_of_decodes {file_name : CStr} {σ : ℕ → Store} (hk : 0 < c.no_of_dataservers)
    (hdisk : c.disk t file_name = some content)
    (h : Decodes c t σ file_name (intended c.no_of_dataservers σ (baseName file_name) content.length)) :
    (0 : Byte) ∉ readable c content ∧ partsOf content < 10 ^ 9 := by
  have hparts : partsOf content < 10 ^ 9 := by
    by_contra hmany
    exact not_decodes_of_many hdisk hmany h
  obtain ⟨as, x, hrun, hend, hx⟩ := (h fun _ _ => NameServer.fresh NameServer.zeroed).exists_end
  exact ⟨text_of_run hk hdisk hparts hrun hend hx, hparts⟩

end Owed

/-! ### When the commands are those that are meant -/

/-- What is read of the file is text, and the number of its parts can be printed. -/
def Textual (c : Config) (content : List Byte) : Prop :=
  (content.length < c.streamSize ∨ (0 : Byte) ∉ content) ∧ partsOf content < 10 ^ 9

theorem textual_iff {c : Config} {content : List Byte} :
    Textual c content ↔ (0 : Byte) ∉ readable c content ∧ partsOf content < 10 ^ 9 := by
  unfold Textual readable
  split
  · next hlt => simp [hlt]
  · next hle => simp [hle]

/-- **File bytes are no commands**, if the file is `Textual`: only then do the data servers decode the commands that are
meant.  These depend on the length, so that two such files of one length make them decode the same. -/
theorem decodes_iff {c : Config} {t : ℕ} {σ : ℕ → Store} {file_name : CStr} {content : List Byte}
    (hk : 0 < c.no_of_dataservers) (hdisk : c.disk t file_name = some content) :
    (Decodes c t σ file_name (intended c.no_of_dataservers σ (baseName file_name) content.length) ↔ Textual c content) ∧
    ∀ t' content', c.disk t' file_name = some content' → content'.length = content.length → Textual c content →
      Textual c content' → ∃ l, Decodes c t σ file_name l ∧ Decodes c t' σ file_name l := by
  have htext : ∀ {t content}, c.disk t file_name = some content → Textual c content →
      Decodes c t σ file_name (intended c.no_of_dataservers σ (baseName file_name) content.length) := by
    intro t content hdisk h
    obtain ⟨hnul, hparts⟩ := textual_iff.1 h
    exact decodes_intended hk hdisk hnul hparts
  constructor
  · exact ⟨fun h => textual_iff.2 (text_of_decodes hk hdisk h), htext hdisk⟩
  · exact fun t' content' hdisk' hlen h h' => ⟨_, htext hdisk h, hlen ▸ htext hdisk' h'⟩

theorem decodes_page : Decodes (pages 2) 0 (fun _ => []) (lit "a") (intended 2 (fun _ => []) (lit "a") 4096) := by
  have hb : baseName (lit "a") = lit "a" := by decide
  have hdisk : (pages 2).disk 0 (lit "a") = some page := rfl
  have h := ((decodes_iff (σ := fun _ => []) (show 0 < (pages 2).no_of_dataservers by decide) hdisk).1).2
    ⟨.inr page_text, by rw [partsOf_page]; decide⟩
  rwa [hb, length_page] at h

/-- **A file is not always free to be what it likes**: a NUL behind a page is read as the end of the block, the mark behind
it as the name, and the chunk number as a command. -/
theorem decoded_otherwise : ¬ ∀ c t σ file_name content, 0 < c.no_of_dataservers → c.disk t file_name = some content →
    Decodes c t σ file_name (intended c.no_of_dataservers σ (baseName file_name) content.length) := by
  intro h
  let c : Config := ⟨1, fun _ _ => some (page ++ [0]), 4096⟩
  have hread : readable c (page ++ [0]) = page ++ [0] := readable_of_le (by simp [c, length_page])
  have hdisk : c.disk 0 (lit "a") = some (page ++ [0]) := rfl
  obtain ⟨hnul, -⟩ := text_of_decodes (σ := fun _ => []) (by decide) hdisk (h c 0 _ _ _ (by decide) hdisk)
  rw [hread] at hnul
  exact hnul (by simp)

end NetProg.BigFs
