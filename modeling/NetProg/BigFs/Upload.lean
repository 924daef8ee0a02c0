import NetProg.BigFs.Calls
import NetProg.DataServer.Names
import NetProg.Lib.RoundRobin

/-!
# Uploading a file

The parts of a file are dealt out to the data servers in turn: `Held` says what they hold once `i` parts are sent, and
`goes_tobigfs` that the line `tobigfs` leaves all parts there, and the file in the tree.
-/

namespace NetProg.BigFs

open NetProg.Lib NetProg.Client NetProg.Receive NetProg.DataServer

/-! ### The name server -/

section Name

open NetProg.NameServer

/-- The tree with one file. -/
def oneFile (garbage : ℕ → Node) (name parts loc : CStr) : Mem where
  heap := [
    { garbage 0 with name := lit "home", type := .directory, child := .node 1, parent := .null, next := .null },
    { garbage 1 with
      next := .null, child := .null, parent := .node 0, type := .file, name := name, no_of_chunks := atoi parts,
      loc_name := loc }]
  cur := .node 0
  garbage := garbage

variable {garbage : ℕ → Node} {name parts loc : CStr}

/-- What a name that does not fit the field leaves behind. -/
def unnamed (garbage : ℕ → Node) (name : CStr) : Mem :=
  { fresh garbage with heap := (fresh garbage).heap ++ [(nameless (fresh garbage)).overrun name] }

/-- Where the name server stands once it has the name of a new file, which must fit its field. -/
def named (garbage : ℕ → Node) (name : CStr) : NameServer.Op :=
  if name.bytes.length < nameSize then .read () fun parts => .read () fun loc => .ret (oneFile garbage name parts loc)
  else .halt .overflow (unnamed garbage name)

theorem tobigfs_name (h : NameServer.slash ∉ name.bytes) :
    (NameServer.tobigfs (fresh garbage)).run [name] = ((lit "0").z, named garbage name, []) := by
  have hb : NameServer.baseName name = name := by simp [NameServer.baseName, fields_of_not_mem h]
  have hp : (NameServer.tobigfs (fresh garbage)).run [name] =
      (NameServer.reply (lit "0") <| .attempt (unnamed garbage name) (strcpyName name) fun name =>
        .read () fun parts => .read () fun loc => .ret (oneFile garbage name parts loc)).run [] := by
    rw [NameServer.tobigfs, Proc.run_read, hb]
    rfl
  rw [hp, strcpyName, named]
  split <;> simp [NameServer.reply]

/-- The file is found. -/
theorem sendFile_name (hl : sprintfChunks (atoi parts) = .ok parts) :
    (sendFile (oneFile garbage name parts loc)).run [name] =
      ((lit "1").z ++ loc.z ++ parts.z, .ret (oneFile garbage name parts loc), []) := by
  have hcur : deref (oneFile garbage name parts loc).heap (oneFile garbage name parts loc).cur = .ok (0, _) := rfl
  have hfile : deref (oneFile garbage name parts loc).heap (.node 1) = .ok (1, _) := rfl
  have hf : lookupFile (oneFile garbage name parts loc).heap name (.node 1) = .ok (some 1) := if_pos (by simp)
  rw [sendFile, Proc.run_read, hcur, Proc.attempt_ok]
  dsimp only
  rw [hf, Proc.attempt_ok]
  dsimp only
  rw [hfile]
  simp [NameServer.reply, sendLocation, hl]

end Name

/-! ### One part -/

section Part

variable {c : Config} {t : ℕ}

/-- The numbers that fit `char s[10]`. -/
theorem sprintf_eq {n : ℕ} (h : n < 10 ^ 9) : sprintf n = .ok (decimal n) :=
  if_pos (Nat.lt_succ_of_le ((length_decBytes_le (by decide)).2 h))

theorem sprintf_eq_error {n : ℕ} (h : 10 ^ 9 ≤ n) : sprintf n = .error .overflow :=
  if_neg fun hl => absurd ((length_decBytes_le (by decide)).1 (Nat.le_of_lt_succ hl)) (Nat.not_lt.2 h)

theorem advance_eq (hk : 0 < c.no_of_dataservers) {ptr : ℕ} {k : ℕ → Client.Op} :
    Client.advance c t ptr k = k ((ptr + 1) % c.no_of_dataservers) := if_neg (Nat.pos_iff_ne_zero.1 hk)

/-- The pieces of a block make up the block. -/
theorem sends_pieces {i : Server} {b rest : List Byte} {k p : Client.Op} {fuel : ℕ} (h : Star.Sends (bigfs c) i k b p)
    (hl : rest.length ≤ fuel) : Star.Sends (bigfs c) i (sendPieces i fuel rest k) (rest ++ b) p := by
  induction fuel generalizing rest with
  | zero =>
    rw [List.length_eq_zero_iff.1 (Nat.le_zero.1 hl)]
    exact h
  | succ fuel ih =>
    unfold sendPieces
    split
    · next hr =>
      rw [hr]
      exact h
    · next hr =>
      have hP : 0 < PIECE := by decide
      have hpos := List.length_pos_iff.2 hr
      have hdrop : (rest.drop PIECE).length ≤ fuel := by
        rw [List.length_drop]
        omega
      have := sends_write (rest.take PIECE) (ih hdrop)
      rwa [← List.append_assoc, List.take_append_drop] at this

/-- The strings of one part. -/
theorem sends_part (i : Server) (block dir count num : CStr) (k : Client.Op) :
    Star.Sends (bigfs c) i
      (send i (lit "tobigfs") <| sendPieces i block.bytes.length block.bytes <| .write (.inl i) [0] <|
        send i dir <| send i count <| send i num k)
      ([lit "tobigfs", block, dir, count, num].flatMap CStr.z) k := by
  have hb : [lit "tobigfs", block, dir, count, num].flatMap CStr.z =
      (lit "tobigfs").z ++ (block.bytes ++ ([0] ++ (dir.z ++ (count.z ++ (num.z ++ []))))) := by
    simp [CStr.z]
  rw [hb]
  exact sends_write _ (sends_pieces (sends_write _ (sends_write _ (sends_write _ (sends_write _ sends_nil)))) le_rfl)

/-- What `sendParts` does behind the answer about a part. -/
def partSent (c : Config) (t n i ptr count : ℕ) (dir data_loc : CStr) (rest : List Byte) : Client.Op :=
  let next (dir : CStr) : Client.Op := Client.advance c t ptr fun ptr' =>
    sendParts c t n (i + 1) ptr' (if ptr + 1 = c.no_of_dataservers then count + 1 else count) dir (rest.drop BLOCKSIZE)
  if i = 0 then send .name data_loc (next (Client.baseName data_loc)) else next dir

theorem decimal_eq_zero {count : ℕ} (h : decimal count = lit "0") : count = 0 := by
  have hz : decimal (0 : ℕ) = lit "0" := by decide
  rw [← hz] at h
  exact decBytes_injective (congrArg CStr.bytes h)

/-- One part is stored where the server puts it. -/
theorem hears_part {f : Conf} {n i ptr count : ℕ} {name : CStr} {rest : List Byte} (hi : i < 10 ^ 9)
    (hcount : count < 10 ^ 9) (hnul : (0 : Byte) ∉ rest.take BLOCKSIZE)
    (hf : f.client = sendParts c t (n + 1) i ptr count name rest) (ha : f.answers = fun _ => []) : Hears c f { f with
      client := partSent c t n i ptr count name (placed (f.store ptr) name (decimal count)) rest
      store := Function.update f.store ptr
        (storedAt (f.store ptr) (placed (f.store ptr) name (decimal count)) (decimal i) (rest.take BLOCKSIZE)) }
    (Function.update (fun _ => []) ptr [[lit "tobigfs", ⟨rest.take BLOCKSIZE, hnul⟩, name, decimal count, decimal i]]) := by
  have hsend := sends_part (c := c) (.data ptr) ⟨rest.take BLOCKSIZE, hnul⟩ name (decimal count) (decimal i)
    (receive (.data ptr) fun data_loc => partSent c t n i ptr count name data_loc rest)
  have hclient : f.client = _ := hf.trans (by
    rw [sendParts, sprintf_eq hcount, sprintf_eq hi, Proc.attempt_ok, Proc.attempt_ok])
  refine (hears_data (hclient ▸ hsend) rfl store_run).trans_silent ?_
  refine (hears_answer (m := placed (f.store ptr) name (decimal count)) (r := []) rfl (by simp [ha])).trans_silent ?_
  simp [ha, enqueue, Hears.refl]

theorem goes_part {f : Conf} {n i ptr count : ℕ} {name : CStr} {rest : List Byte} (hi : i < 10 ^ 9)
    (hcount : count < 10 ^ 9) (hnul : (0 : Byte) ∉ rest)
    (hf : f.client = sendParts c t (n + 1) i ptr count name rest) (ha : f.answers = fun _ => []) : Goes c f { f with
      client := partSent c t n i ptr count name (placed (f.store ptr) name (decimal count)) rest
      store := Function.update f.store ptr
        (storedAt (f.store ptr) (placed (f.store ptr) name (decimal count)) (decimal i) (rest.take BLOCKSIZE)) } :=
  (hears_part hi hcount (fun h => hnul (List.mem_of_mem_take h)) hf ha).goes

/-- A new name stays as it is. -/
theorem placed_eq {s : Store} {name : CStr} {count : ℕ} (h0 : count = 0 → ¬ s.Exists (location name)) :
    placed s name (decimal count) = location name := by
  unfold placed
  split
  · next h => exact pick_of_not_exists (h0 (decimal_eq_zero h))
  · rfl

end Part

/-! ### All parts -/

/-- The data servers hold the first `i` parts of the file, and no other server has the name of the file yet. -/
structure Held (k : ℕ) (name : CStr) (content : List Byte) (store : ℕ → Store) (i : ℕ) : Prop where
  parts : ∀ m < i, (store (m % k)).get (path name m) = some (block BLOCKSIZE content m)
  unused : ∀ j, i ≤ j → ¬ (store j).Exists (location name)

section Parts

variable {c : Config} {t k i n : ℕ} {name : CStr} {content : List Byte} {store : ℕ → Store} {f : Conf}

theorem held_zero (k : ℕ) (name : CStr) (content : List Byte) : Held k name content (fun _ => []) 0 where
  parts m h := absurd h (Nat.not_lt_zero m)
  unused _ _ := Bool.false_ne_true

/-- Another part is stored. -/
theorem Held.succ (h : Held k name content store i) : Held k name content
    (Function.update store (i % k) (stored (store (i % k)) name i (block BLOCKSIZE content i))) (i + 1) where
  parts m hm := by
    rcases Nat.lt_succ_iff_lt_or_eq.1 hm with hm | rfl
    · by_cases he : m % k = i % k
      · rw [he, Function.update_self, get_stored_of_ne (Nat.ne_of_lt hm), ← he]
        exact h.parts m hm
      · rw [Function.update_of_ne he]
        exact h.parts m hm
    · rw [Function.update_self, get_stored]
  unused j hj := by
    rw [Function.update_of_ne (Nat.ne_of_gt (Nat.lt_of_le_of_lt (Nat.mod_le i k) hj))]
    exact h.unused j (Nat.le_of_succ_le hj)

/-- In the first round the name is new to every server. -/
theorem Held.not_exists (hk : 0 < k) (h : Held k name content store i) (h0 : i / k = 0) :
    ¬ (store (i % k)).Exists (location name) := by
  rw [turn_of_round hk h0]
  exact h.unused i le_rfl

/-- The parts behind the first one, where storing each of them keeps `I`. -/
theorem goes_parts (hk : 0 < c.no_of_dataservers) (hnul : (0 : Byte) ∉ content) {I : ℕ → (ℕ → Store) → Prop}
    (hI : ∀ i σ, I i σ → I (i + 1) (Function.update σ (i % c.no_of_dataservers) (storedAt (σ (i % c.no_of_dataservers))
      (placed (σ (i % c.no_of_dataservers)) name (decimal (i / c.no_of_dataservers : ℕ))) (decimal i)
      (block BLOCKSIZE content i)))) {n i : ℕ} {f : Conf} (hi0 : i ≠ 0) (hi : i + n ≤ 10 ^ 9) (hstore : I i f.store)
    (hf : f.client =
      sendParts c t n i (i % c.no_of_dataservers) (i / c.no_of_dataservers) name (content.drop (i * BLOCKSIZE)))
    (ha : f.answers = fun _ => []) :
    ∃ store, I (i + n) store ∧ Goes c f { f with client := done t, store := store } := by
  induction n generalizing i f with
  | zero =>
    refine ⟨f.store, hstore, ?_⟩
    have hc : f.client = done t := hf
    rw [← hc]
    exact Goes.refl
  | succ n ih =>
    have hlt : i < 10 ^ 9 := by omega
    have hpart := goes_part hlt (Nat.lt_of_le_of_lt (Nat.div_le_self i _) hlt)
      (fun h => hnul (List.mem_of_mem_drop h)) hf ha
    simp only [partSent, if_neg hi0, advance_eq hk, next_turn, next_round hk, List.drop_drop] at hpart
    rw [show i * BLOCKSIZE + BLOCKSIZE = (i + 1) * BLOCKSIZE from (Nat.succ_mul i BLOCKSIZE).symm] at hpart
    obtain ⟨store, hs, hg⟩ := ih (i := i + 1) (f := { f with
        client := sendParts c t n (i + 1) _ _ name _
        store := Function.update f.store _ (storedAt _ _ _ (block BLOCKSIZE content i)) })
      (Nat.succ_ne_zero i) (by omega) (hI i f.store hstore) rfl ha
    exact ⟨store, by rwa [show i + (n + 1) = i + 1 + n by omega], hpart.trans hg⟩

/-- Each server holds its parts of a file whose name is new. -/
theorem Held.part (hk : 0 < k) (h : Held k name content store i) : Held k name content
    (Function.update store (i % k) (storedAt (store (i % k)) (placed (store (i % k)) name (decimal (i / k : ℕ)))
      (decimal i) (block BLOCKSIZE content i))) (i + 1) := by
  rw [placed_eq (h.not_exists hk)]
  exact h.succ

end Parts

/-! ### The line -/

/-- The name as the client takes it from a line: up to its first space. -/
def firstWord (name : CStr) : CStr := (fields Client.space name).head (fields_ne_nil Client.space name)

theorem strsep_firstWord (name : CStr) : (strsep Client.space (some name)).1 = some (firstWord name) := by
  rw [strsep_fst, firstWord, List.head?_eq_some_head]

theorem mem_of_mem_firstWord {name : CStr} {b : Byte} (h : b ∈ (firstWord name).bytes) : b ∈ name.bytes := by
  have hw := strsep_firstWord name
  rw [strsep, Option.some.injEq] at hw
  exact mem_of_mem_sepBytes_fst _ _ _ (by rw [← hw] at h; exact h)

theorem baseName_of_not_mem {name : CStr} (h : Client.slash ∉ name.bytes) : Client.baseName name = name := by
  simp [Client.baseName, fields_of_not_mem h]

theorem baseName_location {name : CStr} (h : Client.slash ∉ name.bytes) : Client.baseName (location name) = name := by
  have hd : (lit "data/").bytes = (lit "data").bytes ++ [Client.slash] := by decide
  have hs : strsep Client.slash (some (location name)) = (some (lit "data"), some name) :=
    strsep_eq (by simp [location, CStr.cat, hd]) (by decide)
  have hf : fields Client.slash (location name) = [lit "data", name] := by
    rw [fields_eq_strsep, hs]
    simp [fields_of_not_mem h]
  simp [Client.baseName, hf]

/-- The line that uploads a file, and the one that prints it. -/
def uploadLine (name : CStr) : CStr := (lit "tobigfs ").cat name
def catLine (name : CStr) : CStr := (lit "cat ").cat name

theorem strsep_uploadLine (name : CStr) :
    strsep Client.space (some (uploadLine name)) = (some (lit "tobigfs"), some name) := by
  have hd : (lit "tobigfs ").bytes = (lit "tobigfs").bytes ++ [Client.space] := by decide
  exact strsep_eq (by simp [uploadLine, CStr.cat, hd]) (by decide)

theorem strsep_catLine (name : CStr) : strsep Client.space (some (catLine name)) = (some (lit "cat"), some name) := by
  have hd : (lit "cat ").bytes = (lit "cat").bytes ++ [Client.space] := by decide
  exact strsep_eq (by simp [catLine, CStr.cat, hd]) (by decide)

section Line

open NameServer (fresh nameSize Node)

variable {c : Config} {garbage : ℕ → Node} {name : CStr} {content typed : List Byte}

theorem command_uploadLine {t : ℕ} : command c t (uploadLine name) =
    send .name (lit "tobigfs") (send .name (firstWord name) (receive .name fun temp =>
      if temp = lit "1" then printf (lit "File/Directory with the same name exists\n") (done t)
      else transfertoBigFS c t (firstWord name))) := by
  rw [command, strsep_uploadLine]
  simp only [Client.tobigfs, word, strsep_firstWord]
  rfl

theorem command_catLine {t : ℕ} : command c t (catLine name) =
    send .name (lit "cat") (send .name (firstWord name) (receive .name fun temp =>
      if temp = lit "0" then printf (lit "File not found in current directory\n") (done t)
      else receive .name fun loc => receive .name fun chunks => Client.printfile c t loc (atoi chunks).toNat)) := by
  rw [command, strsep_catLine]
  simp only [catfile, locate, word, strsep_firstWord]
  rfl

/-- The programs are started, and `typed` is going to be typed. -/
def opened (garbage : ℕ → Node) (typed : List Byte) : Conf where
  client := .ret (.prompt 0)
  name := .ret (fresh garbage)
  store _ := []
  reply := []
  answers _ := []
  typed := typed
  printed := []

/-- The name server is asked for the name. -/
theorem goes_asked (garbage : ℕ → Node) (typed : List Byte) (hslash : Client.slash ∉ (firstWord name).bytes) :
    Goes c (opened garbage ((uploadLine name).z ++ typed)) { opened garbage typed with
      client := transfertoBigFS c 0 (firstWord name)
      name := named garbage (firstWord name) } := by
  refine (goes_line rfl rfl).trans ?_
  rw [command_uploadLine]
  refine (goes_name (m := lit "tobigfs") (q := NameServer.tobigfs (fresh garbage)) sends_one rfl).trans ?_
  refine (goes_name (m := firstWord name) (q := named garbage (firstWord name)) sends_one
    (by exact tobigfs_name hslash)).trans ?_
  exact (goes_reply (m := lit "0") (r := []) rfl (by simp [opened])).trans Goes.refl

/-- The number of parts of a file, and of its chunks. -/
def partsOf (content : List Byte) : ℕ := content.length / BLOCKSIZE + 1

theorem length_le_partsOf : content.length ≤ partsOf content * BLOCKSIZE := by
  have hdiv := Nat.div_add_mod content.length BLOCKSIZE
  have hlt := Nat.mod_lt content.length (show 0 < BLOCKSIZE by decide)
  rw [Nat.mul_comm] at hdiv
  rw [partsOf, Nat.succ_mul]
  omega

/-- What the client does once the name server has answered. -/
theorem transfertoBigFS_baseName {t : ℕ} (hdisk : c.disk t name = some content) (hparts : partsOf content < 10 ^ 9) :
    transfertoBigFS c t name =
      send .name (decimal (partsOf content))
        (sendParts c t (partsOf content) 0 0 0 (Client.baseName name) (readable c content)) := by
  unfold transfertoBigFS
  rw [hdisk]
  simp only [Nat.add_comm 1]
  rw [← partsOf, sprintf_eq hparts, Proc.attempt_ok]

/-- A number of parts with more than nine digits stops it. -/
theorem transfertoBigFS_eq_halt {t : ℕ} (hdisk : c.disk t name = some content) (hparts : ¬ partsOf content < 10 ^ 9) :
    transfertoBigFS c t name = .halt .overflow (.prompt t) := by
  unfold transfertoBigFS
  rw [hdisk]
  simp only [Nat.add_comm 1]
  rw [← partsOf, sprintf_eq_error (Nat.not_lt.1 hparts), Proc.attempt_error]

theorem transfertoBigFS_eq {t : ℕ} (hslash : Client.slash ∉ name.bytes) (hdisk : c.disk t name = some content)
    (hparts : partsOf content < 10 ^ 9) : transfertoBigFS c t name =
      send .name (decimal (partsOf content)) (sendParts c t (partsOf content) 0 0 0 name (readable c content)) := by
  rw [transfertoBigFS_baseName hdisk hparts, baseName_of_not_mem hslash]

/-- The location of the first part goes to the name server. -/
theorem partSent_zero {t n : ℕ} (hk : 0 < c.no_of_dataservers) (hslash : Client.slash ∉ name.bytes) :
    partSent c t n 0 0 0 name (location name) content = send .name (location name)
      (sendParts c t n 1 (1 % c.no_of_dataservers) (1 / c.no_of_dataservers) name (content.drop (1 * BLOCKSIZE))) := by
  have hround := next_round (i := 0) hk
  rw [Nat.zero_mod, Nat.zero_div] at hround
  simp only [partSent, if_true, advance_eq hk, baseName_location hslash, hround, Nat.zero_add, Nat.one_mul]

/-- **What is read of the file is stored**, if it is there, its name is short and the number of its parts has no more than
nine digits. -/
theorem goes_stored (garbage : ℕ → Node) (typed : List Byte) (hk : 0 < c.no_of_dataservers)
    (hslash : Client.slash ∉ (firstWord name).bytes)
    (hdisk : c.disk 0 (firstWord name) = some content) (hnul : (0 : Byte) ∉ readable c content)
    (hlen : (firstWord name).bytes.length < nameSize) (hparts : partsOf content < 10 ^ 9) :
    ∃ store, Held c.no_of_dataservers (firstWord name) (readable c content) store (partsOf content) ∧
      Goes c (opened garbage ((uploadLine name).z ++ typed)) { opened garbage typed with
        client := .ret (.prompt 1)
        name := .ret (oneFile garbage (firstWord name) (decimal (partsOf content)) (location (firstWord name)))
        store := store } := by
  have hheld := (held_zero c.no_of_dataservers (firstWord name) (readable c content)).succ
  rw [Nat.zero_mod] at hheld
  let f₁ : Conf := { opened garbage typed with
    client := sendParts c 0 (partsOf content) 0 0 0 (firstWord name) (readable c content)
    name := .read () fun loc => .ret (oneFile garbage (firstWord name) (decimal (partsOf content)) loc) }
  let f₂ : Conf := { opened garbage typed with
    client := sendParts c 0 (content.length / BLOCKSIZE) 1 (1 % c.no_of_dataservers) (1 / c.no_of_dataservers)
      (firstWord name) ((readable c content).drop (1 * BLOCKSIZE))
    name := .ret (oneFile garbage (firstWord name) (decimal (partsOf content)) (location (firstWord name)))
    store := Function.update (fun _ => []) 0 (stored [] (firstWord name) 0 (block BLOCKSIZE (readable c content) 0)) }
  have h₁ : Goes c (opened garbage ((uploadLine name).z ++ typed)) f₁ := by
    refine (goes_asked garbage typed hslash).trans
      ((goes_name (m := decimal (partsOf content)) (q := f₁.name) ?_ ?_).trans Goes.refl)
    · exact transfertoBigFS_eq hslash hdisk hparts ▸ sends_one
    · rw [named, if_pos hlen]
      rfl
  have h₂ : Goes c f₁ f₂ := by
    refine (goes_part (by decide) (by decide) hnul rfl rfl).trans ?_
    rw [placed_eq (by exact fun _ => Bool.false_ne_true)]
    refine (goes_name (m := location (firstWord name)) (q := f₂.name) ?_ rfl).trans Goes.refl
    exact partSent_zero hk hslash ▸ sends_one
  obtain ⟨store, hs, h₃⟩ := goes_parts (I := fun i store => Held c.no_of_dataservers (firstWord name) (readable c content) store i)
    (n := content.length / BLOCKSIZE) (i := 1) (f := f₂) hk hnul (fun _ _ h => h.part hk) one_ne_zero
    (by unfold partsOf at hparts; omega) hheld rfl rfl
  exact ⟨store, by rwa [Nat.add_comm] at hs, h₁.trans (h₂.trans h₃)⟩

end Line

end NetProg.BigFs
