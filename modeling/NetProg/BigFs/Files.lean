import NetProg.BigFs.Upload
import NetProg.Lib.Run

/-!
# What uploads, copies and removals leave on the data servers

`uploaded`, `copiedParts` and `removed` are the files of all data servers once the client has dealt with the first `n`
parts of a file; part `i` is the business of the server `i % k`.  `goes_uploaded`, `goes_copied` and `goes_removed` say
that the system comes to hold them.

In the first round an upload has each server look for a free name by itself (`partLoc`), of which the client registers
the one of server `0`.
-/

namespace NetProg.BigFs

open NetProg.Lib NetProg.Client NetProg.Receive NetProg.DataServer

/-! ### The files of the data servers -/

section Stores

variable (k : ℕ) (σ : ℕ → Store)

/-- The location that server `0` reports for a new file. -/
def newLoc (name : CStr) : CStr := pick (σ 0) (location name)

/-- Where the server puts the part `i` of a file that is registered at `loc`. -/
def partLoc (loc : CStr) (i : ℕ) : CStr := if i < k then pick (σ i) loc else loc

/-- The first `n` parts of a file have been stored. -/
def uploaded (loc : CStr) (content : List Byte) : ℕ → ℕ → Store :=
  inTurn k (fun i s => storedAt s (partLoc k σ loc i) (decimal i) (block BLOCKSIZE content i)) σ

/-- The first `n` chunks of the file at `loc` have been copied behind `new`. -/
def copiedParts (loc new : CStr) : ℕ → ℕ → Store :=
  inTurn k (fun i s => copied s (loc.cat (decimal i)) new (decimal i)) σ

/-- The first `n` chunks of the file at `loc` have been removed. -/
def removed (loc : CStr) : ℕ → ℕ → Store :=
  inTurn k (fun i s => (s.remove loc).remove (loc.cat (decimal i))) σ

end Stores

/-! ### Paths that are not concerned -/

section Frame

variable {k n j : ℕ} {σ : ℕ → Store} {loc new p : CStr} {content : List Byte}

theorem get_storedAt_of_ne {s : Store} {num : CStr} {b : List Byte} (h : p ≠ loc) (h' : p ≠ loc.cat num) :
    (storedAt s loc num b).get p = s.get p := by
  rw [storedAt, Store.get_put_of_ne h', Store.get_put_of_ne h]

@[simp] theorem get_storedAt_self {s : Store} {num : CStr} {b : List Byte} :
    (storedAt s loc num b).get (loc.cat num) = some b := Store.get_put_self

theorem get_copied_of_ne {s : Store} {source chunks : CStr} (h : p ≠ new) (h' : p ≠ new.cat chunks) :
    (copied s source new chunks).get p = s.get p := by
  rw [copied, Store.get_put_of_ne h', Store.get_put_of_ne h', Store.get_put_of_ne h]

/-- An upload changes the locations it uses, and the parts behind them. -/
theorem get_uploaded_of_ne
    (h : ∀ i < n, i % k = j → p ≠ partLoc k σ loc i ∧ p ≠ (partLoc k σ loc i).cat (decimal i)) :
    (uploaded k σ loc content n j).get p = (σ j).get p :=
  inTurn_eq (g := fun s : Store => s.get p) fun i hi hj _ => get_storedAt_of_ne (h i hi hj).1 (h i hi hj).2

/-- A copy changes the new location and the chunks behind it. -/
theorem get_copiedParts_of_ne (h : ∀ i < n, i % k = j → p ≠ new ∧ p ≠ new.cat (decimal i)) :
    (copiedParts k σ loc new n j).get p = (σ j).get p :=
  inTurn_eq (g := fun s : Store => s.get p) fun i hi hj _ => get_copied_of_ne (h i hi hj).1 (h i hi hj).2

/-- A removal removes the location and the chunks behind it. -/
theorem get_removed_of_ne (h : ∀ i < n, i % k = j → p ≠ loc ∧ p ≠ loc.cat (decimal i)) :
    (removed k σ loc n j).get p = (σ j).get p := by
  refine inTurn_eq (g := fun s : Store => s.get p) fun i hi hj s => ?_
  rw [Store.get_remove_of_ne (h i hi hj).2, Store.get_remove_of_ne (h i hi hj).1]

end Frame

/-! ### What the system does -/

section System

variable {c : Config} {t : ℕ} {σ : ℕ → Store} {loc name : CStr} {content : List Byte} {f : Conf}

/-- The location that is registered is one in the directory of the data server. -/
theorem newLoc_eq (σ : ℕ → Store) {name : CStr} (hslash : Client.slash ∉ name.bytes) :
    ∃ base, Client.slash ∉ base.bytes ∧ newLoc σ name = location base := by
  unfold newLoc pick
  split
  · obtain ⟨n, hn, -⟩ := firstFree_eq (σ 0) (location name)
    refine ⟨numbered name n, ?_, ?_⟩
    · have hl : Client.slash ∉ (lit "(").bytes ∧ Client.slash ∉ (lit ")").bytes := by decide
      have hd : Client.slash ∉ decBytes n := fun h => absurd (isDigit_of_mem_digits h) (by decide)
      simp [numbered, CStr.cat, hslash, hl, decimal, hd]
    · rw [hn]
      simp [numbered, location, CStr.cat]
  · exact ⟨name, hslash, rfl⟩

theorem partLoc_zero {k : ℕ} (hk : 0 < k) (σ : ℕ → Store) (name : CStr) :
    partLoc k σ (newLoc σ name) 0 = newLoc σ name := by
  rw [partLoc, if_pos hk]
  exact pick_of_not_exists not_exists_pick

/-- Each server uses the location that `partLoc` says. -/
theorem placed_partLoc {k i : ℕ} {base : CStr} (hk : 0 < k) :
    placed (uploaded k σ (location base) content i (i % k)) base (decimal (i / k : ℕ)) =
      partLoc k σ (location base) i := by
  unfold placed partLoc
  by_cases hi : i < k
  · have hz : decimal ((0 : ℕ) : ℤ) = lit "0" := by decide
    rw [if_pos hi, Nat.mod_eq_of_lt hi, Nat.div_eq_of_lt hi, if_pos hz, uploaded, inTurn_of_le le_rfl hi]
  · have hd : ¬ decimal ((i / k : ℕ) : ℤ) = lit "0" := by
      intro h
      have := decimal_eq_zero h
      rw [Nat.div_eq_zero_iff] at this
      omega
    rw [if_neg hi, if_neg hd]

/-- The parts behind the first one are stored. -/
theorem goes_uploadedParts (base : CStr) (hk : 0 < c.no_of_dataservers) (hnul : (0 : Byte) ∉ content) {n i : ℕ}
    (hi0 : i ≠ 0) (hi : i + n ≤ 10 ^ 9) (hs : f.store = uploaded c.no_of_dataservers σ (location base) content i)
    (hf : f.client =
      sendParts c t n i (i % c.no_of_dataservers) (i / c.no_of_dataservers) base (content.drop (i * BLOCKSIZE)))
    (ha : f.answers = fun _ => []) : Goes c f { f with
      client := done t
      store := uploaded c.no_of_dataservers σ (location base) content (i + n) } := by
  obtain ⟨store, rfl, hg⟩ := goes_parts
    (I := fun i store => store = uploaded c.no_of_dataservers σ (location base) content i) hk hnul
    (fun i σ' he => by rw [he, placed_partLoc hk]; rfl) hi0 hi hs hf ha
  exact hg

/-- **An upload**: the servers hold the parts of what is read of the file, and the name server has been sent their number
and the location. -/
theorem goes_uploaded (hk : 0 < c.no_of_dataservers) (hslash : Client.slash ∉ name.bytes)
    (hdisk : c.disk t name = some content) (hnul : (0 : Byte) ∉ readable c content) (hparts : partsOf content < 10 ^ 9)
    {q : CStr → CStr → NameServer.Mem} (hname : f.name = .read () fun parts => .read () fun loc => .ret (q parts loc))
    (hf : f.client = transfertoBigFS c t name) (hr : f.reply = []) (ha : f.answers = fun _ => []) : Goes c f { f with
      client := done t
      name := .ret (q (decimal (partsOf content)) (newLoc f.store name))
      store := uploaded c.no_of_dataservers f.store (newLoc f.store name) (readable c content) (partsOf content) } := by
  obtain ⟨base, hbase, hloc⟩ := newLoc_eq f.store hslash
  -- the number of parts
  have hsend : Star.Sends (bigfs c) .name f.client (decimal (partsOf content)).z
      (sendParts c t (partsOf content) 0 0 0 name (readable c content)) := by
    rw [hf, transfertoBigFS_eq hslash hdisk hparts]
    exact sends_one
  have hrun : (f.name.enter fun s => .read () (NameServer.dispatch s)).run [decimal (partsOf content)] =
      ([], .read () fun loc => .ret (q (decimal (partsOf content)) loc), []) := by
    rw [hname]
    rfl
  refine (goes_name hsend hrun).trans ?_
  -- the first part, and the location it is given
  refine (goes_part (by decide) (by decide) hnul
    (show _ = sendParts c t (content.length / BLOCKSIZE + 1) 0 0 0 name (readable c content) from rfl) (by exact ha)).trans ?_
  have hplaced : placed (f.store 0) name (decimal ((0 : ℕ) : ℤ)) = newLoc f.store name := if_pos (by decide)
  have hround := next_round (i := 0) hk
  rw [Nat.zero_mod, Nat.zero_div] at hround
  rw [hplaced]
  simp only [partSent, if_true, advance_eq hk, hround, Nat.zero_add]
  refine (goes_name (m := newLoc f.store name) (q := .ret (q (decimal (partsOf content)) (newLoc f.store name)))
    sends_one rfl).trans ?_
  rw [hloc, baseName_location hbase, ← hloc]
  -- and the others
  refine (goes_uploadedParts (σ := f.store) base (i := 1) (n := content.length / BLOCKSIZE) hk hnul one_ne_zero
    (by unfold partsOf at hparts; omega) ?_ (by rw [Nat.one_mul]) (by exact ha)).trans ?_
  · have h0 := partLoc_zero hk f.store name
    show Function.update f.store 0 _ = uploaded _ _ _ _ 1
    rw [← hloc, uploaded, inTurn, inTurn, Nat.zero_mod, h0]
    simp [block]
  · rw [← hloc, Nat.add_comm, ← partsOf, hr]
    exact Goes.refl

/-- The strings of a request to remove a chunk. -/
theorem sends_remove {i : Server} {num : CStr} {k : Client.Op} :
    Star.Sends (bigfs c) i (send i (lit "rm") <| send i loc <| send i num k) ([lit "rm", loc, num].flatMap CStr.z) k := by
  have hb : [lit "rm", loc, num].flatMap CStr.z = (lit "rm").z ++ (loc.z ++ (num.z ++ [])) := by simp
  rw [hb]
  exact sends_write _ (sends_write _ (sends_write _ sends_nil))

/-- **A removal**: every chunk has been removed, and the location on every server that was asked. -/
theorem goes_removed (hk : 0 < c.no_of_dataservers) {n i : ℕ} (hi : i + n ≤ 10 ^ 9)
    (hs : f.store = removed c.no_of_dataservers σ loc i)
    (hf : f.client = removeChunks c t loc n i (i % c.no_of_dataservers)) (ha : f.answers = fun _ => []) : Goes c f { f with
      client := done t
      store := removed c.no_of_dataservers σ loc (i + n) } := by
  induction n generalizing i f with
  | zero =>
    have hc : f.client = done t := hf
    rw [Nat.add_zero, ← hc, ← hs]
    exact Goes.refl
  | succ n ih =>
    have hclient : f.client = _ := hf.trans (by
      rw [removeChunks, sprintf_eq (by omega), Proc.attempt_ok, advance_eq hk, next_turn])
    refine (goes_data (hclient ▸ sends_remove) rfl remove_run).trans ?_
    rw [enqueue_nil, show i + (n + 1) = i + 1 + n by omega]
    exact ih (i := i + 1) (by omega) (by rw [hs]; rfl) rfl ha

/-- The path that the first server finds for a copy. -/
def copyLoc (σ : ℕ → Store) (loc : CStr) : CStr := firstFree (σ 0) loc

/-- A copy does not touch the chunks that are yet to be copied. -/
theorem get_copiedParts {k n i j : ℕ} :
    (copiedParts k σ loc (copyLoc σ loc) n j).get (loc.cat (decimal i)) = (σ j).get (loc.cat (decimal i)) := by
  obtain ⟨m, hm, -⟩ := firstFree_eq (σ 0) loc
  rw [copyLoc, hm]
  exact get_copiedParts_of_ne fun i' _ _ =>
    ⟨(numbered_ne_chunk loc loc m i).symm, (numbered_cat_ne loc (decimal i') m i).symm⟩

/-- The strings of a request to copy a chunk. -/
theorem sends_copy {i : Server} {num new : CStr} {k : Client.Op} :
    Star.Sends (bigfs c) i (send i (lit "cp") <| send i loc <| send i num <| send i new k)
      ([lit "cp", loc, num, new].flatMap CStr.z) k := by
  have hb : [lit "cp", loc, num, new].flatMap CStr.z = (lit "cp").z ++ (loc.z ++ (num.z ++ (new.z ++ []))) := by simp
  rw [hb]
  exact sends_write _ (sends_write _ (sends_write _ (sends_write _ sends_nil)))

theorem sends_firstCopy {i : Server} {num : CStr} {k : Client.Op} :
    Star.Sends (bigfs c) i (send i (lit "cp") <| send i loc <| send i num k) ([lit "cp", loc, num].flatMap CStr.z) k := by
  have hb : [lit "cp", loc, num].flatMap CStr.z = (lit "cp").z ++ (loc.z ++ (num.z ++ [])) := by simp
  rw [hb]
  exact sends_write _ (sends_write _ (sends_write _ sends_nil))

/-- The chunks behind the first one are copied. -/
theorem goes_copiedChunks (hk : 0 < c.no_of_dataservers) {n i : ℕ} (hi0 : i ≠ 0) (hi : i + n ≤ 10 ^ 9)
    (hex : ∀ m < i + n, (σ (m % c.no_of_dataservers)).Exists (loc.cat (decimal m)))
    (hs : f.store = copiedParts c.no_of_dataservers σ loc (copyLoc σ loc) i)
    (hf : f.client = copyChunks c t loc n i (i % c.no_of_dataservers) (copyLoc σ loc)) (ha : f.answers = fun _ => []) :
    Goes c f { f with
      client := done t
      store := copiedParts c.no_of_dataservers σ loc (copyLoc σ loc) (i + n) } := by
  induction n generalizing i f with
  | zero =>
    have hc : f.client = done t := hf
    rw [Nat.add_zero, ← hc, ← hs]
    exact Goes.refl
  | succ n ih =>
    have hclient : f.client = _ := hf.trans (by
      simp only [copyChunks, sprintf_eq (show i < 10 ^ 9 by omega), Proc.attempt_ok, if_neg hi0, advance_eq hk, next_turn]
      rfl)
    obtain ⟨b, hb⟩ := Option.isSome_iff_exists.1 (hex i (by omega))
    have hget : (f.store (i % c.no_of_dataservers)).get (loc.cat (decimal i)) = some b := by
      rw [hs, get_copiedParts]
      exact hb
    have hne : decimal i ≠ lit "0" := fun h => hi0 (decimal_eq_zero h)
    refine (goes_data (hclient ▸ sends_copy) rfl (copy_run hne hget)).trans ?_
    rw [enqueue_nil, show i + (n + 1) = i + 1 + n by omega]
    exact ih (i := i + 1) (Nat.succ_ne_zero i) (by omega) (fun m hm => hex m (by omega)) (by rw [hs]; rfl) rfl ha

/-- **A copy**: every chunk has been copied behind the path that the first server has found, which the name server has
been sent. -/
theorem goes_copied (hk : 0 < c.no_of_dataservers) {n : ℕ} (hn : 0 < n) (hlt : n < 10 ^ 9)
    (hex : ∀ m < n, (f.store (m % c.no_of_dataservers)).Exists (loc.cat (decimal m)))
    {q : CStr → NameServer.Mem} (hname : f.name = .read () fun loc => .ret (q loc))
    (hf : f.client = copyChunks c t loc n 0 0 (lit "")) (hr : f.reply = []) (ha : f.answers = fun _ => []) : Goes c f { f with
      client := done t
      name := .ret (q (copyLoc f.store loc))
      store := copiedParts c.no_of_dataservers f.store loc (copyLoc f.store loc) n } := by
  obtain ⟨n, rfl⟩ : ∃ m, n = m + 1 := ⟨n - 1, by omega⟩
  have hclient : f.client = _ := hf.trans (by
    simp only [copyChunks, sprintf_eq (show 0 < 10 ^ 9 by decide), Proc.attempt_ok, if_true]
    rfl)
  have hz : decimal ((0 : ℕ) : ℤ) = lit "0" := by decide
  obtain ⟨b, hb⟩ := Option.isSome_iff_exists.1 (hex 0 hn)
  rw [Nat.zero_mod] at hb
  have hrun : (dispatch (f.store 0) (lit "cp")).run [loc, lit "0"] = _ := copy_run_first (b := b) (by rw [← hz]; exact hb)
  rw [← hz] at hrun
  -- the first chunk, and the path that is found for it
  refine (goes_data (hclient ▸ sends_firstCopy) rfl hrun).trans ?_
  refine (goes_answer (m := copyLoc f.store loc) (r := []) rfl (by simp [ha, copyLoc])).trans ?_
  refine (goes_name (m := copyLoc f.store loc) (q := .ret (q (copyLoc f.store loc))) sends_one (by
    rw [hname]
    rfl)).trans ?_
  -- and the others
  have hround := next_turn (k := c.no_of_dataservers) (i := 0)
  rw [Nat.zero_mod] at hround
  rw [advance_eq hk, hround]
  refine (goes_copiedChunks (σ := f.store) (i := 1) (n := n) hk one_ne_zero (by omega) (fun m hm => hex m (by omega)) ?_
    rfl ?_).trans ?_
  · show Function.update f.store 0 _ = copiedParts _ _ _ _ 1
    rw [copiedParts, inTurn, inTurn, Nat.zero_mod]
    rfl
  · simp [ha, enqueue]
  · rw [hr, show 1 + n = n + 1 from Nat.add_comm 1 n]
    simp [ha, enqueue, Goes.refl]

end System

end NetProg.BigFs
