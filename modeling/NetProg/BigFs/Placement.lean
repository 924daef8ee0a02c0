import NetProg.BigFs.Isolation
import NetProg.Lib.Written
import NetProg.NameServer.Safety

/-!
# Where the parts of a file are

In the first round of an upload every data server looks for a free name by itself, and only what the first one finds is
registered.  `placed_iff`: every run of an upload ends with all parts behind the registered location if and only if the
other servers find that location free, or hold the same bytes there already.
-/

namespace NetProg.BigFs

open NetProg.Lib NetProg.Client NetProg.Receive NetProg.DataServer

/-! ### Text on the data servers -/

/-- No file has a NUL in it. -/
def Text (s : Store) : Prop := ∀ f ∈ s, (0 : Byte) ∉ f.2

section Text

variable {s : Store} {p : CStr} {b : List Byte} {k : DataServer.Op}

theorem Text.put (h : Text s) (hb : (0 : Byte) ∉ b) : Text (s.put p b) := by
  intro f hf
  rcases List.mem_cons.1 hf with rfl | hf
  · exact hb
  · exact h f hf

theorem Text.remove (h : Text s) : Text (s.remove p) := fun f hf => h f (List.mem_filter.1 hf).1

theorem Text.get (h : Text s) (hb : s.get p = some b) : (0 : Byte) ∉ b := by
  obtain ⟨l₁, l₂, rfl, -⟩ := List.lookup_eq_some_iff.1 hb
  exact h (p, b) (by simp)

theorem yields_printLoop (hk : k.Yields Text) (fuel : ℕ) (rest : List Byte) :
    (printLoop fuel rest k).Yields Text := by
  induction fuel generalizing rest with
  | zero => exact hk
  | succ fuel ih =>
    unfold printLoop
    split_ifs
    · exact hk
    · exact ih _
    · exact ih _

/-- A copy of a text is one. -/
theorem copyBytes_text (h : Text s) (source : CStr) : (0 : Byte) ∉ copyBytes ((s.get source).getD []) := by
  intro h0
  have hmem := (List.takeWhile_prefix _).subset h0
  cases hg : s.get source with
  | none => simp [hg] at hmem
  | some b => exact h.get hg (by simpa [hg] using hmem)

theorem yields_copyTo (h : Text s) (source name chunks : CStr) : (copyTo s source name chunks).Yields Text := by
  unfold copyTo
  have hs : Text ((s.put name []).put (name.cat chunks) []) := (h.put List.not_mem_nil).put List.not_mem_nil
  split
  · trivial
  · exact hs.put (copyBytes_text hs source)

/-- **A data server stores text only**, whatever it is sent. -/
theorem yields_dispatch (h : Text s) (choice : CStr) : (dispatch s choice).Yields Text := by
  unfold dispatch
  split_ifs
  · exact fun temp_buf name count num => .attempt fun dir => (h.put List.not_mem_nil).put temp_buf.nul_free
  · intro data_loc
    dsimp only
    split
    · trivial
    · exact yields_printLoop (by exact h) _ _
  · intro name chunks
    split
    · exact h.remove.remove
    · exact h.remove
  · intro name chunks
    show Proc.Yields Text (if chunks = lit "0" then _ else _)
    split
    · exact .attempt fun str => yields_copyTo h _ _ _
    · exact fun new => yields_copyTo h _ _ _
  · exact h

end Text

/-! ### Where an upload leaves the parts -/

section Parts

variable {k n i : ℕ} {σ : ℕ → Store} {loc : CStr} {content : List Byte}

theorem partLoc_eq_iff (hi : i < k) : partLoc k σ loc i = loc ↔ ¬ (σ i).Exists loc := by
  rw [partLoc, if_pos hi, pick_eq_self_iff]

/-- A part that is put behind the location is there. -/
theorem get_uploaded_self (hi : i < n) (hloc : partLoc k σ loc i = loc) :
    (uploaded k σ loc content n (i % k)).get (loc.cat (decimal i)) = some (block BLOCKSIZE content i) := by
  have hlater : ∀ i' < n, i + 1 ≤ i' → i' % k = i % k → ∀ s : Store,
      (storedAt s (partLoc k σ loc i') (decimal i') (block BLOCKSIZE content i')).get (loc.cat (decimal i)) =
        s.get (loc.cat (decimal i)) := by
    intro i' _ hlt hmod s
    -- the server has had its turn of the first round
    have hk : ¬ i' < k := fun hk => by
      rw [Nat.mod_eq_of_lt hk, Nat.mod_eq_of_lt (by omega)] at hmod
      omega
    rw [partLoc, if_neg hk]
    exact get_storedAt_of_ne (cat_decimal_ne loc i) fun h => by
      have := cat_decimal_injective loc h
      omega
  have hget := inTurn_congr (σ := σ) (k := k) (j := i % k) (g := fun s : Store => s.get (loc.cat (decimal i)))
    (f := fun i s => storedAt s (partLoc k σ loc i) (decimal i) (block BLOCKSIZE content i)) (Nat.succ_le_of_lt hi) hlater
  refine hget.trans ?_
  rw [inTurn_succ_self, hloc, get_storedAt_self]

/-- One that is put elsewhere leaves there what was there before. -/
theorem get_uploaded_of_taken (hi : i < k) (hloc : partLoc k σ loc i ≠ loc) :
    (uploaded k σ loc content n i).get (loc.cat (decimal i)) = (σ i).get (loc.cat (decimal i)) := by
  refine get_uploaded_of_ne fun i' _ hmod => ?_
  by_cases hk : i' < k
  · rw [Nat.mod_eq_of_lt hk] at hmod
    subst hmod
    rw [partLoc, if_pos hi] at hloc ⊢
    rw [pick, if_pos (not_not.1 fun h => hloc (pick_of_not_exists h))]
    obtain ⟨m, hm, -⟩ := firstFree_eq (σ i') loc
    rw [hm]
    exact ⟨(numbered_ne_chunk loc loc m i').symm, (numbered_cat_ne loc _ m i').symm⟩
  · rw [partLoc, if_neg hk]
    refine ⟨cat_decimal_ne loc i, fun h => ?_⟩
    have := cat_decimal_injective loc h
    omega

/-- The condition on the data servers: in the first round, the location is free, or what is there already is the part. -/
def Agreeing (k : ℕ) (σ : ℕ → Store) (loc : CStr) (content : List Byte) : Prop :=
  ∀ i, 0 < i → i < k → i < partsOf content →
    (σ i).Exists loc → (σ i).get (loc.cat (decimal i)) = some (block BLOCKSIZE content i)

/-- **All parts are behind the location** if and only if the servers agree on it. -/
theorem uploaded_iff (hk : 0 < k) (name : CStr) :
    (∀ i < partsOf content, (uploaded k σ (newLoc σ name) content (partsOf content) (i % k)).get
      ((newLoc σ name).cat (decimal i)) = some (block BLOCKSIZE content i)) ↔ Agreeing k σ (newLoc σ name) content := by
  constructor
  · intro h i _ hik hi hex
    have hne : partLoc k σ (newLoc σ name) i ≠ newLoc σ name := fun he => (partLoc_eq_iff hik).1 he hex
    have := h i hi
    rwa [Nat.mod_eq_of_lt hik, get_uploaded_of_taken hik hne] at this
  · intro h i hi
    by_cases hloc : partLoc k σ (newLoc σ name) i = newLoc σ name
    · exact get_uploaded_self hi hloc
    · have hik : i < k := by
        by_contra hik
        exact hloc (if_neg hik)
      have hi0 : 0 < i := by
        rcases Nat.eq_zero_or_pos i with rfl | hi0
        · exact absurd (partLoc_zero hk σ name) hloc
        · exact hi0
      have hex : (σ i).Exists (newLoc σ name) := not_not.1 fun he => hloc ((partLoc_eq_iff hik).2 he)
      rw [Nat.mod_eq_of_lt hik, get_uploaded_of_taken hik hloc]
      exact h i hi0 hik hi hex

/-- A byte of a list is in one of its pieces. -/
theorem exists_mem_block {b : Byte} (h : b ∈ content) : ∃ i < partsOf content, b ∈ block BLOCKSIZE content i := by
  obtain ⟨m, hm, rfl⟩ := List.mem_iff_getElem.1 h
  have hpos : 0 < BLOCKSIZE := by decide
  have hdiv := Nat.div_add_mod m BLOCKSIZE
  have hlt := Nat.mod_lt m hpos
  rw [Nat.mul_comm] at hdiv
  refine ⟨m / BLOCKSIZE, Nat.lt_succ_of_le (Nat.div_le_div_right (Nat.le_of_lt hm)), ?_⟩
  rw [block, List.mem_iff_getElem]
  refine ⟨m % BLOCKSIZE, ?_, ?_⟩
  · rw [List.length_take, List.length_drop]
    omega
  · rw [List.getElem_take, List.getElem_drop]
    simp only [hdiv]

end Parts

/-! ### The name server -/

section Name

open NetProg.NameServer (Mem attach setLocName newFile)

/-- The name server takes the name for a new file: whatever is sent behind it, the command is carried out. -/
def Accepts (s : Mem) (name : CStr) : Prop :=
  ∀ parts loc, ∃ s', NameServer.Step s (.tobigfs name parts loc) (lit "0").z s'

/-- Its memory once it has the file. -/
def withFile (s : Mem) (name parts loc : CStr) : Mem :=
  match attach (s.heap ++ [newFile s name parts]) s.cur s.heap.length with
  | .ok heap => { s with heap := setLocName heap s.heap.length loc }
  | .error _ => s

variable {s : Mem} {name parts loc : CStr}

/-- What the name server asks of a new file. -/
theorem Accepts.elim (h : Accepts s name) (hslash : NameServer.slash ∉ name.bytes) (parts : CStr) :
    ∃ d heap, NameServer.deref s.heap s.cur = .ok d ∧ NameServer.lookup s.heap name d.2.child = .ok none ∧
      NameServer.strcpyName name = .ok name ∧
      attach (s.heap ++ [newFile s name parts]) s.cur s.heap.length = .ok heap := by
  have hb : NameServer.baseName name = name := by simp [NameServer.baseName, fields_of_not_mem hslash]
  obtain ⟨s', hst⟩ := h parts (lit "")
  have hends : (NameServer.tobigfs s).Ends [name, parts, lit ""] (lit "0").z s' := hst
  rw [NameServer.tobigfs, Proc.ends_read, hb, Proc.ends_attempt] at hends
  obtain ⟨d, hd, hends⟩ := hends
  obtain ⟨o, hl, hends⟩ := Proc.ends_attempt.1 hends
  rcases o with _ | a
  · obtain ⟨o, -, hends⟩ := Proc.ends_write.1 hends
    obtain ⟨name', hn, hends⟩ := Proc.ends_attempt.1 hends
    have hname : name' = name := (NameServer.strcpyName_eq_ok.1 hn).2
    rw [hname] at hn hends
    obtain ⟨heap, ha, -⟩ := Proc.ends_attempt.1 (Proc.ends_read.1 hends)
    exact ⟨d, heap, hd, hl, hn, ha⟩
  · obtain ⟨o, ho, -⟩ := Proc.ends_write.1 hends
    have hz : (lit "0").z = [48, 0] ∧ (lit "1").z = [49, 0] := by decide
    simp [hz] at ho

theorem Accepts.run (h : Accepts s name) (hslash : NameServer.slash ∉ name.bytes) :
    (NameServer.tobigfs s).run [name] =
      ((lit "0").z, .read () fun parts => .read () fun loc => .ret (withFile s name parts loc), []) := by
  have hb : NameServer.baseName name = name := by simp [NameServer.baseName, fields_of_not_mem hslash]
  obtain ⟨d, -, hd, hl, hn, -⟩ := h.elim hslash (lit "")
  have hrest : (fun parts => Proc.attempt s (attach (s.heap ++ [newFile s name parts]) s.cur s.heap.length) fun heap =>
      .read () fun loc => .ret { s with heap := setLocName heap s.heap.length loc } : CStr → NameServer.Op) =
      fun parts => .read () fun loc => .ret (withFile s name parts loc) := by
    funext parts
    obtain ⟨-, heap, -, -, -, ha⟩ := h.elim hslash parts
    unfold withFile
    rw [ha, Proc.attempt_ok]
  rw [NameServer.tobigfs, Proc.run_read, hb, hd, Proc.attempt_ok]
  dsimp only
  rw [hl, Proc.attempt_ok, hn]
  simp only [NameServer.reply, Proc.run_write, Proc.attempt_ok, hrest, Proc.run_read_nil, List.append_nil]

/-- The location is registered. -/
theorem Accepts.loc_name (h : Accepts s name) (hslash : NameServer.slash ∉ name.bytes) (parts loc : CStr) :
    ∃ n, (withFile s name parts loc).heap[s.heap.length]? = some n ∧ n.loc_name = loc := by
  obtain ⟨-, heap, -, -, -, ha⟩ := h.elim hslash parts
  have hlen : heap.length = s.heap.length + 1 := by
    obtain ⟨c, l, -, -, -, -, rfl⟩ := NameServer.attach_eq_ok ha
    simp
  obtain ⟨n, hn⟩ := NameServer.exists_get (show s.heap.length < heap.length by omega)
  refine ⟨{ n with loc_name := loc }, ?_, rfl⟩
  unfold withFile
  rw [ha]
  simp [setLocName, hn]

end Name

/-! ### The line -/

section Line

variable {c : Config} {t : ℕ} {s : NameServer.Mem} {σ : ℕ → Store} {name : CStr} {content : List Byte}

/-- An upload is typed at the prompt, and nothing else is under way. -/
def uploading (t : ℕ) (s : NameServer.Mem) (σ : ℕ → Store) (name : CStr) : Conf where
  client := .ret (.prompt t)
  name := .ret s
  store := σ
  reply := []
  answers _ := []
  typed := (uploadLine name).z
  printed := []

/-- The file is registered in the node `a`, and each part is on its server behind the location that stands there. -/
structure Placed (t a : ℕ) (content : List Byte) (x : (bigfs c).State) : Prop where
  client : x.client = .ret (.prompt (t + 1))
  parts : ∃ mem n, x.server .name = .ret mem ∧ mem.heap[a]? = some n ∧ ∀ i < partsOf content, ∃ store,
    x.server (.data (i % c.no_of_dataservers)) = .ret store ∧
      store.get (n.loc_name.cat (decimal i)) = some (block BLOCKSIZE content i)

/-- What an upload must meet. -/
structure Placeable (c : Config) (σ : ℕ → Store) (name : CStr) (content : List Byte) : Prop where
  text : (0 : Byte) ∉ content
  parts : partsOf content < 10 ^ 9
  read : content = [] ∨ c.streamSize ≤ content.length
  agreeing : Agreeing c.no_of_dataservers σ (newLoc σ name) content

/-- The name server is asked for the name, and accepts it. -/
theorem goes_accepted (hslash : Client.slash ∉ (firstWord name).bytes) (hacc : Accepts s (firstWord name)) :
    Goes c (uploading t s σ name) { uploading t s σ name with
      client := transfertoBigFS c t (firstWord name)
      name := .read () fun parts => .read () fun loc => .ret (withFile s (firstWord name) parts loc)
      typed := [] } := by
  have hne : lit "0" ≠ lit "1" := by decide
  refine (goes_line (r := []) rfl (List.append_nil _).symm).trans ?_
  rw [command_uploadLine]
  refine (goes_name (m := lit "tobigfs") (q := NameServer.tobigfs s) sends_one rfl).trans ?_
  refine (goes_name (m := firstWord name) sends_one (by exact hacc.run hslash)).trans ?_
  refine (goes_reply (m := lit "0") (r := []) rfl (by simp [uploading])).trans ?_
  rw [if_neg hne]
  exact Goes.refl

/-- A text whose parts can be counted: it is placed where the servers come to hold its parts. -/
theorem placed_iff_uploaded (hk : 0 < c.no_of_dataservers) (hslash : Client.slash ∉ (firstWord name).bytes)
    (hdisk : c.disk t (firstWord name) = some content) (hacc : Accepts s (firstWord name)) (hnul : (0 : Byte) ∉ content)
    (hparts : partsOf content < 10 ^ 9) :
    AlwaysEnds Star.step ((uploading t s σ name).state c) (Placed (c := c) t s.heap.length content) ↔
      ∀ i < partsOf content, (uploaded c.no_of_dataservers σ (newLoc σ (firstWord name)) (readable c content)
        (partsOf content) (i % c.no_of_dataservers)).get ((newLoc σ (firstWord name)).cat (decimal i)) =
          some (block BLOCKSIZE content i) := by
  let f : Conf := { uploading t s σ name with
    client := done t
    name := .ret (withFile s (firstWord name) (decimal (partsOf content)) (newLoc σ (firstWord name)))
    store := uploaded c.no_of_dataservers σ (newLoc σ (firstWord name)) (readable c content) (partsOf content)
    typed := [] }
  have hg : Goes c (uploading t s σ name) f := (goes_accepted hslash hacc).trans
    (goes_uploaded hk hslash hdisk (fun h => hnul (mem_of_mem_readable h)) hparts rfl rfl rfl rfl)
  rw [Star.step_comm.alwaysEnds_iff hg (ended_state rfl rfl rfl rfl rfl)]
  obtain ⟨n, hn, hloc⟩ := hacc.loc_name hslash (decimal (partsOf content)) (newLoc σ (firstWord name))
  constructor
  · intro h i hi
    obtain ⟨mem, n', hmem, hn', hall⟩ := h.parts
    cases hmem
    rw [hn, Option.some.injEq] at hn'
    subst hn'
    obtain ⟨store, hs, hget⟩ := hall i hi
    cases hs
    rwa [hloc] at hget
  · intro h
    exact ⟨rfl, _, n, rfl, hn, fun i hi => ⟨_, rfl, by rw [hloc]; exact h i hi⟩⟩

/-- If all of it is read, it is placed where the servers agree. -/
theorem placed_iff_agreeing (hk : 0 < c.no_of_dataservers) (hslash : Client.slash ∉ (firstWord name).bytes)
    (hdisk : c.disk t (firstWord name) = some content) (hacc : Accepts s (firstWord name)) (hnul : (0 : Byte) ∉ content)
    (hparts : partsOf content < 10 ^ 9) (hread : readable c content = content) :
    AlwaysEnds Star.step ((uploading t s σ name).state c) (Placed (c := c) t s.heap.length content) ↔
      Agreeing c.no_of_dataservers σ (newLoc σ (firstWord name)) content := by
  rw [placed_iff_uploaded hk hslash hdisk hacc hnul hparts, hread]
  exact uploaded_iff hk _

/-- If nothing of it is read, its first part is not. -/
theorem not_placed_of_short (hk : 0 < c.no_of_dataservers) (hslash : Client.slash ∉ (firstWord name).bytes)
    (hdisk : c.disk t (firstWord name) = some content) (hacc : Accepts s (firstWord name)) (hnul : (0 : Byte) ∉ content)
    (hparts : partsOf content < 10 ^ 9) (hne : content ≠ []) (hshort : content.length < c.streamSize) :
    ¬ AlwaysEnds Star.step ((uploading t s σ name).state c) (Placed (c := c) t s.heap.length content) := by
  rw [placed_iff_uploaded hk hslash hdisk hacc hnul hparts]
  intro h
  have hpos : 0 < partsOf content := Nat.succ_pos _
  have hget := h 0 hpos
  rw [readable, if_pos hshort, get_uploaded_self hpos (partLoc_zero hk σ _), Option.some.injEq] at hget
  have hlen := (block_eq_nil_iff (B := BLOCKSIZE) (l := content) (i := 0) (by decide)).1
    (hget.symm.trans ((block_eq_nil_iff (by decide)).2 (Nat.zero_le _)))
  rw [Nat.zero_mul, Nat.le_zero, List.length_eq_zero_iff] at hlen
  exact hne hlen

/-- **Placement.**  Every run of the upload of a new file ends with each part on its server, behind the location that the
name server has, if and only if the file is `Placeable`. -/
theorem placed_iff (hk : 0 < c.no_of_dataservers) (hslash : Client.slash ∉ (firstWord name).bytes)
    (hdisk : c.disk t (firstWord name) = some content) (hacc : Accepts s (firstWord name)) (htext : ∀ j, Text (σ j)) :
    AlwaysEnds Star.step ((uploading t s σ name).state c) (Placed (c := c) t s.heap.length content) ↔
      Placeable c σ (firstWord name) content := by
  by_cases hnul : (0 : Byte) ∈ content
  · -- a part with a NUL in it is on no server
    refine iff_of_false ?_ fun h => h.text hnul
    obtain ⟨i, hi, hmem⟩ := exists_mem_block hnul
    refine not_alwaysEnds (I := fun x => (x.server (.data (i % c.no_of_dataservers))).Yields Text)
      (fun x a y => Star.yields_step (S := bigfs c) (i := .data (i % c.no_of_dataservers))
        fun s hs => fun m => yields_dispatch hs m) (fun x hx h => ?_) .refl (htext _)
    obtain ⟨-, n, -, -, hall⟩ := h.parts
    obtain ⟨store, hs, hget⟩ := hall i hi
    rw [hs] at hx
    exact Text.get (s := store) hx hget hmem
  · by_cases hparts : partsOf content < 10 ^ 9
    · by_cases hread : content = [] ∨ c.streamSize ≤ content.length
      · rw [placed_iff_agreeing hk hslash hdisk hacc hnul hparts (readable_eq_iff.2 hread)]
        exact ⟨fun h => ⟨hnul, hparts, hread, h⟩, fun h => h.agreeing⟩
      · rw [not_or, Nat.not_le] at hread
        exact iff_of_false (not_placed_of_short hk hslash hdisk hacc hnul hparts hread.1 hread.2)
          fun h => h.read.elim hread.1 (Nat.not_le.2 hread.2)
    · -- the number of parts stops the client
      refine iff_of_false ?_ fun h => hparts h.parts
      refine not_alwaysEnds (I := fun x => x.client = .halt .overflow (.prompt t)) (fun x a y => Star.halted_client)
        (fun x hx h => ?_) (goes_accepted hslash hacc) ?_
      · have hc := h.client
        rw [hx] at hc
        cases hc
      · show transfertoBigFS c t (firstWord name) = _
        unfold transfertoBigFS
        rw [hdisk]
        simp only [Nat.add_comm 1]
        rw [← partsOf, sprintf_eq_error (Nat.not_lt.1 hparts), Proc.attempt_error]
        rfl

/-- The file `a` is uploaded to two servers. -/
theorem placed_iff_page : AlwaysEnds Star.step
    ((uploading 0 (NameServer.fresh NameServer.zeroed) (fun _ => []) (lit "a")).state (pages 2)) (Placed 0 1 page) := by
  have hw : firstWord (lit "a") = lit "a" := by decide
  have hlt := partsOf_page
  refine (placed_iff (c := pages 2) (by decide) (by rw [hw]; decide) rfl (by rw [hw]; exact fun _ _ => ⟨_, rfl⟩)
    fun _ f hf => absurd hf List.not_mem_nil).2
    ⟨page_text, by omega, .inr length_page.ge, fun i h0 _ hi => ?_⟩
  omega

end Line

/-! ### Files that are stored one after the other -/

section Reachable

variable {k : ℕ} {x : FileSystem} {ops : List FileOp}

theorem inTurn_text {σ : ℕ → Store} {f : ℕ → Store → Store} (hσ : ∀ j, Text (σ j)) (hf : ∀ i s, Text s → Text (f i s))
    (n j : ℕ) : Text (inTurn k f σ n j) := by
  induction n generalizing j with
  | zero => exact hσ j
  | succ n ih =>
    by_cases hj : n % k = j
    · rw [← hj, inTurn_succ_self]
      exact hf n _ (ih _)
    · rw [inTurn_succ_of_ne hj]
      exact ih j

/-- Whatever has been uploaded, copied and removed, the data servers hold text. -/
theorem text_reachable (h : Run (FileSystem.step k) (fun _ _ => True) .empty ops x) (j : ℕ) : Text (x.store j) := by
  refine h.inv (fun x => ∀ j, Text (x.store j)) (fun _ f hf => absurd hf List.not_mem_nil) (fun x op y hx _ hst => ?_) j
  cases op with
  | tobigfs name content =>
    simp only [FileSystem.step] at hst
    split at hst
    · next hc =>
      cases hst
      exact inTurn_text hx (fun i s hs => (hs.put List.not_mem_nil).put fun h0 => hc.2.1 (mem_of_mem_block h0)) _
    · cases hst
  | cp a =>
    obtain ⟨g, -, hst⟩ := Option.bind_eq_some_iff.1 hst
    split at hst
    · cases hst
      refine inTurn_text hx (fun i s hs => ?_) _
      exact ((hs.put List.not_mem_nil).put List.not_mem_nil).put
        (copyBytes_text ((hs.put List.not_mem_nil).put List.not_mem_nil) _)
    · cases hst
  | rm a =>
    obtain ⟨g, -, hst⟩ := Option.bind_eq_some_iff.1 hst
    split at hst
    · cases hst
      exact inTurn_text hx (fun i s hs => hs.remove.remove) _
    · cases hst

/-- A file of two parts, the last one empty. -/
def twoParts : List Byte := List.replicate BLOCKSIZE 97

/-- The files of two servers that have been given it as `a`. -/
def storeA : ℕ → Store := uploaded 2 FileSystem.empty.store (lit "data/a") twoParts 2

theorem storeA_eq : (storeA 0).get (lit "data/a1") = none ∧
    (storeA 1).get (lit "data/a1") = some (block BLOCKSIZE twoParts 1) ∧
    (storeA 1).get (lit "data/a11") = none := by
  have hp : ∀ i < 2, partLoc 2 FileSystem.empty.store (lit "data/a") i = lit "data/a" := by decide
  refine ⟨get_uploaded_of_ne fun i hi hj => ?_, ?_, get_uploaded_of_ne fun i hi _ => ?_⟩
  · rw [hp i hi]
    revert i
    decide
  · have hc : (lit "data/a").cat (decimal (1 : ℕ)) = lit "data/a1" := by decide
    rw [← hc]
    exact get_uploaded_self (k := 2) (i := 1) (by decide) (hp 1 (by decide))
  · rw [hp i hi]
    revert i
    decide

/-- **The claimed placement does not hold**: the second part of `a` has the path of the location of `a1`. -/
theorem not_placed : ¬ ∀ c t s ops x name content, 0 < c.no_of_dataservers →
    Run (FileSystem.step c.no_of_dataservers) (fun _ _ => True) .empty ops x →
    Client.slash ∉ (firstWord name).bytes → c.disk t (firstWord name) = some content → Accepts s (firstWord name) →
    AlwaysEnds Star.step ((uploading t s x.store name).state c) (Placed t s.heap.length content) := by
  intro h
  have hw : firstWord (lit "a1") = lit "a1" := by decide
  have hlen : partsOf twoParts = 2 := by
    rw [partsOf, twoParts, List.length_replicate]
    decide
  have hnul : (0 : Byte) ∉ twoParts := by
    intro h0
    exact absurd (List.eq_of_mem_replicate h0) (by decide)
  have hloc : newLoc FileSystem.empty.store (lit "a") = lit "data/a" := by decide
  have hst : FileSystem.empty.step 2 (.tobigfs (lit "a") twoParts) =
      some (FileSystem.empty.register 2 storeA (lit "data/a") 2) := by
    have hok : Client.slash ∉ (lit "a").bytes ∧ (0 : Byte) ∉ twoParts ∧ partsOf twoParts < 10 ^ 9 :=
      ⟨by decide, hnul, by rw [hlen]; decide⟩
    simp only [FileSystem.step, if_pos hok]
    rw [hloc, hlen, storeA]
  let c : Config := ⟨2, fun _ _ => some twoParts, 4096⟩
  have hread : readable c twoParts = twoParts := readable_of_le (by rw [twoParts, List.length_replicate]; decide)
  let s := oneFile NameServer.zeroed (lit "a") (lit "2") (lit "data/a")
  have hacc : Accepts s (firstWord (lit "a1")) := by
    rw [hw]
    exact fun _ _ => ⟨_, rfl⟩
  have hend := h c 0 s _ _ (lit "a1") twoParts (by decide) (.snoc .nil trivial hst) (by rw [hw]; decide) rfl hacc
  have hagree : Agreeing 2 storeA (newLoc storeA (firstWord (lit "a1"))) twoParts :=
    (placed_iff_agreeing (c := c) (by decide) (by rw [hw]; decide) rfl hacc hnul (by rw [hlen]; decide) hread).1
      hend
  obtain ⟨h0, h1, h11⟩ := storeA_eq
  have hnew : newLoc storeA (lit "a1") = lit "data/a1" :=
    pick_of_not_exists (by rw [Store.not_exists_iff]; exact h0)
  rw [hw] at hagree
  have hget := hagree 1 one_pos (by decide) (by rw [hlen]; decide) (by rw [hnew, Store.Exists, h1]; rfl)
  rw [hnew] at hget
  have hc : (lit "data/a1").cat (decimal (1 : ℕ)) = lit "data/a11" := by decide
  rw [hc, h11] at hget
  cases hget

end Reachable

end NetProg.BigFs
