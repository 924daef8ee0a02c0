import NetProg.BigFs.Transfer
import NetProg.Client.Rules
import NetProg.Lib.Written

/-!
# A file that is stored and fetched again

The line `frombigfs` writes the chunks to a local file through the buffer of a `FILE`, and the NUL that it ends with to
the descriptor.  The NUL comes before what the buffer still holds (`save_ends`), and it is no byte of a text file, so
that no fetched file is the stored one (`save_never`).
-/

namespace NetProg.BigFs

open NetProg.Lib NetProg.Client NetProg.Receive NetProg.DataServer

variable {c : Config} {garbage : ℕ → NameServer.Node} {name : CStr} {content : List Byte}

/-! ### What a line leaves in its file -/

/-- Nothing has been written to the file of the `t`-th line, or a NUL has, except while chunks are written to it. -/
def Marked (t : ℕ) (name : CStr) : Label → List Byte → Prop
  | .receiving t' (.file name' _) _ _ _, w => Local.file t' name' = .file t name ∨ w = [] ∨ (0 : Byte) ∈ w
  | _, w => w = [] ∨ (0 : Byte) ∈ w

/-- The client with the program `p` left, and `w` in the file, comes to the head of a loop where `Marked` holds. -/
def Marks (t : ℕ) (name : CStr) (p : Client.Op) (w : List Byte) : Prop := p.Leaves (.inr (.file t name)) (Marked t name) w

section Marked

variable {t t' : ℕ} {w : List Byte} {k : Client.Op} {m : CStr} {fd : Server}

/-- What a line does before chunks come is no matter to its file. -/
theorem closed_marks (c : Config) (t' : ℕ) (h : w = [] ∨ (0 : Byte) ∈ w) : Closed c t' fun p => Marks t name p w where
  server hk := (Proc.leaves_write_of_ne (by simp)).2 hk
  printf hk := (Proc.leaves_write_of_ne (by simp)).2 hk
  receive hk := hk
  halt _ := trivial
  divide _ := trivial
  done := h
  opened out _ := by
    cases out with
    | stdout => exact h
    | file name' pending => exact Or.inr h

@[simp] theorem marks_receive {k : CStr → Client.Op} : Marks t name (receive fd k) w ↔ ∀ m, Marks t name (k m) w := Iff.rfl

theorem marks_printf : Marks t name (printf m k) w ↔ Marks t name k w := Proc.leaves_write_of_ne (by simp)

theorem marks_advance {ptr : ℕ} {k : ℕ → Client.Op} (h : ∀ ptr', Marks t name (k ptr') w) :
    Marks t name (Client.advance c t' ptr k) w := by
  unfold Client.advance
  split
  · trivial
  · exact h _

theorem marks_receiveChunks {out : Stream} {n i ptr : ℕ} (h : Marked t name (.receiving t' out n i ptr) w) :
    Marks t name (receiveChunks c t' out n i ptr) w := by
  unfold receiveChunks
  split
  · refine marks_receive.2 fun temp_buf => ?_
    split
    · refine marks_advance fun _ => ?_
      cases out <;> exact h
    · cases out with
      | stdout => exact marks_printf.2 h
      | file name' pending =>
        by_cases hj : Local.file t' name' = .file t name
        · cases hj
          exact Proc.leaves_write_self.2 (.inl rfl)
        · exact (Proc.leaves_write_of_ne (by simpa using hj)).2 h
  · cases out with
    | stdout => exact marks_printf.2 h
    | file name' pending =>
      by_cases hj : Local.file t' name' = .file t name
      · cases hj
        exact Proc.leaves_write_self.2 (Proc.leaves_write_self.2 (.inr (by simp)))
      · refine (Proc.leaves_write_of_ne (by simpa using hj)).2 ((Proc.leaves_write_of_ne (by simpa using hj)).2 ?_)
        exact h.resolve_left hj

/-- What the client takes up at the head of a loop keeps `Marked`. -/
theorem marks_code (l : Label) (w : List Byte) (h : Marked t name l w) : Marks t name (code c l) w := by
  cases l with
  | prompt t' => exact fun line => (closed_marks c t' h).command line
  | receiving t' out n i ptr => exact marks_receiveChunks h

/-- **No text is fetched**: at a prompt, a file has been left empty or with a NUL in it. -/
theorem marks_step {x y : (bigfs c).State} {a : Option Server} (h : Marks t name x.client (x.output (.file t name)))
    (hst : Star.step x a = some y) : Marks t name y.client (y.output (.file t name)) :=
  Star.leaves_step (S := bigfs c) marks_code h hst

end Marked

/-! ### The two lines -/

/-- The line that fetches a file. -/
def saveLine (name : CStr) : CStr := (lit "frombigfs ").cat name

/-- Both lines have been carried out, and the content is what the second one has left in its file. -/
structure Saved (name : CStr) (content : List Byte) (x : (bigfs c).State) : Prop where
  client : x.client = .ret (.prompt 2)
  file : x.output (.file 1 (Client.baseName (firstWord name))) = content

/-! ### What is in the file -/

section Written

variable {t N : ℕ} {file : CStr} {f g : Conf} {k : Client.Op} {l b r : List Byte}

theorem flushed_le (n : ℕ) : flushed c n ≤ n := by
  unfold flushed
  split
  · exact le_rfl
  · exact (Nat.div_mul_le_self (n - 1) _).trans (Nat.sub_le n 1)

/-- What has left the buffer is not counted again. -/
theorem flushed_add (n m : ℕ) : flushed c n + flushed c (n + m - flushed c n) = flushed c (n + m) := by
  unfold flushed
  split
  · omega
  · have hle : (n - 1) / c.streamSize ≤ (n + m - 1) / c.streamSize := Nat.div_le_div_right (by omega)
    have hsub : n + m - (n - 1) / c.streamSize * c.streamSize - 1 =
        n + m - 1 - c.streamSize * ((n - 1) / c.streamSize) := by
      rw [Nat.mul_comm]
      omega
    rw [hsub, Nat.sub_mul_div, Nat.sub_mul]
    exact Nat.add_sub_of_le (Nat.mul_le_mul_right _ hle)

theorem fprintf_eq : fprintf c (l.drop (flushed c l.length)) b =
    (((l ++ b).drop (flushed c l.length)).take (flushed c (l.length + b.length - flushed c l.length)),
      (l ++ b).drop (flushed c (l ++ b).length)) := by
  have hl := flushed_le (c := c) l.length
  have hd : l.drop (flushed c l.length) ++ b = (l ++ b).drop (flushed c l.length) := by
    rw [List.drop_append_of_le_length hl]
  rw [fprintf, hd, List.splitAt_eq, List.length_drop, List.length_append, List.drop_drop, flushed_add]

/-- The state of the system with `w` in the file that the `t`-th line creates. -/
def Conf.writing (c : Config) (t : ℕ) (file : CStr) (f : Conf) (w : List Byte) : (bigfs c).State :=
  (f.state c).pour (Function.update (fun _ => []) (.file t file) w)

theorem Goes.writing (h : Goes c f g) (w : List Byte) :
    Reaches Star.step (f.writing c t file w) (g.writing c t file w) :=
  Star.reaches_pour h

/-- More is written to the file. -/
theorem output_writing {w : List Byte} :
    (f.writing c t file (w ++ b)).output = enqueue (f.writing c t file w).output (.file t file) b := by
  funext j
  by_cases hj : j = .file t file
  · subst hj
    simp [Conf.writing, Conf.state, Star.State.pour]
  · simp [Conf.writing, Conf.state, Star.State.pour, hj, enqueue_of_ne hj]

theorem reaches_write (t : ℕ) (file : CStr) {w : List Byte}
    (h : f.client.enter (code c) = .write (.inr (.file t file)) b k) :
    Reaches Star.step (f.writing c t file w) ({ f with client := k }.writing c t file (w ++ b)) := by
  refine Reaches.single (a := none) ((Star.clientStep_output (x := f.writing c t file w) h).trans (congrArg some ?_))
  ext1 <;> try rfl
  exact output_writing.symm

/-- The client reads chunks, where `l` has been printed to the file. -/
def saving (c : Config) (t : ℕ) (file : CStr) (N : ℕ) (l : List Byte) (i ptr : ℕ) : Client.Op :=
  .ret (.receiving t (.file file (l.drop (flushed c l.length))) N i ptr)

/-- From one state to the other, `l` has come to be `l'`. -/
def Saves (c : Config) (t : ℕ) (file : CStr) (f : Conf) (l : List Byte) (g : Conf) (l' : List Byte) : Prop :=
  Reaches Star.step (f.writing c t file (l.take (flushed c l.length))) (g.writing c t file (l'.take (flushed c l'.length)))

/-- What is in the file, and in the buffer, depends only on all that has been printed. -/
theorem puts_saving (file : CStr) {strings : List CStr} (hb : strings.flatMap CStr.bytes = b) :
    l.take (flushed c l.length) ++ (puts c (.file file (l.drop (flushed c l.length))) strings).1 =
        (l ++ b).take (flushed c (l ++ b).length) ∧
      (puts c (.file file (l.drop (flushed c l.length))) strings).2 =
        .file file ((l ++ b).drop (flushed c (l ++ b).length)) := by
  subst hb
  induction strings generalizing l with
  | nil => simp
  | cons s strings ih =>
    have hput : put c (.file file (l.drop (flushed c l.length))) s.bytes =
        (((l ++ s.bytes).drop (flushed c l.length)).take (flushed c (l.length + s.bytes.length - flushed c l.length)),
          .file file ((l ++ s.bytes).drop (flushed c (l ++ s.bytes).length))) := by
      rw [put, fprintf_eq]
    have hw : l.take (flushed c l.length) ++ (put c (.file file (l.drop (flushed c l.length))) s.bytes).1 =
        (l ++ s.bytes).take (flushed c (l ++ s.bytes).length) := by
      rw [hput, List.length_append, ← flushed_add, List.take_add, List.take_append_of_le_length (flushed_le l.length)]
    obtain ⟨h₁, h₂⟩ := ih (l := l ++ s.bytes)
    rw [puts, ← List.append_assoc, hw, hput, h₁, h₂, List.flatMap_cons, ← List.append_assoc]
    exact ⟨rfl, rfl⟩

/-- Chunks that are not empty are printed one after the other. -/
theorem saves_chunks (hk : 0 < c.no_of_dataservers) (hnul : (0 : Byte) ∉ content) {n i : ℕ} (hi : i + n ≤ N)
    (hne : ∀ m < i + n, block BLOCKSIZE content m ≠ [])
    (hf : f.client = saving c t file N (content.take (i * BLOCKSIZE)) i (i % c.no_of_dataservers))
    (ha : f.answers = dealt c.no_of_dataservers (fun m => answer (block BLOCKSIZE content m)) n i) :
    Saves c t file f (content.take (i * BLOCKSIZE)) { f with
      client := saving c t file N (content.take ((i + n) * BLOCKSIZE)) (i + n) ((i + n) % c.no_of_dataservers)
      answers := fun _ => [] } (content.take ((i + n) * BLOCKSIZE)) := by
  let w := (content.take (i * BLOCKSIZE)).take (flushed c (content.take (i * BLOCKSIZE)).length)
  have hm (j : ℕ) : (f.writing c t file w).replies (.data j) =
      dealt c.no_of_dataservers (fun m => answer (block BLOCKSIZE content m)) n i j ++ [] := by
    rw [List.append_nil, ← ha]
    rfl
  obtain ⟨strings, hb, h⟩ := reads_chunks (x := f.writing c t file w) hk hi (fun m _ hm => hne m hm)
    (fun m _ _ h => hnul (mem_of_mem_block h)) hf hm
  obtain ⟨hw, hout⟩ := puts_saving (c := c) file (l := content.take (i * BLOCKSIZE)) hb
  rw [take_append_blocks] at hw hout
  rw [hout] at h
  refine (congrArg (Reaches Star.step (f.writing c t file w)) ?_).mp h.reaches
  rw [← hw]
  ext1 <;> try rfl
  exact output_writing.symm

/-- What `savefile` leaves of a content: the NUL comes before the bytes in the buffer. -/
def savedBytes (c : Config) (content : List Byte) : List Byte :=
  content.take (flushed c content.length) ++ 0 :: content.drop (flushed c content.length)

/-- The file is closed. -/
theorem saves_end {i ptr : ℕ} (hf : f.client = saving c t file i content i ptr) :
    Reaches Star.step (f.writing c t file (content.take (flushed c content.length)))
      ({ f with client := done t }.writing c t file (savedBytes c content)) := by
  have hclient : f.client.enter (code c) = .write (.inr (.file t file)) [0]
      (.write (.inr (.file t file)) (content.drop (flushed c content.length)) (done t)) := by
    rw [hf, saving, Proc.enter_ret, code, receiveChunks, if_neg (lt_irrefl i)]
  refine (reaches_write t file hclient).trans ?_
  have := reaches_write t file (c := c) (k := done t) (b := content.drop (flushed c content.length))
    (w := content.take (flushed c content.length) ++ [0]) (f := { f with
      client := .write (.inr (.file t file)) (content.drop (flushed c content.length)) (done t) }) rfl
  simpa [savedBytes] using this

end Written

/-! ### The whole transfer -/

theorem strsep_saveLine (name : CStr) :
    strsep Client.space (some (saveLine name)) = (some (lit "frombigfs"), some name) := by
  have hd : (lit "frombigfs ").bytes = (lit "frombigfs").bytes ++ [Client.space] := by decide
  exact strsep_eq (by simp [saveLine, CStr.cat, hd]) (by decide)

theorem command_saveLine {t : ℕ} : command c t (saveLine name) =
    send .name (lit "frombigfs") (send .name (firstWord name) (receive .name fun temp =>
      if temp = lit "0" then printf (lit "File not found in current directory\n") (done t)
      else receive .name fun loc => receive .name fun chunks =>
        requestChunks c t loc (atoi chunks).toNat 0 0 (.ret (.receiving t
          (.file (Client.baseName (firstWord name)) []) (atoi chunks).toNat 0 0)))) := by
  rw [command, strsep_saveLine]
  simp only [savefile, locate, word, strsep_firstWord]
  rfl

section Stored

variable {stored : List Byte}

/-- The line has been carried out, and a state is reached where no step is possible. -/
theorem reaches_saved (garbage : ℕ → NameServer.Node) (hk : 0 < c.no_of_dataservers)
    (hslash : Client.slash ∉ (firstWord name).bytes) (hdisk : c.disk 0 (firstWord name) = some stored)
    (hnul : (0 : Byte) ∉ stored) (hlen : (firstWord name).bytes.length < NameServer.nameSize)
    (hparts : partsOf stored < 10 ^ 9) (hfull : c.streamSize ≤ stored.length) (hlast : stored.length % BLOCKSIZE ≠ 0) :
    ∃ s store, Reaches Star.step (start c garbage (fun _ => []) [uploadLine name, saveLine name])
      ({ opened garbage [] with client := .ret (.prompt 2), name := .ret s, store := store }.writing c 1
        (Client.baseName (firstWord name)) (savedBytes c stored)) := by
  let file := Client.baseName (firstWord name)
  let s := oneFile garbage (firstWord name) (decimal (partsOf stored)) (location (firstWord name))
  obtain ⟨store, hheld, hg⟩ :=
    goes_stored garbage ((saveLine name).z ++ []) hk hslash hdisk (by rwa [readable_of_le hfull]) hlen hparts
  rw [readable_of_le hfull] at hheld
  -- all chunks are asked for
  let f : Conf := { opened garbage [] with
    client := .ret (.receiving 1 (.file file []) (partsOf stored) 0 0)
    name := .ret s
    store := store
    answers := dealt c.no_of_dataservers (fun m => answer (block BLOCKSIZE stored m)) (partsOf stored) 0 }
  have hf : Goes c (opened garbage ((uploadLine name).z ++ ((saveLine name).z ++ []))) f := by
    refine hg.trans ((goes_located (k := fun loc n => requestChunks c 1 loc n 0 0 (.ret (.receiving 1 (.file file []) n 0 0)))
      command_saveLine (by exact fun _ => rfl) hparts rfl rfl rfl rfl).trans ?_)
    exact goes_requests (n := partsOf stored) (i := 0) hk (by omega) (by rwa [Nat.zero_add]) (by rw [Nat.zero_mod])
  have hstart : start c garbage (fun _ => []) [uploadLine name, saveLine name] =
      (opened garbage ((uploadLine name).z ++ ((saveLine name).z ++ []))).writing c 1 file [] := by
    rw [start_eq]
    simp [Conf.writing, Star.State.pour]
  refine ⟨s, store, hstart ▸ (hf.writing []).trans ?_⟩
  -- and printed to the file
  have hdiv := Nat.div_add_mod stored.length BLOCKSIZE
  have hall : stored.take (partsOf stored * BLOCKSIZE) = stored := by
    refine List.take_of_length_le ?_
    have hlt := Nat.mod_lt stored.length (show 0 < BLOCKSIZE by decide)
    rw [partsOf, Nat.succ_mul, Nat.mul_comm]
    omega
  have hclient : f.client =
      saving c 1 file (partsOf stored) (stored.take (0 * BLOCKSIZE)) 0 (0 % c.no_of_dataservers) := by
    simp [f, saving]
  have hchunks := saves_chunks (n := partsOf stored) (i := 0) hk hnul (by omega) (fun m hm => ?_) hclient rfl
  · simp only [Nat.zero_add, hall, Nat.zero_mul, List.take_zero, Saves, List.take_nil] at hchunks
    exact hchunks.trans (saves_end rfl)
  · have hle : m * BLOCKSIZE ≤ stored.length / BLOCKSIZE * BLOCKSIZE :=
      Nat.mul_le_mul_right _ (by unfold partsOf at hm; omega)
    rw [Nat.mul_comm] at hdiv
    rw [Ne, block_eq_nil_iff (by decide)]
    omega

/-- **The file that is fetched**, in every run: the bytes of the stored one, with a NUL among them. -/
theorem saved_iff (hk : 0 < c.no_of_dataservers) (hslash : Client.slash ∉ (firstWord name).bytes)
    (hdisk : c.disk 0 (firstWord name) = some stored) (hnul : (0 : Byte) ∉ stored)
    (hlen : (firstWord name).bytes.length < NameServer.nameSize) (hparts : partsOf stored < 10 ^ 9)
    (hfull : c.streamSize ≤ stored.length) (hlast : stored.length % BLOCKSIZE ≠ 0) :
    AlwaysEnds Star.step (start c garbage (fun _ => []) [uploadLine name, saveLine name]) (Saved (c := c) name content) ↔
      content = savedBytes c stored := by
  obtain ⟨s, store, hr⟩ := reaches_saved garbage hk hslash hdisk hnul hlen hparts hfull hlast
  rw [Star.step_comm.alwaysEnds_iff hr (Star.ended_pour (ended_state (f := { opened garbage [] with
    client := .ret (.prompt 2), name := .ret s, store := store }) rfl rfl rfl rfl rfl))]
  constructor
  · intro h
    simpa [Conf.writing, Conf.state, Star.State.pour] using h.file.symm
  · rintro rfl
    exact ⟨rfl, by simp [Conf.writing, Conf.state, Star.State.pour]⟩

end Stored

/-- **Upload and fetch.**  No run of the two lines leaves the content of a text file, whatever the file is. -/
theorem save_never {store : ℕ → Store} (hne : content ≠ []) (hnul : (0 : Byte) ∉ content) :
    ¬ AlwaysEnds Star.step (start c garbage store [uploadLine name, saveLine name]) (Saved (c := c) name content) := by
  let file := Client.baseName (firstWord name)
  refine not_alwaysEnds (I := fun x : (bigfs c).State => Marks 1 file x.client (x.output (.file 1 file)))
    (fun x a y => marks_step) (fun x hx hsaved => ?_) .refl (Or.inl rfl)
  rw [hsaved.client, hsaved.file] at hx
  rcases (hx : content = [] ∨ (0 : Byte) ∈ content) with h | h
  · exact hne h
  · exact hnul h

theorem save_never_page : ¬ AlwaysEnds Star.step
    (start (pages 1) NameServer.zeroed (fun _ => []) [uploadLine (lit "a"), saveLine (lit "a")]) (Saved (lit "a") page) :=
  save_never (fun h => absurd (congrArg List.length h) (by rw [length_page]; decide)) page_text

/-- **The claimed identity does not hold**: a page comes back behind a NUL. -/
theorem save_page : AlwaysEnds Star.step
      (start (pages 1) NameServer.zeroed (fun _ => []) [uploadLine (lit "a"), saveLine (lit "a")])
      (Saved (lit "a") (0 :: page)) ∧
    ¬ ∀ c garbage name content, 0 < c.no_of_dataservers → c.disk 0 (firstWord name) = some content →
      content ≠ [] → (0 : Byte) ∉ content → content.length % BLOCKSIZE ≠ 0 →
      AlwaysEnds Star.step (start c garbage (fun _ => []) [uploadLine name, saveLine name]) (Saved name content) := by
  have hw : firstWord (lit "a") = lit "a" := by decide
  have hne : page ≠ [] := fun h => absurd (congrArg List.length h) (by rw [length_page]; decide)
  have hlast : page.length % BLOCKSIZE ≠ 0 := by
    rw [length_page]
    decide
  have hflushed : flushed (pages 1) page.length = 0 := by
    rw [length_page]
    rfl
  have hsaved : savedBytes (pages 1) page = 0 :: page := by
    rw [savedBytes, hflushed]
    rfl
  have hiff (content : List Byte) : AlwaysEnds Star.step (start (pages 1) NameServer.zeroed (fun _ => [])
      [uploadLine (lit "a"), saveLine (lit "a")]) (Saved (lit "a") content) ↔ content = 0 :: page := by
    rw [← hsaved]
    exact saved_iff (by decide) (by rw [hw]; decide) rfl page_text (by rw [hw]; decide) (by rw [partsOf_page]; decide)
      length_page.ge hlast
  constructor
  · exact (hiff _).2 rfl
  · intro h
    have hpage := (hiff page).1 (h (pages 1) NameServer.zeroed (lit "a") page (by decide) rfl hne page_text hlast)
    exact absurd (congrArg List.length hpage) (by simp)

end NetProg.BigFs
