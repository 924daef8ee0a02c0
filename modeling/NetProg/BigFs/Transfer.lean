import NetProg.BigFs.Cat

/-!
# A file that is stored and printed again

`Finished content x`: the two lines are done, the content has been printed, nothing is unread and nobody waits for what
is never sent.  `upload_cat_iff` says when every run of the system comes to such a state: where the file fills the buffer
of a `FILE` and its last part is not empty.
-/

namespace NetProg.BigFs

open NetProg.Lib NetProg.Client NetProg.Receive NetProg.DataServer

variable {c : Config} {garbage : ℕ → NameServer.Node} {name : CStr} {content : List Byte}

/-! ### How the two lines end -/

/-- The client is back at its prompt and has printed the content, with the newline behind it; the servers wait for a
command, and no byte is on its way. -/
structure Finished (content : List Byte) (x : (bigfs c).State) : Prop where
  client : x.client = .ret (.prompt 2)
  printed : x.output .terminal = content ++ (lit "\n").bytes
  idle : ∀ i, Idle x i
  sent : ∀ i, x.sent i = []
  replies : ∀ i, x.replies i = []

theorem start_eq (lines : List CStr) :
    start c garbage (fun _ => []) lines = (opened garbage (lines.flatMap CStr.z)).state c := by
  ext1 <;> try rfl
  · funext i
    cases i <;> rfl
  · funext i
    cases i <;> rfl

/-- Nothing is left to do where the client cannot go on, and the name server waits for a string. -/
theorem ended_of_client {f : Conf} {k : CStr → NameServer.Op} (hf : Star.clientStep (f.state c) = none)
    (hn : f.name.enter (fun s => .read () (NameServer.dispatch s)) = .read () k) :
    Ended (Star.step (S := bigfs c)) (f.state c) := by
  rintro (_ | i)
  · exact hf
  · have hs : ∃ k, ((f.state c).server i).enter ((bigfs c).main i) = .read () k := by
      rcases i with _ | ptr
      · exact ⟨k, hn⟩
      · exact ⟨_, rfl⟩
    obtain ⟨k, hk⟩ := hs
    rw [Star.step, Star.serverStep, hk]
    rfl

/-- Nor where the client waits for a string and none is there. -/
theorem ended_state {f : Conf} {i : Server ⊕ Local} {k : CStr → Client.Op} {k' : CStr → NameServer.Op}
    (hf : f.client.enter (code c) = .read i k)
    (hn : f.name.enter (fun s => .read () (NameServer.dispatch s)) = .read () k') (hr : f.reply = [])
    (ha : f.answers = fun _ => []) (ht : f.typed = []) : Ended (Star.step (S := bigfs c)) (f.state c) := by
  refine ended_of_client ?_ hn
  have hc : (f.state c).client.enter (bigfs c).code = .read i k := hf
  have hrep : ∀ i, (f.state c).replies i = [] := by
    rintro (_ | ptr)
    · exact hr
    · exact congrFun ha ptr
  have hin : ∀ j, (f.state c).input j = [] := by
    rintro (_ | _)
    · exact ht
    · rfl
  rw [Star.clientStep, hc]
  rcases i with i | j
  · simp only [hrep, readStr_nil, Option.map_none]
  · simp only [hin, readStr_nil, Option.map_none]

/-- The lines that are typed. -/
def lines (name : CStr) : List CStr := [uploadLine name, catLine name]

section Ends

variable {Q : (bigfs c).State → Prop} {f : Conf}

/-- All runs end as one that has been found does. -/
theorem alwaysEnds_iff_of_goes (h : Goes c (opened garbage ((uploadLine name).z ++ ((catLine name).z ++ []))) f)
    (he : Ended (Star.step (S := bigfs c)) (f.state c)) :
    AlwaysEnds Star.step (start c garbage (fun _ => []) (lines name)) Q ↔ Q (f.state c) := by
  rw [start_eq]
  exact Star.step_comm.alwaysEnds_iff h he

/-- The name server has stopped. -/
theorem not_finished_of_server {e : NameServer.Fault} {s : NameServer.Mem}
    (h : Goes c (opened garbage ((uploadLine name).z ++ ((catLine name).z ++ []))) f) (hf : f.name = .halt e s) :
    ¬ AlwaysEnds Star.step (start c garbage (fun _ => []) (lines name)) (Finished (c := c) content) := by
  rw [start_eq]
  refine not_alwaysEnds (I := fun x => x.server .name = .halt e s) (fun x a y => Star.halted_server) (fun x hx hfin => ?_)
    h hf
  obtain ⟨r, hr⟩ := hfin.idle .name
  rw [hx] at hr
  cases hr

/-- The client has stopped. -/
theorem not_finished_of_client {e : Stop} {l : Label}
    (h : Goes c (opened garbage ((uploadLine name).z ++ ((catLine name).z ++ []))) f) (hf : f.client = .halt e l) :
    ¬ AlwaysEnds Star.step (start c garbage (fun _ => []) (lines name)) (Finished (c := c) content) := by
  rw [start_eq]
  refine not_alwaysEnds (I := fun x => x.client = .halt e l) (fun x a y => Star.halted_client) (fun x hx hfin => ?_)
    h hf
  have hc := hfin.client
  rw [hx] at hc
  cases hc

end Ends

/-! ### Where the file is not stored -/

section Failures

/-- A name that does not fit its field stops the name server. -/
theorem not_finished_of_long (hslash : Client.slash ∉ (firstWord name).bytes)
    (h : ¬ (firstWord name).bytes.length < NameServer.nameSize) :
    ¬ AlwaysEnds Star.step (start c garbage (fun _ => []) (lines name)) (Finished (c := c) content) :=
  not_finished_of_server (goes_asked garbage _ hslash) (if_neg h)

/-- So does a number of parts with more than nine digits the client. -/
theorem not_finished_of_many {stored : List Byte} (hslash : Client.slash ∉ (firstWord name).bytes)
    (hdisk : c.disk 0 (firstWord name) = some stored) (h : ¬ partsOf stored < 10 ^ 9) :
    ¬ AlwaysEnds Star.step (start c garbage (fun _ => []) (lines name)) (Finished (c := c) content) := by
  refine not_finished_of_client (e := .overflow) (l := .prompt 0) (goes_asked garbage _ hslash) ?_
  exact transfertoBigFS_eq_halt hdisk h

/-- Without a local file, the name server takes the next line for what it waits for. -/
theorem not_finished_of_missing (hslash : Client.slash ∉ (firstWord name).bytes)
    (hdisk : c.disk 0 (firstWord name) = none) (hlen : (firstWord name).bytes.length < NameServer.nameSize) :
    ¬ AlwaysEnds Star.step (start c garbage (fun _ => []) (lines name)) (Finished (c := c) content) := by
  let w := firstWord name
  let f : Conf := { opened garbage [] with
    client := receive .name fun temp =>
      if temp = lit "0" then printf (lit "File not found in current directory\n") (done 1)
      else receive .name fun loc => receive .name fun chunks => Client.printfile c 1 loc (atoi chunks).toNat
    name := .ret (oneFile garbage w (lit "cat") w)
    printed := (lit "File Not Found!\n").bytes }
  have hg : Goes c (opened garbage ((uploadLine name).z ++ ((catLine name).z ++ []))) f := by
    have htrans : transfertoBigFS c 0 w = printf (lit "File Not Found!\n") (done 0) := by
      unfold transfertoBigFS
      rw [hdisk]
    have hnamed : named garbage w = .read () fun parts => .read () fun loc => .ret (oneFile garbage w parts loc) :=
      if_pos hlen
    refine (goes_asked garbage _ hslash).trans ?_
    rw [htrans, hnamed]
    refine (goes_printf rfl).trans ((goes_line rfl rfl).trans ?_)
    rw [command_catLine]
    refine (goes_name (m := lit "cat") sends_one rfl).trans ?_
    exact (goes_name (m := w) (q := f.name) sends_one rfl).trans Goes.refl
  rw [alwaysEnds_iff_of_goes hg (ended_state rfl rfl rfl rfl rfl)]
  intro hfin
  cases hfin.client

end Failures

/-! ### Where it is stored -/

section Stored

variable {stored sent : List Byte} {N : ℕ}

/-- The answers to the requests for all `N` chunks stand ready, and the client begins to read. -/
def requested (c : Config) (s : NameServer.Mem) (store : ℕ → Store) (N : ℕ) (sent : List Byte) : Conf where
  client := .ret (.receiving 1 .stdout N 0 0)
  name := .ret s
  store := store
  reply := []
  answers := dealt c.no_of_dataservers (fun m => answer (block BLOCKSIZE sent m)) N 0
  typed := []
  printed := []

theorem goes_requested (garbage : ℕ → NameServer.Node) (hk : 0 < c.no_of_dataservers)
    (hslash : Client.slash ∉ (firstWord name).bytes)
    (hdisk : c.disk 0 (firstWord name) = some stored) (hnul : (0 : Byte) ∉ readable c stored)
    (hlen : (firstWord name).bytes.length < NameServer.nameSize) (hparts : partsOf stored < 10 ^ 9) :
    ∃ s store, Goes c (opened garbage ((uploadLine name).z ++ ((catLine name).z ++ [])))
      (requested c s store (partsOf stored) (readable c stored)) := by
  obtain ⟨store, hheld, hg⟩ := goes_stored garbage ((catLine name).z ++ []) hk hslash hdisk hnul hlen hparts
  refine ⟨oneFile garbage (firstWord name) (decimal (partsOf stored)) (location (firstWord name)), store, ?_⟩
  refine hg.trans ((goes_found hparts rfl rfl rfl rfl).trans ?_)
  exact goes_requests (n := partsOf stored) (i := 0) hk (by omega) (by rwa [Nat.zero_add]) (by rw [Nat.zero_mod]; rfl)

/-- Chunks that are not empty are printed, up to the one with the number `n`. -/
theorem goes_printed (s : NameServer.Mem) (store : ℕ → Store) {n m : ℕ} (hk : 0 < c.no_of_dataservers)
    (hnul : (0 : Byte) ∉ sent) (hn : n + m = N) (hne : ∀ i < n, i * BLOCKSIZE < sent.length) :
    Goes c (requested c s store N sent) { requested c s store N sent with
      client := .ret (.receiving 1 .stdout N n (n % c.no_of_dataservers))
      answers := dealt c.no_of_dataservers (fun m => answer (block BLOCKSIZE sent m)) m n
      printed := sent.take (n * BLOCKSIZE) } := by
  have hblock : ∀ i < n, block BLOCKSIZE sent i ≠ [] := fun i hi => by
    have := hne i hi
    rw [Ne, block_eq_nil_iff (by decide)]
    omega
  have hg := goes_chunks (N := N) (n := n) (i := 0) (f := requested c s store N sent)
    (r := dealt c.no_of_dataservers (fun m => answer (block BLOCKSIZE sent m)) m n) hk hnul (by omega)
    (by rwa [Nat.zero_add]) (by rw [Nat.zero_mod]; rfl)
    (fun j => by
      have := dealt_append (k := c.no_of_dataservers) (f := fun m => answer (block BLOCKSIZE sent m)) (m := m) (n := n)
        (i := 0) (j := j)
      rwa [hn, Nat.zero_add] at this)
    (by rw [Nat.zero_mul]; rfl)
  simpa only [Nat.zero_add] using hg

/-- **A last part that is not empty**: the file is printed. -/
theorem finished_iff (hk : 0 < c.no_of_dataservers) (hslash : Client.slash ∉ (firstWord name).bytes)
    (hdisk : c.disk 0 (firstWord name) = some stored) (hnul : (0 : Byte) ∉ stored)
    (hlen : (firstWord name).bytes.length < NameServer.nameSize) (hparts : partsOf stored < 10 ^ 9)
    (hfull : c.streamSize ≤ stored.length) (hlast : stored.length % BLOCKSIZE ≠ 0) :
    AlwaysEnds Star.step (start c garbage (fun _ => []) (lines name)) (Finished (c := c) content) ↔ stored = content := by
  obtain ⟨s, store, hg⟩ := goes_requested garbage hk hslash hdisk (by rwa [readable_of_le hfull]) hlen hparts
  rw [readable_of_le hfull] at hg
  let f : Conf := { requested c s store (partsOf stored) stored with
    client := .ret (.prompt 2)
    answers := fun _ => []
    printed := stored ++ (lit "\n").bytes }
  have hf : Goes c (requested c s store (partsOf stored) stored) f := by
    have hdiv := Nat.div_add_mod stored.length BLOCKSIZE
    have hp := goes_printed s store (n := partsOf stored) (m := 0) hk hnul rfl fun i hi => by
      have hle : i * BLOCKSIZE ≤ stored.length / BLOCKSIZE * BLOCKSIZE := Nat.mul_le_mul_right _ (Nat.le_of_lt_succ hi)
      rw [Nat.mul_comm] at hdiv
      omega
    rw [List.take_of_length_le length_le_partsOf] at hp
    refine hp.trans ((goes_printf (m := lit "\n") (k := done 1) ?_).trans Goes.refl)
    show receiveChunks c 1 .stdout (partsOf stored) (partsOf stored) _ = _
    rw [receiveChunks, if_neg (lt_irrefl _)]
  rw [alwaysEnds_iff_of_goes (hg.trans hf) (ended_state rfl rfl rfl rfl rfl)]
  constructor
  · exact fun hfin => List.append_cancel_right hfin.printed
  · rintro rfl
    refine ⟨rfl, rfl, fun i => ?_, fun _ => rfl, fun i => ?_⟩
    · rcases i with _ | ptr
      · exact ⟨_, rfl⟩
      · exact ⟨_, rfl⟩
    · cases i <;> rfl

/-- **A part that is empty** is waited for: the last one, or the first one of a file of which nothing is read. -/
theorem not_finished_of_empty (hk : 0 < c.no_of_dataservers) (hslash : Client.slash ∉ (firstWord name).bytes)
    (hdisk : c.disk 0 (firstWord name) = some stored) (hnul : (0 : Byte) ∉ stored)
    (hlen : (firstWord name).bytes.length < NameServer.nameSize) (hparts : partsOf stored < 10 ^ 9)
    (hlast : (readable c stored).length % BLOCKSIZE = 0) :
    ¬ AlwaysEnds Star.step (start c garbage (fun _ => []) (lines name)) (Finished (c := c) content) := by
  have hnul' : (0 : Byte) ∉ readable c stored := fun h => hnul (mem_of_mem_readable h)
  obtain ⟨s, store, hg⟩ := goes_requested garbage hk hslash hdisk hnul' hlen hparts
  generalize hsent : readable c stored = sent at *
  have hdiv := Nat.div_add_mod sent.length BLOCKSIZE
  rw [Nat.mul_comm] at hdiv
  have hlt : sent.length / BLOCKSIZE < partsOf stored := by
    refine Nat.lt_succ_of_le (Nat.div_le_div_right ?_)
    rw [← hsent]
    exact length_readable_le
  obtain ⟨m, hm⟩ := Nat.exists_eq_add_of_lt hlt
  have hp := goes_printed s store (n := sent.length / BLOCKSIZE) (m := m + 1) hk hnul' hm.symm fun i hi => by
    have hle : (i + 1) * BLOCKSIZE ≤ sent.length / BLOCKSIZE * BLOCKSIZE := Nat.mul_le_mul_right _ hi
    have hpos : 0 < BLOCKSIZE := by decide
    rw [Nat.succ_mul] at hle
    omega
  have hnil : ∀ m, sent.length / BLOCKSIZE ≤ m → answer (block BLOCKSIZE sent m) = [] := by
    intro m hm
    have hle := Nat.mul_le_mul_right BLOCKSIZE hm
    rw [(block_eq_nil_iff (by decide)).2 (by omega), answer_nil]
  rw [dealt_of_nil hnil] at hp
  have hread := enter_receiving (c := c) (t := 1) (N := partsOf stored) hlt
    (p := .ret (.receiving 1 .stdout _ _ (sent.length / BLOCKSIZE % c.no_of_dataservers))) rfl
  rw [alwaysEnds_iff_of_goes (hg.trans hp) (ended_state hread rfl rfl rfl rfl)]
  intro hfin
  cases hfin.client

end Stored

/-! ### When the file is printed -/

/-- What the name and the content must meet; the name of the local file ends at the first space of the line. -/
structure Transferable (c : Config) (name : CStr) (content : List Byte) : Prop where
  disk : c.disk 0 (firstWord name) = some content
  short : (firstWord name).bytes.length < NameServer.nameSize
  parts : partsOf content < 10 ^ 9
  read : c.streamSize ≤ content.length
  last : content.length % BLOCKSIZE ≠ 0

/-- **Upload and print.**  Whatever the order of steps, a local text file is stored and printed again if and only if it
is `Transferable`. -/
theorem upload_cat_iff (hk : 0 < c.no_of_dataservers) (hslash : Client.slash ∉ name.bytes)
    (htext : ∀ file content, c.disk 0 file = some content → (0 : Byte) ∉ content) :
    AlwaysEnds Star.step (start c garbage (fun _ => []) (lines name)) (Finished (c := c) content) ↔
      Transferable c name content := by
  have hslash' : Client.slash ∉ (firstWord name).bytes := fun h => hslash (mem_of_mem_firstWord h)
  by_cases hlen : (firstWord name).bytes.length < NameServer.nameSize
  · cases hdisk : c.disk 0 (firstWord name) with
    | none =>
      refine iff_of_false (not_finished_of_missing hslash' hdisk hlen) fun h => ?_
      rw [h.disk] at hdisk
      cases hdisk
    | some stored =>
      have hstored : Transferable c name content → stored = content := fun h => by
        rw [h.disk, Option.some.injEq] at hdisk
        exact hdisk.symm
      by_cases hparts : partsOf stored < 10 ^ 9
      · by_cases hlast : (readable c stored).length % BLOCKSIZE = 0
        · refine iff_of_false (not_finished_of_empty hk hslash' hdisk (htext _ _ hdisk) hlen hparts hlast) fun h => ?_
          obtain rfl := hstored h
          rw [readable_of_le h.read] at hlast
          exact h.last hlast
        · -- something is read, and so the whole file
          have hfull : c.streamSize ≤ stored.length := by
            by_contra hlt
            rw [readable, if_pos (Nat.lt_of_not_le hlt)] at hlast
            exact hlast rfl
          rw [readable_of_le hfull] at hlast
          rw [finished_iff hk hslash' hdisk (htext _ _ hdisk) hlen hparts hfull hlast]
          exact ⟨fun h => h ▸ ⟨hdisk, hlen, hparts, hfull, hlast⟩, hstored⟩
      · exact iff_of_false (not_finished_of_many hslash' hdisk hparts) fun h => hparts (hstored h ▸ h.parts)
  · exact iff_of_false (not_finished_of_long hslash' hlen) fun h => hlen h.short

/-- A text that fills the buffer of a `FILE`. -/
def page : List Byte := List.replicate 4096 97

theorem not_mem_page {b : Byte} (hb : b ≠ 97) : b ∉ page := fun h => hb (List.eq_of_mem_replicate h)

theorem page_text : (0 : Byte) ∉ page := not_mem_page (by decide)

theorem length_page : page.length = 4096 := List.length_replicate

theorem last_page : page.length % BLOCKSIZE ≠ 0 := by
  rw [length_page]
  decide

theorem partsOf_page : partsOf page = 1 := by
  rw [partsOf, length_page]
  decide

/-- A client whose local files are all a page. -/
def pages (no_of_dataservers : ℕ) : Config := ⟨no_of_dataservers, fun _ _ => some page, 4096⟩

theorem upload_cat_page : AlwaysEnds Star.step
    (start (pages 1) NameServer.zeroed (fun _ => []) (lines (lit "a"))) (Finished page) :=
  (upload_cat_iff (by decide) (by decide) fun _ _ h => by cases h; exact page_text).2
    ⟨rfl, by decide, by rw [partsOf_page]; decide, length_page.ge, last_page⟩

/-- **The claimed identity does not hold**: the client waits for the last part of an empty file. -/
theorem upload_cat_empty : ¬ ∀ c garbage name content, 0 < c.no_of_dataservers → Client.slash ∉ name.bytes →
    c.disk 0 name = some content → (0 : Byte) ∉ content →
    AlwaysEnds Star.step (start c garbage (fun _ => []) (lines name)) (Finished content) := by
  intro h
  have hw : firstWord (lit "a") = lit "a" := by decide
  refine not_finished_of_empty (c := ⟨1, fun _ _ => some [], 4096⟩) (by decide) (by rw [hw]; decide) rfl
    List.not_mem_nil (by rw [hw]; decide) (by decide) rfl
    (h _ NameServer.zeroed (lit "a") [] (by decide) (by decide) rfl (by simp))

end NetProg.BigFs
