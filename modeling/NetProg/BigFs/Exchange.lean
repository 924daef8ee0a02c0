import NetProg.BigFs.System
import NetProg.Lib.InStep
import NetProg.NameServer.Safety

/-!
# What the client and the name server exchange

`Keeps c p replies q`: a client that has the program `p` left, with `replies` to read from a name server that stands at
`q`, comes back to a prompt only when the server waits for a command and no reply is unread.  There is a rule for each
write and read, a lemma for each loop over the data servers, which does not concern the name server, and one for what
each command sends it.
-/

namespace NetProg.BigFs

open NetProg.Lib NetProg.Client NetProg.NameServer

/-! ### Programs in step -/

/-- The loop of `main` in `fileNameServer.c`. -/
def nameMain (s : Mem) : NameServer.Op := .read () (dispatch s)

/-- The client with the program `p` left is in step with the name server. -/
def Keeps (c : Config) (p : Client.Op) (replies : List Byte) (q : NameServer.Op) : Prop :=
  Star.InStep (S := bigfs c) Server.name Typed p replies q

section Rules

variable {c : Config} {t : ℕ} {replies out b : List Byte} {m : CStr} {k : Client.Op} {q q' : NameServer.Op} {ptr : ℕ}

theorem keeps_send (h : (q.enter nameMain).run [m] = (out, q', [])) (hk : Keeps c k (replies ++ out) q') :
    Keeps c (send .name m k) replies q :=
  Star.inStep_send (S := bigfs c) (i := Server.name) h hk

@[simp] theorem keeps_data : Keeps c (.write (.inl (.data ptr)) b k) replies q ↔ Keeps c k replies q := Iff.rfl

@[simp] theorem keeps_send_data : Keeps c (send (.data ptr) m k) replies q ↔ Keeps c k replies q := Iff.rfl

@[simp] theorem keeps_output {j : Local} : Keeps c (.write (.inr j) b k) replies q ↔ Keeps c k replies q := Iff.rfl

@[simp] theorem keeps_printf : Keeps c (printf m k) replies q ↔ Keeps c k replies q := Iff.rfl

theorem keeps_receive {k : CStr → Client.Op} : Keeps c (receive .name k) replies q ↔
    ∀ m r, readStr replies = some (m, r) → Keeps c (k m) r q :=
  Star.inStep_receive (S := bigfs c) (i := Server.name)

@[simp] theorem keeps_receive_z {k : CStr → Client.Op} {r : List Byte} :
    Keeps c (receive .name k) (m.z ++ r) q ↔ Keeps c (k m) r q := by
  rw [keeps_receive]
  simp

@[simp] theorem keeps_receive_single {k : CStr → Client.Op} :
    Keeps c (receive .name k) m.z q ↔ Keeps c (k m) [] q := by
  rw [keeps_receive]
  simp

@[simp] theorem keeps_receive_nil {k : CStr → Client.Op} : Keeps c (receive .name k) [] q := by
  rw [keeps_receive]
  simp

@[simp] theorem keeps_receive_data {k : CStr → Client.Op} :
    Keeps c (receive (.data ptr) k) replies q ↔ ∀ m, Keeps c (k m) replies q := Iff.rfl

@[simp] theorem keeps_done : Keeps c (done t) replies q ↔ replies = [] ∧ ∃ s, q = .ret s ∧ Typed s := Iff.rfl

@[simp] theorem keeps_ret {l : Label} : Keeps c (.ret l) replies q ↔ replies = [] ∧ ∃ s, q = .ret s ∧ Typed s := Iff.rfl

@[simp] theorem keeps_halt {e : Stop} {l : Label} : Keeps c (.halt e l) replies q := trivial

theorem keeps_attempt {α : Type} {x : Except Stop α} {k : α → Client.Op} {l : Label}
    (h : ∀ a, x = .ok a → Keeps c (k a) replies q) : Keeps c (.attempt l x k) replies q := by
  cases x with
  | error e => exact keeps_halt
  | ok a => exact h a rfl

theorem keeps_advance {k : ℕ → Client.Op} (h : ∀ ptr', Keeps c (k ptr') replies q) :
    Keeps c (Client.advance c t ptr k) replies q := by
  unfold Client.advance
  split
  · exact keeps_halt
  · exact h _

end Rules

/-! ### What does not concern the name server -/

section Data

variable {c : Config} {t : ℕ} {s : Mem}

/-- A program that talks to the data servers only. -/
theorem keeps_requestChunks {loc : CStr} {k : Client.Op} {q : NameServer.Op} (hk : Keeps c k [] q) :
    ∀ n i ptr, Keeps c (requestChunks c t loc n i ptr k) [] q
  | 0, _, _ => hk
  | n + 1, i, ptr => by
    simp only [requestChunks, keeps_send_data, keeps_data]
    exact keeps_attempt fun _ _ => keeps_send_data.2 (keeps_advance fun _ => keeps_requestChunks hk n (i + 1) _)

theorem keeps_removeChunks {loc : CStr} {q : NameServer.Op} (hk : Keeps c (done t) [] q) :
    ∀ n i ptr, Keeps c (removeChunks c t loc n i ptr) [] q
  | 0, _, _ => hk
  | n + 1, i, ptr => by
    simp only [removeChunks, keeps_send_data]
    exact keeps_attempt fun _ _ => keeps_send_data.2 (keeps_advance fun _ => keeps_removeChunks hk n (i + 1) _)

theorem keeps_sendPieces {k : Client.Op} {q : NameServer.Op} {replies : List Byte} (hk : Keeps c k replies q) {ptr : ℕ} :
    ∀ n rest, Keeps c (sendPieces (.data ptr) n rest k) replies q
  | 0, _ => hk
  | n + 1, rest => by
    unfold sendPieces
    split
    · exact hk
    · exact keeps_data.2 (keeps_sendPieces hk n _)

/-- All chunks but the first are copied without the name server. -/
theorem keeps_copyChunks {loc : CStr} {q : NameServer.Op} (hk : Keeps c (done t) [] q) :
    ∀ n i ptr loca, Keeps c (copyChunks c t loc n (i + 1) ptr loca) [] q
  | 0, _, _, _ => hk
  | n + 1, i, ptr, loca => by
    simp only [copyChunks, keeps_send_data, Nat.add_eq_zero_iff, one_ne_zero, and_false, if_false]
    exact keeps_attempt fun _ _ => keeps_send_data.2 (keeps_send_data.2 (keeps_advance fun _ =>
      keeps_copyChunks hk n (i + 1) _ _))

theorem keeps_sendParts {q : NameServer.Op} (hk : Keeps c (done t) [] q) :
    ∀ n i ptr count dir rest, Keeps c (sendParts c t n (i + 1) ptr count dir rest) [] q
  | 0, _, _, _, _, _ => hk
  | n + 1, i, ptr, count, dir, rest => by
    simp only [sendParts, keeps_send_data, Nat.add_eq_zero_iff, one_ne_zero, and_false, if_false]
    refine keeps_sendPieces ?_ _ _
    simp only [keeps_data, keeps_send_data]
    exact keeps_attempt fun _ _ => keeps_send_data.2 (keeps_attempt fun _ _ => keeps_send_data.2
      (keeps_receive_data.2 fun _ => keeps_advance fun _ => keeps_sendParts hk n (i + 1) _ _ _ _))

theorem keeps_receiveChunks (hs : Typed s) (out : Stream) (no_of_chunks i ptr : ℕ) :
    Keeps c (receiveChunks c t out no_of_chunks i ptr) [] (.ret s) := by
  have hs : ([] : List Byte) = [] ∧ ∃ s', (Proc.ret s : NameServer.Op) = .ret s' ∧ Typed s' := ⟨rfl, s, rfl, hs⟩
  unfold receiveChunks
  split
  · refine keeps_receive_data.2 fun m => ?_
    split
    · exact keeps_advance fun _ => keeps_ret.2 hs
    · cases out with
      | stdout => exact keeps_printf.2 (keeps_ret.2 hs)
      | file name pending => exact keeps_output.2 (keeps_ret.2 hs)
  · cases out with
    | stdout => exact keeps_printf.2 (keeps_done.2 hs)
    | file name pending => exact keeps_output.2 (keeps_output.2 (keeps_done.2 hs))

end Data

/-! ### The name server, string by string -/

section Server

variable {c : Config} {t : ℕ} {s : Mem} {m : CStr} {k : Client.Op} {replies : List Byte} {k' : CStr → NameServer.Op}

/-- The name of a command that reads an argument. -/
theorem keeps_choice (h : dispatch s m = .read () k') (hk : Keeps c k [] (.read () k')) :
    Keeps c (send .name m k) [] (.ret s) :=
  keeps_send (by rw [Proc.enter_ret, nameMain, Proc.run_read, h, Proc.run_read_nil]) hk

/-- A string that the server waits for. -/
theorem keeps_arg (hk : Keeps c k (replies ++ ((k' m).run []).1) ((k' m).run []).2.1) :
    Keeps c (send .name m k) replies (.read () k') := by
  refine keeps_send ?_ hk
  rw [Proc.enter_read, Proc.run_read]
  exact Prod.ext rfl (Prod.ext rfl (Proc.run_nil_rest _))

/-- The names hold no NUL: the listing is one string, if it ends. -/
theorem listLoop_run (s : Mem) : ∀ (fuel : ℕ) (p : Ptr ℕ), ∃ l, (0 : Byte) ∉ l ∧
    ((∃ e, (listLoop s fuel p).run [] = (l, .halt e s, [])) ∨ (listLoop s fuel p).run [] = (l ++ [0], .ret s, []))
  | 0, _ => ⟨[], by simp, .inl ⟨.diverge, by simp [listLoop]⟩⟩
  | _ + 1, .null => ⟨[], by simp, .inr (by simp [listLoop])⟩
  | _ + 1, .unassigned => ⟨[], by simp, .inl ⟨.unassigned, by simp [listLoop, deref]⟩⟩
  | fuel + 1, .node a => by
    cases hd : deref s.heap (.node a) with
    | error e => exact ⟨[], by simp, .inl ⟨e, by simp [listLoop, hd]⟩⟩
    | ok n =>
      obtain ⟨l, hl, h⟩ := listLoop_run s fuel n.2.next
      refine ⟨n.2.name.bytes ++ 10 :: l, by simp [n.2.name.nul_free, hl], ?_⟩
      rcases h with ⟨e, h⟩ | h
      · exact .inl ⟨e, by simp [listLoop, hd, h]⟩
      · exact .inr (by simp [listLoop, hd, h])

/-- Where the server stops, the client waits for good. -/
theorem keeps_fault {α : Type} {x : Except Fault α} {k' : α → NameServer.Op} {k : CStr → Client.Op}
    (h : ∀ a, x = .ok a → Keeps c (receive .name k) ((k' a).run []).1 ((k' a).run []).2.1) :
    Keeps c (receive .name k) ((Proc.attempt s x k').run []).1 ((Proc.attempt s x k').run []).2.1 := by
  cases x with
  | error e => simp
  | ok a => exact h a rfl

/-- The first part of a file completes the command of the name server with the location of the file. -/
theorem keeps_firstPart {s' : CStr → Mem} (hs' : ∀ loc, Typed (s' loc)) (n : ℕ) (dir : CStr) (content : List Byte) :
    Keeps c (sendParts c t (n + 1) 0 0 0 dir content) [] (.read () fun loc => .ret (s' loc)) := by
  simp only [sendParts, keeps_send_data, if_true]
  refine keeps_sendPieces ?_ _ _
  simp only [keeps_data, keeps_send_data]
  refine keeps_attempt fun _ _ => keeps_send_data.2 (keeps_attempt fun _ _ => keeps_send_data.2
    (keeps_receive_data.2 fun loc => keeps_arg ?_))
  simp only [Proc.run_ret, List.append_nil]
  exact keeps_advance fun _ => keeps_sendParts (keeps_done.2 ⟨rfl, _, rfl, hs' loc⟩) n 0 _ _ _ _

/-- The first chunk of a copy does so too. -/
theorem keeps_firstCopy {s' : CStr → Mem} (hs' : ∀ loc, Typed (s' loc)) (n : ℕ) (loc loca : CStr) :
    Keeps c (copyChunks c t loc (n + 1) 0 0 loca) [] (.read () fun loc => .ret (s' loc)) := by
  simp only [copyChunks, keeps_send_data, if_true]
  refine keeps_attempt fun _ _ => keeps_send_data.2 (keeps_receive_data.2 fun loca => keeps_arg ?_)
  simp only [Proc.run_ret, List.append_nil]
  exact keeps_advance fun _ => keeps_copyChunks (keeps_done.2 ⟨rfl, _, rfl, hs' loca⟩) n 0 _ _

theorem keeps_ls (hs : Typed s) : Keeps c (listDirectory t) [] (.ret s) := by
  have hls : ((Proc.ret s).enter nameMain).run [lit "ls"] =
      (((listDirectory s).run []).1, ((listDirectory s).run []).2.1, []) :=
    Prod.ext rfl (Prod.ext rfl (Proc.run_nil_rest _))
  refine keeps_send hls ?_
  rw [List.nil_append, NameServer.listDirectory]
  cases hd : deref s.heap s.cur with
  | error e => simp
  | ok n =>
    rw [Proc.attempt_ok]
    obtain ⟨l, hl, ⟨e, h⟩ | h⟩ := listLoop_run s (rounds s.heap) n.2.child
    · rw [h, keeps_receive, readStr_of_nul_free hl]
      intro m r hm
      cases hm
    · -- `l` as a string
      have hz : l ++ [0] = (⟨l, hl⟩ : CStr).z := rfl
      rw [h, hz]
      simpa using hs

/-- A new node is linked in where the chain of the current directory ends. -/
theorem exists_attach (hs : Typed s) {d : ℕ} {l : List ℕ} (hd : s.cur = .node d) (hk : (links s.heap).Kids d l)
    {n : Node} (hc : n.child = .null) (hn : n.next = .null) (x : ℕ) :
    ∃ h, attach (s.heap ++ [n]) s.cur x = .ok h := by
  obtain ⟨dn, hdn, hu⟩ := (hs.cur d hd).2.get
  have hl : ∀ a ∈ l, a < s.heap.length := fun a ha => (hs.heap.kids_filled hk a ha).lt
  rw [hd]
  refine ⟨_, attach_of_kids (l := l) ((get_append_of_lt n (lt_of_get hdn)).trans hdn) hu ?_ (fun a ha => ?_) ?_⟩
  · rwa [links_append (by rw [hc]; rfl) hn]
  · simpa using (hl a ha).trans (Nat.lt_succ_self _)
  · simpa using (length_le_of_nodup (Chain.nodup hk) hl).trans (Nat.le_succ _)

theorem keeps_mkdir (hs : Typed s) {dirname : CStr} (hd : ∃ d l, s.cur = .node d ∧ (links s.heap).Kids d l)
    (hl : dirname.bytes.length < nameSize) :
    Keeps c (send .name (lit "mkdir") <| send .name dirname <| done t) [] (.ret s) := by
  refine keeps_choice rfl (keeps_arg ?_)
  obtain ⟨d, l, hd, hk⟩ := hd
  obtain ⟨h, ha⟩ := exists_attach hs hd hk (n := newDirectory s dirname) rfl rfl s.heap.length
  have hname : strcpyName dirname = .ok dirname := strcpyName_eq_ok.2 ⟨hl, rfl⟩
  have hst : Step s (.mkdir dirname) [] { s with heap := h } := by
    show (NameServer.makeDirectory s).Ends [dirname] [] _
    simp [NameServer.makeDirectory, hname, ha]
  simpa [hname, ha] using hs.step hst

lemma one_ne_zero' : lit "1" ≠ lit "0" := by decide

theorem keeps_cd (hs : Typed s) {dirname : CStr} : Keeps c (send .name (lit "cd") <| send .name dirname <|
    receive .name fun choice => if choice = lit "1" then printf (lit "Directory not present\n") (done t) else done t)
    [] (.ret s) := by
  refine keeps_choice rfl (keeps_arg (keeps_fault fun o hw => ?_))
  cases o with
  | none => simpa [reply] using hs
  | some q =>
    have hst := hs.step (step_cd_iff.2 (.inr ⟨q, hw, rfl, rfl⟩))
    simpa [reply, one_ne_zero'.symm] using hst

/-- What `catfile`, `savefile` and `removefile` do once the name of the file is sent. -/
def located (t : ℕ) (k : CStr → ℕ → Client.Op) : Client.Op :=
  receive .name fun temp =>
  if temp = lit "0" then printf (lit "File not found in current directory\n") (done t)
  else receive .name fun loc => receive .name fun chunks => k loc (atoi chunks).toNat

/-- The answer about a file, and what the client does with it. -/
theorem keeps_located {s' : Mem} (n : Node) {k : CStr → ℕ → Client.Op}
    (hk : ∀ chunks, sprintfChunks n.no_of_chunks = .ok chunks → ∀ loc n, Keeps c (k loc n) [] (.ret s')) :
    Keeps c (located t k) ((reply (lit "1") (sendLocation s' n (.ret s'))).run []).1
      ((reply (lit "1") (sendLocation s' n (.ret s'))).run []).2.1 := by
  unfold located
  cases hc : sprintfChunks n.no_of_chunks with
  | error e => simp [reply, sendLocation, hc, one_ne_zero']
  | ok chunks => simpa [reply, sendLocation, hc, one_ne_zero'] using hk chunks hc _ _

theorem keeps_sendFile {choice found : CStr} (hch : dispatch s choice = sendFile s) (hsafe : Safe s (.cat found))
    {k : CStr → ℕ → Client.Op} (hk : ∀ loc n, Keeps c (k loc n) [] (.ret s)) :
    Keeps c (send .name choice <| send .name found <| located t k) [] (.ret s) := by
  refine keeps_choice hch (keeps_arg (keeps_fault fun p hd => keeps_fault fun o hf => ?_))
  obtain ⟨d, dn⟩ := p
  obtain ⟨hcur, hdn⟩ := deref_eq_ok.1 hd
  cases o with
  | none =>
    -- the chain holds a file of the name
    obtain ⟨l, hl, hno⟩ := find_eq_none hf
    obtain ⟨a, ha, hname, htype⟩ := hsafe d l hcur (by rw [Links.Kids, links_child_of_get hdn, hl.orNull]; exact hl)
    obtain ⟨m, hm, hhit⟩ := hno a ha
    rw [field_of_get hm, Option.some.injEq] at hname htype
    simp [hname, htype] at hhit
  | some a =>
    obtain ⟨l, m, -, hm, -⟩ := find_eq_some hf
    simp only [deref_node s.heap hm, Proc.attempt_ok]
    exact keeps_located m fun _ _ => hk

theorem keeps_rm (hs : Typed s) {found : CStr} (hsafe : Safe s (.rm found)) {k : CStr → ℕ → Client.Op}
    (hk : ∀ s', Typed s' → ∀ loc n, Keeps c (k loc n) [] (.ret s')) :
    Keeps c (send .name (lit "rm") <| send .name found <| located t k) [] (.ret s) := by
  refine keeps_choice rfl (keeps_arg (keeps_fault fun o hr => ?_))
  obtain ⟨d, l, hd, -, hl, hhead, hcase⟩ := removeChild_eq_ok hr
  rcases hcase with ⟨hkids, -⟩ | ⟨v, vn, -, hv, -, -, rfl⟩
  · -- the chain holds a file of the name, or begins with the name
    obtain ⟨a, ha, hname, htype⟩ := hsafe d l hd hkids
    obtain ⟨m, hm, hno⟩ := hl a ha
    rw [field_of_get hm, Option.some.injEq] at hname
    rcases htype with htype | hfst
    · rw [field_of_get hm, Option.some.injEq] at htype
      exact absurd ⟨hname, htype⟩ hno
    · obtain ⟨m', hm', hne⟩ := hhead a hfst
      rw [hm, Option.some.injEq] at hm'
      exact absurd hname (hm' ▸ hne)
  · obtain ⟨n, hn⟩ := exists_get (show v < (cut s.heap d l v vn.next).length by simpa using lt_of_get hv)
    simp only [deref_node _ hn, Proc.attempt_ok]
    refine keeps_located n fun chunks hc loc k => ?_
    have hst : Step s (.rm found) ((lit "1").z ++ (n.loc_name.z ++ chunks.z))
        { s with heap := cut s.heap d l v vn.next } := by
      show (NameServer.removefile s).Ends [found] _ _
      simp [NameServer.removefile, hr, reply, sendLocation, deref_node _ hn, hc]
    exact hk _ (hs.step hst) loc k

/-- A program that is given all its strings answers with one string, or not at all. -/
def Answers (p : NameServer.Op) : Prop :=
  (∃ e s, p.run [] = ([], .halt e s, [])) ∨ ∃ r s, p.run [] = (CStr.z r, .ret s, [])

theorem answers_attempt {α : Type} {x : Except Fault α} {k : α → NameServer.Op}
    (h : ∀ a, x = .ok a → Answers (k a)) : Answers (.attempt s x k) := by
  cases x with
  | error e => exact .inl ⟨e, s, by simp⟩
  | ok a => exact h a rfl

theorem answers_reply {r : CStr} : Answers (reply r (.ret s)) := .inr ⟨r, s, by simp [reply]⟩

theorem answers_mv (s : Mem) (source destination : CStr) : ∃ p : NameServer.Op, Answers p ∧
    (NameServer.movefile s).run [source, destination] = p.run [] := by
  refine ⟨_, ?_, by rw [NameServer.movefile, Proc.run_read, Proc.run_read]⟩
  refine answers_attempt fun o _ => ?_
  cases o with
  | none => exact answers_reply
  | some temp_cur =>
    refine answers_attempt fun x _ => answers_attempt fun h₁ _ => answers_attempt fun dst _ =>
      answers_attempt fun d _ => ?_
    dsimp only
    split
    · exact answers_reply
    · refine answers_attempt fun h₃ _ => ?_
      split
      · exact answers_reply
      · exact answers_attempt fun name _ => answers_reply

theorem keeps_mv (hs : Typed s) {source destination : CStr} {k : CStr → Client.Op}
    (hk : ∀ s', Typed s' → ∀ temp, Keeps c (k temp) [] (.ret s')) :
    Keeps c (send .name (lit "mv") <| send .name source <| send .name destination <| receive .name k) [] (.ret s) := by
  refine keeps_choice rfl (keeps_arg (keeps_arg ?_))
  obtain ⟨p, hanswers, h⟩ := answers_mv s source destination
  show Keeps c _ ((NameServer.movefile s).run [source, destination]).1
    ((NameServer.movefile s).run [source, destination]).2.1
  rw [h]
  rcases hanswers with ⟨e, s', hp⟩ | ⟨r, s', hp⟩
  · rw [hp]
    exact keeps_receive_nil
  · rw [hp]
    exact keeps_receive_single.2 (hk s' (hs.step (c := .mv source destination) (Proc.feed_of_run (h.trans hp))) r)

/-- The name of a new file is answered with "0", and two more strings complete the command. -/
theorem keeps_tobigfs (hs : Typed s) {filename : CStr}
    (hf : ∀ d n, s.cur = .node d → s.heap[d]? = some n → Missing s.heap (NameServer.baseName filename) n.child →
      (NameServer.baseName filename).bytes.length < nameSize ∧ (c.disk t filename).isSome) :
    Keeps c (send .name (lit "tobigfs") <| send .name filename <| receive .name fun temp =>
      if temp = lit "1" then printf (lit "File/Directory with the same name exists\n") (done t)
      else transfertoBigFS c t filename) [] (.ret s) := by
  refine keeps_choice rfl (keeps_arg (keeps_fault fun p hd => keeps_fault fun o hl => ?_))
  obtain ⟨d, dn⟩ := p
  obtain ⟨hcur, hdn⟩ := deref_eq_ok.1 hd
  cases o with
  | some a => simpa [reply] using hs
  | none =>
    have hm := lookup_eq_none hl
    obtain ⟨hlen, hfile⟩ := hf d dn hcur hdn hm
    obtain ⟨l, hch, -⟩ := hm
    have hk : (links s.heap).Kids d l := by rwa [Links.Kids, links_child_of_get hdn, hch.orNull]
    have hname : strcpyName (NameServer.baseName filename) = .ok (NameServer.baseName filename) :=
      strcpyName_eq_ok.2 ⟨hlen, rfl⟩
    obtain ⟨content, hcontent⟩ := Option.isSome_iff_exists.1 hfile
    simp only [reply, hname, Proc.attempt_ok, Proc.run_write, Proc.run_read_nil, List.append_nil,
      keeps_receive_single, one_ne_zero'.symm, if_false, transfertoBigFS, hcontent]
    refine keeps_attempt fun strparts _ => keeps_arg ?_
    obtain ⟨h, ha⟩ := exists_attach hs hcur hk (n := newFile s (NameServer.baseName filename) strparts) rfl rfl
      s.heap.length
    have hst : ∀ loc, Typed { s with heap := setLocName h s.heap.length loc } := by
      intro loc
      have hst : Step s (.tobigfs filename strparts loc) (lit "0").z { s with heap := setLocName h s.heap.length loc } := by
        show (NameServer.tobigfs s).Ends [filename, strparts, loc] _ _
        simp [NameServer.tobigfs, hd, hl, hname, ha, reply]
      exact hs.step hst
    simp only [ha, Proc.attempt_ok, Proc.run_read_nil, List.append_nil, Nat.add_comm 1]
    exact keeps_firstPart hst _ _ _

theorem keeps_cp (hs : Typed s) {source destination : CStr}
    (hpos : ∀ x xn d new l chunks, Resolve s.heap anyNode s.cur (fields NameServer.slash source) (.node x) →
      s.heap[x]? = some xn → Dest s.heap s.cur (fields NameServer.slash destination) d new →
      field Node.type s.heap d = some .directory → (links s.heap).Kids d l →
      (∀ name, new = some name → name.bytes.length < nameSize) → sprintfChunks xn.no_of_chunks = .ok chunks →
      0 < xn.no_of_chunks) :
    Keeps c (send .name (lit "cp") <| send .name source <| send .name destination <| receive .name fun temp =>
      if temp = lit "1" then printf (lit "Invalid copy\n") (done t)
      else receive .name fun loc => receive .name fun chunks => copyChunks c t loc (atoi chunks).toNat 0 0 (lit ""))
      [] (.ret s) := by
  refine keeps_choice rfl (keeps_arg (keeps_arg (keeps_fault fun o hw => ?_)))
  cases o with
  | none => simpa [reply] using hs
  | some temp_cur =>
    refine keeps_fault fun p hx => keeps_fault fun dst hdst => keeps_fault fun q hd => ?_
    obtain ⟨x, xn⟩ := p
    obtain ⟨d, dn⟩ := q
    obtain ⟨rfl, hxn⟩ := deref_eq_ok.1 hx
    obtain ⟨hd2, hdn⟩ := deref_eq_ok.1 hd
    dsimp only
    split
    · next hok =>
      have hst : Step s (.cp source destination (lit "")) (lit "1").z { s with heap := s.heap ++ [newCopy s xn] } := by
        show (NameServer.copyfile s).Ends _ _ _
        simp [NameServer.copyfile, hw, hx, hdst, hd, hok, reply]
      simpa [reply] using hs.step hst
    · next hok =>
      refine keeps_fault fun h₃ ha => keeps_fault fun name hname => ?_
      cases hc : sprintfChunks xn.no_of_chunks with
      | error e => simp [reply, sendLocation, hc, one_ne_zero'.symm]
      | ok chunks =>
        let s₄ (loc : CStr) : Mem := { s with
          heap := setLocName (setChild (setName h₃ s.heap.length name) s.heap.length .null) s.heap.length loc }
        have hst : ∀ loc, Typed (s₄ loc) := by
          intro loc
          have hst : Step s (.cp source destination loc) ((lit "0").z ++ (xn.loc_name.z ++ chunks.z)) (s₄ loc) := by
            show (NameServer.copyfile s).Ends _ _ _
            simp [NameServer.copyfile, hw, hx, hdst, hd, hok, ha, hname, hc, reply, sendLocation, s₄]
          exact hs.step hst
        simp only [not_or, Bool.not_eq_true] at hok
        -- the new node is on no path yet
        have hDest := (hs.heap.dest_append rfl hs.cur.inside).1 (walkDestination_eq_ok hdst hok.2 hd2)
        have hlt := (hs.heap.dest_filled hDest hs.cur.inside).lt
        have htype : field Node.type s.heap d = some .directory :=
          type_of_ne_file ((get_append_of_lt _ hlt).symm.trans hdn) hok.1
        rw [hd2] at ha
        obtain ⟨l, hk, -⟩ := attach_append (n := newCopy s xn) rfl hlt (by simp) ha
        have hnew : ∀ new, dst.found2 = some new → new.bytes.length < nameSize := by
          intro new hn
          rw [hn] at hname
          exact (strcpyName_eq_ok.1 hname).1
        obtain ⟨n, hn⟩ : ∃ n : ℕ, xn.no_of_chunks = (n + 1 : ℕ) :=
          ⟨(xn.no_of_chunks - 1).toNat, by
            have := hpos x xn d _ l chunks (walkSource_eq_some hw) hxn hDest htype hk hnew hc
            omega⟩
        have hat : (atoi chunks).toNat = n + 1 := by
          unfold sprintfChunks at hc
          split at hc
          · next hlen =>
            cases hc
            rw [hn] at hlen ⊢
            have hlt : n + 1 < 10 ^ 9 := (length_decBytes_le (by decide)).1 (Nat.le_of_lt_succ hlen)
            rw [atoi_decimal (by omega)]
            rfl
          · cases hc
        simpa [reply, sendLocation, hc, one_ne_zero'.symm, hat] using keeps_firstCopy hst n xn.loc_name (lit "")

/-! ### The programs end with a write that is not empty -/

end Server

end NetProg.BigFs
