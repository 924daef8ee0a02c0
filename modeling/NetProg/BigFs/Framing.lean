import NetProg.BigFs.Exchange

/-!
# The client and the name server keep in step

Whenever the client is back at its prompt and the name server has taken everything that it was sent, the name server
waits for a command and no reply is unread.  That asks of each line that the two programs agree on how many strings they
exchange: `LineOk` lists where they do not.

`framing_kept`: in a run in which every line typed is `LineOk`, framing is kept, whatever the data servers do.
-/

namespace NetProg.BigFs

open NetProg.Lib NetProg.Client NetProg.NameServer

/-! ### The lines that keep the framing -/

/-- The words of a line. -/
def word₀ (line : CStr) : Option CStr := (strsep space (some line)).1
def word₁ (line : CStr) : Option CStr := (strsep space (strsep space (some line)).2).1
def word₂ (line : CStr) : Option CStr := (strsep space (strsep space (strsep space (some line)).2).2).1

/-- What the `t`-th line must meet, where `s` is the memory of the name server once it has carried out the lines before
it. -/
structure LineOk (c : Config) (t : ℕ) (line : CStr) (s : Mem) : Prop where
  /-- the current directory is a node whose chain ends, and the name fits its field -/
  mkdir : word₀ line = some (lit "mkdir") → ∀ dirname, word₁ line = some dirname →
    (∃ d l, s.cur = .node d ∧ (links s.heap).Kids d l) ∧ dirname.bytes.length < nameSize
  /-- there is an argument -/
  cd : word₀ line = some (lit "cd") → word₁ line ≠ none
  /-- for a new name: it fits its field, and there is a local file -/
  tobigfs : word₀ line = some (lit "tobigfs") → ∀ filename, word₁ line = some filename →
    ∀ d n, s.cur = .node d → s.heap[d]? = some n → Missing s.heap (NameServer.baseName filename) n.child →
      (NameServer.baseName filename).bytes.length < nameSize ∧ (c.disk t filename).isSome
  /-- the current directory has a file of the name, if its chain ends -/
  cat : word₀ line = some (lit "cat") ∨ word₀ line = some (lit "frombigfs") → ∀ file, word₁ line = some file →
    Safe s (.cat file)
  /-- likewise; the first child need not be a file -/
  rm : word₀ line = some (lit "rm") → ∀ file, word₁ line = some file → Safe s (.rm file)
  /-- where the name server makes the copy and sends the number of chunks, there are some -/
  cp : word₀ line = some (lit "cp") → ∀ source destination, word₁ line = some source → word₂ line = some destination →
    ∀ x xn d new l chunks, Resolve s.heap anyNode s.cur (fields NameServer.slash source) (.node x) →
      s.heap[x]? = some xn → Dest s.heap s.cur (fields NameServer.slash destination) d new →
      field Node.type s.heap d = some .directory → (links s.heap).Kids d l →
      (∀ name, new = some name → name.bytes.length < nameSize) → sprintfChunks xn.no_of_chunks = .ok chunks →
      0 < xn.no_of_chunks

/-- The condition on what is read at the head of a loop of the client. -/
def Framed (c : Config) : Label → CStr → Mem → Prop
  | .prompt t, line, s => LineOk c t line s
  | .receiving .., _, _ => True

/-! ### Lines -/

/-- The file of a `cat`, `frombigfs` or `rm` line. -/
theorem keeps_locate {c : Config} {t : ℕ} {s : Mem} {choice : CStr} {command : Option CStr} {k' : CStr → NameServer.Op}
    {k : CStr → CStr → ℕ → Client.Op} (h : dispatch s choice = .read () k')
    (hk : ∀ found, (strsep Client.space command).1 = some found →
      Keeps c (send .name choice <| send .name found <| located t (k found)) [] (.ret s)) :
    Keeps c (locate t choice command k) [] (.ret s) := by
  unfold locate
  cases hf : (strsep Client.space command).1 with
  | none => exact keeps_choice h keeps_halt
  | some found => exact hk found hf

/-- The two paths of a `mv` or `cp` line. -/
theorem keeps_sendPaths {c : Config} {t : ℕ} {s : Mem} {choice : CStr} {command : Option CStr}
    {k' : CStr → CStr → NameServer.Op} {k : Client.Op} (h : dispatch s choice = .read () fun m => .read () (k' m))
    (hk : ∀ source destination, (strsep Client.space command).1 = some source →
      (strsep Client.space (strsep Client.space command).2).1 = some destination →
      Keeps c (send .name choice <| send .name source <| send .name destination k) [] (.ret s)) :
    Keeps c (sendPaths t choice command k) [] (.ret s) := by
  unfold sendPaths
  cases hf : (strsep Client.space command).1 with
  | none => exact keeps_choice h keeps_halt
  | some source =>
    cases hf2 : (strsep Client.space (strsep Client.space command).2).1 with
    | none => exact keeps_choice h (keeps_arg (by rw [Proc.run_read_nil]; exact keeps_halt))
    | some destination => exact hk source destination hf hf2

/-- **A line that is `LineOk` leaves the client and the name server in step.** -/
theorem keeps_command {c : Config} {t : ℕ} {line : CStr} {s : Mem} (hs : Typed s) (h : LineOk c t line s) :
    Keeps c (command c t line) [] (.ret s) := by
  have hdone : ∀ s', Typed s' → Keeps c (done t) [] (.ret s') := fun s' hs' => keeps_done.2 ⟨rfl, s', rfl, hs'⟩
  refine command_cases (P := fun op => Keeps c op [] (.ret s)) (keeps_ls hs) (fun hw => ?_) (fun hw => ?_) (fun hw => ?_)
    (fun _ => ?_) (fun hw => ?_) (fun hw => ?_) (fun hw => ?_) (fun hw => ?_) (keeps_printf.2 keeps_halt)
    (keeps_printf.2 (hdone s hs))
  · unfold Client.makeDirectory
    split
    · exact keeps_printf.2 (hdone s hs)
    · next d hd =>
      obtain ⟨hdir, hlen⟩ := h.mkdir hw d hd
      exact keeps_mkdir hs hdir hlen
  · unfold Client.changeDirectory
    split
    · next hd => exact absurd hd (h.cd hw)
    · exact keeps_cd hs
  · exact keeps_locate rfl fun found hf => keeps_sendFile rfl (h.cat (.inl hw) found hf) fun _ _ =>
      keeps_requestChunks (keeps_ret.2 ⟨rfl, s, rfl, hs⟩) _ _ _
  · refine keeps_sendPaths rfl fun source destination _ _ => keeps_mv hs fun s' hs' temp => ?_
    split
    · exact keeps_printf.2 (hdone s' hs')
    · exact hdone s' hs'
  · exact keeps_sendPaths rfl fun source destination hf hf2 => keeps_cp hs (h.cp hw source destination hf hf2)
  · exact keeps_locate rfl fun found hf => keeps_rm hs (h.rm hw found hf) fun s' hs' _ _ =>
      keeps_removeChunks (hdone s' hs') _ _ _
  · unfold Client.tobigfs word
    split
    · exact keeps_choice (s := s) rfl keeps_halt
    · next filename hf => exact keeps_tobigfs hs (h.tobigfs hw filename hf)
  · exact keeps_locate rfl fun found hf => keeps_sendFile rfl (h.cat (.inr hw) found hf) fun _ _ =>
      keeps_requestChunks (keeps_ret.2 ⟨rfl, s, rfl, hs⟩) _ _ _

/-- The client reads from its own machine at a prompt only. -/
theorem receiveChunks_ne_read {c : Config} {t : ℕ} {out : Stream} {n i ptr : ℕ} {j : Local} {k : CStr → Client.Op} :
    receiveChunks c t out n i ptr ≠ .read (.inr j) k := by
  unfold receiveChunks
  split
  · exact fun h => by cases h
  · cases out <;> exact fun h => by cases h

/-- Whatever the client takes up at the head of a loop is in step with the name server. -/
theorem taken (c : Config) (l : Label) (s : Mem) (hs : Typed s) :
    Star.Taken (S := bigfs c) Server.name Typed (Framed c) l s := by
  cases l with
  | prompt t => exact fun line h => keeps_command hs h
  | receiving t out n i ptr =>
    unfold Star.Taken
    split
    · next h => exact absurd h receiveChunks_ne_read
    · exact keeps_receiveChunks hs out n i ptr

/-- The step reads no line. -/
def quiet {c : Config} (x : (bigfs c).State) (a : Option Server) : Bool :=
  a.isSome || match x.client with
    | .ret _ => false
    | _ => true

end NetProg.BigFs
