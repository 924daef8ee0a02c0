import NetProg.BigFs.Framing
import NetProg.BigFs.Save
import NetProg.BigFs.Shelf

/-!
# What a session comes to

A session is a sequence of lines.  `Carried c t m line m' w` lists the lines that the client, the name server and the
data servers carry out together: from the memories `m` to the memories `m'`, with `w` written on the machine of the
client.  `Session` puts them one after the other.

* `Carried.reaches`: the system does for one line what `Carried` says;
* `session_ends`: so it does for all lines of a session, in every order of the steps of its programs.
-/

namespace NetProg.BigFs

open NetProg.Lib NetProg.Client NetProg.Receive NetProg.DataServer

/-! ### The name server -/

section Name

open NetProg.NameServer (Mem Step Typed)

variable {s s' : Mem} {a b : CStr} {out : List Byte}

/-- A command whose last string has been read. -/
theorem run_one {k : CStr → NameServer.Op} (h : (Proc.read () k).Ends [a] out s') :
    (Proc.read () k).run [a] = (out, .ret s', []) :=
  Proc.run_of_feed_nil (p := k a) h

theorem run_two {k : CStr → CStr → NameServer.Op} (h : (Proc.read () fun a => .read () (k a)).Ends [a, b] out s') :
    (Proc.read () fun a => .read () (k a)).run [a, b] = (out, .ret s', []) :=
  Proc.run_of_feed_nil (p := k a b) h

/-- A name that is taken is answered at once. -/
theorem run_taken {parts loc : CStr} (h : Step s (.tobigfs a parts loc) (lit "1").z s') :
    (NameServer.tobigfs s).run [a] = ((lit "1").z, .ret s', []) := by
  have hz : (lit "0").z = [48, 0] ∧ (lit "1").z = [49, 0] := by decide
  replace h : (NameServer.tobigfs s).Ends [a, parts, loc] (lit "1").z s' := h
  rw [NameServer.tobigfs, Proc.ends_read] at h
  obtain ⟨d, hd, h⟩ := Proc.ends_attempt.1 h
  obtain ⟨o, hl, h⟩ := Proc.ends_attempt.1 h
  rw [NameServer.tobigfs, Proc.run_read, hd, Proc.attempt_ok]
  cases o with
  | none =>
    obtain ⟨o, ho, -⟩ := Proc.ends_write.1 h
    simp [hz] at ho
  | some v =>
    obtain ⟨o, -, h⟩ := Proc.ends_write.1 h
    rw [(Proc.ends_ret.1 h).2]
    dsimp only
    rw [hl, Proc.attempt_ok]
    simp [NameServer.reply]

/-- What a new file needs of the tree does not depend on what is sent behind its name. -/
theorem accepts_of_step {parts loc : CStr} (hs : Typed s) (h : Step s (.tobigfs a parts loc) (lit "0").z s') :
    Accepts s a := by
  intro parts' loc'
  have hz : (lit "0").z = [48, 0] ∧ (lit "1").z = [49, 0] := by decide
  replace h : (NameServer.tobigfs s).Ends [a, parts, loc] (lit "0").z s' := h
  simp only [NameServer.tobigfs, Proc.ends_read, Proc.ends_attempt, NameServer.deref_eq_ok, Prod.exists] at h
  obtain ⟨d, dn, ⟨hcur, hd⟩, o, hl, h⟩ := h
  cases o with
  | some v =>
    obtain ⟨o, ho, -⟩ := Proc.ends_write.1 h
    simp [hz] at ho
  | none =>
    simp only [NameServer.reply, Proc.ends_write, Proc.ends_read, Proc.ends_attempt, NameServer.strcpyName_eq_ok,
      Proc.ends_ret] at h
    obtain ⟨-, -, name, ⟨hlen, rfl⟩, heap, ha, -, rfl⟩ := h
    -- the chain that the new node is linked in behind
    rw [hcur] at ha
    have hlt := NameServer.lt_of_get hd
    obtain ⟨l, hk, -⟩ := NameServer.attach_append rfl hlt rfl ha
    have hl' : ∀ b ∈ l, b < s.heap.length := fun b hb => (hs.heap.kids_filled hk b hb).lt
    have hfill : dn.child ≠ .unassigned := by
      obtain ⟨dn', hd', hne⟩ := (hs.cur d hcur).2.get
      rw [hd] at hd'
      exact Option.some.inj hd' ▸ hne
    obtain ⟨heap', ha'⟩ : ∃ heap', NameServer.attach (s.heap ++ [NameServer.newFile s (NameServer.baseName a) parts'])
        (.node d) s.heap.length = .ok heap' := by
      refine ⟨_, NameServer.attach_of_kids (l := l) (n := dn) ?_ hfill ?_ ?_ ?_⟩
      · rwa [List.getElem?_append_left hlt]
      · rwa [NameServer.links_append rfl rfl]
      · intro b hb
        have := hl' b hb
        simp
        omega
      · have := NameServer.length_le_of_nodup hk.nodup hl'
        simp
        omega
    refine ⟨{ s with heap := NameServer.setLocName heap' s.heap.length loc' }, ?_⟩
    show (NameServer.tobigfs s).Ends [a, parts', loc'] (lit "0").z _
    simp only [NameServer.tobigfs, Proc.ends_read, Proc.ends_attempt, NameServer.deref_eq_ok, Prod.exists]
    refine ⟨d, dn, ⟨hcur, hd⟩, _, hl, ?_⟩
    simp only [NameServer.reply, Proc.ends_write, Proc.ends_read, Proc.ends_attempt, NameServer.strcpyName_eq_ok,
      Proc.ends_ret]
    refine ⟨[], by simp, _, ⟨hlen, rfl⟩, heap', ?_, rfl, rfl⟩
    rw [hcur]
    exact ha'

/-- It is what `withFile` says. -/
theorem eq_withFile {parts loc : CStr} (hs : Typed s) (hslash : NameServer.slash ∉ a.bytes)
    (h : Step s (.tobigfs a parts loc) (lit "0").z s') : s' = withFile s a parts loc := by
  have hfeed := Proc.feed_append ((accepts_of_step hs h).run hslash) [parts, loc]
  have hends : (NameServer.tobigfs s).feed ([a] ++ [parts, loc]) = ((lit "0").z, .done s') := h
  rw [hends, Prod.mk.injEq] at hfeed
  exact (Outcome.done.inj hfeed.2)

/-- A copy that is refused is answered before a location is read, and one that is made waits for it. -/
theorem run_cp {loc : CStr} (h : Step s (.cp a b loc) out s') :
    (out = (lit "1").z ∧ (NameServer.copyfile s).run [a, b] = (out, .ret s', [])) ∨
    ∃ (o : List Byte) (q : CStr → Mem), out = (lit "0").z ++ o ∧ q loc = s' ∧
      (NameServer.copyfile s).run [a, b] = (out, .read () fun loc => .ret (q loc), []) := by
  replace h : (NameServer.copyfile s).Ends [a, b, loc] out s' := h
  rw [NameServer.copyfile, Proc.ends_read, Proc.ends_read] at h
  obtain ⟨o, hw, h⟩ := Proc.ends_attempt.1 h
  rw [NameServer.copyfile, Proc.run_read, Proc.run_read, hw, Proc.attempt_ok]
  cases o with
  | none =>
    simp only [NameServer.reply, Proc.ends_write, Proc.ends_ret] at h
    obtain ⟨o, rfl, rfl, rfl⟩ := h
    exact .inl ⟨List.append_nil _, by simp [NameServer.reply]⟩
  | some temp_cur =>
    obtain ⟨⟨x, xn⟩, hx, h⟩ := Proc.ends_attempt.1 h
    obtain ⟨dst, hdst, h⟩ := Proc.ends_attempt.1 h
    obtain ⟨⟨d, dn⟩, hd, h⟩ := Proc.ends_attempt.1 h
    dsimp only at h ⊢
    rw [hx, Proc.attempt_ok]
    dsimp only
    rw [hdst, Proc.attempt_ok, hd, Proc.attempt_ok]
    dsimp only
    split at h
    · next hbad =>
      simp only [NameServer.reply, Proc.ends_write, Proc.ends_ret] at h
      obtain ⟨o, rfl, rfl, rfl⟩ := h
      rw [if_pos hbad]
      exact .inl ⟨List.append_nil _, by simp [NameServer.reply]⟩
    · next hok =>
      obtain ⟨h₃, ha, h⟩ := Proc.ends_attempt.1 h
      obtain ⟨name, hname, h⟩ := Proc.ends_attempt.1 h
      simp only [NameServer.reply, NameServer.sendLocation, Proc.ends_write, Proc.ends_attempt, Proc.ends_read,
        Proc.ends_ret] at h
      obtain ⟨o, rfl, o', rfl, chunks, hchunks, o'', rfl, rfl, rfl⟩ := h
      rw [if_neg hok, ha, Proc.attempt_ok, hname, Proc.attempt_ok]
      refine .inr ⟨_, fun loc => { s with heap := NameServer.setLocName (NameServer.setChild
        (NameServer.setName h₃ s.heap.length name) s.heap.length .null) s.heap.length loc }, rfl, rfl, ?_⟩
      simp [NameServer.reply, NameServer.sendLocation, hchunks]

theorem run_refused {loc : CStr} (h : Step s (.cp a b loc) (lit "1").z s') :
    (NameServer.copyfile s).run [a, b] = ((lit "1").z, .ret s', []) := by
  have hz : (lit "0").z = [48, 0] ∧ (lit "1").z = [49, 0] := by decide
  rcases run_cp h with ⟨-, hrun⟩ | ⟨o, q, ho, -⟩
  · exact hrun
  · simp [hz] at ho

theorem run_copied {loc : CStr} (h : Step s (.cp a b loc) ((lit "0").z ++ out) s') : ∃ q : CStr → Mem,
    (NameServer.copyfile s).run [a, b] = ((lit "0").z ++ out, .read () fun loc => .ret (q loc), []) ∧ q loc = s' := by
  have hz : (lit "0").z = [48, 0] ∧ (lit "1").z = [49, 0] := by decide
  rcases run_cp h with ⟨ho, -⟩ | ⟨o, q, -, hq, hrun⟩
  · simp [hz] at ho
  · exact ⟨q, hrun, hq⟩

end Name

/-! ### Requests -/

section Requests

variable {c : Config} {t : ℕ} {f : Conf} {k : Client.Op} {i : Server} {a b m loc : CStr} {ins : List CStr} {out : List Byte}

theorem sends_all (ms : List CStr) : Star.Sends (bigfs c) i (ms.foldr (send i) k) (ms.flatMap CStr.z) k := by
  induction ms with
  | nil => exact sends_nil
  | cons m ms ih => exact sends_write _ ih

/-- A command with its arguments, which the name server carries out. -/
theorem goes_command {s : NameServer.Mem} {q : NameServer.Op}
    (h : Star.Sends (bigfs c) .name f.client ((m :: ins).flatMap CStr.z) k) (hname : f.name = .ret s)
    (hrun : (NameServer.dispatch s m).run ins = (out, q, [])) : Goes c f { f with
      client := k
      name := q
      reply := f.reply ++ out } := by
  have hg : Conf.state c { f with client := k, name := q, reply := f.reply ++ out } =
      requestState c f .name ((m :: ins).flatMap CStr.z) out k q := by
    refine state_eq_requestState rfl ?_ ?_ rfl rfl
    · funext i
      rcases i with _ | ptr
      · exact (@Function.update_self _ (fun i => Proc Unit ((bigfs c).ServerFault i) _) _ _ _ _).symm
      · exact (Function.update_of_ne (by simp) _ _).symm
    · funext i
      rcases i with _ | ptr <;> simp [Conf.replies, enqueue]
  have hq : enqueue (f.state c).sent .name ((m :: ins).flatMap CStr.z) .name = (m :: ins).flatMap CStr.z := by
    simp [Conf.state]
  have hr := (Star.traced_sends (x := f.state c) (l := fun _ => []) h).trans (Star.traced_command (x := { f.state c with
    client := k, sent := enqueue (f.state c).sent .name ((m :: ins).flatMap CStr.z) }) (i := Server.name) hname rfl hq hrun)
  show Reaches _ _ _
  rw [hg]
  exact Star.reaches_now hr

/-- The request for a chunk. -/
theorem sends_ask {n : ℕ} : Star.Sends (bigfs c) i
    (send i (lit "cat") <| .write (.inl i) loc.bytes <| send i (decimal n) k)
    ([lit "cat", loc.cat (decimal n)].flatMap CStr.z) k := by
  have hb : [lit "cat", loc.cat (decimal n)].flatMap CStr.z = (lit "cat").z ++ (loc.bytes ++ ((decimal n).z ++ [])) := by
    simp [CStr.z, CStr.cat]
  rw [hb]
  exact sends_write _ (sends_write _ (sends_write _ sends_nil))

/-- The answers to the requests for all chunks stand ready. -/
theorem goes_asks (hk : 0 < c.no_of_dataservers) {chunk : ℕ → List Byte} {n i : ℕ} (hi : i + n ≤ 10 ^ 9)
    (hget : ∀ j < i + n, (f.store (j % c.no_of_dataservers)).get (loc.cat (decimal j)) = some (chunk j))
    (hlen : ∀ j < i + n, (chunk j).length ≤ BLOCKSIZE)
    (hf : f.client = requestChunks c t loc n i (i % c.no_of_dataservers) k) : Goes c f { f with
      client := k
      answers := fun j => f.answers j ++ dealt c.no_of_dataservers (fun m => answer (chunk m)) n i j } := by
  induction n generalizing i f with
  | zero =>
    have hc : f.client = k := hf
    simp only [dealt_zero, List.append_nil, ← hc]
    exact Goes.refl
  | succ n ih =>
    have hclient : f.client = _ := hf.trans (by
      rw [requestChunks, sprintf_eq (by omega), Proc.attempt_ok, advance_eq hk, next_turn])
    refine (goes_data (hclient ▸ sends_ask) rfl (printfile_run (hget i (by omega)) (hlen i (by omega)))).trans ?_
    rw [Function.update_eq_self]
    have hj : ∀ j, enqueue f.answers (i % c.no_of_dataservers) (answer (chunk i)) j ++
        dealt c.no_of_dataservers (fun m => answer (chunk m)) n (i + 1) j =
        f.answers j ++ dealt c.no_of_dataservers (fun m => answer (chunk m)) (n + 1) i j := by
      intro j
      by_cases hj : j = i % c.no_of_dataservers
      · subst hj
        simp [dealt]
      · simp [dealt, hj, enqueue_of_ne hj]
    simp only [← hj]
    exact ih (by omega) (fun j hlt => hget j (by omega)) (fun j hlt => hlen j (by omega)) rfl

end Requests

/-! ### Lines -/

/-- What the name server has in its memory, and the data servers on their disks. -/
structure Memory where
  name : NameServer.Mem
  store : ℕ → Store

/-- What is written on one channel. -/
def written (j : Local) (b : List Byte) : Local → List Byte := Function.update (fun _ => []) j b

/-- The chunks of a file can be read: they are on their servers, none is empty and none is too long. -/
structure Readable (k : ℕ) (σ : ℕ → Store) (loc : CStr) (ps : Parts) : Prop where
  parts : ps.length < 10 ^ 9
  chunk : ∀ i b, ps[i]? = some b → (σ (i % k)).get (loc.cat (decimal i)) = some b ∧
    b ≠ [] ∧ (0 : Byte) ∉ b ∧ b.length ≤ BLOCKSIZE

/-- The first words of the lines that the client knows. -/
def commandNames : List CStr :=
  [lit "ls", lit "mkdir", lit "cd", lit "cat", lit "mv", lit "cp", lit "rm", lit "tobigfs", lit "frombigfs", lit "exit"]

open NetProg.NameServer (Step) in
/-- The `t`-th line is carried out, and what it writes on the machine of the client. -/
inductive Carried (c : Config) (t : ℕ) (m : Memory) (line : CStr) : Memory → (Local → List Byte) → Prop where
  | ls {text : CStr} : word₀ line = some (lit "ls") → Step m.name .ls text.z m.name →
      Carried c t m line m (written .terminal text.bytes)
  | mkdir {dirname s'} : word₀ line = some (lit "mkdir") → word₁ line = some dirname →
      Step m.name (.mkdir dirname) [] s' → Carried c t m line { m with name := s' } fun _ => []
  | bare : word₀ line = some (lit "mkdir") → word₁ line = none →
      Carried c t m line m (written .terminal (lit "No directory Specified\n").bytes)
  | cd {dirname s'} : word₀ line = some (lit "cd") → word₁ line = some dirname →
      Step m.name (.cd dirname) (lit "0").z s' → Carried c t m line { m with name := s' } fun _ => []
  | absent {dirname s'} : word₀ line = some (lit "cd") → word₁ line = some dirname →
      Step m.name (.cd dirname) (lit "1").z s' →
      Carried c t m line { m with name := s' } (written .terminal (lit "Directory not present\n").bytes)
  | tobigfs {filename content s'} : word₀ line = some (lit "tobigfs") → word₁ line = some filename →
      Client.slash ∉ filename.bytes → c.disk t filename = some content → (0 : Byte) ∉ readable c content →
      partsOf content < 10 ^ 9 →
      Step m.name (.tobigfs filename (decimal (partsOf content)) (newLoc m.store filename)) (lit "0").z s' →
      Carried c t m line ⟨s', uploaded c.no_of_dataservers m.store (newLoc m.store filename) (readable c content)
        (partsOf content)⟩ fun _ => []
  | taken {filename parts loc s'} : word₀ line = some (lit "tobigfs") → word₁ line = some filename →
      Step m.name (.tobigfs filename parts loc) (lit "1").z s' →
      Carried c t m line { m with name := s' }
        (written .terminal (lit "File/Directory with the same name exists\n").bytes)
  | cat {file loc ps s'} : word₀ line = some (lit "cat") → word₁ line = some file →
      Step m.name (.cat file) ((lit "1").z ++ loc.z ++ (decimal ps.length).z) s' →
      Readable c.no_of_dataservers m.store loc ps →
      Carried c t m line { m with name := s' } (written .terminal (ps.flatten ++ (lit "\n").bytes))
  | frombigfs {file loc ps s'} : word₀ line = some (lit "frombigfs") → word₁ line = some file →
      Step m.name (.frombigfs file) ((lit "1").z ++ loc.z ++ (decimal ps.length).z) s' →
      Readable c.no_of_dataservers m.store loc ps →
      Carried c t m line { m with name := s' } (written (.file t (baseName file)) (savedBytes c ps.flatten))
  | rm {file loc n s'} : word₀ line = some (lit "rm") → word₁ line = some file → n < 10 ^ 9 →
      Step m.name (.rm file) ((lit "1").z ++ loc.z ++ (decimal (n : ℕ)).z) s' →
      Carried c t m line ⟨s', removed c.no_of_dataservers m.store loc n⟩ fun _ => []
  | mv {source destination s'} : word₀ line = some (lit "mv") → word₁ line = some source →
      word₂ line = some destination → Step m.name (.mv source destination) (lit "0").z s' →
      Carried c t m line { m with name := s' } fun _ => []
  | unmoved {source destination s'} : word₀ line = some (lit "mv") → word₁ line = some source →
      word₂ line = some destination → Step m.name (.mv source destination) (lit "1").z s' →
      Carried c t m line { m with name := s' } (written .terminal (lit "Invalid move\n").bytes)
  | cp {source destination loc n s'} : word₀ line = some (lit "cp") → word₁ line = some source →
      word₂ line = some destination → 0 < n → n < 10 ^ 9 →
      (∀ i < n, (m.store (i % c.no_of_dataservers)).Exists (loc.cat (decimal i))) →
      Step m.name (.cp source destination (copyLoc m.store loc)) ((lit "0").z ++ (loc.z ++ (decimal (n : ℕ)).z)) s' →
      Carried c t m line ⟨s', copiedParts c.no_of_dataservers m.store loc (copyLoc m.store loc) n⟩ fun _ => []
  | uncopied {source destination loc s'} : word₀ line = some (lit "cp") → word₁ line = some source →
      word₂ line = some destination → Step m.name (.cp source destination loc) (lit "1").z s' →
      Carried c t m line { m with name := s' } (written .terminal (lit "Invalid copy\n").bytes)
  | unknown : (∀ w ∈ commandNames, word₀ line ≠ some w) →
      Carried c t m line m (written .terminal (lit "Invalid command\n").bytes)

/-- The lines are carried out one after the other, from the `t`-th on, each where `P` holds of it. -/
inductive Session (c : Config) (P : Memory → CStr → Prop) :
    ℕ → Memory → List CStr → Memory → (Local → List Byte) → Prop where
  | nil {t m} : Session c P t m [] m fun _ => []
  | cons {t m line m' w lines m'' w'} : P m line → Carried c t m line m' w → Session c P (t + 1) m' lines m'' w' →
      Session c P t m (line :: lines) m'' fun j => w j ++ w' j

/-- One more line. -/
theorem Session.concat {c : Config} {P : Memory → CStr → Prop} {t : ℕ} {m m' m'' : Memory} {lines : List CStr}
    {line : CStr} {w w' : Local → List Byte} (h : Session c P t m lines m' w) (hp : P m' line)
    (hl : Carried c (t + lines.length) m' line m'' w') : Session c P t m (lines ++ [line]) m'' fun j => w j ++ w' j := by
  induction h with
  | nil =>
    have hs := Session.cons hp hl .nil
    simpa using hs
  | cons hp₁ hl₁ _ ih =>
    rw [List.length_cons, ← Nat.add_assoc, Nat.add_right_comm] at hl
    have hs := Session.cons hp₁ hl₁ (ih hp hl)
    simpa using hs

/-! ### What the system does for a line -/

section Reaches

variable {c : Config} {t : ℕ} {m m' : Memory} {line : CStr} {r : List Byte} {w w' : Local → List Byte}

/-- The client is at its prompt, the servers wait for a command, and `typed` is going to be typed. -/
def ready (t : ℕ) (m : Memory) (typed : List Byte) : Conf where
  client := .ret (.prompt t)
  name := .ret m.name
  store := m.store
  reply := []
  answers _ := []
  typed := typed
  printed := []

theorem pour_pour {x : (bigfs c).State} : (x.pour w').pour w = x.pour fun j => w j ++ w' j := by
  unfold Star.State.pour
  simp

theorem state_printed {b : List Byte} :
    Conf.state c { ready t m r with printed := b } = ((ready t m r).state c).pour (written .terminal b) := by
  ext1 <;> try rfl
  funext j
  by_cases hj : j = .terminal
  · subst hj
    simp [Conf.state, Star.State.pour, written, ready]
  · cases j with
    | terminal => exact absurd rfl hj
    | file t name => simp [Conf.state, Star.State.pour, written]

/-- What is printed on the terminal only. -/
theorem Goes.reaches {f : Conf} {b : List Byte} (h : Goes c f { ready t m r with printed := b }) :
    Reaches Star.step (f.state c) (((ready t m r).state c).pour (written .terminal b)) := state_printed ▸ h

/-- The line sends a command with its arguments. -/
theorem goes_sent {choice : CStr} {ins : List CStr} {k : Client.Op} {q : NameServer.Op} {out : List Byte}
    (hline : command c t line = (choice :: ins).foldr (send .name) k)
    (hrun : (NameServer.dispatch m.name choice).run ins = (out, q, [])) :
    Goes c (ready t m (line.z ++ r)) { ready t m r with client := k, name := q, reply := out } := by
  refine (goes_line rfl rfl).trans ?_
  rw [hline]
  exact goes_command (sends_all _) rfl hrun

theorem goes_ls {text : CStr} (hw : word₀ line = some (lit "ls")) (hst : NameServer.Step m.name .ls text.z m.name) :
    Goes c (ready t m (line.z ++ r)) { ready (t + 1) m r with printed := text.bytes } := by
  have hline : command c t line = [lit "ls"].foldr (send .name) (receive .name fun readbuffer =>
      printf readbuffer (done t)) := by
    unfold command
    unfold word₀ at hw
    simp only [hw]
    rfl
  refine (goes_sent hline (Proc.run_of_feed_nil hst)).trans ?_
  refine (goes_reply (m := text) (r := []) rfl (List.append_nil _).symm).trans ?_
  exact goes_printf (m := text) (k := done t) rfl

theorem goes_mkdir {dirname : CStr} {s' : NameServer.Mem} (hw : word₀ line = some (lit "mkdir"))
    (hw' : word₁ line = some dirname) (hst : NameServer.Step m.name (.mkdir dirname) [] s') :
    Goes c (ready t m (line.z ++ r)) (ready (t + 1) { m with name := s' } r) := by
  have hline : command c t line = [lit "mkdir", dirname].foldr (send .name) (done t) := by
    unfold command
    unfold word₀ at hw
    unfold word₁ at hw'
    simp only [hw, makeDirectory, hw']
    rfl
  exact goes_sent hline (run_one hst)

theorem goes_bare (hw : word₀ line = some (lit "mkdir")) (hw' : word₁ line = none) :
    Goes c (ready t m (line.z ++ r)) { ready (t + 1) m r with printed := (lit "No directory Specified\n").bytes } := by
  have hline : command c t line = printf (lit "No directory Specified\n") (done t) := by
    unfold command
    unfold word₀ at hw
    unfold word₁ at hw'
    simp only [hw, makeDirectory, hw']
    rfl
  refine (goes_line rfl rfl).trans ?_
  rw [hline]
  exact goes_printf (m := lit "No directory Specified\n") (k := done t) rfl

theorem command_cd {dirname : CStr} (hw : word₀ line = some (lit "cd")) (hw' : word₁ line = some dirname) :
    command c t line = [lit "cd", dirname].foldr (send .name) (receive .name fun choice =>
      if choice = lit "1" then printf (lit "Directory not present\n") (done t) else done t) := by
  unfold command
  unfold word₀ at hw
  unfold word₁ at hw'
  simp only [hw, changeDirectory, hw']
  rfl

theorem goes_cd {dirname : CStr} {s' : NameServer.Mem} (hw : word₀ line = some (lit "cd"))
    (hw' : word₁ line = some dirname) (hst : NameServer.Step m.name (.cd dirname) (lit "0").z s') :
    Goes c (ready t m (line.z ++ r)) (ready (t + 1) { m with name := s' } r) := by
  have hne : lit "0" ≠ lit "1" := by decide
  refine (goes_sent (command_cd hw hw') (run_one hst)).trans ?_
  refine (goes_reply (m := lit "0") (r := []) rfl (List.append_nil _).symm).trans ?_
  rw [if_neg hne]
  exact Goes.refl

theorem goes_absent {dirname : CStr} {s' : NameServer.Mem} (hw : word₀ line = some (lit "cd"))
    (hw' : word₁ line = some dirname) (hst : NameServer.Step m.name (.cd dirname) (lit "1").z s') :
    Goes c (ready t m (line.z ++ r))
      { ready (t + 1) { m with name := s' } r with printed := (lit "Directory not present\n").bytes } := by
  refine (goes_sent (command_cd hw hw') (run_one hst)).trans ?_
  refine (goes_reply (m := lit "1") (r := []) rfl (List.append_nil _).symm).trans ?_
  rw [if_pos rfl]
  exact goes_printf (m := lit "Directory not present\n") (k := done t) rfl

theorem command_tobigfs {filename : CStr} (hw : word₀ line = some (lit "tobigfs")) (hw' : word₁ line = some filename) :
    command c t line = [lit "tobigfs", filename].foldr (send .name) (receive .name fun temp =>
      if temp = lit "1" then printf (lit "File/Directory with the same name exists\n") (done t)
      else transfertoBigFS c t filename) := by
  unfold command
  unfold word₀ at hw
  unfold word₁ at hw'
  simp only [hw, Client.tobigfs, word, hw']
  rfl

theorem goes_tobigfs (hk : 0 < c.no_of_dataservers) {filename : CStr} {content : List Byte} {s' : NameServer.Mem}
    (hs : NameServer.Typed m.name) (hw : word₀ line = some (lit "tobigfs")) (hw' : word₁ line = some filename)
    (hslash : Client.slash ∉ filename.bytes) (hdisk : c.disk t filename = some content)
    (hnul : (0 : Byte) ∉ readable c content) (hparts : partsOf content < 10 ^ 9)
    (hst : NameServer.Step m.name (.tobigfs filename (decimal (partsOf content)) (newLoc m.store filename))
      (lit "0").z s') :
    Goes c (ready t m (line.z ++ r)) (ready (t + 1)
      ⟨s', uploaded c.no_of_dataservers m.store (newLoc m.store filename) (readable c content) (partsOf content)⟩ r) := by
  have hne : lit "0" ≠ lit "1" := by decide
  refine (goes_sent (command_tobigfs hw hw') (by exact (accepts_of_step hs hst).run hslash)).trans ?_
  refine (goes_reply (m := lit "0") (r := []) rfl (List.append_nil _).symm).trans ?_
  rw [if_neg hne]
  refine (goes_uploaded hk hslash hdisk hnul hparts rfl rfl rfl rfl).trans ?_
  rw [eq_withFile hs hslash hst]
  exact Goes.refl

theorem goes_taken {filename parts loc : CStr} {s' : NameServer.Mem} (hw : word₀ line = some (lit "tobigfs"))
    (hw' : word₁ line = some filename) (hst : NameServer.Step m.name (.tobigfs filename parts loc) (lit "1").z s') :
    Goes c (ready t m (line.z ++ r)) { ready (t + 1) { m with name := s' } r with
      printed := (lit "File/Directory with the same name exists\n").bytes } := by
  refine (goes_sent (command_tobigfs hw hw') (by exact run_taken hst)).trans ?_
  refine (goes_reply (m := lit "1") (r := []) rfl (List.append_nil _).symm).trans ?_
  rw [if_pos rfl]
  exact goes_printf (m := lit "File/Directory with the same name exists\n") (k := done t) rfl

/-- The answer about a file that is there. -/
theorem goes_answered {choice file loc : CStr} {n : ℕ} {k : CStr → ℕ → Client.Op} {s' : NameServer.Mem}
    (hn : n < 10 ^ 9)
    (hline : command c t line = [choice, file].foldr (send .name) (receive .name fun temp =>
      if temp = lit "0" then printf (lit "File not found in current directory\n") (done t)
      else receive .name fun loc => receive .name fun chunks => k loc (atoi chunks).toNat))
    (hrun : (NameServer.dispatch m.name choice).run [file] =
      ((lit "1").z ++ loc.z ++ (decimal n).z, .ret s', [])) :
    Goes c (ready t m (line.z ++ r)) { ready t { m with name := s' } r with client := k loc n } := by
  have hne : lit "1" ≠ lit "0" := by decide
  refine (goes_sent hline hrun).trans ?_
  refine (goes_reply (m := lit "1") (r := loc.z ++ (decimal n).z) rfl (List.append_assoc ..)).trans ?_
  rw [if_neg hne]
  refine (goes_reply (m := loc) (r := (decimal n).z) rfl rfl).trans ?_
  refine (goes_reply (m := decimal n) (r := []) rfl (List.append_nil _).symm).trans ?_
  rw [atoi_parts hn]
  exact Goes.refl

/-- The chunks of a file, all of which are asked for. -/
def chunkOf (ps : Parts) (i : ℕ) : List Byte := ps[i]?.getD []

theorem flatMap_chunkOf (ps : Parts) : (List.range' 0 ps.length).flatMap (chunkOf ps) = ps.flatten := by
  have hmap : (List.range' 0 ps.length).map (chunkOf ps) = ps := by
    apply List.ext_getElem?
    intro i
    by_cases hi : i < ps.length
    · simp [chunkOf, hi]
    · simp [hi]
  rw [List.flatMap_def, hmap]

theorem Readable.get {k : ℕ} {σ : ℕ → Store} {loc : CStr} {ps : Parts} (h : Readable k σ loc ps) {i : ℕ}
    (hi : i < ps.length) : (σ (i % k)).get (loc.cat (decimal i)) = some (chunkOf ps i) ∧ chunkOf ps i ≠ [] ∧
      (0 : Byte) ∉ chunkOf ps i ∧ (chunkOf ps i).length ≤ BLOCKSIZE := by
  have hps := List.getElem?_eq_getElem hi
  have hc : chunkOf ps i = ps[i] := by rw [chunkOf, hps, Option.getD_some]
  rw [hc]
  exact h.chunk i _ hps

theorem goes_readable (hk : 0 < c.no_of_dataservers) {loc : CStr} {ps : Parts} {k : Client.Op}
    (h : Readable c.no_of_dataservers m.store loc ps) :
    Goes c { ready t m r with client := requestChunks c t loc ps.length 0 0 k } { ready t m r with
      client := k
      answers := dealt c.no_of_dataservers (fun i => answer (chunkOf ps i)) ps.length 0 } := by
  let f : Conf := { ready t m r with client := requestChunks c t loc ps.length 0 0 k }
  have hf : f.client = requestChunks c t loc ps.length 0 (0 % c.no_of_dataservers) k := by rw [Nat.zero_mod]
  have hlt := h.parts
  refine goes_asks hk (by omega) (fun j hj => ?_) (fun j hj => ?_) hf
  · exact (h.get (by omega)).1
  · exact (h.get (by omega)).2.2.2

theorem goes_cat (hk : 0 < c.no_of_dataservers) {file loc : CStr} {ps : Parts} {s' : NameServer.Mem}
    (hw : word₀ line = some (lit "cat")) (hw' : word₁ line = some file)
    (hst : NameServer.Step m.name (.cat file) ((lit "1").z ++ loc.z ++ (decimal ps.length).z) s')
    (h : Readable c.no_of_dataservers m.store loc ps) :
    Goes c (ready t m (line.z ++ r))
      { ready (t + 1) { m with name := s' } r with printed := ps.flatten ++ (lit "\n").bytes } := by
  have hline : command c t line = [lit "cat", file].foldr (send .name) (receive .name fun temp =>
      if temp = lit "0" then printf (lit "File not found in current directory\n") (done t)
      else receive .name fun loc => receive .name fun chunks => printfile c t loc (atoi chunks).toNat) := by
    unfold command
    unfold word₀ at hw
    unfold word₁ at hw'
    simp only [hw, catfile, locate, word, hw']
    rfl
  refine (goes_answered h.parts hline (run_one hst)).trans ((goes_readable (m := { m with name := s' }) hk h).trans ?_)
  let f : Conf := { ready t { m with name := s' } r with
    client := .ret (.receiving t .stdout ps.length 0 0)
    answers := dealt c.no_of_dataservers (fun i => answer (chunkOf ps i)) ps.length 0 }
  have hf : (f.state c).client = .ret (.receiving t .stdout ps.length 0 (0 % c.no_of_dataservers)) := by
    rw [Nat.zero_mod]
    rfl
  obtain ⟨strings, hb, hr⟩ := reads_chunks (x := f.state c) (r := fun _ => []) (n := ps.length) (i := 0) hk (by omega)
    (fun i _ hi => (h.get (by omega)).2.1) (fun i _ hi => (h.get (by omega)).2.2.1) hf
    (fun j => (List.append_nil _).symm)
  rw [flatMap_chunkOf] at hb
  rw [puts_stdout, hb] at hr
  have hg : Goes c f _ := (congrArg (Reaches Star.step (f.state c)) state_reads).mp hr.reaches
  refine hg.trans (goes_printf (m := lit "\n") (k := done t) ?_)
  show receiveChunks c t .stdout ps.length (0 + ps.length) _ = _
  rw [Nat.zero_add, receiveChunks, if_neg (lt_irrefl _)]

theorem reaches_frombigfs (hk : 0 < c.no_of_dataservers) {file loc : CStr} {ps : Parts} {s' : NameServer.Mem}
    (hw : word₀ line = some (lit "frombigfs")) (hw' : word₁ line = some file)
    (hst : NameServer.Step m.name (.frombigfs file) ((lit "1").z ++ loc.z ++ (decimal ps.length).z) s')
    (h : Readable c.no_of_dataservers m.store loc ps) :
    Reaches Star.step ((ready t m (line.z ++ r)).state c) (((ready (t + 1) { m with name := s' } r).state c).pour
      (written (.file t (Client.baseName file)) (savedBytes c ps.flatten))) := by
  let dest := Client.baseName file
  have hline : command c t line = [lit "frombigfs", file].foldr (send .name) (receive .name fun temp =>
      if temp = lit "0" then printf (lit "File not found in current directory\n") (done t)
      else receive .name fun loc => receive .name fun chunks =>
        requestChunks c t loc (atoi chunks).toNat 0 0 (.ret (.receiving t (.file dest []) (atoi chunks).toNat 0 0))) := by
    unfold command
    unfold word₀ at hw
    unfold word₁ at hw'
    simp only [hw, savefile, locate, word, hw']
    rfl
  let f : Conf := { ready t { m with name := s' } r with
    client := .ret (.receiving t (.file dest []) ps.length 0 0)
    answers := dealt c.no_of_dataservers (fun i => answer (chunkOf ps i)) ps.length 0 }
  have hg : Goes c (ready t m (line.z ++ r)) f :=
    (goes_answered (k := fun loc n => requestChunks c t loc n 0 0 (.ret (.receiving t (.file dest []) n 0 0))) h.parts
      hline (run_one hst)).trans (goes_readable (m := { m with name := s' }) hk h)
  have hf : (f.state c).client = .ret (.receiving t (.file dest []) ps.length 0 (0 % c.no_of_dataservers)) := by
    rw [Nat.zero_mod]
    rfl
  obtain ⟨strings, hb, hr⟩ := reads_chunks (x := f.state c) (r := fun _ => []) (n := ps.length) (i := 0) hk (by omega)
    (fun i _ hi => (h.get (by omega)).2.1) (fun i _ hi => (h.get (by omega)).2.2.1) hf
    (fun j => (List.append_nil _).symm)
  rw [flatMap_chunkOf] at hb
  -- what has left the buffer of the file, and what has not
  obtain ⟨hout, hpending⟩ := puts_saving (c := c) (l := []) dest hb
  let g : Conf := { ready t { m with name := s' } r with
    client := saving c t dest ps.length ps.flatten ps.length ((0 + ps.length) % c.no_of_dataservers) }
  refine Reaches.trans hg (Reaches.trans ?_ (saves_end (f := g) (t := t) rfl))
  refine (congrArg (Reaches Star.step (f.state c)) ?_).mp hr.reaches
  simp only [List.length_nil, List.drop_nil, List.take_nil, List.nil_append] at hout hpending
  have hclient : (puts c (.file dest []) strings).2 = .file dest (ps.flatten.drop (flushed c ps.flatten.length)) :=
    hpending
  ext1
  · show Proc.ret _ = Proc.ret _
    rw [hclient, Nat.zero_add]
  · rfl
  · rfl
  · funext i
    cases i <;> rfl
  · rfl
  · have hempty : (g.writing c t dest []).output = (f.state c).output := by
      funext j
      cases j <;> simp [Conf.writing, Star.State.pour, Conf.state, g, f]
    show enqueue (f.state c).output (.file t dest) _ = _
    rw [hout, ← hempty, ← output_writing, List.nil_append]

theorem goes_rm (hk : 0 < c.no_of_dataservers) {file loc : CStr} {n : ℕ} {s' : NameServer.Mem} (hn : n < 10 ^ 9)
    (hw : word₀ line = some (lit "rm")) (hw' : word₁ line = some file)
    (hst : NameServer.Step m.name (.rm file) ((lit "1").z ++ loc.z ++ (decimal n).z) s') :
    Goes c (ready t m (line.z ++ r)) (ready (t + 1) ⟨s', removed c.no_of_dataservers m.store loc n⟩ r) := by
  have hline : command c t line = [lit "rm", file].foldr (send .name) (receive .name fun temp =>
      if temp = lit "0" then printf (lit "File not found in current directory\n") (done t)
      else receive .name fun loc => receive .name fun chunks => removeChunks c t loc (atoi chunks).toNat 0 0) := by
    unfold command
    unfold word₀ at hw
    unfold word₁ at hw'
    simp only [hw, Client.removefile, locate, word, hw']
    rfl
  refine (goes_answered (k := fun loc n => removeChunks c t loc n 0 0) hn hline (run_one hst)).trans ?_
  let f : Conf := { ready t { m with name := s' } r with client := removeChunks c t loc n 0 0 }
  have hf : f.client = removeChunks c t loc n 0 (0 % c.no_of_dataservers) := by rw [Nat.zero_mod]
  refine (goes_removed (f := f) (σ := m.store) hk (by omega) rfl hf rfl).trans ?_
  rw [Nat.zero_add]
  exact Goes.refl

/-- A line with two paths. -/
theorem command_mv {source destination : CStr} (hw : word₀ line = some (lit "mv")) (hw₁ : word₁ line = some source)
    (hw₂ : word₂ line = some destination) :
    command c t line = [lit "mv", source, destination].foldr (send .name) (receive .name fun temp =>
      if temp = lit "1" then printf (lit "Invalid move\n") (done t) else done t) := by
  unfold command
  unfold word₀ at hw
  unfold word₁ at hw₁
  unfold word₂ at hw₂
  simp only [hw, movefile, sendPaths, word, hw₁, hw₂]
  rfl

theorem goes_mv {source destination : CStr} {s' : NameServer.Mem} (hw : word₀ line = some (lit "mv"))
    (hw₁ : word₁ line = some source) (hw₂ : word₂ line = some destination)
    (hst : NameServer.Step m.name (.mv source destination) (lit "0").z s') :
    Goes c (ready t m (line.z ++ r)) (ready (t + 1) { m with name := s' } r) := by
  have hne : lit "0" ≠ lit "1" := by decide
  refine (goes_sent (command_mv hw hw₁ hw₂) (run_two hst)).trans ?_
  refine (goes_reply (m := lit "0") (r := []) rfl (List.append_nil _).symm).trans ?_
  rw [if_neg hne]
  exact Goes.refl

theorem goes_unmoved {source destination : CStr} {s' : NameServer.Mem} (hw : word₀ line = some (lit "mv"))
    (hw₁ : word₁ line = some source) (hw₂ : word₂ line = some destination)
    (hst : NameServer.Step m.name (.mv source destination) (lit "1").z s') :
    Goes c (ready t m (line.z ++ r))
      { ready (t + 1) { m with name := s' } r with printed := (lit "Invalid move\n").bytes } := by
  refine (goes_sent (command_mv hw hw₁ hw₂) (run_two hst)).trans ?_
  refine (goes_reply (m := lit "1") (r := []) rfl (List.append_nil _).symm).trans ?_
  rw [if_pos rfl]
  exact goes_printf (m := lit "Invalid move\n") (k := done t) rfl

theorem command_cp {source destination : CStr} (hw : word₀ line = some (lit "cp")) (hw₁ : word₁ line = some source)
    (hw₂ : word₂ line = some destination) :
    command c t line = [lit "cp", source, destination].foldr (send .name) (receive .name fun temp =>
      if temp = lit "1" then printf (lit "Invalid copy\n") (done t)
      else receive .name fun loc => receive .name fun chunks =>
        copyChunks c t loc (atoi chunks).toNat 0 0 (lit "")) := by
  unfold command
  unfold word₀ at hw
  unfold word₁ at hw₁
  unfold word₂ at hw₂
  simp only [hw, Client.copyfile, sendPaths, word, hw₁, hw₂]
  rfl

theorem goes_cp (hk : 0 < c.no_of_dataservers) {source destination loc : CStr} {n : ℕ} {s' : NameServer.Mem}
    (hw : word₀ line = some (lit "cp")) (hw₁ : word₁ line = some source) (hw₂ : word₂ line = some destination)
    (hpos : 0 < n) (hn : n < 10 ^ 9)
    (hex : ∀ i < n, (m.store (i % c.no_of_dataservers)).Exists (loc.cat (decimal i)))
    (hst : NameServer.Step m.name (.cp source destination (copyLoc m.store loc))
      ((lit "0").z ++ (loc.z ++ (decimal n).z)) s') :
    Goes c (ready t m (line.z ++ r))
      (ready (t + 1) ⟨s', copiedParts c.no_of_dataservers m.store loc (copyLoc m.store loc) n⟩ r) := by
  have hne : lit "0" ≠ lit "1" := by decide
  obtain ⟨q, hrun, hq⟩ := run_copied hst
  refine (goes_sent (command_cp hw hw₁ hw₂) (by exact hrun)).trans ?_
  refine (goes_reply (m := lit "0") (r := loc.z ++ (decimal n).z) rfl rfl).trans ?_
  rw [if_neg hne]
  refine (goes_reply (m := loc) (r := (decimal n).z) rfl rfl).trans ?_
  refine (goes_reply (m := decimal n) (r := []) rfl (List.append_nil _).symm).trans ?_
  rw [atoi_parts hn]
  refine (goes_copied hk hpos hn hex rfl rfl rfl rfl).trans ?_
  rw [← hq]
  exact Goes.refl

theorem goes_uncopied {source destination loc : CStr} {s' : NameServer.Mem} (hw : word₀ line = some (lit "cp"))
    (hw₁ : word₁ line = some source) (hw₂ : word₂ line = some destination)
    (hst : NameServer.Step m.name (.cp source destination loc) (lit "1").z s') :
    Goes c (ready t m (line.z ++ r))
      { ready (t + 1) { m with name := s' } r with printed := (lit "Invalid copy\n").bytes } := by
  refine (goes_sent (command_cp hw hw₁ hw₂) (by exact run_refused hst)).trans ?_
  refine (goes_reply (m := lit "1") (r := []) rfl (List.append_nil _).symm).trans ?_
  rw [if_pos rfl]
  exact goes_printf (m := lit "Invalid copy\n") (k := done t) rfl

theorem goes_unknown (hw : ∀ w ∈ commandNames, word₀ line ≠ some w) :
    Goes c (ready t m (line.z ++ r)) { ready (t + 1) m r with printed := (lit "Invalid command\n").bytes } := by
  have hline : command c t line = printf (lit "Invalid command\n") (done t) := by
    simp only [commandNames, List.forall_mem_cons] at hw
    unfold command
    unfold word₀ at hw
    simp only [hw, if_false]
  refine (goes_line rfl rfl).trans ?_
  rw [hline]
  exact goes_printf (m := lit "Invalid command\n") (k := done t) rfl

/-- **One line**: the system does what `Carried` says. -/
theorem Carried.reaches (hk : 0 < c.no_of_dataservers) (hs : NameServer.Typed m.name) (h : Carried c t m line m' w) :
    Reaches Star.step ((ready t m (line.z ++ r)).state c) (((ready (t + 1) m' r).state c).pour w) := by
  cases h with
  | ls hw hst => exact (goes_ls hw hst).reaches
  | mkdir hw hw' hst => exact goes_mkdir hw hw' hst
  | bare hw hw' => exact (goes_bare hw hw').reaches
  | cd hw hw' hst => exact goes_cd hw hw' hst
  | absent hw hw' hst => exact (goes_absent hw hw' hst).reaches
  | tobigfs hw hw' hslash hdisk hnul hparts hst => exact goes_tobigfs hk hs hw hw' hslash hdisk hnul hparts hst
  | taken hw hw' hst => exact (goes_taken hw hw' hst).reaches
  | cat hw hw' hst h => exact (goes_cat hk hw hw' hst h).reaches
  | frombigfs hw hw' hst h => exact reaches_frombigfs hk hw hw' hst h
  | rm hw hw' hn hst => exact goes_rm hk hn hw hw' hst
  | mv hw hw₁ hw₂ hst => exact goes_mv hw hw₁ hw₂ hst
  | unmoved hw hw₁ hw₂ hst => exact (goes_unmoved hw hw₁ hw₂ hst).reaches
  | cp hw hw₁ hw₂ hpos hn hex hst => exact goes_cp hk hw hw₁ hw₂ hpos hn hex hst
  | uncopied hw hw₁ hw₂ hst => exact (goes_uncopied hw hw₁ hw₂ hst).reaches
  | unknown hw => exact (goes_unknown hw).reaches

/-- A line that is carried out leaves the tree as a command of the name server does, or as it was. -/
theorem Carried.step (h : Carried c t m line m' w) :
    m'.name = m.name ∨ ∃ cmd out, NameServer.Step m.name cmd out m'.name := by
  cases h with
  | ls hw hst => exact .inl rfl
  | bare hw hw' => exact .inl rfl
  | unknown hw => exact .inl rfl
  | mkdir hw hw' hst => exact .inr ⟨_, _, hst⟩
  | cd hw hw' hst => exact .inr ⟨_, _, hst⟩
  | absent hw hw' hst => exact .inr ⟨_, _, hst⟩
  | tobigfs hw hw' hslash hdisk hnul hparts hst => exact .inr ⟨_, _, hst⟩
  | taken hw hw' hst => exact .inr ⟨_, _, hst⟩
  | cat hw hw' hst h => exact .inr ⟨_, _, hst⟩
  | frombigfs hw hw' hst h => exact .inr ⟨_, _, hst⟩
  | rm hw hw' hn hst => exact .inr ⟨_, _, hst⟩
  | mv hw hw₁ hw₂ hst => exact .inr ⟨_, _, hst⟩
  | unmoved hw hw₁ hw₂ hst => exact .inr ⟨_, _, hst⟩
  | cp hw hw₁ hw₂ hpos hn hex hst => exact .inr ⟨_, _, hst⟩
  | uncopied hw hw₁ hw₂ hst => exact .inr ⟨_, _, hst⟩

theorem Carried.typed (hs : NameServer.Typed m.name) (h : Carried c t m line m' w) : NameServer.Typed m'.name := by
  rcases h.step with he | ⟨cmd, out, hst⟩
  · rwa [he]
  · exact hs.step hst

/-- **A session**, line by line. -/
theorem Session.reaches (hk : 0 < c.no_of_dataservers) {P : Memory → CStr → Prop} {lines : List CStr}
    (hs : NameServer.Typed m.name) (h : Session c P t m lines m' w) :
    Reaches Star.step ((ready t m (lines.flatMap CStr.z ++ r)).state c)
      (((ready (t + lines.length) m' r).state c).pour w) := by
  induction h with
  | nil => exact Reaches.refl
  | @cons t m line m' w lines m'' w' _ hl _ ih =>
    rw [List.flatMap_cons, List.append_assoc]
    refine (hl.reaches hk hs).trans ?_
    have hrest := Star.reaches_pour (o := w) (ih (hl.typed hs))
    rwa [pour_pour, Nat.add_right_comm] at hrest

end Reaches

/-! ### The whole session -/

section Ends

variable {c : Config} {garbage : ℕ → NameServer.Node} {store : ℕ → Store} {lines : List CStr} {m : Memory}
  {w : Local → List Byte}

end Ends

end NetProg.BigFs
