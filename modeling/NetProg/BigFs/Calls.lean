import NetProg.BigFs.System
import NetProg.Lib.History

/-!
# Requests of the client

`Conf` is a state of the system in which every server has carried out what it was sent, and `Goes c f g` says that the
system can get from one such state to another.  There is a rule for each thing the client does: a request to a server,
which carries it out at once, a string of an answer, a line, and what is printed.  `Hears c f g h` says so too, and which
commands the data servers read on the way.
-/

namespace NetProg.BigFs

open NetProg.Lib NetProg.Client

/-- What is left of the client, the memory of the servers, and what the client can read; the data servers wait for a
command. -/
structure Conf where
  client : Client.Op
  name : NameServer.Op
  store : ℕ → DataServer.Store
  /-- from the name server -/
  reply : List Byte
  /-- from each data server -/
  answers : ℕ → List Byte
  typed : List Byte
  printed : List Byte

namespace Conf

variable (c : Config) (f : Conf)

def server : ∀ i, Proc Unit ((bigfs c).ServerFault i) ((bigfs c).ServerLabel i)
  | .name => f.name
  | .data ptr => .ret (f.store ptr)

def replies : Server → List Byte
  | .name => f.reply
  | .data ptr => f.answers ptr

def state : (bigfs c).State where
  client := f.client
  server := f.server c
  sent _ := []
  replies := f.replies
  input
    | .terminal => f.typed
    | .file .. => []
  output
    | .terminal => f.printed
    | .file .. => []

end Conf

/-- The system gets from one state to the other. -/
def Goes (c : Config) (f g : Conf) : Prop := Reaches (Star.step (S := bigfs c)) (f.state c) (g.state c)

theorem Goes.trans {c : Config} {f g h : Conf} (hfg : Goes c f g) (hgh : Goes c g h) : Goes c f h := Reaches.trans hfg hgh

theorem Goes.refl {c : Config} {f : Conf} : Goes c f f := Reaches.refl

/-- The system gets from one state to the other, and the data servers are told the commands `h` on the way. -/
def Hears (c : Config) (f g : Conf) (h : ℕ → List (List CStr)) : Prop :=
  ∀ l, ∃ l', Reaches (Star.tracedStep (S := bigfs c)) ⟨f.state c, l⟩ ⟨g.state c, l'⟩ ∧
    ∀ j, l' (.data j) = l (.data j) ++ h j

section Hears

variable {c : Config} {f g g' : Conf} {h h' : ℕ → List (List CStr)}

theorem Hears.goes (hfg : Hears c f g h) : Goes c f g := by
  obtain ⟨l', hr, -⟩ := hfg fun _ => []
  exact Star.reaches_now hr

theorem Hears.refl : Hears c f f fun _ => [] := fun l => ⟨l, .refl, fun _ => (List.append_nil _).symm⟩

theorem Hears.trans (hfg : Hears c f g h) (hg : Hears c g g' h') : Hears c f g' fun j => h j ++ h' j := by
  intro l
  obtain ⟨l₁, hr₁, h₁⟩ := hfg l
  obtain ⟨l₂, hr₂, h₂⟩ := hg l₁
  exact ⟨l₂, hr₁.trans hr₂, fun j => by rw [h₂, h₁, List.append_assoc]⟩

theorem Hears.trans_silent (hfg : Hears c f g h) (hg : Hears c g g' fun _ => []) : Hears c f g' h := by
  simpa using hfg.trans hg

theorem Hears.silent_trans (hfg : Hears c f g fun _ => []) (hg : Hears c g g' h) : Hears c f g' h := by
  simpa using hfg.trans hg

end Hears

section Rules

variable {c : Config} {f : Conf} {ptr : ℕ} {b out r : List Byte} {m : CStr} {p k : Client.Op} {i : Server}

theorem sends_nil : Star.Sends (bigfs c) i p [] p := .rest

theorem sends_write (b' : List Byte) (h : Star.Sends (bigfs c) i p b k) :
    Star.Sends (bigfs c) i (.write (.inl i) b' p) (b' ++ b) k :=
  .write rfl h

theorem sends_one : Star.Sends (bigfs c) i (.write (.inl i) b k) b k := by
  simpa using sends_write b (sends_nil (c := c) (i := i) (p := k))

/-- The state behind a request to a server, which leaves it at `q`. -/
def requestState (c : Config) (f : Conf) (i : Server) (b out : List Byte) (k : Client.Op)
    (q : Proc Unit ((bigfs c).ServerFault i) ((bigfs c).ServerLabel i)) : (bigfs c).State :=
  { f.state c with
    client := k
    server := Function.update (f.state c).server i q
    sent := Function.update (enqueue (f.state c).sent i b) i []
    replies := enqueue (f.state c).replies i out }

theorem state_eq_requestState {q : Proc Unit ((bigfs c).ServerFault i) ((bigfs c).ServerLabel i)} {g : Conf}
    (hc : g.client = k)
    (hserver : g.server c = Function.update (f.server c) i q) (hreplies : g.replies = enqueue f.replies i out)
    (ht : g.typed = f.typed) (hp : g.printed = f.printed) : g.state c = requestState c f i b out k q := by
  ext1
  · exact hc
  · exact hserver
  · simp [requestState, Conf.state, enqueue]
  · exact hreplies
  · simp only [requestState, Conf.state, ht]
  · simp only [requestState, Conf.state, hp]

/-- A request that a data server carries out. -/
theorem hears_data {ins : List CStr} {s' : DataServer.Store} (h : Star.Sends (bigfs c) (.data ptr) f.client b k)
    (hb : b = (m :: ins).flatMap CStr.z)
    (hrun : (DataServer.dispatch (f.store ptr) m).run ins = (out, .ret s', [])) : Hears c f { f with
      client := k
      store := Function.update f.store ptr s'
      answers := enqueue f.answers ptr out } (Function.update (fun _ => []) ptr [m :: ins]) := by
  have hg : Conf.state c { f with
      client := k, store := Function.update f.store ptr s', answers := enqueue f.answers ptr out } =
      requestState c f (.data ptr) b out k (.ret s') := by
    refine state_eq_requestState rfl ?_ ?_ rfl rfl
    · funext i
      rcases i with _ | ptr'
      · rfl
      · by_cases hp : ptr' = ptr
        · subst hp
          simp [Conf.server]
        · simp [Conf.server, hp]
    · funext i
      rcases i with _ | ptr'
      · simp [Conf.replies, enqueue]
      · by_cases hp : ptr' = ptr
        · subst hp
          simp [Conf.replies, enqueue]
        · simp [Conf.replies, enqueue, hp]
  intro l
  refine ⟨Function.update l (.data ptr) (l (.data ptr) ++ [m :: ins]), ?_, fun j => ?_⟩
  · have hq : enqueue (f.state c).sent (.data ptr) b (.data ptr) = (m :: ins).flatMap CStr.z := by simp [Conf.state, hb]
    rw [hg]
    exact (Star.traced_sends h).trans (Star.traced_command (x := { f.state c with
      client := k, sent := enqueue (f.state c).sent (.data ptr) b }) rfl rfl hq hrun)
  · by_cases hj : j = ptr
    · subst hj
      simp
    · simp [hj]

theorem goes_data {ins : List CStr} {s' : DataServer.Store} (h : Star.Sends (bigfs c) (.data ptr) f.client b k)
    (hb : b = (m :: ins).flatMap CStr.z)
    (hrun : (DataServer.dispatch (f.store ptr) m).run ins = (out, .ret s', [])) : Goes c f { f with
      client := k
      store := Function.update f.store ptr s'
      answers := enqueue f.answers ptr out } :=
  (hears_data h hb hrun).goes

/-- A string for the name server. -/
theorem hears_name {q : NameServer.Op} (h : Star.Sends (bigfs c) .name f.client m.z k)
    (hrun : (f.name.enter fun s => .read () (NameServer.dispatch s)).run [m] = (out, q, [])) : Hears c f { f with
      client := k
      name := q
      reply := f.reply ++ out } fun _ => [] := by
  have hg : Conf.state c { f with client := k, name := q, reply := f.reply ++ out } =
      requestState c f .name m.z out k q := by
    refine state_eq_requestState rfl ?_ ?_ rfl rfl
    · funext i
      rcases i with _ | ptr
      · exact (@Function.update_self _ (fun i => Proc Unit ((bigfs c).ServerFault i) _) _ _ _ _).symm
      · exact (Function.update_of_ne (by simp) _ _).symm
    · funext i
      rcases i with _ | ptr <;> simp [Conf.replies, enqueue]
  intro l
  have hsent : enqueue (f.state c).sent .name m.z .name = m.z := by simp [Conf.state]
  obtain ⟨cs, hr⟩ := Star.traced_serves (x := { f.state c with client := k, sent := enqueue (f.state c).sent .name m.z })
    (i := Server.name) (l := l) (hsent.symm ▸ Star.serves_string hrun)
  refine ⟨Function.update l .name cs, ?_, fun j => by simp⟩
  rw [hg]
  exact (Star.traced_sends h).trans hr

theorem goes_name {q : NameServer.Op} (h : Star.Sends (bigfs c) .name f.client m.z k)
    (hrun : (f.name.enter fun s => .read () (NameServer.dispatch s)).run [m] = (out, q, [])) : Goes c f { f with
      client := k
      name := q
      reply := f.reply ++ out } :=
  (hears_name h hrun).goes

/-- A string of an answer of the name server. -/
theorem goes_reply {k : CStr → Client.Op} (h : f.client.enter (code c) = receive .name k) (hm : f.reply = m.z ++ r) :
    Goes c f { f with client := k m, reply := r } := by
  have hr : readStr ((f.state c).replies .name) = some (m, r) := readStr_eq_some.2 hm
  refine Reaches.single (a := none) ((Star.clientStep_reply (x := f.state c) (k := k) h hr).trans (congrArg some ?_))
  ext1 <;> try rfl
  funext i
  rcases i with _ | ptr <;> simp [Conf.state, Conf.replies]

/-- A string of an answer of a data server. -/
theorem hears_answer {k : CStr → Client.Op} (h : f.client.enter (code c) = receive (.data ptr) k)
    (hm : f.answers ptr = m.z ++ r) : Hears c f { f with
      client := k m
      answers := Function.update f.answers ptr r } fun _ => [] := by
  have hr : readStr ((f.state c).replies (.data ptr)) = some (m, r) := readStr_eq_some.2 hm
  have hst : Star.step (f.state c) none = some (Conf.state c { f with
      client := k m, answers := Function.update f.answers ptr r }) := by
    refine (Star.clientStep_reply (x := f.state c) (k := k) h hr).trans (congrArg some ?_)
    ext1 <;> try rfl
    funext i
    rcases i with _ | ptr'
    · simp [Conf.state, Conf.replies]
    · by_cases hp : ptr' = ptr
      · subst hp
        simp [Conf.state, Conf.replies]
      · simp [Conf.state, Conf.replies, hp]
  exact fun l => ⟨l, Star.traced_single hst, fun _ => (List.append_nil _).symm⟩

theorem goes_answer {k : CStr → Client.Op} (h : f.client.enter (code c) = receive (.data ptr) k)
    (hm : f.answers ptr = m.z ++ r) : Goes c f { f with
      client := k m
      answers := Function.update f.answers ptr r } :=
  (hears_answer h hm).goes

/-- What is printed. -/
theorem goes_printf (h : f.client.enter (code c) = printf m k) :
    Goes c f { f with client := k, printed := f.printed ++ m.bytes } := by
  refine Reaches.single (a := none) ((Star.clientStep_output (x := f.state c) h).trans (congrArg some ?_))
  ext1 <;> try rfl
  funext j
  cases j <;> simp [Conf.state, enqueue]

/-- The next line. -/
theorem goes_line {t : ℕ} (h : f.client = .ret (.prompt t)) (hm : f.typed = m.z ++ r) :
    Goes c f { f with client := command c t m, typed := r } := by
  have hr : readStr ((f.state c).input .terminal) = some (m, r) := readStr_eq_some.2 hm
  refine Reaches.single (a := none)
    ((Star.clientStep_input (x := f.state c) (k := command c t) ?_ hr).trans (congrArg some ?_))
  · exact congrArg (Proc.enter _) h
  · ext1 <;> try rfl
    funext j
    cases j <;> simp [Conf.state]

end Rules

end NetProg.BigFs
