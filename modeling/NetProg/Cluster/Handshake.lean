import NetProg.Cluster.Session
import NetProg.Lib.Run

/-!
# The handshake of a session

The server knows from its own restarts whether it expects a home directory, and the client sends one where its connect loop
has made the connection.  `Due U c` says that the server takes all that is still to be read on `c` for what it is, whatever
is sent on it yet among `U`; `Sound` says so of every connection of a node, and `Sound` is what every event keeps as long as
the two sides agree about each connection that is accepted, and the handler leaves a node alone whose home directory has
not been sent (`InTurn`).  `aligned_of_inTurn` is what follows for a session.
-/

namespace NetProg.Cluster

open NetProg.Lib

/-! ### Connections -/

namespace Conn

/-- Where the server is with a connection, or will be when it has accepted it if it is in turn. -/
def stands (c : Conn) : Phase := c.phase.getD (if c.byLoop then .home else .flag)

/-- The server takes what there is to read on `c` for what it is, and what comes after it if that is in `U`. -/
def Due (U : List Msg → Prop) (c : Conn) : Prop :=
  c.got <+: c.sent ∧ ∀ l, U l → server.Follows c.stands (c.unread ++ l)

variable {U V : List Msg → Prop} {c : Conn} {p p' : Phase} {k : Kind} {m : Msg} {l : List Msg}

theorem Due.mono (h : c.Due U) (hVU : ∀ l, V l → U l) : c.Due V := ⟨h.1, fun l hl => h.2 l (hVU l hl)⟩

/-- Nothing more is sent. -/
def Ended (l : List Msg) : Prop := l = []

theorem Due.closed (h : c.Due U) (hU : ∃ l, U l) : c.Due Ended := by
  obtain ⟨l, hl⟩ := hU
  refine ⟨h.1, ?_⟩
  rintro _ rfl
  rw [List.append_nil]
  exact (h.2 l hl).left

theorem Due.send (h : c.Due U) (hVU : ∀ l, V l → U (m :: l)) : (c.send m).Due V := by
  refine ⟨h.1.trans (List.prefix_append _ _), fun l hl => ?_⟩
  have hunread : (c.send m).unread = c.unread ++ [m] := drop_append_of_prefix h.1
  have hfollows := h.2 (m :: l) (hVU l hl)
  rw [hunread, List.append_assoc]
  exact hfollows

theorem Due.accept (h : c.Due U) (hp : c.stands = p) : ({ c with phase := some p } : Conn).Due U := by
  refine ⟨h.1, fun l hl => ?_⟩
  have hfollows := h.2 l hl
  rw [hp] at hfollows
  exact hfollows

/-- What is read is taken for what it is. -/
theorem Due.kind_eq (h : c.Due U) (hU : ∃ l, U l) (hp : c.phase = some p) (hk : expects p = some k)
    (hm : c.unread = m :: l) : m = ⟨k, m.text⟩ := by
  obtain ⟨l', hl'⟩ := hU
  have hfollows := h.2 l' hl'
  rw [stands, hp, hm] at hfollows
  have hkind : m.kind = k := hfollows.kind_eq hk
  rw [← hkind]

theorem Due.got (h : c.Due U) (hU : ∃ l, U l) (hp : c.phase = some p) (hk : expects p = some k)
    (hm : c.unread = m :: l) : c.got ++ [Msg.mk k m.text] <+: c.sent := by
  rw [← h.kind_eq hU hp hk hm]
  exact (prefix_snoc h.1 hm).1

theorem Due.read (h : c.Due U) (hU : ∃ l, U l) (hp : c.phase = some p) (hk : expects p = some k)
    (hm : c.unread = m :: l) (hp' : after p m.text = some p') :
    ({ c with got := c.got ++ [⟨k, m.text⟩], phase := some p' } : Conn).Due U := by
  refine ⟨h.got hU hp hk hm, fun l' hl' => ?_⟩
  have hfollows := h.2 l' hl'
  rw [stands, hp, hm] at hfollows
  have hunread : c.sent.drop (c.got ++ [Msg.mk k m.text]).length = l := by
    rw [← h.kind_eq hU hp hk hm]
    exact (prefix_snoc h.1 hm).2
  have htail : server.Follows p' (l ++ l') := hfollows.tail hk hp'
  rw [← hunread] at htail
  exact htail

/-- Where nothing comes any more, the server may stand anywhere. -/
theorem Due.eof (h : c.Due U) (hm : c.unread = []) : ({ c with phase := some p } : Conn).Due Ended := by
  refine ⟨h.1, ?_⟩
  rintro _ rfl
  have hunread : ({ c with phase := some p } : Conn).unread = [] := hm
  rw [hunread]
  exact Reader.follows_nil

/-- A new connection. -/
theorem due_fresh {byLoop : Bool} (h : ∀ l, U l → server.Follows (if byLoop then .home else .flag) l) :
    (fresh byLoop).Due U := by
  refine ⟨List.prefix_refl _, fun l hl => ?_⟩
  exact h l hl

end Conn

/-! ### Commands -/

/-- The server takes a command for what it is. -/
theorem follows_msgs (c : Command) : server.Follows .flag c.msgs := by
  intro k hk
  cases hk
  refine ⟨rfl, fun p hp => ?_⟩
  have hflag : p = .command c.input.isSome := by
    cases hp
    cases c.input <;> rfl
  subst hflag
  intro k hk
  cases hk
  refine ⟨rfl, fun p hp => ?_⟩
  obtain ⟨arg, -, rfl⟩ := Option.map_eq_some_iff.1 hp
  by_cases hcd : arg = lit "cd"
  · rw [if_pos hcd]
    exact Reader.follows_of_expects rfl
  · rw [if_neg hcd]
    cases c.input with
    | none => exact Reader.follows_nil
    | some input =>
      intro k hk
      cases hk
      exact ⟨rfl, fun p _ => Reader.follows_nil⟩

/-- A connection of the connect loop begins with the home directory. -/
theorem follows_home (home : CStr) (c : Command) : server.Follows .home (⟨.home, home⟩ :: c.msgs) := by
  intro k hk
  cases hk
  refine ⟨rfl, fun p hp => ?_⟩
  cases hp
  exact follows_msgs c

/-! ### Nodes -/

namespace Node

/-- The connections of a node are in step if what the client sends next to it is in `U`. -/
structure Sound (U : List Msg → Prop) (nd : Node) : Prop where
  past : ∀ c ∈ nd.past, c.got <+: c.sent
  closed : ∀ c ∈ nd.closed, c.Due Conn.Ended
  live : ∀ c ∈ nd.sock.conn, c.Due U

variable {U V : List Msg → Prop} {nd nd' : Node} {c c' : Conn} {m : Msg} {r : Reach} {byLoop : Bool}

theorem Sound.mono (h : nd.Sound U) (hVU : ∀ l, V l → U l) : nd.Sound V :=
  ⟨h.past, h.closed, fun c hc => (h.live c hc).mono hVU⟩

theorem Sound.aligned (h : nd.Sound U) : ∀ c ∈ nd.conns, c.got <+: c.sent := by
  intro c hc
  simp only [conns, List.mem_append] at hc
  rcases hc with (hc | hc) | hc
  · exact h.past c hc
  · exact (h.closed c hc).1
  · exact (h.live c hc).1

/-- The connection in front is one that the client has closed, or the one that it has open. -/
theorem front_cases (h : nd.front = some c) :
    (∃ cs, nd.closed = c :: cs) ∨ (nd.closed = [] ∧ nd.sock = .live c) := by
  unfold front at h
  cases hclosed : nd.closed with
  | nil =>
    right
    rw [hclosed, List.nil_append] at h
    cases hsock : nd.sock with
    | live c' =>
      rw [hsock] at h
      exact ⟨rfl, congrArg Sock.live (Option.some.inj h)⟩
    | fresh => rw [hsock] at h; cases h
    | reset => rw [hsock] at h; cases h
    | stray => rw [hsock] at h; cases h
  | cons c' cs =>
    left
    rw [hclosed] at h
    exact ⟨cs, by rw [Option.some.inj h]⟩

theorem Sound.front (h : nd.Sound U) (hU : ∃ l, U l) (hc : nd.front = some c) : c.Due Conn.Ended := by
  rcases front_cases hc with ⟨cs, hcs⟩ | ⟨-, hs⟩
  · exact h.closed c (by simp [hcs])
  · exact (h.live c (by simp [hs, Sock.conn])).closed hU

theorem Sound.setFront (h : nd.Sound U) (hc : nd.front = some c) (hdue : ∀ V, (∃ l, V l) → c.Due V → c'.Due V)
    (hU : ∃ l, U l) : (nd.setFront c').Sound U := by
  rcases front_cases hc with ⟨cs, hcs⟩ | ⟨hnil, hs⟩
  · have hc' := hdue Conn.Ended ⟨[], rfl⟩ (h.closed c (by simp [hcs]))
    have hset : nd.setFront c' = { nd with closed := c' :: cs } := by simp [Node.setFront, hcs]
    rw [hset]
    refine ⟨h.past, ?_, h.live⟩
    intro d hd
    rcases List.mem_cons.1 hd with rfl | hd
    · exact hc'
    · exact h.closed d (by simp [hcs, hd])
  · have hc' := hdue _ hU (h.live c (by simp [hs, Sock.conn]))
    have hset : nd.setFront c' = { nd with sock := .live c' } := by simp [Node.setFront, hnil]
    rw [hset]
    refine ⟨h.past, h.closed, ?_⟩
    intro d hd
    rw [List.mem_singleton.1 hd]
    exact hc'

theorem Sound.dropFront (h : nd.Sound U) : nd.dropFront.Sound U := by
  unfold Node.dropFront
  split
  · refine ⟨?_, h.closed, by simp [Sock.conn]⟩
    intro c hc
    rcases List.mem_append.1 hc with hc | hc
    · exact h.past c hc
    · exact (h.live c hc).1
  · next c cs hcs =>
    refine ⟨?_, fun d hd => h.closed d (by simp [hcs, hd]), h.live⟩
    intro d hd
    rcases List.mem_append.1 hd with hd | hd
    · exact h.past d hd
    · exact (h.closed d (by simp [hcs, List.mem_singleton.1 hd])).1

theorem aligned_setFront (h : ∀ c ∈ nd.conns, c.got <+: c.sent) (hc : c'.got <+: c'.sent) :
    ∀ c ∈ (nd.setFront c').conns, c.got <+: c.sent := by
  intro d hd
  unfold Node.setFront at hd
  split at hd
  · next hnil =>
    simp only [conns, Sock.conn, hnil, List.append_nil, List.mem_append, List.mem_singleton] at hd
    rcases hd with hd | rfl
    · exact h d (by simp [conns, hd])
    · exact hc
  · next c cs hcs =>
    simp only [conns, List.mem_append, List.mem_cons] at hd
    rcases hd with (hd | rfl | hd) | hd
    · exact h d (by simp [conns, hd])
    · exact hc
    · exact h d (by simp [conns, hcs, hd])
    · exact h d (by simp [conns, hd])

/-- Nothing is left of the connections of a server that is gone. -/
theorem sound_crash (h : ∀ c ∈ nd.conns, c.got <+: c.sent) : nd.crash.Sound U := by
  refine ⟨h, by simp [crash], ?_⟩
  intro c hc
  simp only [crash] at hc
  split at hc <;> cases hc

theorem sound_restart (h : ∀ c ∈ nd.conns, c.got <+: c.sent) : nd.restart.Sound U := by
  refine ⟨h, by simp [restart], ?_⟩
  intro c hc
  simp only [restart] at hc
  split at hc
  · next hs => rcases hs with hs | hs <;> rw [hs] at hc <;> cases hc
  · cases hc

theorem Sound.connect (h : nd.Sound U) (hfresh : (Conn.fresh byLoop).Due V) (hc : nd.connect byLoop r = some nd') :
    nd'.Sound V := by
  unfold Node.connect at hc
  split at hc
  · obtain ⟨-, hnd⟩ := Option.ite_none_right_eq_some.1 hc
    cases hnd
    refine ⟨h.past, h.closed, ?_⟩
    intro c hc
    rw [List.mem_singleton.1 hc]
    exact hfresh
  · obtain ⟨-, hnd⟩ := Option.ite_none_right_eq_some.1 hc
    cases hnd
    exact ⟨h.past, h.closed, by simp [Sock.conn]⟩
  · cases hc

theorem Sound.send (h : nd.Sound U) (hVU : ∀ l, V l → U (m :: l)) : (nd.send m).Sound V := by
  have hconn : (nd.send m).sock.conn = nd.sock.conn.map (Conn.send m) := by
    unfold Node.send
    cases nd.sock <;> rfl
  refine ⟨h.past, h.closed, ?_⟩
  intro c hc
  rw [hconn] at hc
  obtain ⟨d, hd, rfl⟩ := List.mem_map.1 hc
  exact (h.live d hd).send hVU

theorem Sound.close (h : nd.Sound U) (hU : ∃ l, U l) : nd.close.Sound V := by
  refine ⟨h.past, ?_, by simp [Node.close, Sock.conn]⟩
  intro c hc
  rcases List.mem_append.1 hc with hc | hc
  · exact h.closed c hc
  · exact (h.live c hc).closed hU

/-! ### What the server does -/

/-- A connection is accepted in turn: the first one of a server process is one that the connect loop has made, and every
later one is one that `runcommand` has made. -/
def InTurn (nd : Node) : Prop := ∀ c, nd.front = some c → c.byLoop = !nd.greeted

instance (nd : Node) : Decidable nd.InTurn :=
  decidable_of_iff (∀ c ∈ nd.front, c.byLoop = !nd.greeted) Iff.rfl

theorem Sound.accept (h : nd.Sound U) (hU : ∃ l, U l) (hturn : nd.InTurn) (hnd : nd.accept = some nd') :
    nd'.Sound U := by
  unfold Node.accept at hnd
  split at hnd
  · next c hc =>
    obtain ⟨⟨-, hphase⟩, hnd⟩ := Option.ite_none_right_eq_some.1 hnd
    cases hnd
    have hstands : c.stands = if nd.greeted then .flag else .home := by
      rw [Conn.stands, hphase, hturn c hc, Option.getD_none]
      cases nd.greeted <;> rfl
    have hset := h.setFront hc (fun V _ hV => hV.accept hstands) hU
    exact ⟨hset.past, hset.closed, hset.live⟩
  · cases hnd

theorem Sound.read (h : nd.Sound U) (hU : ∃ l, U l) (hnd : nd.read = some nd') : nd'.Sound U := by
  unfold Node.read at hnd
  split at hnd
  case h_2 => cases hnd
  next c hc =>
  split at hnd
  case h_2 => cases hnd
  next p hp =>
  split at hnd
  · next k m l hk hm =>
    cases hnd
    split
    · next p' hp' => exact h.setFront hc (fun V hV hdue => hdue.read hV hp hk hm hp') hU
    · apply sound_crash
      exact aligned_setFront h.aligned ((h.front hU hc).got ⟨[], rfl⟩ hp hk hm)
  · next k hk hm =>
    obtain ⟨hne, hnd⟩ := Option.ite_none_left_eq_some.1 hnd
    split at hnd
    · cases hnd
      exact sound_restart h.aligned
    · cases hnd
      split
      · next p' hp' =>
        rcases front_cases hc with ⟨cs, hcs⟩ | ⟨hnil, -⟩
        · have hset : nd.setFront { c with phase := some p' } = { nd with closed := { c with phase := some p' } :: cs } := by
            simp [Node.setFront, hcs]
          rw [hset]
          refine ⟨h.past, ?_, h.live⟩
          intro d hd
          rcases List.mem_cons.1 hd with rfl | hd
          · exact (h.front hU hc).eof hm
          · exact h.closed d (by simp [hcs, hd])
        · exact absurd hnil hne
      · exact sound_crash h.aligned
  · cases hnd

theorem Sound.finish (h : nd.Sound U) (hnd : nd.finish = some nd') : nd'.Sound U := by
  unfold Node.finish at hnd
  split at hnd
  · obtain ⟨-, hnd⟩ := Option.ite_none_right_eq_some.1 hnd
    cases hnd
    exact h.dropFront
  · cases hnd

end Node

/-! ### The session -/

namespace Client

/-- The loop has made the connection to node `i`, and not sent the home directory. -/
def Greeting (cl : Client) (i : ℕ) : Prop := cl.i = i ∧ cl.point ≠ .checking

instance (cl : Client) (i : ℕ) : Decidable (cl.Greeting i) := by
  unfold Greeting
  infer_instance

/-- What is sent to node `i` before the client closes the connection, if the handler is not at it. -/
def Idle (cl : Client) (i : ℕ) (l : List Msg) : Prop :=
  ∃ c : Command, l = if cl.Greeting i then ⟨.home, cl.home⟩ :: c.msgs else c.msgs

/-- What is sent to node `i` before the client closes the connection. -/
def Upcoming (cl : Client) (i : ℕ) (l : List Msg) : Prop :=
  match cl.job with
  | some (j, .child rest) => if j = i then l = rest else cl.Idle i l
  | some (j, _) => if j = i then l = [] else cl.Idle i l
  | none => cl.Idle i l

variable {cl : Client} {i j n : ℕ} {job : Job} {l : List Msg} {p : Point}

theorem exists_upcoming : ∃ l, cl.Upcoming i l := by
  unfold Upcoming
  split
  · next j rest _ =>
    by_cases hj : j = i
    · exact ⟨rest, by rw [if_pos hj]⟩
    · exact ⟨_, by rw [if_neg hj]; exact ⟨⟨lit "", none⟩, rfl⟩⟩
  · next j job _ _ =>
    by_cases hj : j = i
    · exact ⟨[], by rw [if_pos hj]⟩
    · exact ⟨_, by rw [if_neg hj]; exact ⟨⟨lit "", none⟩, rfl⟩⟩
  · exact ⟨_, ⟨lit "", none⟩, rfl⟩

theorem upcoming_of_none (h : cl.job = none) : cl.Upcoming i l ↔ cl.Idle i l := by rw [Upcoming, h]

theorem Upcoming.idle (hl : cl.Upcoming i l) (h : cl.job = none) : cl.Idle i l := (upcoming_of_none h).1 hl

theorem upcoming_of_ne (h : cl.job = some (j, job)) (hij : i ≠ j) : cl.Upcoming i l ↔ cl.Idle i l := by
  unfold Upcoming
  rw [h]
  cases job <;> simp only [if_neg (Ne.symm hij)]

theorem upcoming_child {rest : List Msg} (h : cl.job = some (i, .child rest)) : cl.Upcoming i l ↔ l = rest := by
  simp only [Upcoming, h, if_true]

theorem Idle.congr {cl' : Client} (h : cl.Idle i l) (hhome : cl.home = cl'.home)
    (hgreeting : cl.Greeting i ↔ cl'.Greeting i) : cl'.Idle i l := by
  obtain ⟨c, rfl⟩ := h
  exact ⟨c, by simp only [hhome, hgreeting]⟩

theorem idle_of_greeting (h : cl.Greeting i) : cl.Idle i l ↔ ∃ c : Command, l = ⟨.home, cl.home⟩ :: c.msgs := by
  simp only [Idle, if_pos h]

theorem idle_of_not_greeting (h : ¬cl.Greeting i) : cl.Idle i l ↔ ∃ c : Command, l = c.msgs := by
  simp only [Idle, if_neg h]

theorem not_greeting_of_checking (h : cl.point = .checking) : ¬cl.Greeting i := fun hg => hg.2 h

end Client

namespace State

/-- The session is in step whatever is sent next, and the handler is not at a node that has not been sent the home
directory. -/
structure Sound (s : State) : Prop where
  node : ∀ i, (s.node i).Sound (s.client.Upcoming i)
  job : ∀ i job, s.client.job = some (i, job) → ¬s.client.Greeting i

/-- The handler does not take a node at which the loop has not sent the home directory yet, and connections are accepted
in turn. -/
def InTurn (s : State) : Event → Prop
  | .command i _ => ¬s.client.Greeting i
  | .accept i => (s.node i).InTurn
  | _ => True

instance (s : State) (e : Event) : Decidable (s.InTurn e) := by
  unfold InTurn
  split <;> infer_instance

variable {s s' : State} {cl : Client} {nd : Node} {i n : ℕ} {e : Event} {job : Job}

theorem sound_start (home : CStr) : (start home).Sound where
  node i := ⟨by simp [start], by simp [start], by simp [start, Sock.conn]⟩
  job i job h := by cases h

/-- The client goes on, and no more can be sent than before. -/
theorem Sound.client (h : s.Sound) (hU : ∀ j l, cl.Upcoming j l → s.client.Upcoming j l)
    (hjob : ∀ j job, cl.job = some (j, job) → ¬cl.Greeting j) : State.Sound { s with client := cl } :=
  ⟨fun j => (h.node j).mono (hU j), hjob⟩

/-- Something happens at node `i`. -/
theorem Sound.set (h : s.Sound) (hi : nd.Sound (cl.Upcoming i))
    (hU : ∀ j, j ≠ i → ∀ l, cl.Upcoming j l → s.client.Upcoming j l)
    (hjob : ∀ j job, cl.job = some (j, job) → ¬cl.Greeting j) : (s.set cl i nd).Sound := by
  refine ⟨fun j => ?_, hjob⟩
  by_cases hj : j = i
  · subst hj
    simp only [State.set, Function.update_self]
    exact hi
  · simp only [State.set, Function.update_of_ne hj]
    exact (h.node j).mono (hU j hj)

theorem Sound.serve {nd : Option Node} (h : s.Sound) (hs : s.serve i nd = some s')
    (hnd : ∀ nd', nd = some nd' → nd'.Sound (s.client.Upcoming i)) : s'.Sound := by
  obtain ⟨nd', hnd', rfl⟩ := Option.map_eq_some_iff.1 hs
  exact h.set (hnd nd' hnd') (fun _ _ _ hl => hl) h.job

/-- What a statement of the connect loop keeps. -/
theorem Sound.loop (h : s.Sound) (hjob : s.client.job = none) (hturn : s.InTurn e) (hs : s.loop n e = some s') :
    s'.Sound := by
  have hidle : ∀ {cl : Client} {j}, cl.job = none → (∀ l, cl.Idle j l → s.client.Idle j l) →
      ∀ l, cl.Upcoming j l → s.client.Upcoming j l := by
    intro cl j hcl hU l hl
    rw [Client.upcoming_of_none hjob]
    exact hU l (hl.idle hcl)
  have hnone : ∀ {cl : Client}, cl.job = none → ∀ j job, cl.job = some (j, job) → ¬cl.Greeting j := by
    intro cl hcl j job hj
    rw [hcl] at hj
    cases hj
  cases e with
  | skip =>
    obtain ⟨⟨hpoint, -⟩, hs⟩ := Option.ite_none_right_eq_some.1 hs
    cases hs
    refine h.client (fun j => hidle hjob fun l hl => hl.congr rfl ?_) (hnone hjob)
    exact iff_of_false (Client.not_greeting_of_checking rfl) (Client.not_greeting_of_checking hpoint)
  | connect r =>
    obtain ⟨⟨hpoint, -⟩, hs⟩ := Option.ite_none_right_eq_some.1 hs
    split at hs
    · cases hs
      refine h.client (fun j => hidle hjob fun l hl => hl.congr rfl ?_) (hnone hjob)
      exact iff_of_false (Client.not_greeting_of_checking rfl) (Client.not_greeting_of_checking hpoint)
    · obtain ⟨nd, hnd, rfl⟩ := Option.map_eq_some_iff.1 hs
      refine h.set ((h.node _).connect (Conn.due_fresh fun l hl => ?_) hnd) (fun j hj => ?_) (hnone hjob)
      · obtain ⟨c, rfl⟩ := (Client.idle_of_greeting ⟨rfl, by simp⟩).1 (hl.idle hjob)
        exact follows_home _ c
      · refine hidle hjob fun l hl => hl.congr rfl ?_
        exact iff_of_false (fun hg => hj hg.1.symm) (Client.not_greeting_of_checking hpoint)
  | mark =>
    obtain ⟨hpoint, hs⟩ := Option.ite_none_right_eq_some.1 hs
    cases hs
    have hU : ∀ j l, Client.Upcoming { s.client with point := .marked } j l → s.client.Upcoming j l := by
      refine fun j => hidle hjob fun l hl => hl.congr rfl ?_
      simp [Client.Greeting, hpoint]
    have hnode := (h.node s.client.i).mono (hU s.client.i)
    exact h.set ⟨hnode.past, hnode.closed, hnode.live⟩ (fun j _ => hU j) (hnone hjob)
  | greet =>
    obtain ⟨hpoint, hs⟩ := Option.ite_none_right_eq_some.1 hs
    cases hs
    refine h.set ((h.node _).send fun l hl => ?_) (fun j hj => ?_) (hnone hjob)
    · obtain ⟨c, rfl⟩ := (Client.idle_of_not_greeting (Client.not_greeting_of_checking rfl)).1 (hl.idle hjob)
      rw [Client.upcoming_of_none hjob, Client.idle_of_greeting ⟨rfl, by simp [hpoint]⟩]
      exact ⟨c, rfl⟩
    · refine hidle hjob fun l hl => hl.congr rfl ?_
      exact iff_of_false (Client.not_greeting_of_checking rfl) (fun hg => hj hg.1.symm)
  | command i c =>
    obtain ⟨-, hs⟩ := Option.ite_none_right_eq_some.1 hs
    cases hs
    refine h.client (fun j l hl => ?_) ?_
    · rw [Client.upcoming_of_none hjob]
      by_cases hj : j = i
      · subst hj
        rw [Client.upcoming_child rfl] at hl
        exact ⟨c, by rw [if_neg hturn, hl]⟩
      · rw [Client.upcoming_of_ne rfl hj] at hl
        exact hl
    · intro j job hj
      cases hj
      exact hturn
  | _ => cases hs

/-- What a statement of `runcommand` keeps. -/
theorem Sound.handler (h : s.Sound) (hjob : s.client.job = some (i, job)) (hs : s.handler i job e = some s') :
    s'.Sound := by
  have hi := h.job i job hjob
  have hothers : ∀ {cl : Client}, (∀ j, j ≠ i → ∀ l, cl.Upcoming j l → cl.Idle j l) → cl.home = s.client.home →
      (∀ j, cl.Greeting j ↔ s.client.Greeting j) →
      ∀ j, j ≠ i → ∀ l, cl.Upcoming j l → s.client.Upcoming j l := by
    intro cl hidle hhome hgreeting j hj l hl
    rw [Client.upcoming_of_ne hjob hj]
    exact (hidle j hj l hl).congr hhome (hgreeting j)
  have hwith : ∀ {job' : Job}, ∀ j, j ≠ i → ∀ l,
      Client.Upcoming { s.client with job := some (i, job') } j l → s.client.Upcoming j l :=
    hothers (fun j hj l hl => (Client.upcoming_of_ne rfl hj).1 hl) rfl fun j => Iff.rfl
  have hdone : ∀ j, j ≠ i → ∀ l, Client.Upcoming { s.client with job := none } j l → s.client.Upcoming j l :=
    hothers (fun j hj l hl => hl.idle rfl) rfl fun j => Iff.rfl
  have hsome : ∀ {job' : Job}, ∀ j job, some (i, job') = some (j, job) → ¬s.client.Greeting j := by
    intro job' j job hj
    cases hj
    exact hi
  unfold State.handler at hs
  split at hs
  · next m rest =>
    cases hs
    refine h.set ((h.node i).send fun l hl => ?_) hwith hsome
    rw [Client.upcoming_child rfl] at hl
    rw [Client.upcoming_child hjob, hl]
  · obtain ⟨-, hs⟩ := Option.ite_none_right_eq_some.1 hs
    cases hs
    refine h.client (fun j l hl => ?_) hsome
    by_cases hj : j = i
    · subst hj
      rw [Client.upcoming_child hjob]
      simpa [Client.Upcoming] using hl
    · exact hwith j hj l hl
  · cases hs
    exact h.set ((h.node i).close Client.exists_upcoming) hwith hsome
  · next r =>
    split at hs
    · cases hs
      exact h.set ⟨(h.node i).past, (h.node i).closed, by simp [Sock.conn]⟩ hdone (by simp)
    · obtain ⟨nd, hnd, rfl⟩ := Option.map_eq_some_iff.1 hs
      refine h.set ((h.node i).connect (Conn.due_fresh fun l hl => ?_) hnd) hdone (by simp)
      obtain ⟨c, rfl⟩ := (Client.idle_of_not_greeting hi).1 (hl.idle rfl)
      exact follows_msgs c
  · cases hs

theorem Sound.proceed (h : s.Sound) (hturn : s.InTurn e) (hs : s.proceed n e = some s') : s'.Sound := by
  unfold State.proceed at hs
  split at hs
  · next hjob => exact h.loop hjob hturn hs
  · next hjob => exact h.handler hjob hs

/-- **Step.**  What an event in turn keeps. -/
theorem Sound.step (h : s.Sound) (hturn : s.InTurn e) (hs : s.step n e = some s') : s'.Sound := by
  cases e with
  | restart home =>
    cases hs
    refine ⟨fun i => ?_, fun i job hjob => by cases hjob⟩
    have hnode := (h.node i).close (V := (Client.start home).Upcoming i) Client.exists_upcoming
    exact ⟨hnode.past, hnode.closed, hnode.live⟩
  | accept i => exact h.serve hs fun nd hnd => (h.node i).accept Client.exists_upcoming hturn hnd
  | read i => exact h.serve hs fun nd hnd => (h.node i).read Client.exists_upcoming hnd
  | finish i => exact h.serve hs fun nd hnd => (h.node i).finish hnd
  | crash i =>
    refine h.serve hs fun nd hnd => ?_
    obtain ⟨-, hnd⟩ := Option.ite_none_right_eq_some.1 hnd
    cases hnd
    exact Node.sound_crash (h.node i).aligned
  | up i =>
    refine h.serve hs fun nd hnd => ?_
    obtain ⟨-, hnd⟩ := Option.ite_none_left_eq_some.1 hnd
    cases hnd
    exact ⟨(h.node i).past, (h.node i).closed, (h.node i).live⟩
  | _ => exact h.proceed hturn hs

end State

/-- **A session stays in step** while the handler leaves alone the node at which the loop has set `active` and not sent the
home directory yet, and the server of a node and the client agree about each connection that is accepted. -/
theorem aligned_of_inTurn (n : ℕ) (home : CStr) (es : List Event) (s : State)
    (h : Run (State.step n) State.InTurn (start home) es s) : s.Aligned := by
  have hsound : s.Sound := h.inv State.Sound (State.sound_start home) fun s e s' hs he hst => hs.step he hst
  exact fun i => (hsound.node i).aligned

/-- Two commands for node 1, the second on the connection that is made behind the first. -/
def twoCommands : List Event :=
  [.up 1, .skip, .connect .server, .mark, .greet, .accept 1, .read 1, .command 1 ⟨lit "cat", some (lit "x")⟩, .send, .send,
    .send, .read 1, .read 1, .read 1, .output, .finish 1, .close, .reconnect .server, .accept 1,
    .command 1 ⟨lit "ls", none⟩, .send, .send, .read 1, .read 1]

theorem aligned_twoCommands : ∃ s, Run (State.step 2) State.InTurn (start (lit "/root")) twoCommands s ∧
    (s.node 1).conns.map (·.got.length) = [4, 2] ∧ s.Aligned := by
  have hrun : (runAll (State.step 2) (fun s e => decide (s.InTurn e)) (start (lit "/root")) twoCommands).map
      (fun s => (s.node 1).conns.map (·.got.length)) = some [4, 2] := by decide
  obtain ⟨s, hs, hgot⟩ := Option.map_eq_some_iff.1 hrun
  have hturn := run_of_runAll (fun s e he => of_decide_eq_true he) hs
  exact ⟨s, hturn, hgot, aligned_of_inTurn 2 _ twoCommands s hturn⟩

/-- **A session can get out of step**: the handler takes node 1 between `active = 1` and the `send` of the home directory,
and the server takes the flag of the command for the home directory. -/
theorem not_aligned : ¬ ∀ (n : ℕ) (home : CStr) (es : List Event) (s : State),
    Run (State.step n) (fun _ _ => True) (start home) es s → s.Aligned := by
  intro h
  have hrun : (runAll (State.step 2) (fun _ _ => true) (start (lit "/root")) [.up 1, .skip, .connect .server, .mark,
      .command 1 ⟨lit "ls", none⟩, .send, .accept 1, .read 1]).map
      (fun s => decide (∀ c ∈ (s.node 1).conns, c.got <+: c.sent)) = some false := by decide
  obtain ⟨s, hs, hgot⟩ := Option.map_eq_some_iff.1 hrun
  exact of_decide_eq_false hgot (h 2 _ _ s (run_of_runAll (fun _ _ _ => trivial) hs) 1)

end NetProg.Cluster
