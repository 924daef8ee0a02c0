import Mathlib.Algebra.Order.BigOperators.Group.Finset
import Mathlib.Data.Fintype.BigOperators
import NetProg.Lib.CString
import NetProg.Lib.Confluence
import NetProg.Lib.Semop

/-!
# A segment of shared memory behind two semaphores

Any number of clients write to a segment that the server reads once, from the moment on at which the server is ready for
them.  The first semaphore is there to be 0 while nobody uses the segment, the second one counts the clients that are
through.  Bytes are written and read one at a time, and a client does not look at what its calls return.

* `Inv`: what the semaphores say of the programs, and what is in the segment;
* `hello_printed`: every run ends, and the server has printed what the clients write;
* `exclusive`: as long as there are semaphores, there is one client at a time;
* `server_alone_iff`: the server has the segment to itself if and only if there are not two clients.
-/

namespace NetProg.SharedMemory

open NetProg.Lib

/-- The size of the segment. -/
def SIZEOFSHMSEG : ℕ := 50

/-- What `strcpy` writes. -/
def hello : List Byte := (lit "hello").z

/-- The next call of a client. -/
inductive Client where
  | shmat
  /-- the first `semop`, with the result of `shmat` -/
  | enter (attached : Bool)
  /-- `strcpy`, which has written `k` bytes -/
  | write (attached : Bool) (k : ℕ)
  | leave
  | gone
  /-- `strcpy` to an address that there is not -/
  | crashed
  deriving DecidableEq

/-- The next call of the server. -/
inductive Server where
  | take
  /-- `printf`, at the byte `k` -/
  | print (k : ℕ)
  | free
  | removeSems
  | removeShm
  | gone
  deriving DecidableEq

/-- The programs, the semaphores as long as there are any, the segment, and what the server has printed of it. -/
structure State (ι : Type) where
  server : Server
  client : ι → Client
  sems : Option (Fin 2 → ℕ)
  memory : List Byte
  printed : List Byte

/-- Who takes a step; `attached` is what `shmat` returns. -/
inductive Act (ι : Type) where
  | client (i : ι) (attached : Bool)
  | server

/-- The server has made the segment and the semaphores, and the clients start then. -/
def start {ι : Type} : State ι := ⟨.take, fun _ => .shmat, some fun _ => 0, List.replicate SIZEOFSHMSEG 0, []⟩

/-- The `operations` of the clients. -/
def enterOps : List (Sembuf (Fin 2)) := [⟨0, 0, false⟩, ⟨0, 1, false⟩]

def leaveOps : List (Sembuf (Fin 2)) := [⟨0, -1, false⟩, ⟨1, 1, false⟩]

/-- Those of the server. -/
def takeOps : List (Sembuf (Fin 2)) := [⟨1, -1, false⟩, ⟨0, 1, true⟩]

def freeOps : List (Sembuf (Fin 2)) := [⟨0, -1, true⟩]

section Model

variable {ι : Type}

/-- A call of `semop`, which fails where there are no semaphores; `none` where it waits. -/
def State.semop (s : State ι) (ops : List (Sembuf (Fin 2))) : Option (State ι) :=
  match s.sems with
  | none => some s
  | some v =>
    match Lib.semop ops v with
    | .done v' => some { s with sems := some v' }
    | .again => some s
    | .wait => none

variable [DecidableEq ι]

def State.set (s : State ι) (i : ι) (c : Client) : State ι := { s with client := Function.update s.client i c }

def step (s : State ι) : Act ι → Option (State ι)
  | .client i attached =>
    match s.client i with
    -- there is a segment until the server has removed it
    | .shmat => if attached = false ∧ s.server ≠ .gone then none else some (s.set i (.enter attached))
    | .enter attached => (s.semop enterOps).map fun t => t.set i (.write attached 0)
    | .write false _ => some (s.set i .crashed)
    | .write true k =>
      match hello[k]? with
      | some b => some ({ s with memory := s.memory.set k b }.set i (.write true (k + 1)))
      | none => some (s.set i .leave)
    | .leave => (s.semop leaveOps).map fun t => t.set i .gone
    | .gone | .crashed => none
  | .server =>
    match s.server with
    | .take => (s.semop takeOps).map fun t => { t with server := .print 0 }
    | .print k =>
      match s.memory[k]? with
      | some b =>
        if b = 0 then some { s with server := .free }
        else some { s with server := .print (k + 1), printed := s.printed ++ [b] }
      | none => none
    | .free => (s.semop freeOps).map fun t => { t with server := .removeSems }
    | .removeSems => some { s with sems := none, server := .removeShm }
    | .removeShm => some { s with server := .gone }
    | .gone => none

/-- The steps, one by one. -/
inductive Moves (s : State ι) : State ι → Prop
  | attach {i ok} : s.client i = .shmat → (ok = false → s.server = .gone) → Moves s (s.set i (.enter ok))
  | enter {i ok v} : s.client i = .enter ok → s.sems = some v → v 0 = 0 →
      Moves s ({ s with sems := some (Function.update v 0 (v 0 + 1)) }.set i (.write ok 0))
  | enterRemoved {i ok} : s.client i = .enter ok → s.sems = none → Moves s (s.set i (.write ok 0))
  | crash {i k} : s.client i = .write false k → Moves s (s.set i .crashed)
  | put {i k b} : s.client i = .write true k → hello[k]? = some b →
      Moves s ({ s with memory := s.memory.set k b }.set i (.write true (k + 1)))
  | written {i k} : s.client i = .write true k → hello.length ≤ k → Moves s (s.set i .leave)
  | leave {i v} : s.client i = .leave → s.sems = some v → 0 < v 0 →
      Moves s ({ s with sems := some (Function.update (Function.update v 0 (v 0 - 1)) 1 (v 1 + 1)) }.set i .gone)
  | leaveRemoved {i} : s.client i = .leave → s.sems = none → Moves s (s.set i .gone)
  | take {v} : s.server = .take → s.sems = some v → 0 < v 1 →
      Moves s { s with
        sems := some (Function.update (Function.update v 1 (v 1 - 1)) 0 (v 0 + 1)), server := .print 0 }
  | takeRemoved : s.server = .take → s.sems = none → Moves s { s with server := .print 0 }
  | print {k b} : s.server = .print k → s.memory[k]? = some b → b ≠ 0 →
      Moves s { s with server := .print (k + 1), printed := s.printed ++ [b] }
  | printed {k} : s.server = .print k → s.memory[k]? = some 0 → Moves s { s with server := .free }
  | free {v} : s.server = .free → s.sems = some v → 0 < v 0 →
      Moves s { s with sems := some (Function.update v 0 (v 0 - 1)), server := .removeSems }
  | freeAgain {v} : s.server = .free → s.sems = some v → v 0 = 0 → Moves s { s with server := .removeSems }
  | freeRemoved : s.server = .free → s.sems = none → Moves s { s with server := .removeSems }
  | removeSems : s.server = .removeSems → Moves s { s with sems := none, server := .removeShm }
  | removeShm : s.server = .removeShm → Moves s { s with server := .gone }

end Model

variable {ι : Type} [DecidableEq ι] {s t : State ι} {i j : ι} {k : ℕ} {b : Byte} {v : Fin 2 → ℕ} {a : Act ι}

/-! ### What a step does -/

theorem semop_enterOps : semop enterOps v = if v 0 = 0 then .done (Function.update v 0 (v 0 + 1)) else .wait := by
  rw [enterOps, semop_test, semop_up]
  rfl

theorem semop_leaveOps : semop leaveOps v =
    if 0 < v 0 then .done (Function.update (Function.update v 0 (v 0 - 1)) 1 (v 1 + 1)) else .wait := by
  rw [leaveOps, semop_down, semop_up]
  rfl

theorem semop_takeOps : semop takeOps v =
    if 0 < v 1 then .done (Function.update (Function.update v 1 (v 1 - 1)) 0 (v 0 + 1)) else .wait := by
  rw [takeOps, semop_down, semop_up]
  rfl

theorem semop_freeOps : semop freeOps v = if 0 < v 0 then .done (Function.update v 0 (v 0 - 1)) else .again := by
  rw [freeOps, semop_down]
  rfl

omit [DecidableEq ι] in
/-- What a call of `semop` leaves behind. -/
theorem semop_cases {ops : List (Sembuf (Fin 2))} (h : s.semop ops = some t) :
    (s.sems = none ∧ t = s) ∨ ∃ v, s.sems = some v ∧
      ((∃ v', semop ops v = .done v' ∧ t = { s with sems := some v' }) ∨ semop ops v = .again ∧ t = s) := by
  rw [State.semop] at h
  split at h
  · next hs =>
    cases h
    exact .inl ⟨hs, rfl⟩
  · next v hs =>
    refine .inr ⟨v, hs, ?_⟩
    split at h
    · next v' hv =>
      cases h
      exact .inl ⟨v', hv, rfl⟩
    · next hv =>
      cases h
      exact .inr ⟨hv, rfl⟩
    · cases h

theorem step_cases (h : step s a = some t) : Moves s t := by
  cases a with
  | client i attached =>
    rw [step] at h
    split at h
    · next hc =>
      split at h
      · cases h
      · next hok =>
        cases h
        exact .attach hc fun e => by_contra fun hne => hok ⟨e, hne⟩
    · next ok hc =>
      obtain ⟨u, hu, rfl⟩ := Option.map_eq_some_iff.1 h
      rcases semop_cases hu with ⟨hs, rfl⟩ | ⟨v, hs, hv⟩
      · exact .enterRemoved hc hs
      · rw [semop_enterOps] at hv
        split at hv
        · next h0 =>
          rcases hv with ⟨v', hv, rfl⟩ | ⟨hv, -⟩
          · cases hv
            exact .enter hc hs h0
          · cases hv
        · rcases hv with ⟨v', hv, -⟩ | ⟨hv, -⟩ <;> cases hv
    · next hc =>
      cases h
      exact .crash hc
    · next k hc =>
      split at h
      · next b hb =>
        cases h
        exact .put hc hb
      · next hb =>
        cases h
        exact .written hc (List.getElem?_eq_none_iff.1 hb)
    · next hc =>
      obtain ⟨u, hu, rfl⟩ := Option.map_eq_some_iff.1 h
      rcases semop_cases hu with ⟨hs, rfl⟩ | ⟨v, hs, hv⟩
      · exact .leaveRemoved hc hs
      · rw [semop_leaveOps] at hv
        split at hv
        · next h0 =>
          rcases hv with ⟨v', hv, rfl⟩ | ⟨hv, -⟩
          · cases hv
            exact .leave hc hs h0
          · cases hv
        · rcases hv with ⟨v', hv, -⟩ | ⟨hv, -⟩ <;> cases hv
    · cases h
    · cases h
  | server =>
    rw [step] at h
    split at h
    · next hc =>
      obtain ⟨u, hu, rfl⟩ := Option.map_eq_some_iff.1 h
      rcases semop_cases hu with ⟨hs, rfl⟩ | ⟨v, hs, hv⟩
      · exact .takeRemoved hc hs
      · rw [semop_takeOps] at hv
        split at hv
        · next h0 =>
          rcases hv with ⟨v', hv, rfl⟩ | ⟨hv, -⟩
          · cases hv
            exact .take hc hs h0
          · cases hv
        · rcases hv with ⟨v', hv, -⟩ | ⟨hv, -⟩ <;> cases hv
    · next k hc =>
      split at h
      · next b hb =>
        split at h
        · next h0 =>
          cases h
          exact .printed hc (h0 ▸ hb)
        · next h0 =>
          cases h
          exact .print hc hb h0
      · cases h
    · next hc =>
      obtain ⟨u, hu, rfl⟩ := Option.map_eq_some_iff.1 h
      rcases semop_cases hu with ⟨hs, rfl⟩ | ⟨v, hs, hv⟩
      · exact .freeRemoved hc hs
      · rw [semop_freeOps] at hv
        split at hv
        · next h0 =>
          rcases hv with ⟨v', hv, rfl⟩ | ⟨hv, -⟩
          · cases hv
            exact .free hc hs h0
          · cases hv
        · next h0 =>
          rcases hv with ⟨v', hv, -⟩ | ⟨-, rfl⟩
          · cases hv
          · exact .freeAgain hc hs (by omega)
    · next hc =>
      cases h
      exact .removeSems hc
    · next hc =>
      cases h
      exact .removeShm hc
    · cases h

/-! ### One client at a time -/

/-- The client is between its two calls of `semop`. -/
def Client.inside : Client → Bool
  | .write _ _ | .leave => true
  | _ => false

/-- So is the server. -/
def Server.inside : Server → Bool
  | .print _ | .free => true
  | _ => false

/-- What the server has added to the first semaphore. -/
def Server.holds (q : Server) : ℕ := q.inside.toNat

/-- The first semaphore is `m`: `n` of that is the server's, and a client that is inside accounts for the rest. -/
def Lock (n m : ℕ) (client : ι → Client) : Prop :=
  (m = n ∧ ∀ i, (client i).inside = false) ∨
    ∃ i, (client i).inside = true ∧ (∀ j, (client j).inside = true → j = i) ∧ m = n + 1

section Lock

variable {n m : ℕ} {client : ι → Client} {c : Client}

omit [DecidableEq ι] in
theorem Lock.alone (h : Lock n m client) (hi : (client i).inside = true) (hj : (client j).inside = true) : i = j := by
  rcases h with ⟨-, hno⟩ | ⟨k, -, hk, -⟩
  · rw [hno i] at hi
    cases hi
  · rw [hk i hi, hk j hj]

omit [DecidableEq ι] in
/-- Who may enter finds nobody. -/
theorem Lock.free_iff (h : Lock n m client) : m = 0 ↔ n = 0 ∧ ∀ i, (client i).inside = false := by
  rcases h with ⟨rfl, hno⟩ | ⟨k, hk, -, rfl⟩
  · exact ⟨fun hm => ⟨hm, hno⟩, fun hm => hm.1⟩
  · refine ⟨fun hm => by omega, fun hm => ?_⟩
    rw [hm.2 k] at hk
    cases hk

theorem Lock.same (h : Lock n m client) (hc : c.inside = (client i).inside) :
    Lock n m (Function.update client i c) := by
  have hinside : ∀ j, (Function.update client i c j).inside = (client j).inside := fun j => by
    by_cases hj : j = i
    · rw [hj, Function.update_self, hc]
    · rw [Function.update_of_ne hj]
  simp only [Lock, hinside]
  exact h

theorem Lock.enter (h : Lock n 0 client) (hc : c.inside = true) : Lock n 1 (Function.update client i c) := by
  obtain ⟨rfl, hno⟩ := h.free_iff.1 rfl
  refine .inr ⟨i, by rw [Function.update_self, hc], fun j hj => ?_, rfl⟩
  by_contra hne
  rw [Function.update_of_ne hne, hno j] at hj
  cases hj

theorem Lock.leave (h : Lock n m client) (hi : (client i).inside = true) (hc : c.inside = false) :
    m = n + 1 ∧ Lock n n (Function.update client i c) := by
  rcases h with ⟨-, hno⟩ | ⟨k, -, hk, rfl⟩
  · rw [hno i] at hi
    cases hi
  · refine ⟨rfl, .inl ⟨rfl, fun j => ?_⟩⟩
    by_cases hj : j = i
    · rw [hj, Function.update_self, hc]
    · rw [Function.update_of_ne hj]
      by_contra hin
      exact hj ((hk j (Bool.eq_true_of_not_eq_false hin)).trans (hk i hi).symm)

omit [DecidableEq ι] in
theorem Lock.take (h : Lock 0 m client) : Lock 1 (m + 1) client := by
  rcases h with ⟨rfl, hno⟩ | ⟨k, hk, hkj, rfl⟩
  · exact .inl ⟨rfl, hno⟩
  · exact .inr ⟨k, hk, hkj, rfl⟩

omit [DecidableEq ι] in
theorem Lock.release (h : Lock 1 m client) : 0 < m ∧ Lock 0 (m - 1) client := by
  rcases h with ⟨rfl, hno⟩ | ⟨k, hk, hkj, rfl⟩
  · exact ⟨Nat.one_pos, .inl ⟨rfl, hno⟩⟩
  · exact ⟨Nat.two_pos, .inr ⟨k, hk, hkj, rfl⟩⟩

end Lock

/-- The client has no segment to write to. -/
def Client.failed : Client → Bool
  | .enter false | .write false _ | .crashed => true
  | _ => false

/-- What the semaphores say of the programs. -/
structure Locks (s : State ι) : Prop where
  lock : ∀ {v}, s.sems = some v → Lock s.server.holds (v 0) s.client
  removed : s.sems = none ↔ s.server = .removeShm ∨ s.server = .gone
  /-- who is through has raised the second semaphore, and nobody else has -/
  through : s.server ≠ .take ∨ (∃ v, s.sems = some v ∧ 0 < v 1) → ∃ i, s.client i = .gone
  counted : s.server = .take → (∃ i, s.client i = .gone) → ∃ v, s.sems = some v ∧ 0 < v 1
  failed : ∀ {i}, (s.client i).failed = true → s.server = .gone

omit [DecidableEq ι] in
theorem locks_start : Locks (start : State ι) where
  lock h := by
    cases h
    exact .inl ⟨rfl, fun _ => rfl⟩
  removed := by simp [start]
  through h := by
    rcases h with h | ⟨v, hv, h⟩
    · exact absurd rfl h
    · cases hv
      exact absurd h (Nat.lt_irrefl 0)
  counted _ h := by
    obtain ⟨i, hi⟩ := h
    cases hi
  failed h := nomatch h

theorem exists_gone_set {c : Client} (hi : s.client i ≠ .gone) (h : ∃ j, s.client j = .gone) :
    ∃ j, Function.update s.client i c j = .gone := by
  obtain ⟨j, hj⟩ := h
  have hne : j ≠ i := fun e => hi (e ▸ hj)
  exact ⟨j, by rw [Function.update_of_ne hne, hj]⟩

theorem exists_gone_of_set {c : Client} (hc : c ≠ .gone) (h : ∃ j, Function.update s.client i c j = .gone) :
    ∃ j, s.client j = .gone := by
  obtain ⟨j, hj⟩ := h
  by_cases hne : j = i
  · rw [hne, Function.update_self] at hj
    exact absurd hj hc
  · rw [Function.update_of_ne hne] at hj
    exact ⟨j, hj⟩

theorem failed_of_set {c : Client} (h : (Function.update s.client i c j).failed = true) :
    c.failed = true ∨ (s.client j).failed = true := by
  by_cases hj : j = i
  · rw [hj, Function.update_self] at h
    exact .inl h
  · rw [Function.update_of_ne hj] at h
    exact .inr h

/-- A client that goes on without `semop`. -/
theorem Locks.set (h : Locks s) {c : Client} (hi : s.client i ≠ .gone) (hc : c ≠ .gone)
    (hin : s.sems ≠ none → c.inside = (s.client i).inside) (hf : c.failed = true → s.server = .gone) :
    Locks (s.set i c) where
  lock hv := (h.lock hv).same (hin (by rw [show s.sems = _ from hv]; exact Option.some_ne_none _))
  removed := h.removed
  through ht := exists_gone_set hi (h.through ht)
  counted hs hg := h.counted hs (exists_gone_of_set hc hg)
  failed hj := (failed_of_set hj).elim hf fun hj => h.failed hj

omit [DecidableEq ι] in
theorem Locks.not_removed (h : Locks s) (hs : s.sems = some v) : ¬ (s.server = .removeShm ∨ s.server = .gone) := by
  rw [← h.removed, hs]
  exact Option.some_ne_none v

omit [DecidableEq ι] in
/-- The server goes on. -/
theorem Locks.server (h : Locks s) (hgone : ∃ i, s.client i = .gone) (hs : s.server ≠ .gone) (hc : t.client = s.client)
    (ht : t.server ≠ .take) (hlock : ∀ {v}, t.sems = some v → Lock t.server.holds (v 0) s.client)
    (hr : t.sems = none ↔ t.server = .removeShm ∨ t.server = .gone) : Locks t where
  lock hv := hc ▸ hlock hv
  removed := hr
  through _ := hc ▸ hgone
  counted htake := absurd htake ht
  failed hf := absurd (h.failed (hc ▸ hf)) hs

theorem Locks.step (h : Locks s) (hm : Moves s t) : Locks t := by
  cases hm with
  | @attach i ok hc hok =>
    refine h.set (by simp [hc]) (fun e => nomatch e) (fun _ => by rw [hc]; rfl) fun hf => ?_
    cases ok with
    | false => exact hok rfl
    | true => cases hf
  | @enter i ok v hc hs h0 =>
    have hlock := h.lock hs
    rw [h0] at hlock
    have hne : s.client i ≠ .gone := by rw [hc]; exact fun e => nomatch e
    refine ⟨fun hv => ?_, iff_of_false (fun e => nomatch e) (h.not_removed hs), fun ht => ?_, fun htake hg => ?_,
      fun {j} hf => ?_⟩
    · cases hv
      rw [Function.update_self, h0]
      exact hlock.enter rfl
    · refine exists_gone_set hne (h.through (ht.imp_right ?_))
      rintro ⟨v', hv', h1⟩
      cases hv'
      exact ⟨v, hs, h1⟩
    · obtain ⟨v', hv', h1⟩ := h.counted htake (exists_gone_of_set (i := i) (c := .write ok 0) (fun e => nomatch e) hg)
      rw [hs] at hv'
      cases hv'
      exact ⟨_, rfl, h1⟩
    · refine (failed_of_set (i := i) (c := .write ok 0) hf).elim (fun hf => h.failed (i := i) ?_) fun hf => h.failed hf
      rw [hc]
      cases ok with
      | false => rfl
      | true => cases hf
  | @enterRemoved i ok hc hs =>
    refine h.set (by simp [hc]) (fun e => nomatch e) (fun hne => absurd hs hne) fun hf => h.failed (i := i) ?_
    rw [hc]
    cases ok with
    | false => rfl
    | true => cases hf
  | @crash i k hc =>
    have hgone : s.server = .gone := h.failed (i := i) (by rw [hc]; rfl)
    exact h.set (by simp [hc]) (fun e => nomatch e) (fun hne => absurd (h.removed.2 (.inr hgone)) hne) fun _ => hgone
  | @put i k b hc hb =>
    have hset := h.set (i := i) (c := .write true (k + 1)) (by simp [hc]) (fun e => nomatch e)
      (fun _ => by rw [hc]; rfl) fun hf => nomatch hf
    exact ⟨hset.lock, hset.removed, hset.through, hset.counted, hset.failed⟩
  | @written i k hc hk =>
    exact h.set (by simp [hc]) (fun e => nomatch e) (fun _ => by rw [hc]; rfl) fun hf => nomatch hf
  | @leave i v hc hs h0 =>
    obtain ⟨hv0, hlock⟩ := (h.lock hs).leave (c := .gone) (i := i) (by rw [hc]; rfl) rfl
    refine ⟨fun hv => ?_, iff_of_false (fun e => nomatch e) (h.not_removed hs),
      fun _ => ⟨i, Function.update_self _ _ _⟩, fun _ _ => ⟨_, rfl, ?_⟩, fun hf => ?_⟩
    · cases hv
      rw [Function.update_of_ne (by decide), Function.update_self, hv0, Nat.add_sub_cancel]
      exact hlock
    · rw [Function.update_self]
      omega
    · exact (failed_of_set (i := i) (c := .gone) hf).elim (fun hf => nomatch hf) fun hf => h.failed hf
  | @leaveRemoved i hc hs =>
    refine ⟨fun hv => ?_, h.removed, fun _ => ⟨i, Function.update_self _ _ _⟩, fun htake _ => ?_, fun hf => ?_⟩
    · rw [show s.sems = _ from hv] at hs
      cases hs
    · rcases h.removed.1 hs with he | he <;> rw [show s.server = _ from htake] at he <;> cases he
    · exact (failed_of_set (i := i) (c := .gone) hf).elim (fun hf => nomatch hf) fun hf => h.failed hf
  | @take v hc hs h1 =>
    have hlock := h.lock hs
    rw [hc] at hlock
    refine h.server (h.through (.inr ⟨v, hs, h1⟩)) (by simp [hc]) rfl (fun e => nomatch e) (fun hv => ?_) (by simp)
    cases hv
    rw [Function.update_self]
    exact hlock.take
  | takeRemoved hc hs => rcases h.removed.1 hs with he | he <;> rw [hc] at he <;> cases he
  | @print k b hc hb h0 =>
    have hr := h.removed
    rw [hc] at hr
    refine h.server (h.through (.inl (by simp [hc]))) (by simp [hc]) rfl (fun e => nomatch e) (fun hv => ?_)
      (by simpa using hr)
    have hlock := h.lock hv
    rw [hc] at hlock
    exact hlock
  | @printed k hc hb =>
    have hr := h.removed
    rw [hc] at hr
    refine h.server (h.through (.inl (by simp [hc]))) (by simp [hc]) rfl (fun e => nomatch e) (fun hv => ?_)
      (by simpa using hr)
    have hlock := h.lock hv
    rw [hc] at hlock
    exact hlock
  | @free v hc hs h0 =>
    have hlock := h.lock hs
    rw [hc] at hlock
    refine h.server (h.through (.inl (by simp [hc]))) (by simp [hc]) rfl (fun e => nomatch e) (fun hv => ?_) (by simp)
    cases hv
    rw [Function.update_self]
    exact hlock.release.2
  | @freeAgain v hc hs h0 =>
    have hlock := h.lock hs
    rw [hc] at hlock
    have hpos := hlock.release.1
    omega
  | freeRemoved hc hs => rcases h.removed.1 hs with he | he <;> rw [hc] at he <;> cases he
  | removeSems hc =>
    exact h.server (h.through (.inl (by simp [hc]))) (by simp [hc]) rfl (fun e => nomatch e) (fun hv => nomatch hv)
      (by simp)
  | removeShm hc =>
    have hs : s.sems = none := h.removed.2 (.inl hc)
    refine h.server (h.through (.inl (by simp [hc]))) (by simp [hc]) rfl (fun e => nomatch e) (fun hv => ?_)
      (by simp [hs])
    rw [show s.sems = _ from hv] at hs
    cases hs

/-! ### What is in the segment -/

/-- The first `k` bytes are those of the word. -/
def Holds (k : ℕ) (memory : List Byte) : Prop := ∀ j < k, memory[j]? = hello[j]?

/-- How many bytes of the word the client has written. -/
def Client.wrote : Client → ℕ
  | .write true k => k
  | .leave | .gone => hello.length
  | _ => 0

/-- How many the server has printed. -/
def Server.read : Server → ℕ
  | .take => 0
  | .print k => k
  | _ => 5

structure Content (client : ι → Client) (server : Server) (memory printed : List Byte) : Prop where
  size : memory.length = SIZEOFSHMSEG
  written : ∀ i, Holds (client i).wrote memory
  le : ∀ {i k}, client i = .write true k → k ≤ hello.length
  read_le : server.read ≤ 5
  printed : printed = hello.take server.read

def State.Good (s : State ι) : Prop := Content s.client s.server s.memory s.printed

/-- The invariant of every run. -/
structure Inv (s : State ι) : Prop where
  locks : Locks s
  good : s.Good

/-- Whoever writes a byte writes the one that belongs there. -/
theorem Holds.put {n : ℕ} {memory : List Byte} (h : Holds n memory) (hb : hello[k]? = some b)
    (hk : k < memory.length) : Holds n (memory.set k b) := by
  intro j hj
  by_cases he : k = j
  · subst he
    rw [List.getElem?_set_self hk, hb]
  · rw [List.getElem?_set_ne he]
    exact h j hj

theorem Holds.succ {memory : List Byte} (h : Holds k memory) (hb : hello[k]? = some b) (hk : k < memory.length) :
    Holds (k + 1) (memory.set k b) := by
  intro j hj
  by_cases he : k = j
  · subst he
    rw [List.getElem?_set_self hk, hb]
  · rw [List.getElem?_set_ne he]
    exact h j (by omega)

/-- The word ends with its NUL. -/
theorem eq_zero_iff (hk : k ≤ 5) (hb : hello[k]? = some b) : b = 0 ↔ k = 5 := by
  have hall : ∀ k ≤ 5, (hello[k]?.getD 1 = 0 ↔ k = 5) := by decide
  have hk := hall k hk
  rwa [hb, Option.getD_some] at hk

section Content

variable {client : ι → Client} {server : Server} {memory printed : List Byte} {c : Client}

theorem Content.set (h : Content client server memory printed) (hc : Holds c.wrote memory)
    (hle : ∀ k, c = .write true k → k ≤ hello.length) :
    Content (Function.update client i c) server memory printed where
  size := h.size
  written j := by
    by_cases hj : j = i
    · rw [hj, Function.update_self]
      exact hc
    · rw [Function.update_of_ne hj]
      exact h.written j
  le := fun {j k} hj => by
    by_cases hji : j = i
    · rw [hji, Function.update_self] at hj
      exact hle k hj
    · rw [Function.update_of_ne hji] at hj
      exact h.le hj
  read_le := h.read_le
  printed := h.printed

omit [DecidableEq ι] in
theorem Content.put (h : Content client server memory printed) (hb : hello[k]? = some b) :
    Content client server (memory.set k b) printed where
  size := (List.length_set ..).trans h.size
  written i := (h.written i).put hb (by
    obtain ⟨hk, -⟩ := List.getElem?_eq_some_iff.1 hb
    rw [h.size]
    exact hk.trans (by decide))
  le := h.le
  read_le := h.read_le
  printed := h.printed

omit [DecidableEq ι] in
/-- Where somebody is through, the server reads the word. -/
theorem Content.getElem? (h : Content client (.print k) memory printed) (hgone : ∃ i, client i = .gone) :
    memory[k]? = hello[k]? := by
  obtain ⟨i, hi⟩ := hgone
  have hwritten := h.written i
  rw [hi] at hwritten
  exact hwritten k (Nat.lt_of_le_of_lt h.read_le (by decide))

end Content

omit [DecidableEq ι] in
theorem good_start : (start : State ι).Good where
  size := List.length_replicate
  written _ _ hj := absurd hj (Nat.not_lt_zero _)
  le h := nomatch h
  read_le := Nat.zero_le _
  printed := rfl

omit [DecidableEq ι] in
theorem inv_start : Inv (start : State ι) := ⟨locks_start, good_start⟩

theorem Inv.good_step (h : Inv s) (hm : Moves s t) : t.Good := by
  have hg : Content s.client s.server s.memory s.printed := h.good
  have hnil : Holds 0 s.memory := fun j hj => absurd hj (Nat.not_lt_zero j)
  cases hm with
  | attach hc _ => exact hg.set hnil fun k e => nomatch e
  | @enter i ok v hc _ _ | @enterRemoved i ok hc _ =>
    refine hg.set ?_ fun k e => ?_
    · cases ok with
      | false => exact hnil
      | true => exact hnil
    · cases e
      exact Nat.zero_le _
  | crash hc => exact hg.set hnil fun k e => nomatch e
  | @put i k b hc hb =>
    have hk := hg.written i
    rw [hc] at hk
    obtain ⟨hlt, -⟩ := List.getElem?_eq_some_iff.1 hb
    refine (hg.put hb).set (hk.succ hb ?_) fun k' e => ?_
    · rw [hg.size]
      exact hlt.trans (by decide)
    · cases e
      exact hlt
  | @written i k hc hk =>
    have hw := hg.written i
    rw [hc] at hw
    exact hg.set (fun j hj => hw j (Nat.lt_of_lt_of_le hj hk)) fun k e => nomatch e
  | @leave i v hc _ _ | @leaveRemoved i hc _ =>
    have hw := hg.written i
    rw [hc] at hw
    exact hg.set hw fun k e => nomatch e
  | take hc _ _ | takeRemoved hc _ =>
    have hp := hg.printed
    rw [hc] at hp
    exact ⟨hg.size, hg.written, hg.le, Nat.zero_le _, hp⟩
  | @print k b hc hb h0 =>
    have hp := hg.printed
    have hle := hg.read_le
    rw [hc] at hg hp hle
    have hk : hello[k]? = some b := (hg.getElem? (h.locks.through (.inl (by simp [hc])))).symm.trans hb
    have hne : k ≠ 5 := fun e => h0 ((eq_zero_iff hle hk).2 e)
    refine ⟨hg.size, hg.written, hg.le, Nat.lt_of_le_of_ne hle hne, ?_⟩
    show s.printed ++ [b] = hello.take (k + 1)
    rw [List.take_add_one, hk, hp]
    rfl
  | @printed k hc hb =>
    have hp := hg.printed
    have hle := hg.read_le
    rw [hc] at hg hp hle
    have hk : hello[k]? = some 0 := (hg.getElem? (h.locks.through (.inl (by simp [hc])))).symm.trans hb
    have he : k = 5 := (eq_zero_iff hle hk).1 rfl
    subst he
    exact ⟨hg.size, hg.written, hg.le, le_rfl, hp⟩
  | free hc _ _ | freeAgain hc _ _ | freeRemoved hc _ | removeSems hc | removeShm hc =>
    have hp := hg.printed
    rw [hc] at hp
    exact ⟨hg.size, hg.written, hg.le, le_rfl, hp⟩

theorem Inv.next (h : Inv s) (hst : step s a = some t) : Inv t :=
  ⟨h.locks.step (step_cases hst), h.good_step (step_cases hst)⟩

theorem inv_reaches (h : Reaches step start s) : Inv s := h.inv Inv inv_start fun _ _ _ hs hst => hs.next hst

/-! ### Every run ends -/

/-- What a client has still to do. -/
def Client.work : Client → ℕ
  | .shmat => 10
  | .enter _ => 9
  | .write true k => 8 - k
  | .write false _ | .leave => 1
  | .gone | .crashed => 0

/-- What the server has still to do. -/
def Server.work : Server → ℕ
  | .take => 20
  | .print k => 10 - k
  | .free => 3
  | .removeSems => 2
  | .removeShm => 1
  | .gone => 0

def work [Fintype ι] (s : State ι) : ℕ := ∑ i, (s.client i).work + s.server.work

theorem sum_work_lt [Fintype ι] {client : ι → Client} {c : Client} (h : c.work < (client i).work) :
    ∑ j, (Function.update client i c j).work < ∑ j, (client j).work := by
  refine Finset.sum_lt_sum (fun j _ => ?_) ⟨i, Finset.mem_univ i, by rwa [Function.update_self]⟩
  by_cases hj : j = i
  · rw [hj, Function.update_self]
    exact le_of_lt h
  · rw [Function.update_of_ne hj]

theorem work_lt [Fintype ι] (h : Inv s) (hst : step s a = some t) : work t < work s := by
  have hm := step_cases hst
  cases hm with
  | @attach i ok hc _ =>
    exact Nat.add_lt_add_right (sum_work_lt (by rw [hc]; exact Nat.lt_succ_self 9)) _
  | @enter i ok v hc _ _ | @enterRemoved i ok hc _ =>
    refine Nat.add_lt_add_right (sum_work_lt ?_) _
    rw [hc]
    cases ok <;> decide
  | crash hc => exact Nat.add_lt_add_right (sum_work_lt (by rw [hc]; exact Nat.one_pos)) _
  | @put i k b hc hb =>
    obtain ⟨hlt, -⟩ := List.getElem?_eq_some_iff.1 hb
    replace hlt : k < 6 := hlt
    refine Nat.add_lt_add_right (sum_work_lt ?_) _
    rw [hc]
    show 8 - (k + 1) < 8 - k
    omega
  | @written i k hc hk =>
    have hle : k ≤ 6 := h.good.le hc
    refine Nat.add_lt_add_right (sum_work_lt ?_) _
    rw [hc]
    show 1 < 8 - k
    omega
  | leave hc _ _ | leaveRemoved hc _ => exact Nat.add_lt_add_right (sum_work_lt (by rw [hc]; decide)) _
  | take hc _ _ | takeRemoved hc _ | free hc _ _ | freeAgain hc _ _ | freeRemoved hc _ | removeSems hc | removeShm hc =>
    refine Nat.add_lt_add_left ?_ _
    simp [Server.work, hc]
  | @print k b hc _ _ =>
    have hle := h.good.read_le
    rw [hc] at hle
    replace hle : k ≤ 5 := hle
    refine Nat.add_lt_add_left ?_ _
    rw [hc]
    show 10 - (k + 1) < 10 - k
    omega
  | @printed k hc _ =>
    have hle := h.good.read_le
    rw [hc] at hle
    replace hle : k ≤ 5 := hle
    refine Nat.add_lt_add_left ?_ _
    rw [hc]
    show 3 < 10 - k
    omega

theorem progressing [Fintype ι] : Progressing step (Inv (ι := ι)) work :=
  ⟨fun _ _ _ hs hst => hs.next hst, fun _ _ _ hs hst => work_lt hs hst⟩

/-- Clients can be stopped by their first `semop` only. -/
theorem Inv.client_ended (h : Inv s) (hend : Ended step s) (i : ι) :
    s.client i = .gone ∨ s.client i = .crashed ∨
      ∃ ok v, s.client i = .enter ok ∧ s.sems = some v ∧ v 0 ≠ 0 := by
  cases hc : s.client i with
  | shmat =>
    have hi := hend (.client i true)
    rw [step, hc] at hi
    dsimp only at hi
    rw [if_neg (fun e => nomatch e.1)] at hi
    cases hi
  | enter ok =>
    have hi := hend (.client i true)
    rw [step, hc] at hi
    replace hi := Option.map_eq_none_iff.1 hi
    cases hs : s.sems with
    | none =>
      rw [State.semop, hs] at hi
      cases hi
    | some v =>
      refine .inr (.inr ⟨ok, v, rfl, rfl, fun h0 => ?_⟩)
      rw [State.semop, hs] at hi
      dsimp only at hi
      rw [semop_enterOps, if_pos h0] at hi
      cases hi
  | write ok k =>
    have hi := hend (.client i true)
    rw [step, hc] at hi
    cases ok with
    | false => cases hi
    | true =>
      dsimp only at hi
      split at hi <;> cases hi
  | leave =>
    have hi := hend (.client i true)
    rw [step, hc] at hi
    replace hi := Option.map_eq_none_iff.1 hi
    cases hs : s.sems with
    | none =>
      rw [State.semop, hs] at hi
      cases hi
    | some v =>
      obtain ⟨hv, -⟩ := (h.locks.lock hs).leave (c := .gone) (i := i) (by rw [hc]; rfl) rfl
      rw [State.semop, hs] at hi
      dsimp only at hi
      rw [semop_leaveOps, if_pos (by omega)] at hi
      cases hi
  | gone => exact .inl rfl
  | crashed => exact .inr (.inl rfl)

/-- The server can be stopped by its first `semop` only. -/
theorem Inv.server_ended (h : Inv s) (hend : Ended step s) :
    s.server = .gone ∨ s.server = .take ∧ ∃ v, s.sems = some v ∧ v 1 = 0 := by
  have hi := hend .server
  rw [step] at hi
  cases hc : s.server with
  | take =>
    refine .inr ⟨rfl, ?_⟩
    rw [hc] at hi
    replace hi := Option.map_eq_none_iff.1 hi
    cases hs : s.sems with
    | none => rcases h.locks.removed.1 hs with he | he <;> rw [hc] at he <;> cases he
    | some v =>
      refine ⟨v, rfl, by_contra fun h1 => ?_⟩
      rw [State.semop, hs] at hi
      dsimp only at hi
      rw [semop_takeOps, if_pos (Nat.pos_of_ne_zero h1)] at hi
      cases hi
  | print k =>
    have hg : Content s.client s.server s.memory s.printed := h.good
    have hle := hg.read_le
    rw [hc] at hi hg hle
    have hk := hg.getElem? (h.locks.through (.inl (by simp [hc])))
    obtain ⟨b, hb⟩ : ∃ b, hello[k]? = some b := ⟨_, List.getElem?_eq_getElem (Nat.lt_succ_of_le hle)⟩
    rw [hb] at hk
    dsimp only at hi
    rw [hk] at hi
    dsimp only at hi
    split at hi <;> cases hi
  | free =>
    rw [hc] at hi
    replace hi := Option.map_eq_none_iff.1 hi
    cases hs : s.sems with
    | none =>
      rw [State.semop, hs] at hi
      cases hi
    | some v =>
      rw [State.semop, hs] at hi
      dsimp only at hi
      rw [semop_freeOps] at hi
      split at hi
      · next hv => split at hv <;> cases hi
      · cases hi
      · next hv => split at hv <;> cases hv
  | removeSems =>
    rw [hc] at hi
    cases hi
  | removeShm =>
    rw [hc] at hi
    cases hi
  | gone => exact .inl rfl

theorem Inv.ended [Nonempty ι] (h : Inv s) (hend : Ended step s) :
    s.server = .gone ∧ ∀ i, s.client i = .gone ∨ s.client i = .crashed := by
  rcases h.server_ended hend with hgone | ⟨htake, v, hs, h1⟩
  · have hsems : s.sems = none := h.locks.removed.2 (.inr hgone)
    refine ⟨hgone, fun i => ?_⟩
    rcases h.client_ended hend i with hi | hi | ⟨ok, v, -, hv, -⟩
    · exact .inl hi
    · exact .inr hi
    · rw [hsems] at hv
      cases hv
  · exfalso
    -- nobody is inside, so that nobody waits either
    have hlock := h.locks.lock hs
    rw [htake] at hlock
    have h0 : v 0 = 0 := hlock.free_iff.2 ⟨rfl, fun i => by
      rcases h.client_ended hend i with hi | hi | ⟨ok, -, hi, -, -⟩ <;> rw [hi] <;> rfl⟩
    obtain ⟨i⟩ := ‹Nonempty ι›
    rcases h.client_ended hend i with hi | hi | ⟨ok, v', -, hv', hne⟩
    · obtain ⟨v', hv', hpos⟩ := h.locks.counted htake ⟨i, hi⟩
      rw [hs] at hv'
      cases hv'
      omega
    · have he := h.locks.failed (i := i) (by rw [hi]; rfl)
      rw [htake] at he
      cases he
    · rw [hs] at hv'
      cases hv'
      exact hne h0

/-- **The server prints the word** in every run, whoever writes while it reads, and everybody comes to an end. -/
theorem hello_printed [Fintype ι] [Nonempty ι] : AlwaysEnds step (start : State ι) fun s =>
    s.server = .gone ∧ s.printed = (lit "hello").bytes ∧ ∀ i, s.client i = .gone ∨ s.client i = .crashed :=
  progressing.alwaysEnds inv_start fun s h hend => by
    obtain ⟨hgone, hall⟩ := h.ended hend
    have hp := h.good.printed
    rw [hgone] at hp
    exact ⟨hgone, hp, hall⟩

/-- Two clients. -/
theorem hello_printed_two : AlwaysEnds step (start : State Bool) fun s =>
    s.server = .gone ∧ s.printed = (lit "hello").bytes ∧ ∀ i, s.client i = .gone ∨ s.client i = .crashed :=
  hello_printed

/-! ### Who is inside with whom -/

/-- **Clients exclude each other** until the server removes the semaphores. -/
theorem exclusive (h : Reaches step start s) (hs : s.sems ≠ none) (hi : (s.client i).inside = true)
    (hj : (s.client j).inside = true) : i = j := by
  obtain ⟨v, hv⟩ := Option.ne_none_iff_exists'.1 hs
  exact ((inv_reaches h).locks.lock hv).alone hi hj

/-- A client enters and is then let alone, and the other one waits. -/
theorem exclusive_two : ∃ s : State Bool, Reaches step start s ∧ (s.client true).inside = true ∧
    (s.client false).inside = false := by
  have hreach : ∃ s : State Bool, Reaches step start s ∧ s.sems ≠ none ∧ (s.client true).inside = true :=
    ⟨_, ⟨2, .client true true, _, rfl, .client true true, _, rfl, rfl⟩, Option.some_ne_none _, rfl⟩
  obtain ⟨s, hs, hsems, htrue⟩ := hreach
  refine ⟨s, hs, htrue, ?_⟩
  by_contra hfalse
  have he := exclusive hs hsems htrue (Bool.eq_true_of_not_eq_false hfalse)
  cases he

theorem State.set_client {c : Client} : (s.set i c).client i = c := Function.update_self _ _ _

/-- A client gets inside. -/
theorem reaches_inside (hc : s.client i = .shmat) (hs : s.sems = some v) (h0 : v 0 = 0) :
    ∃ t v', Reaches step s t ∧ t.client = Function.update s.client i (.write true 0) ∧ t.server = s.server ∧
      t.sems = some v' ∧ v' 0 = 1 ∧ v' 1 = v 1 := by
  have hattach : step s (.client i true) = some (s.set i (.enter true)) := by
    rw [step, hc]
    exact if_neg fun e => nomatch e.1
  have henter : step (s.set i (.enter true)) (.client i true) =
      some ({ s.set i (.enter true) with sems := some (Function.update v 0 (v 0 + 1)) }.set i (.write true 0)) := by
    have hs' : (s.set i (.enter true)).sems = some v := hs
    rw [step, State.set_client]
    dsimp only
    rw [State.semop, hs']
    dsimp only
    rw [semop_enterOps, if_pos h0]
    rfl
  refine ⟨_, _, (Reaches.single hattach).trans (.single henter), Function.update_idem .., rfl, rfl, ?_, ?_⟩
  · rw [Function.update_self, h0]
  · rw [Function.update_of_ne (by decide)]

/-- It writes the word. -/
theorem reaches_written (hc : s.client i = .write true k) :
    ∃ t, Reaches step s t ∧ t.client = Function.update s.client i .leave ∧ t.server = s.server ∧ t.sems = s.sems := by
  induction hn : hello.length - k generalizing s k with
  | zero =>
    refine ⟨s.set i .leave, .single (a := .client i true) ?_, rfl, rfl, rfl⟩
    rw [step, hc]
    dsimp only
    rw [List.getElem?_eq_none (by omega)]
  | succ n ih =>
    obtain ⟨b, hb⟩ : ∃ b, hello[k]? = some b := ⟨_, List.getElem?_eq_getElem (by omega)⟩
    have hput : step s (.client i true) =
        some ({ s with memory := s.memory.set k b }.set i (.write true (k + 1))) := by
      rw [step, hc]
      dsimp only
      rw [hb]
    have hnext : ({ s with memory := s.memory.set k b }.set i (.write true (k + 1))).client i = .write true (k + 1) :=
      State.set_client
    obtain ⟨t, ht, hclient, hserver, hsems⟩ := ih hnext (by omega)
    refine ⟨t, (Reaches.single hput).trans ht, ?_, hserver, hsems⟩
    rw [hclient]
    exact Function.update_idem ..

/-- It is through. -/
theorem reaches_through (hc : s.client i = .shmat) (hs : s.sems = some v) (h0 : v 0 = 0) :
    ∃ t v', Reaches step s t ∧ t.client = Function.update s.client i .gone ∧ t.server = s.server ∧
      t.sems = some v' ∧ v' 0 = 0 ∧ v' 1 = v 1 + 1 := by
  obtain ⟨t, v₁, ht, htclient, htserver, htsems, hv0, hv1⟩ := reaches_inside hc hs h0
  obtain ⟨u, hu, huclient, huserver, husems⟩ := reaches_written (s := t) (i := i) (k := 0)
    (by rw [htclient, Function.update_self])
  rw [htclient, Function.update_idem] at huclient
  have hleave : step u (.client i true) =
      some ({ u with sems := some (Function.update (Function.update v₁ 0 (v₁ 0 - 1)) 1 (v₁ 1 + 1)) }.set i .gone) := by
    have hui : u.client i = .leave := by rw [huclient, Function.update_self]
    rw [step, hui]
    dsimp only
    rw [State.semop, husems, htsems]
    dsimp only
    rw [semop_leaveOps, if_pos (by omega)]
    rfl
  refine ⟨_, _, (ht.trans hu).trans (.single hleave), ?_, huserver.trans htserver, rfl, ?_, ?_⟩
  · show Function.update u.client i .gone = _
    rw [huclient, Function.update_idem]
  · rw [Function.update_of_ne (by decide), Function.update_self]
    omega
  · rw [Function.update_self, hv1]

/-- **The server has the segment to itself** if and only if there are not two clients: the next one can be there before
it. -/
theorem server_alone_iff :
    (∀ s : State ι, Reaches step start s → s.server.inside = true → ∀ i, (s.client i).inside = false) ↔
      Subsingleton ι := by
  constructor
  · intro h
    refine ⟨fun i j => by_contra fun hij => ?_⟩
    obtain ⟨s, v, hs, hsclient, hsserver, hssems, hv0, hv1⟩ := reaches_through (s := start) (i := i) rfl rfl rfl
    obtain ⟨t, w, ht, htclient, htserver, htsems, hw0, hw1⟩ := reaches_inside (i := j)
      (by rw [hsclient, Function.update_of_ne (Ne.symm hij)]; rfl) hssems hv0
    have htake : step t .server = some { t with
        sems := some (Function.update (Function.update w 1 (w 1 - 1)) 0 (w 0 + 1)), server := .print 0 } := by
      rw [step, htserver.trans hsserver]
      dsimp only [start]
      rw [State.semop, htsems]
      dsimp only
      rw [semop_takeOps, if_pos (by omega)]
      rfl
    have hj := h _ ((hs.trans ht).trans (.single htake)) rfl j
    rw [show State.client _ = t.client from rfl, htclient, Function.update_self] at hj
    cases hj
  · intro hsub s hs hserver i
    have hinv := inv_reaches hs
    obtain ⟨j, hj⟩ := hinv.locks.through (.inl fun e => by rw [e] at hserver; cases hserver)
    rw [Subsingleton.elim i j, hj]
    rfl

end NetProg.SharedMemory
