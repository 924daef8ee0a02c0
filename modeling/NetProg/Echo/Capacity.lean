import Mathlib.Algebra.Order.BigOperators.Group.Finset
import Mathlib.Data.Fintype.BigOperators
import NetProg.Lib.CString
import NetProg.Lib.Confluence

/-!
# The echo server and its clients

Each client sends the whole of its word before it reads anything, and the server serves them one after the other, in any
order.  A connection can hold `C₁` bytes on their way to the server and `C₂` bytes on their way back; `send` waits for
room, and `recv` returns some of the bytes that have come.

* `Conn.Ok`: where the bytes of a word are;
* `echoed_iff`: in every run all words come back if and only if none is longer than `C₁ + C₂ + 1`, and a longer one can
  come to a deadlock;
* `can_echo_iff`: in some run they do if and only if none is longer than `C₁ + C₂` and a buffer of the server, and the
  client of a longer one gets stuck in every run.
-/

namespace NetProg.Echo

open NetProg.Lib

/-- The size of `echoBuffer`, in both programs. -/
def RCVBUFSIZE : ℕ := 32

/-- The next call of a client. -/
inductive Client where
  /-- `send`, with what it has still to take -/
  | send (left : List Byte)
  /-- the loop, with `totalBytesRcvd` -/
  | recv (total : ℕ)
  | gone
  /-- after `DieWithError` -/
  | died
  deriving DecidableEq

/-- A client, the bytes on their way to the server and back, and what the client has printed. -/
structure Conn where
  client : Client
  there : List Byte
  back : List Byte
  out : List Byte
  accepted : Bool

/-- The next call of the server. -/
inductive Server (ι : Type) where
  | accept
  /-- `send`, with what it has still to take, and `recv` where this is nothing -/
  | serve (i : ι) (left : List Byte)

structure State (ι : Type) where
  server : Server ι
  conn : ι → Conn

/-- Who takes a step; `recv` returns `n` bytes. -/
inductive Act (ι : Type) where
  | client (i : ι) (n : ℕ)
  | accept (i : ι)
  | server (n : ℕ)

/-- A client that has not sent anything. -/
def Conn.fresh (w : List Byte) : Conn := ⟨.send w, [], [], [], false⟩

/-- The socket has been closed by the client. -/
def Conn.closed (c : Conn) : Prop := c.client = .gone ∨ c.client = .died

instance (c : Conn) : Decidable c.closed := inferInstanceAs (Decidable (_ ∨ _))

/-- What a client prints before the word and behind it. -/
def received : List Byte := (lit "Received: ").bytes

def ending : List Byte := (lit "\n").bytes

section Model

variable {ι : Type} [DecidableEq ι]

/-- What the server has still to send to the client `i`, if it is the one that is served. -/
def State.held (s : State ι) (i : ι) : Option (List Byte) :=
  match s.server with
  | .accept => none
  | .serve j left => if j = i then some left else none

/-- The connection that a step is about. -/
def Act.conn (s : State ι) : Act ι → Option ι
  | .client i _ | .accept i => some i
  | .server _ =>
    match s.server with
    | .accept => none
    | .serve i _ => some i

def State.set (s : State ι) (i : ι) (c : Conn) : State ι := { s with conn := Function.update s.conn i c }

def start (word : ι → CStr) : State ι := ⟨.accept, fun i => .fresh (word i).bytes⟩

/-- The client of the word `w`; it is at the end of what comes when the server has closed the socket. -/
def Conn.step (C₁ : ℕ) (w : List Byte) (served : Prop) [Decidable served] (n : ℕ) (c : Conn) : Option Conn :=
  match c.client with
  | .send (b :: left) =>
    if c.there.length < C₁ then some { c with client := .send left, there := c.there ++ [b] } else none
  | .send [] => some { c with client := .recv 0, out := received }
  | .recv total =>
    if total < w.length then
      if n = 0 then
        if c.back = [] ∧ c.accepted = true ∧ ¬ served then some { c with client := .died } else none
      else if n < RCVBUFSIZE ∧ n ≤ c.back.length then
        some { c with client := .recv (total + n), back := c.back.drop n, out := c.out ++ c.back.take n }
      else none
    else some { c with client := .gone, out := c.out ++ ending }
  | .gone | .died => none

def step (C₁ C₂ : ℕ) (word : ι → CStr) (s : State ι) : Act ι → Option (State ι)
  | .client i n => ((s.conn i).step C₁ (word i).bytes (s.held i ≠ none) n).map (s.set i)
  | .accept i =>
    match s.server with
    | .accept =>
      if (s.conn i).accepted then none
      else some ⟨.serve i [], Function.update s.conn i { s.conn i with accepted := true }⟩
    | .serve _ _ => none
  | .server n =>
    match s.server with
    | .accept => none
    | .serve i (b :: left) =>
      if (s.conn i).back.length < C₂ then
        some ⟨.serve i left, Function.update s.conn i { s.conn i with back := (s.conn i).back ++ [b] }⟩
      else none
    | .serve i [] =>
      if n = 0 then
        if (s.conn i).there = [] ∧ (s.conn i).closed then some ⟨.accept, s.conn⟩ else none
      else if n ≤ RCVBUFSIZE ∧ n ≤ (s.conn i).there.length then
        some ⟨.serve i ((s.conn i).there.take n),
          Function.update s.conn i { s.conn i with there := (s.conn i).there.drop n }⟩
      else none

end Model

/-! ### What a step does to a connection -/

/-- One step of the client or of the server, `l` being what the server holds for the client. -/
inductive Moves (C₁ C₂ : ℕ) (w : List Byte) : Option (List Byte) → Conn → Option (List Byte) → Conn → Prop
  | put {l c b left} : c.client = .send (b :: left) → c.there.length < C₁ →
      Moves C₁ C₂ w l c l { c with client := .send left, there := c.there ++ [b] }
  | turn {l c} : c.client = .send [] → Moves C₁ C₂ w l c l { c with client := .recv 0, out := received }
  | get {l c total n} : c.client = .recv total → total < w.length → 0 < n → n ≤ c.back.length →
      Moves C₁ C₂ w l c l
        { c with client := .recv (total + n), back := c.back.drop n, out := c.out ++ c.back.take n }
  | leave {l c total} : c.client = .recv total → w.length ≤ total →
      Moves C₁ C₂ w l c l { c with client := .gone, out := c.out ++ ending }
  | die {c total} : c.client = .recv total → c.accepted = true →
      Moves C₁ C₂ w none c none { c with client := .died }
  | accept {c} : c.accepted = false → Moves C₁ C₂ w none c (some []) { c with accepted := true }
  | send {c b left} : c.back.length < C₂ →
      Moves C₁ C₂ w (some (b :: left)) c (some left) { c with back := c.back ++ [b] }
  | recv {c n} : 0 < n → n ≤ RCVBUFSIZE → n ≤ c.there.length →
      Moves C₁ C₂ w (some []) c (some (c.there.take n)) { c with there := c.there.drop n }
  | close {c} : c.there = [] → c.closed → Moves C₁ C₂ w (some []) c none c

variable {C₁ C₂ : ℕ} {ι : Type} [DecidableEq ι] {word : ι → CStr} {s t : State ι} {i j : ι} {c c' : Conn} {a : Act ι}
  {w left : List Byte} {l l' : Option (List Byte)} {n : ℕ}

theorem Conn.step_cases {served : Prop} [Decidable served] (h : c.step C₁ w served n = some c')
    (hl : ¬ served → l = none) : Moves C₁ C₂ w l c l c' := by
  unfold Conn.step at h
  split at h
  · next b left hc =>
    split at h
    · next hlt =>
      cases h
      exact .put hc hlt
    · cases h
  · next hc =>
    cases h
    exact .turn hc
  · next total hc =>
    split at h
    · next htotal =>
      split at h
      · split at h
        · next hdie =>
          cases h
          rw [hl hdie.2.2]
          exact .die hc hdie.2.1
        · cases h
      · next hn =>
        split at h
        · next hle =>
          cases h
          exact .get hc htotal (by omega) hle.2
        · cases h
    · next htotal =>
      cases h
      exact .leave hc (by omega)
  · cases h
  · cases h

theorem held_serve {conn : ι → Conn} : (State.mk (.serve i left) conn).held i = some left := if_pos rfl

theorem held_serve_of_ne {conn : ι → Conn} (h : j ≠ i) : (State.mk (.serve i left) conn).held j = none :=
  if_neg (Ne.symm h)

theorem held_of_accept (h : s.server = .accept) : s.held i = none := by rw [State.held, h]

theorem held_of_serve (h : s.server = .serve i left) : s.held i = some left := by
  rw [State.held, h]
  exact if_pos rfl

theorem held_of_serve_of_ne (h : s.server = .serve i left) (hj : j ≠ i) : s.held j = none := by
  rw [State.held, h]
  exact if_neg (Ne.symm hj)

/-- **A step** moves one connection. -/
theorem step_cases (h : step C₁ C₂ word s a = some t) :
    ∃ i, a.conn s = some i ∧ Moves C₁ C₂ (word i).bytes (s.held i) (s.conn i) (t.held i) (t.conn i) ∧
      ∀ j ≠ i, t.held j = s.held j ∧ t.conn j = s.conn j := by
  cases a with
  | client i n =>
    obtain ⟨c, hc, rfl⟩ := Option.map_eq_some_iff.1 h
    refine ⟨i, rfl, ?_, fun j hj => ⟨rfl, Function.update_of_ne hj _ _⟩⟩
    simp only [State.set, Function.update_self]
    exact Conn.step_cases hc not_not.1
  | accept i =>
    rw [step] at h
    split at h
    · next hs =>
      split at h
      · cases h
      · next hacc =>
        cases h
        refine ⟨i, rfl, ?_, fun j hj => ⟨?_, Function.update_of_ne hj _ _⟩⟩
        · simp only [held_of_accept hs, held_serve, Function.update_self]
          exact .accept (Bool.eq_false_iff.2 hacc)
        · rw [held_of_accept hs, held_serve_of_ne hj]
    · cases h
  | server n =>
    rw [step] at h
    split at h
    · cases h
    · next i b left hs =>
      split at h
      · next hlt =>
        cases h
        refine ⟨i, by rw [Act.conn, hs], ?_, fun j hj => ⟨?_, Function.update_of_ne hj _ _⟩⟩
        · simp only [held_of_serve hs, held_serve, Function.update_self]
          exact .send hlt
        · rw [held_of_serve_of_ne hs hj, held_serve_of_ne hj]
      · cases h
    · next i hs =>
      split at h
      · split at h
        · next hclosed =>
          cases h
          refine ⟨i, by rw [Act.conn, hs], ?_, fun j hj => ⟨?_, rfl⟩⟩
          · rw [held_of_serve hs, held_of_accept rfl]
            exact .close hclosed.1 hclosed.2
          · rw [held_of_serve_of_ne hs hj, held_of_accept rfl]
        · cases h
      · next hn =>
        split at h
        · next hle =>
          cases h
          refine ⟨i, by rw [Act.conn, hs], ?_, fun j hj => ⟨?_, Function.update_of_ne hj _ _⟩⟩
          · simp only [held_of_serve hs, held_serve, Function.update_self]
            exact .recv (by omega) hle.1 hle.2
          · rw [held_of_serve_of_ne hs hj, held_serve_of_ne hj]
        · cases h

/-! ### Where the bytes of a word are -/

/-- The bytes of the word, of which the server holds `m`. -/
def Conn.Flow (w m : List Byte) (c : Conn) : Prop :=
  match c.client with
  | .send left => c.out = [] ∧ w = c.back ++ m ++ c.there ++ left
  | .recv total => ∃ got, c.out = received ++ got ∧ got.length = total ∧ w = got ++ c.back ++ m ++ c.there
  | .gone => c.out = received ++ w ++ ending ∧ c.back = [] ∧ m = [] ∧ c.there = []
  | .died => False

structure Conn.Ok (C₁ C₂ : ℕ) (w : List Byte) (l : Option (List Byte)) (c : Conn) : Prop where
  flow : c.Flow w (l.getD [])
  there_le : c.there.length ≤ C₁
  back_le : c.back.length ≤ C₂
  held_le : (l.getD []).length ≤ min RCVBUFSIZE C₁
  closed : c.accepted = true → l = none → c.client = .gone
  /-- a client that has sent its word has found room for it -/
  room : (∀ left, c.client ≠ .send left) → w.length ≤ C₁ + C₂ + min RCVBUFSIZE C₁

/-- What is still to be done for a connection. -/
def Conn.work (l : Option (List Byte)) (c : Conn) : ℕ :=
  (match c.client with
    | .send left => 5 * left.length + 2
    | .recv _ => 1
    | .gone | .died => 0) +
  4 * c.there.length + c.back.length + (l.map fun m => 2 * m.length + 1).getD 0 + if c.accepted then 0 else 2

theorem Conn.Ok.flow_send (h : c.Ok C₁ C₂ w l) (hc : c.client = .send left) :
    c.out = [] ∧ w = c.back ++ l.getD [] ++ c.there ++ left := by
  have hflow := h.flow
  rwa [Conn.Flow, hc] at hflow

theorem Conn.Ok.flow_recv (h : c.Ok C₁ C₂ w l) {total : ℕ} (hc : c.client = .recv total) :
    ∃ got, c.out = received ++ got ∧ got.length = total ∧ w = got ++ c.back ++ l.getD [] ++ c.there := by
  have hflow := h.flow
  rwa [Conn.Flow, hc] at hflow

theorem Conn.Ok.flow_gone (h : c.Ok C₁ C₂ w l) (hc : c.client = .gone) :
    c.out = received ++ w ++ ending ∧ c.back = [] ∧ l.getD [] = [] ∧ c.there = [] := by
  have hflow := h.flow
  rwa [Conn.Flow, hc] at hflow

theorem Conn.Ok.ne_died (h : c.Ok C₁ C₂ w l) : c.client ≠ .died := by
  intro hc
  have hflow := h.flow
  rwa [Conn.Flow, hc] at hflow

theorem Conn.Ok.fresh : (Conn.fresh w).Ok C₁ C₂ w none where
  flow := ⟨rfl, rfl⟩
  there_le := Nat.zero_le _
  back_le := Nat.zero_le _
  held_le := Nat.zero_le _
  closed h := nomatch h
  room h := absurd rfl (h w)

/-- **The bytes stay in order**, and what is held fits. -/
theorem Conn.Ok.moves (h : c.Ok C₁ C₂ w l) (hm : Moves C₁ C₂ w l c l' c') : c'.Ok C₁ C₂ w l' := by
  cases hm with
  | @put _ _ b left hc hlt =>
    obtain ⟨hout, hw⟩ := h.flow_send hc
    refine ⟨⟨hout, by simp [hw]⟩, ?_, h.back_le, h.held_le, ?_, fun hno => absurd rfl (hno left)⟩
    · rw [List.length_append, List.length_singleton]
      omega
    · intro hacc hnone
      rw [h.closed hacc hnone] at hc
      cases hc
  | turn hc =>
    obtain ⟨-, hw⟩ := h.flow_send hc
    refine ⟨⟨[], by simp, rfl, by simpa using hw⟩, h.there_le, h.back_le, h.held_le, ?_, fun _ => ?_⟩
    · intro hacc hnone
      rw [h.closed hacc hnone] at hc
      cases hc
    · have hlen := congrArg List.length hw
      simp only [List.length_append, List.length_nil] at hlen
      have := h.there_le
      have := h.back_le
      have := h.held_le
      omega
  | @get _ _ total n hc _ _ hn =>
    obtain ⟨got, hout, hlen, hw⟩ := h.flow_recv hc
    refine ⟨⟨got ++ c.back.take n, by simp [hout], ?_, ?_⟩, h.there_le, ?_, h.held_le, ?_, fun _ => ?_⟩
    · rw [List.length_append, List.length_take, hlen]
      omega
    · rw [← List.take_append_drop n c.back] at hw
      simpa only [List.append_assoc] using hw
    · rw [List.length_drop]
      have := h.back_le
      omega
    · intro hacc hnone
      rw [h.closed hacc hnone] at hc
      cases hc
    · exact h.room fun left hl => by
        rw [hl] at hc
        cases hc
  | @leave _ _ total hc hle =>
    obtain ⟨got, hout, hlen, hw⟩ := h.flow_recv hc
    have hwlen := congrArg List.length hw
    simp only [List.length_append] at hwlen
    have hback : c.back = [] := List.length_eq_zero_iff.1 (by omega)
    have hheld : l.getD [] = [] := List.length_eq_zero_iff.1 (by omega)
    have hthere : c.there = [] := List.length_eq_zero_iff.1 (by omega)
    rw [hback, hheld, hthere, List.append_nil, List.append_nil, List.append_nil] at hw
    refine ⟨⟨by simp [hout, hw], hback, hheld, hthere⟩, h.there_le, h.back_le, h.held_le, fun _ _ => rfl, fun _ => ?_⟩
    exact h.room fun left hl => by
      rw [hl] at hc
      cases hc
  | die hc hacc =>
    rw [h.closed hacc rfl] at hc
    cases hc
  | accept _ => exact ⟨h.flow, h.there_le, h.back_le, h.held_le, fun _ hl => (nomatch hl), h.room⟩
  | @send _ b left hlt =>
    have hheld := h.held_le
    simp only [Option.getD_some, List.length_cons] at hheld
    refine ⟨?_, h.there_le, ?_, (show left.length ≤ _ by omega), fun _ hl => (nomatch hl), h.room⟩
    · have hflow := h.flow
      unfold Conn.Flow at hflow ⊢
      simp only [Option.getD_some] at hflow ⊢
      split at hflow
      · next hc => exact ⟨hflow.1, by simp [hflow.2]⟩
      · next hc =>
        obtain ⟨got, hout, hlen, hw⟩ := hflow
        exact ⟨got, hout, hlen, by simp [hw]⟩
      · next hc => cases hflow.2.2.1
      · exact hflow
    · rw [List.length_append, List.length_singleton]
      omega
  | @recv _ n h0 h32 hn =>
    have hthere := h.there_le
    refine ⟨?_, ?_, h.back_le, ?_, fun _ hl => (nomatch hl), h.room⟩
    · have hflow := h.flow
      unfold Conn.Flow at hflow ⊢
      simp only [Option.getD_some, List.append_nil] at hflow ⊢
      rw [← List.take_append_drop n c.there] at hflow
      split at hflow
      · next hc => exact ⟨hflow.1, by simpa only [List.append_assoc] using hflow.2⟩
      · next hc =>
        obtain ⟨got, hout, hlen, hw⟩ := hflow
        exact ⟨got, hout, hlen, by simpa only [List.append_assoc] using hw⟩
      · next hc =>
        rw [List.take_append_drop] at hflow
        rw [hflow.2.2.2, List.length_nil] at hn
        omega
      · exact hflow
    · rw [List.length_drop]
      omega
    · rw [Option.getD_some, List.length_take]
      omega
  | close _ hclosed =>
    exact ⟨h.flow, h.there_le, h.back_le, h.held_le, fun _ _ => hclosed.resolve_right h.ne_died, h.room⟩

theorem Moves.work_lt (h : Moves C₁ C₂ w l c l' c') : c'.work l' < c.work l := by
  cases h with
  | put hc _ | turn hc | get hc _ _ _ | leave hc _ | die hc _ =>
    simp only [Conn.work, hc, List.length_append, List.length_cons, List.length_nil, List.length_drop]
    omega
  | accept hacc => simp [Conn.work, hacc]
  | send _ | recv _ _ _ | close _ _ =>
    simp only [Conn.work, Option.map_some, Option.map_none, Option.getD_some, Option.getD_none, List.length_append,
      List.length_cons, List.length_nil, List.length_drop, List.length_take]
    omega

/-! ### Runs -/

def Inv (C₁ C₂ : ℕ) (word : ι → CStr) (s : State ι) : Prop := ∀ i, (s.conn i).Ok C₁ C₂ (word i).bytes (s.held i)

theorem inv_start : Inv C₁ C₂ word (start word) := fun _ => .fresh

theorem inv_step (h : Inv C₁ C₂ word s) (hst : step C₁ C₂ word s a = some t) : Inv C₁ C₂ word t := by
  obtain ⟨i, -, hm, hother⟩ := step_cases hst
  intro j
  by_cases hj : j = i
  · subst hj
    exact (h j).moves hm
  · rw [(hother j hj).1, (hother j hj).2]
    exact h j

theorem inv_reaches (h : Reaches (step C₁ C₂ word) (start word) s) : Inv C₁ C₂ word s :=
  h.inv (Inv C₁ C₂ word) inv_start fun _ _ _ hs hst => inv_step hs hst

/-- The next call of the client `i` is `send`, there is no room for what it has to send, and none for what the server
holds for it. -/
def Stuck (C₁ C₂ : ℕ) (i : ι) (s : State ι) : Prop :=
  (∃ b left, (s.conn i).client = .send (b :: left)) ∧ C₁ ≤ (s.conn i).there.length ∧
    C₂ ≤ (s.conn i).back.length ∧ ∃ b left, s.server = .serve i (b :: left)

/-- **The only way to get stuck** where a client is served. -/
theorem stuck_of_ended (h : Inv C₁ C₂ word s) (h₁ : 0 < C₁) (h₂ : 0 < C₂) (hs : s.server = .serve i left)
    (hclient : ∀ n, step C₁ C₂ word s (.client i n) = none) (hserver : ∀ n, step C₁ C₂ word s (.server n) = none) :
    Stuck C₁ C₂ i s := by
  have hi := h i
  have hheld := held_of_serve hs
  have hstep : ∀ n, (s.conn i).step C₁ (word i).bytes (s.held i ≠ none) n = none := fun n =>
    Option.map_eq_none_iff.1 (hclient n)
  -- what the server waits for
  have hwait : (left = [] → (s.conn i).there = [] ∧ ¬ (s.conn i).closed) ∧
      ∀ b rest, left = b :: rest → C₂ ≤ (s.conn i).back.length := by
    refine ⟨fun hleft => ?_, fun b rest hleft => ?_⟩
    · subst hleft
      have hthere : (s.conn i).there = [] := by
        by_contra hne
        have hlen := List.length_pos_iff.2 hne
        have h1 := hserver 1
        rw [step, hs] at h1
        dsimp only at h1
        rw [if_neg one_ne_zero, if_pos ⟨by decide, hlen⟩] at h1
        cases h1
      refine ⟨hthere, fun hclosed => ?_⟩
      have h0 := hserver 0
      rw [step, hs] at h0
      dsimp only at h0
      rw [if_pos rfl, if_pos ⟨hthere, hclosed⟩] at h0
      cases h0
    · subst hleft
      by_contra hlt
      have h0 := hserver 0
      rw [step, hs] at h0
      dsimp only at h0
      rw [if_pos (by omega)] at h0
      cases h0
  cases hc : (s.conn i).client with
  | send left' =>
    cases left' with
    | nil =>
      have h0 := hstep 0
      rw [Conn.step, hc] at h0
      cases h0
    | cons b left' =>
      have hfull : C₁ ≤ (s.conn i).there.length := by
        by_contra hlt
        have h0 := hstep 0
        rw [Conn.step, hc] at h0
        dsimp only at h0
        rw [if_pos (by omega)] at h0
        cases h0
      cases left with
      | nil =>
        rw [(hwait.1 rfl).1, List.length_nil] at hfull
        omega
      | cons b' rest => exact ⟨⟨b, left', hc⟩, hfull, hwait.2 b' rest rfl, b', rest, hs⟩
  | recv total =>
    exfalso
    obtain ⟨got, -, htotal, hw⟩ := hi.flow_recv hc
    have hlen := congrArg List.length hw
    rw [hheld, Option.getD_some] at hlen
    simp only [List.length_append] at hlen
    -- nothing has come back, so that the server has everything, and waits for nothing
    have hback : (s.conn i).back = [] := by
      by_contra hne
      have hpos := List.length_pos_iff.2 hne
      have h1 := hstep 1
      rw [Conn.step, hc] at h1
      dsimp only at h1
      rw [if_pos (by omega), if_neg one_ne_zero, if_pos ⟨by decide, hpos⟩] at h1
      cases h1
    cases left with
    | cons b rest =>
      have hle := hwait.2 b rest rfl
      rw [hback, List.length_nil] at hle
      omega
    | nil =>
      rw [hback, (hwait.1 rfl).1] at hlen
      simp only [List.length_nil] at hlen
      have h0 := hstep 0
      rw [Conn.step, hc] at h0
      dsimp only at h0
      rw [if_neg (by omega)] at h0
      cases h0
  | gone =>
    exfalso
    obtain ⟨-, hback, -, -⟩ := hi.flow_gone hc
    cases left with
    | nil => exact (hwait.1 rfl).2 (.inl hc)
    | cons b rest =>
      have hle := hwait.2 b rest rfl
      rw [hback, List.length_nil] at hle
      omega
  | died => exact absurd hc hi.ne_died

/-- A client that is stuck has a long word. -/
theorem Stuck.length_le (h : Stuck C₁ C₂ i s) (hinv : Inv C₁ C₂ word s) : C₁ + C₂ + 2 ≤ (word i).bytes.length := by
  obtain ⟨⟨b, left, hc⟩, h₁, h₂, b', left', hs⟩ := h
  obtain ⟨-, hw⟩ := (hinv i).flow_send hc
  have hlen := congrArg List.length hw
  rw [held_of_serve hs, Option.getD_some] at hlen
  simp only [List.length_append, List.length_cons] at hlen
  omega

/-- A client that is stuck stays so. -/
theorem Stuck.step (h : Stuck C₁ C₂ i s) (hst : step C₁ C₂ word s a = some t) : Stuck C₁ C₂ i t := by
  obtain ⟨⟨b, left, hc⟩, h₁, h₂, b', left', hs⟩ := h
  cases a with
  | client j n =>
    obtain ⟨c, hstep, rfl⟩ := Option.map_eq_some_iff.1 hst
    by_cases hj : j = i
    · subst hj
      rw [Conn.step, hc] at hstep
      dsimp only at hstep
      rw [if_neg (by omega)] at hstep
      cases hstep
    · have hconn : (s.set j c).conn i = s.conn i := Function.update_of_ne (Ne.symm hj) _ _
      refine ⟨⟨b, left, ?_⟩, ?_, ?_, b', left', hs⟩
      · rw [hconn, hc]
      · rwa [hconn]
      · rwa [hconn]
  | accept j =>
    rw [Echo.step, hs] at hst
    cases hst
  | server n =>
    rw [Echo.step, hs] at hst
    dsimp only at hst
    rw [if_neg (by omega)] at hst
    cases hst

section

variable [Fintype ι]

def work (s : State ι) : ℕ := ∑ i, (s.conn i).work (s.held i)

theorem work_lt (h : step C₁ C₂ word s a = some t) : work t < work s := by
  obtain ⟨i, -, hm, hother⟩ := step_cases h
  refine Finset.sum_lt_sum (fun j _ => ?_) ⟨i, Finset.mem_univ i, hm.work_lt⟩
  by_cases hj : j = i
  · subst hj
    exact le_of_lt hm.work_lt
  · rw [(hother j hj).1, (hother j hj).2]

theorem progressing : Progressing (step C₁ C₂ word) (Inv C₁ C₂ word) work :=
  ⟨fun _ _ _ hs hst => inv_step hs hst, fun _ _ _ _ hst => work_lt hst⟩

end

/-- Everybody has printed the word that was sent. -/
def Echoed (word : ι → CStr) (s : State ι) : Prop :=
  ∀ i, (s.conn i).client = .gone ∧ (s.conn i).out = received ++ (word i).bytes ++ ending

/-- Where nobody is served and nobody waits to be accepted, everybody is gone. -/
theorem echoed_of_accept (h : Inv C₁ C₂ word s) (hs : s.server = .accept) (hall : ∀ i, (s.conn i).accepted = true) :
    Echoed word s := fun i =>
  have hgone := (h i).closed (hall i) (held_of_accept hs)
  ⟨hgone, ((h i).flow_gone hgone).1⟩

theorem echoed_of_ended (h : Inv C₁ C₂ word s) (h₁ : 0 < C₁) (h₂ : 0 < C₂) (hend : Ended (step C₁ C₂ word) s)
    (hshort : ∀ i, (word i).bytes.length ≤ C₁ + C₂ + 1) : Echoed word s := by
  cases hs : s.server with
  | accept =>
    refine echoed_of_accept h hs fun i => ?_
    by_contra hacc
    have hi := hend (.accept i)
    rw [step, hs] at hi
    dsimp only at hi
    rw [if_neg hacc] at hi
    cases hi
  | serve i left =>
    have hlen := (stuck_of_ended h h₁ h₂ hs (fun n => hend _) fun n => hend _).length_le h
    have hle := hshort i
    omega

/-! ### How far a client can get -/

/-- The client `i` is served. -/
def State.on (s : State ι) (i : ι) (c : Conn) (left : List Byte) : State ι :=
  ⟨.serve i left, Function.update s.conn i c⟩

theorem State.on_conn : (s.on i c left).conn i = c := Function.update_self _ _ _

section Reaching

variable {there back out pre rest m : List Byte} {b : Byte}

theorem on_put (h : there.length < C₁) :
    step C₁ C₂ word (s.on i ⟨.send (b :: rest), there, back, out, true⟩ left) (.client i 0) =
      some (s.on i ⟨.send rest, there ++ [b], back, out, true⟩ left) := by
  simp only [step, State.on, Function.update_self, Conn.step, if_pos h, Option.map_some, State.set,
    Function.update_idem]

theorem on_turn : step C₁ C₂ word (s.on i ⟨.send [], there, back, out, true⟩ left) (.client i 0) =
    some (s.on i ⟨.recv 0, there, back, received, true⟩ left) := by
  simp only [step, State.on, Function.update_self, Conn.step, Option.map_some, State.set, Function.update_idem]

theorem on_send (h : c.back.length < C₂) : step C₁ C₂ word (s.on i c (b :: left)) (.server 0) =
    some (s.on i { c with back := c.back ++ [b] } left) := by
  simp only [step, State.on, Function.update_self, if_pos h, Function.update_idem]

theorem on_recv (h : 0 < n) (h' : n ≤ RCVBUFSIZE) (hn : n ≤ c.there.length) :
    step C₁ C₂ word (s.on i c []) (.server n) =
      some (s.on i { c with there := c.there.drop n } (c.there.take n)) := by
  simp only [step, State.on, Function.update_self, if_neg (Nat.ne_of_gt h), if_pos (And.intro h' hn),
    Function.update_idem]

/-- The client sends what there is room for. -/
theorem reaches_fill (h : there.length + pre.length ≤ C₁) : Reaches (step C₁ C₂ word)
    (s.on i ⟨.send (pre ++ rest), there, back, out, true⟩ left)
    (s.on i ⟨.send rest, there ++ pre, back, out, true⟩ left) := by
  induction pre generalizing there with
  | nil =>
    rw [List.append_nil, List.nil_append]
    exact .refl
  | cons b pre ih =>
    rw [List.length_cons] at h
    have hrest : Reaches (step C₁ C₂ word) (s.on i ⟨.send (pre ++ rest), there ++ [b], back, out, true⟩ left)
        (s.on i ⟨.send rest, there ++ [b] ++ pre, back, out, true⟩ left) :=
      ih (by rw [List.length_append, List.length_singleton]; omega)
    rw [List.append_assoc, List.singleton_append] at hrest
    exact (Reaches.single (on_put (by omega))).trans hrest

/-- The server takes `m`, all that has come. -/
theorem reaches_take (h : m.length ≤ RCVBUFSIZE) : Reaches (step C₁ C₂ word)
    (s.on i ⟨.send rest, m, back, out, true⟩ []) (s.on i ⟨.send rest, [], back, out, true⟩ m) := by
  cases m with
  | nil => exact .refl
  | cons b m =>
    have hrecv : step C₁ C₂ word (s.on i ⟨.send rest, b :: m, back, out, true⟩ []) (.server (b :: m).length) =
        some (s.on i ⟨.send rest, (b :: m).drop (b :: m).length, back, out, true⟩ ((b :: m).take (b :: m).length)) :=
      on_recv (Nat.zero_lt_succ _) h le_rfl
    rw [List.drop_length, List.take_length] at hrecv
    exact .single hrecv

/-- The server sends bytes back, one by one, as they come. -/
theorem reaches_echo (h₁ : 0 < C₁) (h : back.length + pre.length ≤ C₂) : Reaches (step C₁ C₂ word)
    (s.on i ⟨.send (pre ++ rest), [], back, out, true⟩ [])
    (s.on i ⟨.send rest, [], back ++ pre, out, true⟩ []) := by
  induction pre generalizing back with
  | nil =>
    rw [List.append_nil, List.nil_append]
    exact .refl
  | cons b pre ih =>
    rw [List.length_cons] at h
    have hput : Reaches (step C₁ C₂ word) (s.on i ⟨.send (b :: (pre ++ rest)), [], back, out, true⟩ [])
        (s.on i ⟨.send (pre ++ rest), [b], back, out, true⟩ []) := .single (on_put h₁)
    have htake : Reaches (step C₁ C₂ word) (s.on i ⟨.send (pre ++ rest), [b], back, out, true⟩ [])
        (s.on i ⟨.send (pre ++ rest), [], back, out, true⟩ [b]) := reaches_take (show 1 ≤ RCVBUFSIZE by decide)
    have hsend : Reaches (step C₁ C₂ word) (s.on i ⟨.send (pre ++ rest), [], back, out, true⟩ [b])
        (s.on i ⟨.send (pre ++ rest), [], back ++ [b], out, true⟩ []) :=
      .single (on_send (show back.length < C₂ by omega))
    have hrest : Reaches (step C₁ C₂ word) (s.on i ⟨.send (pre ++ rest), [], back ++ [b], out, true⟩ [])
        (s.on i ⟨.send rest, [], back ++ [b] ++ pre, out, true⟩ []) :=
      ih (by rw [List.length_append, List.length_singleton]; omega)
    rw [List.append_assoc, List.singleton_append] at hrest
    exact hput.trans (htake.trans (hsend.trans hrest))

/-- The client has come as far as it can: the server holds `m`, and there is no room before it or behind it. -/
theorem reaches_jam {p q : List Byte} (h₁ : 0 < C₁) (hp : p.length ≤ C₂) (hm : m.length ≤ min RCVBUFSIZE C₁)
    (hq : q.length ≤ C₁) : Reaches (step C₁ C₂ word)
    (s.on i ⟨.send (p ++ (m ++ (q ++ rest))), [], [], [], true⟩ []) (s.on i ⟨.send rest, q, p, [], true⟩ m) := by
  have hecho : Reaches (step C₁ C₂ word) (s.on i ⟨.send (p ++ (m ++ (q ++ rest))), [], [], [], true⟩ [])
      (s.on i ⟨.send (m ++ (q ++ rest)), [], [] ++ p, [], true⟩ []) :=
    reaches_echo h₁ (by rwa [List.length_nil, Nat.zero_add])
  have hfill : Reaches (step C₁ C₂ word) (s.on i ⟨.send (m ++ (q ++ rest)), [], p, [], true⟩ [])
      (s.on i ⟨.send (q ++ rest), [] ++ m, p, [], true⟩ []) :=
    reaches_fill (by rw [List.length_nil, Nat.zero_add]; omega)
  have htake : Reaches (step C₁ C₂ word) (s.on i ⟨.send (q ++ rest), m, p, [], true⟩ [])
      (s.on i ⟨.send (q ++ rest), [], p, [], true⟩ m) := reaches_take (by omega)
  have hfill' : Reaches (step C₁ C₂ word) (s.on i ⟨.send (q ++ rest), [], p, [], true⟩ m)
      (s.on i ⟨.send rest, [] ++ q, p, [], true⟩ m) :=
    reaches_fill (by rwa [List.length_nil, Nat.zero_add])
  exact hecho.trans (hfill.trans (htake.trans hfill'))

theorem reaches_served (hs : s.server = .accept) (hi : s.conn i = .fresh w) :
    Reaches (step C₁ C₂ word) s (s.on i ⟨.send w, [], [], [], true⟩ []) := by
  refine .single (a := .accept i) ?_
  rw [step, hs]
  dsimp only
  rw [hi]
  rfl

end Reaching

/-! ### Getting through -/

theorem Moves.sent (h : Moves C₁ C₂ w l c l' c') (hc : ∀ left, c.client ≠ .send left) (left : List Byte) :
    c'.client ≠ .send left := by
  cases h with
  | put h _ | turn h => exact absurd h (hc _)
  | get _ _ _ _ | leave _ _ | die _ _ => exact fun h => nomatch h
  | accept _ | send _ | recv _ _ _ | close _ _ => exact hc left

theorem Moves.accepted (h : Moves C₁ C₂ w l c l' c') (hc : c.accepted = true) : c'.accepted = true := by
  cases h with
  | accept _ => rfl
  | _ => exact hc

/-- **Who has sent the whole word gets it back**, and then the server is free again. -/
theorem reaches_free [Fintype ι] (h : Inv C₁ C₂ word s) (h₁ : 0 < C₁) (h₂ : 0 < C₂) (hs : s.server = .serve i left)
    (hc : ∀ left, (s.conn i).client ≠ .send left) (hacc : (s.conn i).accepted = true) :
    ∃ t, Reaches (step C₁ C₂ word) s t ∧ t.server = .accept ∧ (t.conn i).accepted = true ∧
      ∀ j ≠ i, t.conn j = s.conn j := by
  induction hn : work s using Nat.strong_induction_on generalizing s left with
  | h n ih =>
    have hstep : ∃ a t, a.conn s = some i ∧ step C₁ C₂ word s a = some t := by
      by_contra hno
      have hnone : ∀ a : Act ι, a.conn s = some i → step C₁ C₂ word s a = none := fun a ha =>
        Option.eq_none_iff_forall_ne_some.2 fun t ht => hno ⟨a, t, ha, ht⟩
      have hserver : ∀ m, (Act.server m : Act ι).conn s = some i := fun m => by rw [Act.conn, hs]
      obtain ⟨⟨b, rest, hsend⟩, -⟩ := stuck_of_ended h h₁ h₂ hs (fun m => hnone _ rfl) fun m => hnone _ (hserver m)
      exact hc _ hsend
    obtain ⟨a, t, ha, hst⟩ := hstep
    obtain ⟨k, hk, hm, hother⟩ := step_cases hst
    obtain rfl : i = k := Option.some.inj (ha.symm.trans hk)
    cases ht : t.server with
    | accept => exact ⟨t, .single hst, ht, hm.accepted hacc, fun j hj => (hother j hj).2⟩
    | serve j left' =>
      obtain rfl : j = i := by
        by_contra hj
        have hheld := held_of_serve ht
        rw [(hother j hj).1, held_of_serve_of_ne hs hj] at hheld
        cases hheld
      obtain ⟨u, hu, huserver, huacc, huconn⟩ := ih (work t) (hn ▸ work_lt hst) (inv_step h hst) ht (hm.sent hc)
        (hm.accepted hacc) rfl
      exact ⟨u, (Reaches.single hst).trans hu, huserver, huacc, fun j hj => (huconn j hj).trans (hother j hj).2⟩

/-- A client whose word is not too long for that is served. -/
theorem reaches_next [Fintype ι] (h : Inv C₁ C₂ word s) (h₁ : 0 < C₁) (h₂ : 0 < C₂) (hs : s.server = .accept)
    (hi : s.conn i = .fresh (word i).bytes) (hlen : (word i).bytes.length ≤ C₁ + C₂ + min RCVBUFSIZE C₁) :
    ∃ t, Reaches (step C₁ C₂ word) s t ∧ t.server = .accept ∧ (t.conn i).accepted = true ∧
      ∀ j ≠ i, t.conn j = s.conn j := by
  have hjam : Reaches (step C₁ C₂ word) (s.on i ⟨.send (word i).bytes, [], [], [], true⟩ [])
      (s.on i ⟨.send [], ((word i).bytes.drop C₂).drop (min RCVBUFSIZE C₁), (word i).bytes.take C₂, [], true⟩
        (((word i).bytes.drop C₂).take (min RCVBUFSIZE C₁))) := by
    have hword : (word i).bytes = (word i).bytes.take C₂ ++ (((word i).bytes.drop C₂).take (min RCVBUFSIZE C₁) ++
        (((word i).bytes.drop C₂).drop (min RCVBUFSIZE C₁) ++ [])) := by
      rw [List.append_nil, List.take_append_drop, List.take_append_drop]
    conv_lhs => rw [hword]
    refine reaches_jam h₁ (List.length_take_le _ _) (List.length_take_le _ _) ?_
    rw [List.length_drop, List.length_drop]
    omega
  have hreach := ((reaches_served hs hi).trans hjam).trans (.single on_turn)
  obtain ⟨t, ht, hserver, hacc, hother⟩ := reaches_free (h := hreach.inv (Inv C₁ C₂ word) h fun _ _ _ hs hst =>
    inv_step hs hst) h₁ h₂ (i := i) rfl (fun left e => by rw [State.on_conn] at e; cases e) (by rw [State.on_conn])
  exact ⟨t, hreach.trans ht, hserver, hacc, fun j hj => (hother j hj).trans (Function.update_of_ne hj _ _)⟩

/-- The server takes one byte at a time, and there is no room for the last one that it has taken. -/
theorem reaches_stuck (h₁ : 0 < C₁) (hi : C₁ + C₂ + 1 < (word i).bytes.length) :
    ∃ s, Reaches (step C₁ C₂ word) (start word) s ∧ Stuck C₁ C₂ i s := by
  obtain ⟨m, d, hd⟩ := List.length_pos_iff_exists_cons.1 (show 0 < ((word i).bytes.drop C₂).length by
    rw [List.length_drop]
    omega)
  have hdlen := congrArg List.length hd
  rw [List.length_drop, List.length_cons] at hdlen
  obtain ⟨b, left, hleft⟩ := List.length_pos_iff_exists_cons.1 (show 0 < (d.drop C₁).length by
    rw [List.length_drop]
    omega)
  have hword : (word i).bytes = (word i).bytes.take C₂ ++ ([m] ++ (d.take C₁ ++ b :: left)) := by
    rw [← hleft, List.take_append_drop, List.singleton_append, ← hd, List.take_append_drop]
  have hjam : Reaches (step C₁ C₂ word) ((start word).on i ⟨.send (word i).bytes, [], [], [], true⟩ [])
      ((start word).on i ⟨.send (b :: left), d.take C₁, (word i).bytes.take C₂, [], true⟩ [m]) := by
    conv_lhs => rw [hword]
    exact reaches_jam h₁ (List.length_take_le _ _) (show 1 ≤ min RCVBUFSIZE C₁ from le_min (by decide) h₁)
      (List.length_take_le _ _)
  refine ⟨_, (reaches_served rfl rfl).trans hjam, ?_⟩
  rw [Stuck, State.on_conn]
  refine ⟨⟨b, left, rfl⟩, ?_, ?_, m, [], rfl⟩
  · rw [List.length_take]
    omega
  · rw [List.length_take]
    omega

/-- A client with a word for which there is never room has something left to send wherever a run ends. -/
theorem sending_of_ended (h : Inv C₁ C₂ word s) (hend : Ended (step C₁ C₂ word) s)
    (hi : C₁ + C₂ + min RCVBUFSIZE C₁ < (word i).bytes.length) : ∃ b left, (s.conn i).client = .send (b :: left) := by
  have hsend : ∃ left, (s.conn i).client = .send left := by
    by_contra hno
    have hroom := (h i).room fun left hc => hno ⟨left, hc⟩
    omega
  obtain ⟨left, hc⟩ := hsend
  cases left with
  | cons b left => exact ⟨b, left, hc⟩
  | nil =>
    have hstep := hend (.client i 0)
    simp only [step, Conn.step, hc, Option.map_some] at hstep
    cases hstep

section

variable [Fintype ι]

/-- Where one client is stuck, the others can go on for a while only. -/
theorem exists_deadlock (h₁ : 0 < C₁) (hi : C₁ + C₂ + 1 < (word i).bytes.length) :
    ∃ s, Reaches (step C₁ C₂ word) (start word) s ∧ Ended (step C₁ C₂ word) s ∧ Stuck C₁ C₂ i s := by
  obtain ⟨s, hreach, hstuck⟩ := reaches_stuck h₁ hi
  have hp : Progressing (step C₁ C₂ word) (Stuck C₁ C₂ i) work :=
    ⟨fun _ _ _ hs hst => hs.step hst, fun _ _ _ _ hst => work_lt hst⟩
  obtain ⟨t, ht, hend, htstuck⟩ := hp.exists_end hstuck
  exact ⟨t, hreach.trans ht, hend, htstuck⟩

/-- **Words come back in every run** if and only if each of them fits the connection and one byte more; for a longer one
there is a deadlock. -/
theorem echoed_iff (h₁ : 0 < C₁) (h₂ : 0 < C₂) :
    (AlwaysEnds (step C₁ C₂ word) (start word) (Echoed word) ↔ ∀ i, (word i).bytes.length ≤ C₁ + C₂ + 1) ∧
    ∀ i, C₁ + C₂ + 1 < (word i).bytes.length →
      ∃ s, Reaches (step C₁ C₂ word) (start word) s ∧ Ended (step C₁ C₂ word) s ∧ Stuck C₁ C₂ i s := by
  refine ⟨⟨fun h i => ?_, fun hshort => ?_⟩, fun i hi => exists_deadlock h₁ hi⟩
  · by_contra hi
    obtain ⟨s, hreach, hstuck⟩ := reaches_stuck h₁ (not_le.1 hi)
    refine not_alwaysEnds (I := Stuck C₁ C₂ i) (fun s a t hs hst => hs.step hst) (fun s hs hechoed => ?_) hreach hstuck h
    obtain ⟨⟨b, left, hsend⟩, -⟩ := hs
    rw [(hechoed i).1] at hsend
    cases hsend
  · exact progressing.alwaysEnds inv_start fun s hs hend => echoed_of_ended hs h₁ h₂ hend hshort

/-- Three bytes are always echoed where there is room for one in each direction, four are not. -/
theorem echoed_one :
    AlwaysEnds (step 1 1 fun _ : Bool => lit "abc") (start fun _ => lit "abc") (Echoed fun _ => lit "abc") ∧
    ∃ s, Reaches (step 1 1 fun _ : Bool => lit "abcd") (start fun _ => lit "abcd") s ∧
      Ended (step 1 1 fun _ : Bool => lit "abcd") s ∧ Stuck 1 1 true s :=
  ⟨(echoed_iff Nat.one_pos Nat.one_pos).1.2 (by decide), (echoed_iff Nat.one_pos Nat.one_pos).2 true (by decide)⟩

/-- **Words can come back** if and only if each of them fits the connection and what the server can hold; the client of a
longer one gets stuck in every run. -/
theorem can_echo_iff (h₁ : 0 < C₁) (h₂ : 0 < C₂) :
    ((∃ s, Reaches (step C₁ C₂ word) (start word) s ∧ Echoed word s) ↔
      ∀ i, (word i).bytes.length ≤ C₁ + C₂ + min RCVBUFSIZE C₁) ∧
    ∀ i, C₁ + C₂ + min RCVBUFSIZE C₁ < (word i).bytes.length →
      AlwaysEnds (step C₁ C₂ word) (start word) fun s => ∃ b left, (s.conn i).client = .send (b :: left) := by
  refine ⟨?_, fun i hi => progressing.alwaysEnds inv_start fun s hs hend => sending_of_ended hs hend hi⟩
  constructor
  · rintro ⟨s, hreach, hs⟩ i
    refine (inv_reaches hreach i).room fun left hleft => ?_
    rw [(hs i).1] at hleft
    cases hleft
  · intro hlen
    have hall : ∀ l : Finset ι, ∃ s, Reaches (step C₁ C₂ word) (start word) s ∧ s.server = .accept ∧
        (∀ i ∈ l, (s.conn i).accepted = true) ∧ ∀ i ∉ l, s.conn i = .fresh (word i).bytes := by
      intro l
      induction l using Finset.induction_on with
      | empty => exact ⟨_, .refl, rfl, fun i hi => by simp at hi, fun i _ => rfl⟩
      | insert i l hil ih =>
        obtain ⟨s, hreach, hs, hacc, hfresh⟩ := ih
        obtain ⟨t, ht, hserver, hi, hother⟩ := reaches_next (inv_reaches hreach) h₁ h₂ hs (hfresh i hil) (hlen i)
        refine ⟨t, hreach.trans ht, hserver, fun j hj => ?_, fun j hj => ?_⟩
        · rcases Finset.mem_insert.1 hj with rfl | hj
          · exact hi
          · rw [hother j fun e => hil (e ▸ hj)]
            exact hacc j hj
        · rw [Finset.mem_insert, not_or] at hj
          rw [hother j hj.1]
          exact hfresh j hj.2
    obtain ⟨s, hreach, hs, hacc, -⟩ := hall Finset.univ
    exact ⟨s, hreach, echoed_of_accept (inv_reaches hreach) hs fun i => hacc i (Finset.mem_univ i)⟩

/-- With one byte more on the way to the server, five can be echoed, and six cannot. -/
theorem can_echo_five : (∃ s, Reaches (step 2 1 fun _ : Bool => lit "abcde") (start fun _ => lit "abcde") s ∧
      Echoed (fun _ => lit "abcde") s) ∧
    AlwaysEnds (step 2 1 fun _ : Bool => lit "abcdef") (start fun _ => lit "abcdef") fun s =>
      ∃ b left, (s.conn true).client = .send (b :: left) :=
  ⟨(can_echo_iff Nat.two_pos Nat.one_pos).1.2 (by decide), (can_echo_iff Nat.two_pos Nat.one_pos).2 true (by decide)⟩

end

end NetProg.Echo
