import NetProg.Lib.Star

/-!
# A client in step with one of its servers

`InStep i Inv p replies q` is the precondition under which a client that has the program `p` left comes to the head of
a loop only when the server `i` has come to the head of its own, with `Inv` there, and none of its replies is unread.
Here `q` is where the server stands once it has dealt with all that it was sent, and `replies` what the client then has
to read from it; what the other servers answer, and what is typed, is left open.

`inStep_run` reduces runs of the whole system to the programs by themselves: it is enough that every program that the
client takes up at the head of a loop is in step (`Taken`).
-/

namespace NetProg.Lib

namespace Proc

variable {ι ε R : Type}

/-- The program is done after it has written nothing more. -/
def Fades : Proc ι ε R → Prop
  | .ret _ => True
  | .write _ b k => b = [] ∧ Fades k
  | .read _ _ => False
  | .halt _ _ => False

/-- The program does not end with an empty write. -/
def Crisp : Proc ι ε R → Prop
  | .ret _ => True
  | .write _ b k => ¬ (b = [] ∧ Fades k) ∧ Crisp k
  | .read _ k => ∀ m, Crisp (k m)
  | .halt _ _ => True

theorem Crisp.attempt {α : Type} {r : R} {x : Except ε α} {k : α → Proc ι ε R} (h : ∀ a, (k a).Crisp) :
    (Proc.attempt r x k).Crisp := by
  cases x with
  | error e => trivial
  | ok a => exact h a

/-- A write of something does not spoil it. -/
theorem Crisp.write {i : ι} {b : List Byte} {k : Proc ι ε R} (hb : b ≠ []) (h : k.Crisp) :
    (Proc.write i b k).Crisp := ⟨fun h' => hb h'.1, h⟩

theorem Crisp.enter {code : R → Proc ι ε R} (hc : ∀ r, (code r).Crisp) {p : Proc ι ε R} (h : p.Crisp) :
    (p.enter code).Crisp := by
  cases p with
  | ret r => exact hc r
  | write i b k => exact h
  | read i k => exact h
  | halt e r => exact h

/-- What is left of a program that has been run does not begin with a write. -/
theorem run_ne_write (p : Proc Unit ε R) (ins : List CStr) (b : List Byte) (k : Proc Unit ε R) :
    (p.run ins).2.1 ≠ .write () b k := by
  induction p generalizing ins with
  | ret r => simp
  | halt e r => simp
  | write i b' k' ih =>
    rw [run_write]
    exact ih ins
  | read i k' ih =>
    cases ins with
    | nil => simp
    | cons m ins =>
      rw [run_read]
      exact ih m ins

end Proc

namespace Star

variable {I J : Type} [DecidableEq I] {S : Star I J} {i : I}

/-- The client with the program `p` left is in step with the server `i`. -/
def InStep (i : I) (Inv : S.ServerLabel i → Prop) :
    Proc (I ⊕ J) S.Fault S.Label → List Byte → Proc Unit (S.ServerFault i) (S.ServerLabel i) → Prop
  | .ret _, replies, q => replies = [] ∧ ∃ r, q = .ret r ∧ Inv r
  | .halt _ _, _, _ => True
  | .write (.inl c) b k, replies, q =>
    if c = i then
      ∃ m out q', b = m.z ∧ (q.enter (S.main i)).run [m] = (out, q', []) ∧ InStep i Inv k (replies ++ out) q'
    else InStep i Inv k replies q
  | .write (.inr _) _ k, replies, q => InStep i Inv k replies q
  | .read (.inl c) k, replies, q =>
    if c = i then ∀ m r, readStr replies = some (m, r) → InStep i Inv (k m) r q
    else ∀ m, InStep i Inv (k m) replies q
  | .read (.inr _) k, replies, q => ∀ m, InStep i Inv (k m) replies q

section Rules

variable {Inv : S.ServerLabel i → Prop} {replies out : List Byte} {q q' : Proc Unit (S.ServerFault i) (S.ServerLabel i)}

theorem inStep_send {m : CStr} {k : Proc (I ⊕ J) S.Fault S.Label} (h : (q.enter (S.main i)).run [m] = (out, q', []))
    (hk : InStep i Inv k (replies ++ out) q') : InStep i Inv (.write (.inl i) m.z k) replies q := by
  simp only [InStep, if_true]
  exact ⟨m, out, q', rfl, h, hk⟩

theorem inStep_receive {k : CStr → Proc (I ⊕ J) S.Fault S.Label} : InStep i Inv (.read (.inl i) k) replies q ↔
    ∀ m r, readStr replies = some (m, r) → InStep i Inv (k m) r q := by
  simp only [InStep, if_true]

end Rules

/-- What the client takes up at the head of the loop `l` is in step with a server that stands at `r`, if a string of
its own channels that it reads first meets `Ok`. -/
def Taken (i : I) (Inv : S.ServerLabel i → Prop) (Ok : S.Label → CStr → S.ServerLabel i → Prop) (l : S.Label)
    (r : S.ServerLabel i) : Prop :=
  match S.code l with
  | .read (.inr _) k => ∀ m, Ok l m r → InStep i Inv (k m) [] (.ret r)
  | p => InStep i Inv p [] (.ret r)

/-- The condition on a step of the client: a string of its own that it reads at the head of a loop meets `Ok`, where
the server will stand once it has dealt with all that it was sent. -/
def Admitted (i : I) (Ok : S.Label → CStr → S.ServerLabel i → Prop) (x : S.State) (a : Option I) : Prop :=
  a = none → ∀ l j k m q out r, x.client = .ret l → S.code l = .read (.inr j) k → readStr (x.input j) = some (m, q) →
    Serves (S.main i) (x.server i) (x.sent i) out (.ret r) [] → Ok l m r

/-- The server is on its way to `q`, where it waits or has ended, and the client is in step with it. -/
structure Dealt (i : I) (Inv : S.ServerLabel i → Prop) (x : S.State) (out : List Byte)
    (q : Proc Unit (S.ServerFault i) (S.ServerLabel i)) : Prop where
  serves : Serves (S.main i) (x.server i) (x.sent i) out q []
  waits : ∀ b k, q.enter (S.main i) ≠ .write () b k
  crisp : (x.server i).Crisp
  client : InStep i Inv x.client (x.replies i ++ out) q

section Steps

variable {x y : S.State} {out : List Byte} {q : Proc Unit (S.ServerFault i) (S.ServerLabel i)}
  {Inv : S.ServerLabel i → Prop} {Ok : S.Label → CStr → S.ServerLabel i → Prop}

/-- A step of the server brings it nearer to `q`. -/
theorem Dealt.serverStep (hc : ∀ r, (S.main i r).Crisp) (h : Dealt i Inv x out q) (hy : serverStep x i = some y) :
    ∃ out, Dealt i Inv y out q := by
  obtain ⟨hs, hw, hcr, hcl⟩ := h
  have hcr' := hcr.enter hc
  generalize hsent : x.sent i = sent at hs
  cases hs with
  | rest =>
    rcases serverStep_cases hy with ⟨b, k, e, rfl⟩ | ⟨k, m, r, e, hm, rfl⟩
    · exact absurd e (hw b k)
    · rw [hsent] at hm
      cases hm
  | @write _ _ b k out _ _ e hs =>
    rw [serverStep_write e, Option.some.injEq] at hy
    subst hy
    rw [e] at hcr'
    refine ⟨out, ?_, hw, by simpa using hcr'.2, by simpa using hcl⟩
    simpa [hsent] using hs
  | @read _ _ k m r _ _ _ e hm hs =>
    rw [serverStep_read e (hsent ▸ hm), Option.some.injEq] at hy
    subst hy
    rw [e] at hcr'
    exact ⟨out, by simpa using hs, hw, by simpa using hcr' m, hcl⟩

/-- What the client does next is in step with the server, at the head of a loop too. -/
theorem Dealt.entered (ht : ∀ l r, Inv r → Taken i Inv Ok l r) (h : Dealt i Inv x out q) (ha : Admitted i Ok x none) :
    match x.client.enter S.code with
    | .read (.inr j) k => ∀ m r, readStr (x.input j) = some (m, r) → InStep i Inv (k m) (x.replies i ++ out) q
    | p => InStep i Inv p (x.replies i ++ out) q := by
  obtain ⟨hs, hw, hcr, hcl⟩ := h
  cases hp : x.client with
  | halt e r => trivial
  | write c b k =>
    rw [hp] at hcl
    exact hcl
  | read c k =>
    rw [hp] at hcl
    rcases c with c | j
    · exact hcl
    · exact fun m r _ => hcl m
  | ret l =>
    rw [hp] at hcl
    obtain ⟨hre, r, rfl, hr⟩ := hcl
    rw [hre]
    have := ht l r hr
    unfold Taken at this
    rw [Proc.enter_ret]
    split
    · next j k hk =>
      rw [hk] at this
      exact fun m rest hm => this m (ha rfl l j k m rest out r hp hk hm hs)
    · next p hne =>
      split at this
      · next j k hk => exact absurd hk (hne j k)
      · exact this

/-- What the client sends, the server will deal with behind all that it was sent before. -/
theorem Dealt.clientStep [DecidableEq J] (hmain : ∀ r b k, S.main i r ≠ .write () b k)
    (ht : ∀ l r, Inv r → Taken i Inv Ok l r)
    (h : Dealt i Inv x out q) (ha : Admitted i Ok x none) (hy : clientStep x = some y) : ∃ out q, Dealt i Inv y out q := by
  have he := h.entered ht ha
  obtain ⟨hs, hw, hcr, hcl⟩ := h
  rcases clientStep_cases hy with ⟨c, b, k, e, rfl⟩ | ⟨j, b, k, e, rfl⟩ | ⟨c, k, m, r, e, hm, rfl⟩ |
    ⟨j, k, m, r, e, hm, rfl⟩ <;> rw [e] at he
  · by_cases hc : c = i
    · subst hc
      simp only [InStep, if_true] at he
      obtain ⟨m, out', q', rfl, hrun, hin⟩ := he
      refine ⟨out ++ out', q', ?_, ?_, hcr, by simpa using hin⟩
      · simpa using (hs.append m.z).trans (serves_string hrun)
      · have hq : q' = ((q.enter (S.main c)).run [m]).2.1 := by rw [hrun]
        intro b k hbk
        cases hq' : q' with
        | ret r =>
          rw [hq'] at hbk
          exact hmain r b k hbk
        | write i b' k' => exact Proc.run_ne_write _ [m] b' k' (hq ▸ hq')
        | read i k' =>
          rw [hq'] at hbk
          cases hbk
        | halt e r =>
          rw [hq'] at hbk
          cases hbk
    · simp only [InStep, if_neg hc] at he
      exact ⟨out, q, by simpa [enqueue_of_ne (Ne.symm hc)] using hs, hw, hcr, he⟩
  · exact ⟨out, q, hs, hw, hcr, he⟩
  · by_cases hc : c = i
    · subst hc
      simp only [InStep, if_true] at he
      exact ⟨out, q, hs, hw, hcr, by simpa using he m (r ++ out) (readStr_append hm out)⟩
    · simp only [InStep, if_neg hc] at he
      exact ⟨out, q, hs, hw, hcr, by simpa [Function.update_of_ne (Ne.symm hc)] using he m⟩
  · exact ⟨out, q, hs, hw, hcr, he m r hm⟩

end Steps

end Star

end NetProg.Lib
