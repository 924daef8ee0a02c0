import NetProg.Lib.History

/-!
# What is told, and what is answered

A client has so many strings to write to each of its servers, and so many answers to read, before it comes to a loop
where it waits for good.  The servers in `D` answer the command `m₀`, which has `n` arguments, with a string each time.

* `Owes`: what a client has left to write and to read; `Pays`: what a server has left to read before it answers;
* `Tally.step`: what is to be written, on its way and on record adds up, behind every step;
* `Tally.settled`: where a run ends with whole commands on record, they are all that has been written.
-/

namespace NetProg.Lib

/-! ### Servers that answer -/

section Answers

variable {F L : Type}

/-- The program reads `n` more strings, whatever they are, answers, and is done. -/
inductive Pays : ℕ → Proc Unit F L → Prop where
  | answer {b s} : (0 : Byte) ∈ b → Pays 0 (.write () b (.ret s))
  | read {n k} : (∀ m, Pays n (k m)) → Pays (n + 1) (.read () k)

/-- How many of the commands are `m₀`. -/
def begun (m₀ : CStr) (cs : List (List CStr)) : ℕ := cs.countP fun c => c.head? = some m₀

variable {m₀ m : CStr} {n N : ℕ} {cs : List (List CStr)} {c args : List CStr} {main : L → Proc Unit F L}
  {p : Proc Unit F L}

theorem begun_concat_self : begun m₀ (cs ++ [m₀ :: args]) = begun m₀ cs + 1 := by simp [begun]

theorem begun_concat_of_ne (h : m ≠ m₀) : begun m₀ (cs ++ [m :: args]) = begun m₀ cs := by simp [begun, h]

/-- A server with the commands `cs` on record that has written `N` strings at least: it has answered each `m₀` that is
not in progress. -/
inductive Standing (m₀ : CStr) (n : ℕ) (cs : List (List CStr)) (N : ℕ) : Proc Unit F L → Prop where
  | head {s} : begun m₀ cs ≤ N → Standing m₀ n cs N (.ret s)
  | paying {cs' args a p} : cs = cs' ++ [m₀ :: args] → args.length + a = n → Pays a p → begun m₀ cs' ≤ N →
      Standing m₀ n cs N p
  | other {cs' m args p} : cs = cs' ++ [m :: args] → m ≠ m₀ → begun m₀ cs' ≤ N → Standing m₀ n cs N p

/-- The next command begins. -/
theorem standing_concat {k : CStr → Proc Unit F L} (hp : Pays n (k m₀)) (hN : begun m₀ cs ≤ N) (m : CStr) :
    Standing m₀ n (cs ++ [[m]]) N (k m) := by
  by_cases hm : m = m₀
  · subst hm
    exact .paying rfl (Nat.zero_add n) hp hN
  · exact .other rfl hm hN

theorem note_concat {m' : CStr} : note false m (cs ++ [m' :: args]) = cs ++ [m' :: (args ++ [m])] := by simp [note]

/-- **A string is read.** -/
theorem Standing.read (hmain : ∀ s, ∃ k, main s = .read () k ∧ Pays n (k m₀)) {k : CStr → Proc Unit F L}
    (h : Standing m₀ n cs N p) (e : p.enter main = .read () k) (m : CStr) :
    Standing m₀ n (note p.atHead m cs) N (k m) := by
  have hhead {s : L} (e : main s = .read () k) (hN : begun m₀ cs ≤ N) : Standing m₀ n (cs ++ [[m]]) N (k m) := by
    obtain ⟨k', hk, hp⟩ := hmain s
    rw [e, Proc.read.injEq] at hk
    obtain ⟨-, rfl⟩ := hk
    exact standing_concat hp hN m
  cases h with
  | head hN => exact hhead e hN
  | paying hcs hlen hp hN =>
    subst hcs
    cases hp with
    | answer hb => cases e
    | read hp =>
      cases e
      rw [show Proc.atHead _ = false from rfl, note_concat]
      refine .paying rfl ?_ (hp m) hN
      rw [List.length_append, List.length_singleton]
      omega
  | other hcs hm hN =>
    subst hcs
    cases p with
    | ret s => exact hhead e (by rwa [begun_concat_of_ne hm])
    | read i k' =>
      cases e
      rw [show Proc.atHead _ = false from rfl, note_concat]
      exact .other rfl hm hN
    | write i b k' => cases e
    | halt e' s => cases e

/-- **A string is written.** -/
theorem Standing.write (hmain : ∀ s, ∃ k, main s = .read () k ∧ Pays n (k m₀)) {b : List Byte} {k : Proc Unit F L}
    (h : Standing m₀ n cs N p) (e : p.enter main = .write () b k) : Standing m₀ n cs (N + b.count 0) k := by
  have hhead {s : L} (e : main s = .write () b k) : Standing m₀ n cs (N + b.count 0) k := by
    obtain ⟨k', hk, -⟩ := hmain s
    rw [hk] at e
    cases e
  cases h with
  | head hN => exact hhead e
  | paying hcs hlen hp hN =>
    cases hp with
    | read hp => cases e
    | answer hb =>
      cases e
      have hpos := List.count_pos_iff.2 hb
      refine .head ?_
      rw [hcs, begun_concat_self]
      omega
  | other hcs hm hN =>
    cases p with
    | ret s => exact hhead e
    | write i b' k' => exact .other hcs hm (Nat.le_add_right_of_le hN)
    | read i k' => cases e
    | halt e' s => cases e

/-- Every string that is read is on record. -/
theorem length_flatten_note (head : Bool) : (note head m cs).flatten.length = cs.flatten.length + 1 := by
  cases head with
  | true => simp [note]
  | false =>
    rcases List.eq_nil_or_concat cs with rfl | ⟨cs', c, rfl⟩
    · rfl
    · simp [note]
      omega

/-- The command has all of its arguments. -/
def Entire (m₀ : CStr) (n : ℕ) (c : List CStr) : Prop := c.head? = some m₀ ∧ c.length = n + 1

theorem begun_of_entire (h : ∀ c ∈ cs, Entire m₀ n c) : begun m₀ cs = cs.length :=
  List.countP_eq_length.2 fun c hc => decide_eq_true (h c hc).1

theorem length_flatten_of_entire (h : ∀ c ∈ cs, Entire m₀ n c) : cs.flatten.length = (n + 1) * cs.length := by
  rw [List.length_flatten, List.map_congr_left fun c hc => (h c hc).2, List.map_const',
    List.sum_replicate_nat, Nat.mul_comm]

/-- Where a server has nothing but whole commands on record, it has answered them, or is about to. -/
theorem Standing.of_entire (h : Standing m₀ n cs N p) (hcs : ∀ c ∈ cs, Entire m₀ n c) :
    ((∃ s, p = .ret s) ∧ cs.length ≤ N) ∨ ∃ b k, p = .write () b k := by
  cases h with
  | head hN => exact .inl ⟨⟨_, rfl⟩, begun_of_entire hcs ▸ hN⟩
  | paying h hlen hp hN =>
    subst h
    have hl := (hcs _ List.mem_concat_self).2
    rw [List.length_cons] at hl
    cases hp with
    | answer hb => exact .inr ⟨_, _, rfl⟩
    | read hp => omega
  | other h hm hN =>
    subst h
    exact absurd (Option.some.inj (hcs _ List.mem_concat_self).1) hm

end Answers

namespace Star

variable {I J : Type} {S : Star I J}

/-! ### What the client has left to do -/

/-- Before it comes to `l`, the program writes `w` strings to the server `i`, reads `r` from it, and reads nothing but what
servers write. -/
inductive Owes (S : Star I J) (i : I) (l : S.Label) : Proc (I ⊕ J) S.Fault S.Label → ℕ → ℕ → Prop where
  | ret : Owes S i l (.ret l) 0 0
  | send {b k w r} : Owes S i l k w r → Owes S i l (.write (.inl i) b k) (b.count 0 + w) r
  | write {ch b k w r} : ch ≠ .inl i → Owes S i l k w r → Owes S i l (.write ch b k) w r
  | receive {k w r} : (∀ m, Owes S i l (k m) w r) → Owes S i l (.read (.inl i) k) w (r + 1)
  | wait {i' k w r} : i' ≠ i → (∀ m, Owes S i l (k m) w r) → Owes S i l (.read (.inl i') k) w r

variable {i : I} {j : J} {l : S.Label} {w r : ℕ} {k' : CStr → Proc (I ⊕ J) S.Fault S.Label}

/-- A string that is read is no longer on its way. -/
theorem count_readStr {q q' : List Byte} {m : CStr} (h : readStr q = some (m, q')) : q.count 0 = q'.count 0 + 1 := by
  rw [readStr_eq_some.1 h, CStr.z, List.count_append, List.count_append, List.count_eq_zero.2 m.nul_free]
  simp [Nat.add_comm]

variable [DecidableEq I] [DecidableEq J]

theorem count_enqueue {q : I → List Byte} {i' : I} {b : List Byte} :
    (enqueue q i' b i).count 0 = (q i).count 0 + if i' = i then b.count 0 else 0 := by
  by_cases h : i' = i
  · subst h
    simp
  · simp [enqueue_of_ne (Ne.symm h), h]

/-- **The client does what it owes**: what it sends to the server, and what it reads from it, it owes no more. -/
theorem Owes.step {x y : S.State} (hl : S.code l = .read (.inr j) k') (hin : x.input j = [])
    (h : Owes S i l x.client w r) (hst : clientStep x = some y) : y.server = x.server ∧ y.input = x.input ∧
      ∃ w' r', Owes S i l y.client w' r' ∧ r' ≤ r ∧ (y.sent i).count 0 + w' = (x.sent i).count 0 + w ∧
        (y.replies i).count 0 + r = (x.replies i).count 0 + r' := by
  rcases clientStep_cases hst with ⟨i', b, k, e, rfl⟩ | ⟨j', b, k, e, rfl⟩ | ⟨i', k, m, q, e, hm, rfl⟩ |
    ⟨j', k, m, q, e, hm, rfl⟩
  · refine ⟨rfl, rfl, ?_⟩
    generalize x.client = p at h e
    cases h with
    | ret => rw [Proc.enter_ret, hl] at e; cases e
    | send h =>
      cases e
      refine ⟨_, _, h, le_rfl, ?_, rfl⟩
      rw [count_enqueue, if_pos rfl]
      omega
    | write hne h =>
      cases e
      refine ⟨_, _, h, le_rfl, ?_, rfl⟩
      rw [count_enqueue, if_neg fun he => hne (congrArg Sum.inl he)]
      rfl
    | receive h => cases e
    | wait hne h => cases e
  · refine ⟨rfl, rfl, ?_⟩
    generalize x.client = p at h e
    cases h with
    | ret => rw [Proc.enter_ret, hl] at e; cases e
    | send h => cases e
    | write hne h =>
      cases e
      exact ⟨_, _, h, le_rfl, rfl, rfl⟩
    | receive h => cases e
    | wait hne h => cases e
  · refine ⟨rfl, rfl, ?_⟩
    have hcount := count_readStr hm
    generalize x.client = p at h e
    cases h with
    | ret => rw [Proc.enter_ret, hl] at e; cases e
    | send h => cases e
    | write hne h => cases e
    | receive h =>
      cases e
      refine ⟨_, _, h m, Nat.le_succ _, rfl, ?_⟩
      dsimp only
      rw [Function.update_self]
      omega
    | wait hne h =>
      cases e
      refine ⟨_, _, h m, le_rfl, rfl, ?_⟩
      dsimp only
      rw [Function.update_of_ne hne.symm]
  · -- there is nothing to read on a channel of its own
    generalize x.client = p at h e
    cases h with
    | ret =>
      rw [Proc.enter_ret, hl] at e
      cases e
      rw [hin] at hm
      cases hm
    | send h => cases e
    | write hne h => cases e
    | receive h => cases e
    | wait hne h => cases e

/-! ### What a server does -/

section Server

variable {x y : S.State} {m₀ : CStr} {n N : ℕ} {cs : List (List CStr)} {i' : I}

omit [DecidableEq J] in
/-- **A server answers what it is told**: a string that it reads goes on record, and what it writes is counted. -/
theorem standing_step (hmain : ∀ s, ∃ k, S.main i s = .read () k ∧ Pays n (k m₀))
    (h : Standing m₀ n cs N (x.server i)) (hst : serverStep x i = some y) :
    (noted x i cs).flatten.length + (y.sent i).count 0 = cs.flatten.length + (x.sent i).count 0 ∧
      ∃ N', (y.replies i).count 0 + N = (x.replies i).count 0 + N' ∧ Standing m₀ n (noted x i cs) N' (y.server i) := by
  rcases serverStep_cases hst with ⟨b, k, e, rfl⟩ | ⟨k, m, q, e, hm, rfl⟩
  · rw [noted_write e]
    refine ⟨rfl, N + b.count 0, ?_, ?_⟩
    · dsimp only
      rw [count_enqueue, if_pos rfl]
      omega
    · simpa using h.write hmain e
  · rw [noted_read e hm, length_flatten_note]
    have hcount := count_readStr hm
    refine ⟨?_, N, rfl, ?_⟩
    · dsimp only
      rw [Function.update_self]
      omega
    · simpa using h.read hmain e m

omit [DecidableEq J] in
/-- The others are not concerned. -/
theorem serverStep_frame (hst : serverStep x i' = some y) : y.client = x.client ∧ y.input = x.input ∧
    (i ≠ i' → y.server i = x.server i ∧ y.sent i = x.sent i ∧ y.replies i = x.replies i) := by
  rcases serverStep_cases hst with ⟨b, k, -, rfl⟩ | ⟨k, m, q, -, -, rfl⟩
  · exact ⟨rfl, rfl, fun hi => ⟨Function.update_of_ne hi _ _, rfl, enqueue_of_ne hi⟩⟩
  · exact ⟨rfl, rfl, fun hi => ⟨Function.update_of_ne hi _ _, Function.update_of_ne hi _ _, rfl⟩⟩

end Server

/-! ### Runs -/

/-- What the client owes the server `i`, what is on its way and what is on record adds up: `W i` strings are written to it
in all, and `R i` read from it. -/
structure Tally (D : I → Prop) (m₀ : CStr) (n : ℕ) (l : S.Label) (j : J) (W R : I → ℕ) (x : Traced S) (i : I) : Prop where
  input : x.now.input j = []
  owes : ∃ w r, Owes S i l x.now.client w r ∧ r ≤ R i ∧
    (D i → (x.commands i).flatten.length + (x.now.sent i).count 0 + w = W i ∧
      ∃ N, (x.now.replies i).count 0 + R i = N + r ∧ Standing m₀ n (x.commands i) N (x.now.server i))

section Run

variable {D : I → Prop} {m₀ : CStr} {n : ℕ} {W R : I → ℕ} {x y : Traced S} {a : Option I}

omit [DecidableEq I] [DecidableEq J] in
/-- Nothing has been said. -/
theorem tally_start {s : S.State} (hin : s.input j = []) (ho : Owes S i l s.client (W i) (R i))
    (hs : D i → s.sent i = [] ∧ s.replies i = [] ∧ ∃ m, s.server i = .ret m) :
    Tally D m₀ n l j W R ⟨s, fun _ => []⟩ i := by
  refine ⟨hin, W i, R i, ho, le_rfl, fun hi => ?_⟩
  obtain ⟨hsent, hreplies, m, hm⟩ := hs hi
  exact ⟨by simp [hsent], 0, by simp [hreplies], hm ▸ .head (Nat.zero_le _)⟩

/-- **One step** keeps the sum. -/
theorem Tally.step (hl : S.code l = .read (.inr j) k')
    (hmain : ∀ i, D i → ∀ s, ∃ k, S.main i s = .read () k ∧ Pays n (k m₀)) (h : Tally D m₀ n l j W R x i)
    (hst : tracedStep x a = some y) : Tally D m₀ n l j W R y i := by
  obtain ⟨hin, w, r, ho, hr, hsum⟩ := h
  obtain ⟨hst, hy⟩ := tracedStep_eq_some.1 hst
  cases a with
  | none =>
    obtain ⟨hserver, hinput, w', r', ho', hr', hsent, hreplies⟩ := ho.step hl hin hst
    refine ⟨by rw [hinput, hin], w', r', ho', hr'.trans hr, fun hi => ?_⟩
    obtain ⟨hsum, N, hN, hstand⟩ := hsum hi
    rw [hserver, show y.commands = x.commands from hy]
    exact ⟨by omega, N, by omega, hstand⟩
  | some i' =>
    obtain ⟨hclient, hinput, hframe⟩ := serverStep_frame (i := i) hst
    refine ⟨by rw [hinput, hin], w, r, hclient ▸ ho, hr, fun hi => ?_⟩
    obtain ⟨hsum, N, hN, hstand⟩ := hsum hi
    by_cases hii : i = i'
    · subst hii
      obtain ⟨hlen, N', hN', hstand'⟩ := standing_step (hmain i hi) hstand hst
      rw [hy, recorded, Function.update_self]
      exact ⟨by omega, N', by omega, hstand'⟩
    · obtain ⟨hserver, hsent, hreplies⟩ := hframe hii
      rw [hy, recorded, Function.update_of_ne hii, hserver, hsent, hreplies]
      exact ⟨hsum, N, hN, hstand⟩

/-- **All runs** keep it. -/
theorem Tally.run (hl : S.code l = .read (.inr j) k')
    (hmain : ∀ i, D i → ∀ s, ∃ k, S.main i s = .read () k ∧ Pays n (k m₀)) (h : Tally D m₀ n l j W R x i)
    {as : List (Option I)} (hrun : Run tracedStep (fun _ _ => True) x as y) : Tally D m₀ n l j W R y i :=
  hrun.inv (fun x => Tally D m₀ n l j W R x i) h fun _ _ _ h _ hst => h.step hl hmain hst

/-- A server that has ended with whole commands on record has answered them all, and waits for more. -/
theorem Tally.waits (hi : D i) (hmain : ∀ s, ∃ k, S.main i s = .read () k ∧ Pays n (k m₀))
    (h : Tally D m₀ n l j W R x i) (hend : Ended tracedStep x)
    (hcs : (x.commands i).length = R i ∧ ∀ c ∈ x.commands i, Entire m₀ n c) : ∃ w r, Owes S i l x.now.client w r ∧
      (n + 1) * R i + w = W i ∧ r ≤ (x.now.replies i).count 0 := by
  obtain ⟨-, w, r, ho, -, hsum⟩ := h
  obtain ⟨hsum, N, hN, hstand⟩ := hsum hi
  obtain ⟨hlen, hcs⟩ := hcs
  rw [length_flatten_of_entire hcs, hlen] at hsum
  have hstep : serverStep x.now i = none := ended_tracedStep.1 hend (some i)
  rcases hstand.of_entire hcs with ⟨⟨s, hs⟩, hle⟩ | ⟨b, k, hs⟩
  · obtain ⟨k, hk, -⟩ := hmain s
    have hread : (x.now.server i).enter (S.main i) = .read () k := by rw [hs, Proc.enter_ret, hk]
    have hempty : (x.now.sent i).count 0 = 0 := by
      by_contra hne
      obtain ⟨m, q, hm⟩ := exists_readStr (List.count_pos_iff.1 (Nat.pos_of_ne_zero hne))
      rw [serverStep_read hread hm] at hstep
      cases hstep
    exact ⟨w, r, ho, by omega, by omega⟩
  · have hwrite : (x.now.server i).enter (S.main i) = .write () b k := by rw [hs, Proc.enter_write]
    rw [serverStep_write hwrite] at hstep
    cases hstep

/-- **The account is settled**: where a run ends with whole commands on record, as many as there are answers to read, these
are all that is written. -/
theorem Tally.settled (hmain : ∀ i, D i → ∀ s, ∃ k, S.main i s = .read () k ∧ Pays n (k m₀))
    (h : ∀ i, Tally D m₀ n l j W R x i) (hD : ∀ i, ¬ D i → R i = 0) (hend : Ended tracedStep x)
    (hcs : ∀ i, D i → (x.commands i).length = R i ∧ ∀ c ∈ x.commands i, Entire m₀ n c) (hi : D i) :
    W i = (n + 1) * R i := by
  have hstep : clientStep x.now = none := ended_tracedStep.1 hend none
  obtain ⟨w, r, ho, hW, -⟩ := (h i).waits hi (hmain i hi) hend (hcs i hi)
  -- the client does not wait for an answer
  have hread : ∀ {i' k}, x.now.client ≠ .read (.inl i') k := by
    intro i' k e
    by_cases hi' : D i'
    · obtain ⟨w, r, ho, -, hr⟩ := (h i').waits hi' (hmain i' hi') hend (hcs i' hi')
      rw [e] at ho
      cases ho with
      | receive ho =>
        obtain ⟨m, q, hm⟩ := exists_readStr (List.count_pos_iff.1 (Nat.lt_of_lt_of_le (Nat.succ_pos _) hr))
        rw [clientStep_reply (by rw [e, Proc.enter_read]) hm] at hstep
        cases hstep
      | wait hne ho => exact hne rfl
    · obtain ⟨-, w, r, ho, hr, -⟩ := h i'
      rw [e] at ho
      cases ho with
      | receive ho => exact absurd (hD i' hi') (by omega)
      | wait hne ho => exact hne rfl
  have hwrite : ∀ {ch b k}, x.now.client ≠ .write ch b k := by
    intro ch b k e
    cases ch with
    | inl i' =>
      rw [clientStep_send (by rw [e, Proc.enter_write])] at hstep
      cases hstep
    | inr j' =>
      rw [clientStep_output (by rw [e, Proc.enter_write])] at hstep
      cases hstep
  generalize x.now.client = p at ho hread hwrite
  cases ho with
  | ret => exact hW.symm
  | send ho => exact absurd rfl hwrite
  | write hne ho => exact absurd rfl hwrite
  | receive ho => exact absurd rfl hread
  | wait hne ho => exact absurd rfl hread

end Run

end Star

end NetProg.Lib
