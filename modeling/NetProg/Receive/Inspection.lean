import NetProg.Receive.Delivery

/-!
# What the reader looks at

`copyToString` and the client's `datacopyToString` are to look at a byte only once it has been received.  The client
keeps one double buffer for each data server, filled by a thread of its own: `readfromData` is a round of `readfromClient`
that waits until the socket can be read.

* `inspected_received`: in an orderly run, every byte looked at is one of those received into its buffer since the buffer
  was last begun;
* `inspected_not_received`: a buffer filled up to the threshold exactly is read beyond what it holds.
-/

namespace NetProg.Receive

open NetProg.Lib

variable {T : ℕ} {s s' : State}

/-- The byte at the cursor is one of those received into the buffer since it was last begun. -/
def AtReceived (b : Buffers) : Prop := b.cur b.cursel < b.start b.cursel

theorem Intact.atReceived {q : List Byte} (h : Intact T s.shared q) (ho : Orderly T s .inspect)
    (hst : step T s .inspect = some s') : AtReceived s.shared := by
  simp only [step, inspect, Option.ite_none_left_eq_some] at hst
  exact h.cur_lt hst.1 ho

theorem intact_run {as : List Act} (h : Run (step T) (Orderly T) initial as s) : ∃ q, Intact T s.shared q := by
  obtain ⟨f, hf⟩ := simulates_run h
  exact ⟨f.queue, hf.queue⟩

/-! ### The buffers of the client -/

/-- One round of `readfromData`, with what `select` says about the socket. -/
def readfromData (s : State) (ready : Bool) (chunk : List Byte) : Option State :=
  if ready then recv BLOCKSIZE s chunk else some s

/-- What happens to the buffers of the data server `i`. -/
inductive DataAct where
  | recv (i : ℕ) (ready : Bool) (chunk : List Byte)
  | inspect (i : ℕ)

/-- `readfromData` and `datacopyToString`, on the buffers of all data servers. -/
def dataStep (s : ℕ → State) : DataAct → Option (ℕ → State)
  | .recv i ready chunk => (readfromData (s i) ready chunk).map (Function.update s i)
  | .inspect i => (inspect BLOCKSIZE (s i)).map (Function.update s i)

def DataOrderly (s : ℕ → State) : DataAct → Prop
  | .recv i ready chunk => ready → Orderly BLOCKSIZE (s i) (.recv chunk)
  | .inspect i => Orderly BLOCKSIZE (s i) .inspect

/-- The buffers of one data server are those of a `copyToString` of their own. -/
theorem data_run {ds : ℕ → State} {as : List DataAct} (h : Run dataStep DataOrderly (fun _ => initial) as ds) (i : ℕ) :
    ∃ bs, Run (step BLOCKSIZE) (Orderly BLOCKSIZE) initial bs (ds i) := by
  refine h.inv (fun ds => ∃ bs, Run (step BLOCKSIZE) (Orderly BLOCKSIZE) initial bs (ds i)) ⟨[], .nil⟩
    fun ds a ds' ⟨bs, hbs⟩ ho hst => ?_
  -- an action on another buffer is none on this one
  have hother (j : ℕ) (s : State) (hj : i ≠ j) : ∃ bs, Run (step BLOCKSIZE) (Orderly BLOCKSIZE) initial bs
      (Function.update ds j s i) := ⟨bs, by rwa [Function.update_of_ne hj]⟩
  cases a with
  | recv j ready chunk =>
    obtain ⟨s, hs, rfl⟩ := Option.map_eq_some_iff.1 hst
    by_cases hj : i = j
    · subst hj
      rw [Function.update_self]
      cases ready with
      | false =>
        cases hs
        exact ⟨bs, hbs⟩
      | true =>
        have hst : step BLOCKSIZE (ds i) (.recv chunk) = some s := hs
        exact ⟨_, hbs.snoc (ho rfl) hst⟩
    · exact hother j s hj
  | inspect j =>
    obtain ⟨s, hs, rfl⟩ := Option.map_eq_some_iff.1 hst
    by_cases hj : i = j
    · subst hj
      rw [Function.update_self]
      have hst : step BLOCKSIZE (ds i) .inspect = some s := hs
      exact ⟨_, hbs.snoc (by exact ho) hst⟩
    · exact hother j s hj

/-- **In an orderly run only received bytes are looked at**, by `copyToString` and by `datacopyToString`. -/
theorem inspected_received (T : ℕ) (as : List Act) (s s' : State) (das : List DataAct) (ds ds' : ℕ → State) (i : ℕ) :
    (Run (step T) (Orderly T) initial as s → Orderly T s .inspect → step T s .inspect = some s' →
      AtReceived s.shared) ∧
    (Run dataStep DataOrderly (fun _ => initial) das ds → DataOrderly ds (.inspect i) →
      dataStep ds (.inspect i) = some ds' → AtReceived (ds i).shared) := by
  refine ⟨fun h ho hst => ?_, fun h ho hst => ?_⟩
  · obtain ⟨q, hq⟩ := intact_run h
    exact hq.atReceived ho hst
  · obtain ⟨bs, hbs⟩ := data_run h i
    obtain ⟨q, hq⟩ := intact_run hbs
    obtain ⟨s', hs', -⟩ := Option.map_eq_some_iff.1 hst
    exact hq.atReceived ho hs'

/-- The first byte of the second buffer, in the middle of a string. -/
theorem inspected_received_two : ∃ s ∈ runAll (step 2) (fun s a => Orderly 2 s a) initial
    [.recv [97, 0, 98], .inspect, .recv [99], .inspect, .inspect], s.shared.cursel = .rbuf2 ∧ AtReceived s.shared := by
  have hrun : ∃ s ∈ runAll (step 2) (fun s a => Orderly 2 s a) initial
      [.recv [97, 0, 98], .inspect, .recv [99], .inspect, .inspect],
      s.shared.cursel = .rbuf2 ∧ Orderly 2 s .inspect ∧ (step 2 s .inspect).isSome := by decide
  obtain ⟨s, hs, hsel, ho, hst⟩ := hrun
  obtain ⟨s', hst⟩ := Option.isSome_iff_exists.1 hst
  exact ⟨s, hs, hsel,
    (inspected_received 2 _ s s' [] (fun _ => s) (fun _ => s) 0).1
      (run_of_runAll (fun _ _ => of_decide_eq_true) hs) ho hst⟩

/-! ### A buffer filled up to the threshold -/

/-- The writer takes a buffer again only when the reader has left it. -/
def InTime (T : ℕ) (s : State) : Act → Prop
  | .recv _ => Full T s.shared → s.shared.flips ≤ s.shared.switches
  | .inspect => True

/-- `T` empty strings have been received in one read, and `k` of them taken. -/
def drained (T k : ℕ) : State where
  shared :=
    { rbuf := Function.update (fun _ _ => 0) .rbuf1 (store (fun _ => 0) 0 (List.replicate T 0))
      start := Function.update (fun _ => 0) .rbuf1 T
      cur := Function.update (fun _ => 0) .rbuf1 k
      bufsel := .rbuf1, cursel := .rbuf1, flips := 0, switches := 0 }
  received := List.replicate T 0
  place := .top
  buf := lit ""
  strings := List.replicate k (lit "")

theorem step_drained (T : ℕ) : step T initial (.recv (List.replicate T 0)) = some (drained T 0) := by
  have hflip : flip T initial.shared = initial.shared := if_neg (Nat.not_lt_zero T)
  have hroom : (List.replicate T (0 : Byte)).length ≤ room T initial.shared := by
    simp [room, initial]
    omega
  simp only [step, recv, hflip, if_pos hroom]
  simp [drained, initial, fill]

theorem byte_drained (T k : ℕ) : byte (drained T k).shared = 0 := by
  simp only [byte, drained, Function.update_self, store]
  split
  · rfl
  · cases h : (List.replicate T (0 : Byte))[k - 0]? with
    | none => rfl
    | some b => exact List.eq_of_mem_replicate (List.mem_of_getElem? h)

theorem inspect_drained (T k : ℕ) : step T (drained T k) .inspect = some (drained T (k + 1)) := by
  have hw : ¬ Waits T (drained T k).shared (drained T k).place := by
    simp only [Waits, drained, Function.update_self]
    omega
  have hl : ¬ Last T (drained T k).shared := by
    simp only [Last, drained, Function.update_self]
    omega
  simp only [step, inspect, if_neg hw, dif_pos (byte_drained T k)]
  simp only [endString, advance, if_neg hl]
  simp only [drained, incr, Function.update_self, List.replicate_succ', Sel.other, Option.some.injEq, State.mk.injEq,
    Buffers.mk.injEq, true_and, and_true]
  funext sel
  cases sel <;> simp [Function.update]

theorem run_drained (T k : ℕ) :
    Run (step T) (InTime T) initial (.recv (List.replicate T 0) :: List.replicate k .inspect) (drained T k) := by
  induction k with
  | zero =>
    rw [List.replicate_zero, ← List.nil_append [Act.recv _]]
    exact .snoc .nil (fun h => absurd h (Nat.not_lt_zero T)) (step_drained T)
  | succ k ih =>
    rw [List.replicate_succ', ← List.cons_append]
    exact ih.snoc trivial (inspect_drained T k)

/-- **Bytes that were not received are looked at**: behind 1024 bytes of strings that have arrived in one read, the next
call does not wait. -/
theorem inspected_not_received : ¬ ∀ T ∈ [MAX_SIZE, BLOCKSIZE], ∀ as s s', Run (step T) (InTime T) initial as s →
    step T s .inspect = some s' → AtReceived s.shared := by
  intro h
  have hlt := h MAX_SIZE (by simp) _ _ _ (run_drained MAX_SIZE MAX_SIZE) (inspect_drained MAX_SIZE MAX_SIZE)
  simp [AtReceived, drained] at hlt

end NetProg.Receive
