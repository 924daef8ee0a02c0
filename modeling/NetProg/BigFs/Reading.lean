import NetProg.BigFs.System
import NetProg.DataServer.Transfers
import NetProg.Lib.RoundRobin

/-!
# Reading the chunks of a file

The loop of `printfile` and `savefile` that takes chunk `i` from data server `i % k`, string after string, until one is
empty.  The bytes of a chunk come as strings that are not empty with an empty one behind them, so that the loop knows
where each chunk ends, whatever has been sent behind it.

* `reads_chunks`: what the loop does with any chunks that are not empty, and with what is behind them;
* `read_back`: chunks that the data servers have sent with `printfile` are put out in order, and nothing is left.
-/

namespace NetProg.BigFs

open NetProg.Lib NetProg.Client NetProg.Receive NetProg.DataServer

/-! ### Where the strings go -/

section Streams

variable (c : Config) (t : ℕ)

/-- The channel that a stream writes to. -/
def channel : Stream → Local
  | .stdout => .terminal
  | .file name _ => .file t name

/-- What is left in the buffer of a stream. -/
def pending : Stream → List Byte
  | .stdout => []
  | .file _ pending => pending

/-- What is written when `b` is printed to a stream, and the stream behind that. -/
def put : Stream → List Byte → List Byte × Stream
  | .stdout, b => (b, .stdout)
  | .file name pending, b => ((fprintf c pending b).1, .file name (fprintf c pending b).2)

/-- One string after the other is printed. -/
def puts : Stream → List CStr → List Byte × Stream
  | out, [] => ([], out)
  | out, s :: strings =>
    ((put c out s.bytes).1 ++ (puts (put c out s.bytes).2 strings).1, (puts (put c out s.bytes).2 strings).2)

variable {c t} {out : Stream} {s : CStr} {strings strings' : List CStr}

@[simp] theorem puts_nil : puts c out [] = ([], out) := rfl

@[simp] theorem puts_stdout : puts c .stdout strings = (strings.flatMap CStr.bytes, .stdout) := by
  induction strings with
  | nil => rfl
  | cons s strings ih => simp [puts, put, ih]

theorem puts_append : puts c out (strings ++ strings') =
    ((puts c out strings).1 ++ (puts c (puts c out strings).2 strings').1, (puts c (puts c out strings).2 strings').2) := by
  induction strings generalizing out with
  | nil => simp
  | cons s strings ih => simp [puts, ih]

@[simp] theorem channel_put {b : List Byte} : channel t (put c out b).2 = channel t out := by cases out <;> rfl

@[simp] theorem channel_puts : channel t (puts c out strings).2 = channel t out := by
  induction strings generalizing out with
  | nil => rfl
  | cons s strings ih => exact ih.trans channel_put

theorem put_pending {b : List Byte} : (put c out b).1 ++ pending (put c out b).2 = pending out ++ b := by
  cases out with
  | stdout => simp [put, pending]
  | file name p => simp [put, pending, fprintf]

/-- No byte is lost: all of them have been written or are in the buffer. -/
theorem puts_pending : (puts c out strings).1 ++ pending (puts c out strings).2 =
    pending out ++ strings.flatMap CStr.bytes := by
  induction strings generalizing out with
  | nil => simp
  | cons s strings ih =>
    rw [puts, List.append_assoc, ih, ← List.append_assoc, put_pending, List.flatMap_cons, List.append_assoc]

end Streams

/-! ### One chunk -/

section Chunk

variable {c : Config} {t N i ptr : ℕ} {out : Stream} {x : (bigfs c).State} {s : CStr} {b r : List Byte}

theorem enter_receiving {p : Client.Op} (hi : i < N) (hp : p = .ret (.receiving t out N i ptr)) :
    p.enter (code c) = receive (.data ptr) fun temp_buf =>
      if temp_buf = lit "" then Client.advance c t ptr fun ptr' => .ret (.receiving t out N (i + 1) ptr')
      else .write (.inr (channel t out)) (put c out temp_buf.bytes).1
        (.ret (.receiving t (put c out temp_buf.bytes).2 N i ptr)) := by
  rw [hp, Proc.enter_ret, code]
  cases out <;> exact if_pos hi

/-- A string that is not empty is printed. -/
theorem reads_string (hi : i < N) (hx : x.client = .ret (.receiving t out N i ptr))
    (hm : x.replies (.data ptr) = s.z ++ r) (hs : s ≠ lit "") : Star.Alone x { x with
      client := .ret (.receiving t (put c out s.bytes).2 N i ptr)
      replies := Function.update x.replies (.data ptr) r
      output := enqueue x.output (channel t out) (put c out s.bytes).1 } := by
  have hread := Star.clientStep_reply (enter_receiving hi hx) (readStr_eq_some.2 hm)
  rw [if_neg hs] at hread
  exact (Star.Alone.single hread).trans (.single (Star.clientStep_output rfl))

/-- At an empty string the loop goes on to the next data server. -/
theorem reads_empty (hk : 0 < c.no_of_dataservers) (hi : i < N) (hx : x.client = .ret (.receiving t out N i ptr))
    (hm : x.replies (.data ptr) = (lit "").z ++ r) : Star.Alone x { x with
      client := .ret (.receiving t out N (i + 1) ((ptr + 1) % c.no_of_dataservers))
      replies := Function.update x.replies (.data ptr) r } := by
  have hread := Star.clientStep_reply (enter_receiving hi hx) (readStr_eq_some.2 hm)
  rw [if_pos rfl, Client.advance, if_neg (Nat.pos_iff_ne_zero.1 hk)] at hread
  exact .single hread

theorem reads_strings (hi : i < N) {strings : List CStr} (hp : ∀ s ∈ strings, s ≠ lit "")
    (hx : x.client = .ret (.receiving t out N i ptr)) (hm : x.replies (.data ptr) = strings.flatMap CStr.z ++ r) :
    Star.Alone x { x with
      client := .ret (.receiving t (puts c out strings).2 N i ptr)
      replies := Function.update x.replies (.data ptr) r
      output := enqueue x.output (channel t out) (puts c out strings).1 } := by
  induction strings generalizing x out with
  | nil =>
    have hr : x.replies (.data ptr) = r := hm
    simp only [puts_nil, enqueue_nil, ← hx, ← hr, Function.update_eq_self]
    exact .refl
  | cons s strings ih =>
    rw [List.flatMap_cons, List.append_assoc] at hm
    refine (reads_string hi hx hm (hp s (List.mem_cons_self ..))).trans ?_
    have hrest := ih (x := { x with
      client := .ret (.receiving t (put c out s.bytes).2 N i ptr)
      replies := Function.update x.replies (.data ptr) (strings.flatMap CStr.z ++ r)
      output := enqueue x.output (channel t out) (put c out s.bytes).1 })
      (fun s hs => hp s (List.mem_cons_of_mem _ hs)) rfl (by simp)
    simpa [puts, enqueue_enqueue] using hrest

/-- **One chunk**: its strings are printed, and the empty one behind them is taken. -/
theorem reads_chunk (hk : 0 < c.no_of_dataservers) (hi : i < N) (hne : b ≠ []) (hnul : (0 : Byte) ∉ b)
    (hx : x.client = .ret (.receiving t out N i ptr)) (hm : x.replies (.data ptr) = answer b ++ r) :
    ∃ strings : List CStr, strings.flatMap CStr.bytes = b ∧ Star.Alone x { x with
      client := .ret (.receiving t (puts c out strings).2 N (i + 1) ((ptr + 1) % c.no_of_dataservers))
      replies := Function.update x.replies (.data ptr) r
      output := enqueue x.output (channel t out) (puts c out strings).1 } := by
  obtain ⟨strings, hp, hb, he⟩ := printed_eq le_rfl hnul hne
  rw [answer, he, List.append_assoc] at hm
  refine ⟨strings, hb, (reads_strings hi hp hx hm).trans ?_⟩
  have hend := reads_empty (x := { x with
      client := .ret (.receiving t (puts c out strings).2 N i ptr)
      replies := Function.update x.replies (.data ptr) ((lit "").z ++ r)
      output := enqueue x.output (channel t out) (puts c out strings).1 }) (r := r) hk hi rfl (by simp)
  simpa using hend

end Chunk

/-! ### All chunks -/

section Chunks

variable {c : Config} {t N : ℕ}

/-- The queues from the data servers are `r`. -/
def withAnswers (q : Server → List Byte) (r : ℕ → List Byte) : Server → List Byte
  | .name => q .name
  | .data j => r j

variable {q : Server → List Byte} {r r' : ℕ → List Byte} {j : ℕ}

@[simp] theorem withAnswers_data : withAnswers q r (.data j) = r j := rfl

@[simp] theorem withAnswers_withAnswers : withAnswers (withAnswers q r) r' = withAnswers q r' := by
  funext i
  cases i <;> rfl

theorem withAnswers_self (h : ∀ j, q (.data j) = r j) : withAnswers q r = q := by
  funext i
  cases i with
  | name => rfl
  | data j => exact (h j).symm

theorem withAnswers_update {b : List Byte} :
    Function.update q (.data j) b = withAnswers q (Function.update (fun i => q (.data i)) j b) := by
  funext i
  cases i with
  | name => simp [withAnswers]
  | data i => by_cases h : i = j <;> simp [withAnswers, h]

/-- **Chunks that are not empty** are read one after the other, in turn from the data servers: what they are made of is
printed, and what is behind them in the queues is left there. -/
theorem reads_chunks (hk : 0 < c.no_of_dataservers) {chunk : ℕ → List Byte} {n i : ℕ} {out : Stream} {x : (bigfs c).State}
    (hi : i + n ≤ N) (hne : ∀ m, i ≤ m → m < i + n → chunk m ≠ []) (hnul : ∀ m, i ≤ m → m < i + n → (0 : Byte) ∉ chunk m)
    (hx : x.client = .ret (.receiving t out N i (i % c.no_of_dataservers)))
    (hm : ∀ j, x.replies (.data j) = dealt c.no_of_dataservers (fun m => answer (chunk m)) n i j ++ r j) :
    ∃ strings : List CStr, strings.flatMap CStr.bytes = (List.range' i n).flatMap chunk ∧ Star.Alone x { x with
      client := .ret (.receiving t (puts c out strings).2 N (i + n) ((i + n) % c.no_of_dataservers))
      replies := withAnswers x.replies r
      output := enqueue x.output (channel t out) (puts c out strings).1 } := by
  induction n generalizing i out x with
  | zero =>
    refine ⟨[], rfl, ?_⟩
    have hr : withAnswers x.replies r = x.replies := withAnswers_self hm
    simp only [puts_nil, enqueue_nil, Nat.add_zero, ← hx, hr]
    exact .refl
  | succ n ih =>
    let r₁ := dealt c.no_of_dataservers (fun m => answer (chunk m)) n (i + 1)
    have hfirst : x.replies (.data (i % c.no_of_dataservers)) =
        answer (chunk i) ++ (r₁ (i % c.no_of_dataservers) ++ r (i % c.no_of_dataservers)) := by
      rw [hm]
      simp [dealt, r₁]
    obtain ⟨strings, hb, h⟩ := reads_chunk hk (by omega) (hne i le_rfl (by omega)) (hnul i le_rfl (by omega)) hx hfirst
    have hrest : withAnswers x.replies (fun j => r₁ j ++ r j) = Function.update x.replies
        (.data (i % c.no_of_dataservers)) (r₁ (i % c.no_of_dataservers) ++ r (i % c.no_of_dataservers)) := by
      rw [withAnswers_update]
      refine congrArg (withAnswers x.replies) (funext fun j => ?_)
      by_cases hj : j = i % c.no_of_dataservers
      · simp [hj]
      · simp [hj, hm, dealt, r₁]
    rw [next_turn, ← hrest] at h
    obtain ⟨strings', hb', h'⟩ := ih (i := i + 1) (x := { x with
        client := .ret (.receiving t (puts c out strings).2 N (i + 1) ((i + 1) % c.no_of_dataservers))
        replies := withAnswers x.replies fun j => r₁ j ++ r j
        output := enqueue x.output (channel t out) (puts c out strings).1 }) (by omega)
      (fun m hm hlt => hne m (by omega) (by omega)) (fun m hm hlt => hnul m (by omega) (by omega)) rfl fun j => rfl
    refine ⟨strings ++ strings', ?_, h.trans ?_⟩
    · rw [List.flatMap_append, hb, hb', List.range'_succ, List.flatMap_cons]
    · simpa [puts_append, enqueue_enqueue, show i + (n + 1) = i + 1 + n by omega] using h'

end Chunks

/-! ### What the data servers send -/

theorem flatten_eq_flatMap_range' {chunks : List (List Byte)} :
    (List.range' 0 chunks.length).flatMap (fun i => chunks.getD i []) = chunks.flatten := by
  rw [← List.range_eq_range', List.flatMap_def]
  refine congrArg List.flatten (List.ext_getElem (by simp) fun i h _ => ?_)
  have hi : i < chunks.length := by simpa using h
  simp [hi]

/-- **Reading back.**  The data servers have sent the output of `printfile` for the chunks of a file, each server its own
chunks in their order.  The loop then puts out the chunks in order, and leaves nothing in the queues. -/
theorem read_back {c : Config} {t : ℕ} {out : Stream} {x : (bigfs c).State} {chunks : List (List Byte)} {store : ℕ → Store}
    {loc : ℕ → CStr} (hk : 0 < c.no_of_dataservers) (hne : ∀ b ∈ chunks, b ≠ []) (hnul : ∀ b ∈ chunks, (0 : Byte) ∉ b)
    (hlen : ∀ b ∈ chunks, b.length ≤ BLOCKSIZE)
    (hget : ∀ i < chunks.length, (store (i % c.no_of_dataservers)).get (loc i) = some (chunks.getD i []))
    (hx : x.client = .ret (.receiving t out chunks.length 0 0))
    (ha : ∀ j, x.replies (.data j) = dealt c.no_of_dataservers
      (fun i => ((DataServer.printfile (store (i % c.no_of_dataservers))).run [loc i]).1) chunks.length 0 j) :
    ∃ y out', Star.Alone x y ∧
      y.client = .ret (.receiving t out' chunks.length chunks.length (chunks.length % c.no_of_dataservers)) ∧
      channel t out' = channel t out ∧
      y.output (channel t out) ++ pending out' = x.output (channel t out) ++ pending out ++ chunks.flatten ∧
      ∀ j, y.replies (.data j) = [] := by
  let chunk (i : ℕ) : List Byte := chunks.getD i []
  have hmem : ∀ i < chunks.length, chunk i ∈ chunks := fun i hi => by
    have hget : chunk i = chunks[i] := by simp [chunk, hi]
    rw [hget]
    exact List.getElem_mem hi
  have hm (j : ℕ) : x.replies (.data j) =
      dealt c.no_of_dataservers (fun i => answer (chunk i)) chunks.length 0 j ++ [] := by
    rw [ha, List.append_nil]
    refine congrFun (dealt_congr fun i _ hi => ?_) j
    have hi : i < chunks.length := by omega
    rw [printfile_answer (hget i hi) (hlen _ (hmem i hi))]
  have hstart : x.client = .ret (.receiving t out chunks.length 0 (0 % c.no_of_dataservers)) :=
    hx.trans (by rw [Nat.zero_mod])
  obtain ⟨strings, hb, h⟩ := reads_chunks (n := chunks.length) hk (by omega) (fun i _ hi => hne _ (hmem i (by omega)))
    (fun i _ hi => hnul _ (hmem i (by omega))) hstart hm
  rw [Nat.zero_add] at h
  refine ⟨_, (puts c out strings).2, h, rfl, channel_puts, ?_, fun j => rfl⟩
  dsimp only
  rw [enqueue_self, List.append_assoc, puts_pending, hb, flatten_eq_flatMap_range', List.append_assoc]

/-- Two data servers and three chunks. -/
theorem read_back_three : ∃ y out', Star.Alone (S := bigfs ⟨2, fun _ _ => none, 0⟩) {
    start _ NameServer.zeroed (fun _ => []) [] with
      client := .ret (.receiving 0 .stdout 3 0 0)
      replies := withAnswers (fun _ => []) (dealt 2 (fun i => ((DataServer.printfile
        [(path (lit "a") 0, [97]), (path (lit "a") 1, [98]), (path (lit "a") 2, [99])]).run [path (lit "a") i]).1) 3 0) } y ∧
    y.client = .ret (.receiving 0 out' 3 3 1) ∧ channel 0 out' = .terminal ∧
    y.output .terminal ++ pending out' = [97, 98, 99] ∧ ∀ j, y.replies (.data j) = [] :=
  @read_back ⟨2, fun _ _ => none, 0⟩ 0 .stdout _ [[97], [98], [99]]
    (fun _ => [(path (lit "a") 0, [97]), (path (lit "a") 1, [98]), (path (lit "a") 2, [99])]) (path (lit "a"))
    (by decide) (by decide) (by decide) (by decide) (by decide) rfl fun _ => rfl

end NetProg.BigFs
