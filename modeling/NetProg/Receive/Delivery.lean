import NetProg.Lib.Fifo
import NetProg.Receive.Buffers

/-!
# What the double buffer delivers

`Intact T s q`: the buffers hold the bytes `q` for the reader, and nothing of them is overwritten.  There are three such
situations, told apart by how often the writer and the reader have changed buffers: both in the same buffer, the writer
one ahead, or the reader, which has drained its buffer before the writer has left it.

The code does not keep the two together.  `Orderly T s a` is the condition on the action `a` under which they stay
together, and `step_simulates` says that an orderly action is one of a faultless queue.

* `strings_delivered`: after a run of orderly actions the strings that `copyToString` has returned are the first ones of
  what the reads have delivered;
* `strings_lost`: they need not be when the writer overtakes the reader.
-/

namespace NetProg.Receive

open NetProg.Lib

variable {T : ℕ} {b : Buffers} {s s' : State} {q chunk : List Byte}

/-! ### The bytes between two positions -/

/-- The bytes at the positions from `i` on, before `j`. -/
def segment (data : ℕ → Byte) (i j : ℕ) : List Byte := (List.range' i (j - i)).map data

section Segment

variable {data : ℕ → Byte} {i j : ℕ}

@[simp] theorem length_segment : (segment data i j).length = j - i := by simp [segment]

@[simp] theorem getElem_segment {k : ℕ} (hk : k < (segment data i j).length) : (segment data i j)[k] = data (i + k) := by
  simp [segment]

@[simp] theorem segment_self : segment data i i = [] := by simp [segment]

theorem segment_of_lt (h : i < j) : segment data i j = data i :: segment data (i + 1) j := by
  have hn : j - i = j - (i + 1) + 1 := by omega
  simp [segment, hn, List.range'_succ]

/-- Bytes stored at the end of a segment make it longer. -/
theorem segment_store (h : i ≤ j) :
    segment (store data j chunk) i (j + chunk.length) = segment data i j ++ chunk := by
  refine List.ext_getElem (by simp; omega) fun k hk hk' => ?_
  rw [getElem_segment, List.getElem_append]
  simp only [length_segment] at hk hk' ⊢
  unfold store
  split
  · next hkn =>
    rw [dif_pos (by omega), getElem_segment]
  · next hkn =>
    have e : i + k - j = k - (j - i) := by omega
    have hlt : k - (j - i) < chunk.length := by omega
    rw [dif_neg (by omega), e, List.getElem?_eq_getElem hlt, Option.getD_some]

end Segment

/-! ### The three situations -/

/-- The buffers hold the bytes `q` for the reader. -/
inductive Intact (T : ℕ) (b : Buffers) : List Byte → Prop where
  /-- both threads use one buffer -/
  | together (hsel : b.cursel = b.bufsel) (hn : b.flips = b.switches)
      (hle : b.cur b.cursel ≤ b.start b.cursel) (hfull : T < b.start b.cursel → b.cur b.cursel < b.start b.cursel) :
      Intact T b (segment (b.rbuf b.cursel) (b.cur b.cursel) (b.start b.cursel))
  /-- the reader has yet to drain the buffer that the writer has left -/
  | behind (hsel : b.cursel = b.bufsel.other) (hn : b.flips = b.switches + 1)
      (hlt : b.cur b.cursel < b.start b.cursel) (hfull : T < b.start b.cursel) :
      Intact T b (segment (b.rbuf b.cursel) (b.cur b.cursel) (b.start b.cursel) ++
        segment (b.rbuf b.bufsel) 0 (b.start b.bufsel))
  /-- the reader has drained the buffer that the writer is about to leave -/
  | ahead (hsel : b.cursel = b.bufsel.other) (hn : b.switches = b.flips + 1)
      (hcur : b.cur b.cursel = 0) (hfull : T < b.start b.bufsel) : Intact T b []

theorem intact_initial (T : ℕ) : Intact T initial.shared [] :=
  .together rfl rfl le_rfl fun h => absurd h (Nat.not_lt_zero T)

/-- What keeps the two threads together: the writer takes a buffer again only when the reader has left it, the reader
looks at a buffer only when the writer has come to it; the reader does not find a drained buffer filled up to the
threshold exactly, where its first loop does not wait; and a string that goes on from the end of one buffer goes on at
the front of the other. -/
def Orderly (T : ℕ) (s : State) : Act → Prop
  | .recv _ => Full T s.shared → s.shared.flips ≤ s.shared.switches
  | .inspect => s.shared.switches ≤ s.shared.flips ∧
      ¬ (s.place = .top ∧ s.shared.start s.shared.cursel = T ∧ T ≤ s.shared.cur s.shared.cursel) ∧
      (byte s.shared ≠ 0 → Last T s.shared → s.shared.cur s.shared.cursel.other = 0)

instance (T : ℕ) (s : State) : ∀ a, Decidable (Orderly T s a)
  | .recv _ => inferInstanceAs (Decidable (_ → _))
  | .inspect => inferInstanceAs (Decidable (_ ∧ _))

/-! ### One step of each thread -/

@[simp] theorem other_other : ∀ sel : Sel, sel.other.other = sel
  | .rbuf1 => rfl
  | .rbuf2 => rfl

theorem other_ne : ∀ sel : Sel, sel.other ≠ sel
  | .rbuf1 => nofun
  | .rbuf2 => nofun

/-- A change of the writer's buffer, made in time, touches nothing that the reader still needs. -/
theorem Intact.flip (h : Intact T b q) (ho : Full T b → b.flips ≤ b.switches) : Intact T (Receive.flip T b) q := by
  by_cases hf : Full T b
  · rw [Receive.flip, if_pos hf]
    cases h with
    | together hsel hn hle hfull =>
      have hne : b.cursel ≠ b.bufsel.other := hsel ▸ (other_ne _).symm
      have hf' : T < b.start b.cursel := hsel ▸ hf
      have := Intact.behind (T := T) (b := { b with
        bufsel := b.bufsel.other, start := Function.update b.start b.bufsel.other 0, flips := b.flips + 1 })
        (by simpa using hsel) (congrArg (· + 1) hn) (by simpa [hne] using hfull hf') (by simpa [hne] using hf')
      simpa [hne] using this
    | behind hsel hn hlt hfull => exact absurd (ho hf) (by omega)
    | ahead hsel hn hcur hfull =>
      have := Intact.together (T := T) (b := { b with
        bufsel := b.bufsel.other, start := Function.update b.start b.bufsel.other 0, flips := b.flips + 1 })
        hsel hn.symm (by simp [hcur]) (by simp [hsel])
      simpa [← hsel, hcur] using this
  · rw [Receive.flip, if_neg hf]
    exact h

theorem not_full_flip (T : ℕ) (b : Buffers) : ¬ Full T (Receive.flip T b) := by
  by_cases hf : Full T b
  · rw [Receive.flip, if_pos hf]
    simp [Full]
  · rwa [Receive.flip, if_neg hf]

/-- What is read into the writer's buffer stands behind all that the reader has yet to take. -/
theorem Intact.fill (h : Intact T b q) (hf : ¬ Full T b) (chunk : List Byte) :
    Intact T (Receive.fill b chunk) (q ++ chunk) := by
  cases h with
  | together hsel hn hle hfull =>
    have hlt : ¬ T < b.start b.cursel := hsel ▸ hf
    have := Intact.together (T := T) (b := Receive.fill b chunk) hsel hn
      (by simp [Receive.fill, hsel] at hle ⊢; omega) (by simp [Receive.fill, hsel] at hle hlt ⊢; omega)
    rw [← segment_store hle]
    simpa [Receive.fill, hsel] using this
  | behind hsel hn hlt hfull =>
    have hne : b.cursel ≠ b.bufsel := hsel ▸ other_ne _
    have := Intact.behind (T := T) (b := Receive.fill b chunk) hsel hn
      (by simpa [Receive.fill, hne] using hlt) (by simpa [Receive.fill, hne] using hfull)
    rw [List.append_assoc, ← segment_store (Nat.zero_le _)]
    simpa [Receive.fill, hne] using this
  | ahead hsel hn hcur hfull => exact absurd hfull hf

/-- A reader that does not wait finds the next byte. -/
theorem Intact.cur_lt (h : Intact T s.shared q) (hw : ¬ Waits T s.shared s.place) (ho : Orderly T s .inspect) :
    s.shared.cur s.shared.cursel < s.shared.start s.shared.cursel := by
  obtain ⟨hnot, htop, -⟩ := ho
  cases h with
  | together hsel hn hle hfull =>
    cases hp : s.place with
    | top =>
      rw [hp] at hw
      rcases Nat.lt_trichotomy (s.shared.start s.shared.cursel) T with h | h | h
      · exact Nat.lt_of_not_le fun hc => hw ⟨h, hc⟩
      · exact h ▸ Nat.lt_of_not_le fun hc => htop ⟨hp, h, hc⟩
      · exact hfull h
    | inner =>
      rw [hp] at hw
      exact Nat.lt_of_not_le hw
  | behind hsel hn hlt hfull => exact hlt
  | ahead hsel hn hcur hfull => omega

/-- The reader takes the first byte of those that are held for it. -/
theorem Intact.advance (h : Intact T b q) (hlt : b.cur b.cursel < b.start b.cursel) (hs : b.switches ≤ b.flips)
    (cur : Sel → ℕ) (hc : cur b.cursel = b.cur b.cursel + 1) (ho : Last T b → cur b.cursel.other = 0) :
    ∃ q', q = byte b :: q' ∧ Intact T (Receive.advance T b cur) q' := by
  by_cases hl : Last T b
  · -- the last byte of the buffer: the reader goes to the other one
    have he : b.start b.cursel = b.cur b.cursel + 1 := by have := hl.1; omega
    have hadv : Receive.advance T b cur =
        { b with cur := cur, cursel := b.cursel.other, switches := b.switches + 1 } := by
      simp [Receive.advance, hl]
    have hseg : segment (b.rbuf b.cursel) (b.cur b.cursel) (b.start b.cursel) = [byte b] := by
      rw [segment_of_lt hlt, he, segment_self, byte]
    rw [hadv]
    cases h with
    | together hsel hn hle hfull =>
      exact ⟨[], hseg, .ahead (by simp [hsel]) (by simp [hn]) (ho hl) (hsel ▸ hl.2)⟩
    | behind hsel hn hlt hfull =>
      have hb : b.cursel.other = b.bufsel := by rw [hsel, other_other]
      have h0 : cur b.bufsel = 0 := hb ▸ ho hl
      have := Intact.together (T := T) (b := { b with
        cur := cur, cursel := b.cursel.other, switches := b.switches + 1 }) hb hn
        (by simp [ho hl]) (by simp [ho hl]; omega)
      exact ⟨segment (b.rbuf b.bufsel) 0 (b.start b.bufsel), by rw [hseg]; rfl, by simpa [hb, h0] using this⟩
    | ahead hsel hn hcur hfull => omega
  · have hadv : Receive.advance T b cur = { b with cur := cur } := by simp [Receive.advance, hl]
    have hl' : T < b.start b.cursel → b.cur b.cursel + 1 < b.start b.cursel := fun hT =>
      Nat.lt_of_not_le fun hle => hl ⟨hle, hT⟩
    rw [hadv]
    cases h with
    | together hsel hn hle hfull =>
      have := Intact.together (T := T) (b := { b with cur := cur }) hsel hn (by simp [hc]; omega) (by simpa [hc] using hl')
      exact ⟨_, segment_of_lt hlt, by simpa [hc] using this⟩
    | behind hsel hn hlt hfull =>
      have := Intact.behind (T := T) (b := { b with cur := cur }) hsel hn (by simpa [hc] using hl' hfull) hfull
      exact ⟨_, by rw [segment_of_lt hlt]; rfl, by simpa [hc] using this⟩
    | ahead hsel hn hcur hfull => omega

/-! ### Runs -/

/-- The threads hold what the faultless queue `f` holds. -/
structure Simulates (T : ℕ) (s : State) (f : Fifo) : Prop where
  queue : Intact T s.shared f.queue
  buf : s.buf = f.buf
  strings : s.strings = f.strings
  received : s.received = f.passed

theorem simulates_initial (T : ℕ) : Simulates T initial .empty := ⟨intact_initial T, rfl, rfl, rfl⟩

/-- The same action on a faultless queue: a read puts its bytes in, an inspection takes one out. -/
def queueStep (f : Fifo) : Act → Option Fifo
  | .recv chunk => some (f.put chunk)
  | .inspect => f.take

/-- **An orderly action is one of a faultless queue.** -/
theorem step_simulates {f : Fifo} {a : Act} (h : Simulates T s f) (ho : Orderly T s a) (hst : step T s a = some s') :
    ∃ f', queueStep f a = some f' ∧ Simulates T s' f' := by
  cases a with
  | recv chunk =>
    simp only [step, recv, Option.ite_none_right_eq_some, Option.some.injEq] at hst
    obtain ⟨-, rfl⟩ := hst
    exact ⟨f.put chunk, rfl, (h.queue.flip ho).fill (not_full_flip T _) chunk, h.buf, h.strings, by simp [h.received]⟩
  | inspect =>
    simp only [step, inspect, Option.ite_none_left_eq_some, Option.some.injEq] at hst
    obtain ⟨hw, rfl⟩ := hst
    have hlt := h.queue.cur_lt hw ho
    obtain ⟨hsw, -, hreset⟩ := ho
    by_cases hb : byte s.shared = 0
    · obtain ⟨q', hq, hi⟩ := h.queue.advance hlt hsw (Function.update (incr s.shared) s.shared.cursel.other 0)
        (by simp [incr, (other_ne _).symm]) (by simp)
      have ht := Fifo.take_of_queue hq
      rw [dif_pos hb] at ht ⊢
      exact ⟨_, ht, hi, rfl, by simp [endString, h.strings, h.buf], h.received.trans (Fifo.passed_take ht).symm⟩
    · obtain ⟨q', hq, hi⟩ := h.queue.advance hlt hsw (incr s.shared) (by simp [incr])
        (by simpa [incr, other_ne] using hreset hb)
      have ht := Fifo.take_of_queue hq
      rw [dif_neg hb] at ht ⊢
      exact ⟨_, ht, hi, by simp [takeByte, h.buf], h.strings, h.received.trans (Fifo.passed_take ht).symm⟩

/-- The strings returned by the finished calls are the first ones of the bytes that the reads have delivered. -/
def Delivered (s : State) : Prop := s.strings.flatMap CStr.z <+: s.received

instance (s : State) : Decidable (Delivered s) := inferInstanceAs (Decidable (_ <+: _))

theorem simulates_run {as : List Act} (h : Run (step T) (Orderly T) initial as s) : ∃ f, Simulates T s f := by
  refine h.inv (fun s => ∃ f, Simulates T s f) ⟨_, simulates_initial T⟩ fun s a s' ⟨f, hf⟩ ho hst => ?_
  obtain ⟨f', -, hf'⟩ := step_simulates hf ho hst
  exact ⟨f', hf'⟩

/-- **Nothing is lost in an orderly run**: whatever the peer sends, however it is cut into reads, `copyToString` returns
its strings in order. -/
theorem strings_delivered {as : List Act} (h : Run (step T) (Orderly T) initial as s) : Delivered s := by
  obtain ⟨f, hf⟩ := simulates_run h
  rw [Delivered, hf.received, hf.strings, Fifo.passed, List.append_assoc]
  exact List.prefix_append _ _

/-- Two strings, the second one cut by the end of the first buffer. -/
theorem strings_delivered_two : ∃ s ∈ runAll (step 2) (fun s a => Orderly 2 s a) initial
    [.recv [97, 0, 98], .inspect, .recv [99], .inspect, .inspect, .recv [0], .inspect, .inspect],
    Delivered s ∧ s.strings = [lit "a", lit "bc"] := by
  obtain ⟨s, hs, hl⟩ : ∃ s ∈ runAll (step 2) (fun s a => Orderly 2 s a) initial
      [.recv [97, 0, 98], .inspect, .recv [99], .inspect, .inspect, .recv [0], .inspect, .inspect],
      s.strings = [lit "a", lit "bc"] := by decide
  exact ⟨s, hs, strings_delivered (run_of_runAll (fun _ _ => of_decide_eq_true) hs), hl⟩

/-- Reads that fill both buffers beyond the threshold, and then the first one again, before `copyToString` is called. -/
def overtake (T : ℕ) : List Act :=
  [.recv (List.replicate (T + 1) 97), .recv (List.replicate (T + 1) 98), .recv [99, 0], .inspect, .inspect]

/-- **The claimed order is not kept**: the first call returns "c", of a stream that begins with 1025 bytes "a". -/
theorem strings_lost : ¬ ∀ T ∈ [MAX_SIZE, BLOCKSIZE], ∀ as s, Run (step T) (fun _ _ => True) initial as s →
    Delivered s := by
  intro h
  obtain ⟨s, hs, hl⟩ : ∃ s ∈ runAll (step MAX_SIZE) (fun _ _ => true) initial (overtake MAX_SIZE), ¬ Delivered s := by
    decide +kernel
  exact hl (h MAX_SIZE (by simp) _ _ (run_of_runAll (fun _ _ _ => trivial) hs))

end NetProg.Receive
