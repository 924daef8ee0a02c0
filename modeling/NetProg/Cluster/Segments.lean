import NetProg.Cluster.Session

/-!
# The bytes of a session

What the client sends on a connection as a stream of bytes, and what the server makes of it with one `read` for each field.
A `read` returns as much as it likes of what there is, up to the size it asks for, so that the stream can be cut anywhere;
`received_at_boundaries` says that the server recovers what was sent if it is cut between the fields, and
`not_recovers` that there is no session that it recovers wherever the stream is cut.
-/

namespace NetProg.Cluster

open NetProg.Lib

/-! ### What is sent -/

/-- An array of `MAX_SIZE` bytes that holds a string, and behind its NUL what happened to be there. -/
structure Block where
  text : CStr
  pad : List Byte
  fits : text.bytes.length + 1 + pad.length = MAX_SIZE

namespace Block

def bytes (b : Block) : List Byte := b.text.z ++ b.pad

@[simp] theorem length_bytes (b : Block) : b.bytes.length = MAX_SIZE := by
  simp only [bytes, CStr.z, List.length_append, List.length_singleton]
  exact b.fits

@[simp] theorem ofBytes_bytes (b : Block) : CStr.ofBytes b.bytes = b.text := CStr.ofBytes_z_append b.text b.pad

end Block

/-- What is sent on a connection of the connect loop. -/
structure Sent where
  home : CStr
  msg : Block
  input : Option Block

namespace Sent

def command (s : Sent) : Command := ⟨s.msg.text, s.input.map Block.text⟩

def msgs (s : Sent) : List Msg := ⟨.home, s.home⟩ :: s.command.msgs

def temppipe (s : Sent) : CStr := if s.input.isSome then lit "1" else lit "0"

/-- The home directory without its NUL, the flag with its NUL, and the arrays. -/
def wire (s : Sent) : List Byte :=
  s.home.bytes ++ (s.temppipe.z ++ (s.msg.bytes ++ (s.input.map Block.bytes).getD []))

end Sent

/-! ### What is received -/

/-- The size that a `read` asks for. -/
def Phase.size : Phase → ℕ
  | .home => 255
  | .flag => 2
  | .command _ => MAX_SIZE
  | .input => MAX_SIZE
  | .running => 0

/-- The string in the buffer when `data` has been read into it.  The home directory is not terminated: what `heap` has in
that place and behind it goes on. -/
def heard (heap : List Byte) (p : Phase) (data : List Byte) : CStr :=
  match p with
  | .home => .ofBytes (data ++ heap.drop data.length)
  | _ => .ofBytes data

/-- What the server takes from a stream if its reads return these numbers of bytes and the last one is its last. -/
def receive (heap : List Byte) : Phase → List Byte → List ℕ → Option (List Msg)
  | p, _, [] => if expects p = none then some [] else none
  | p, stream, n :: cuts =>
    match expects p with
    | none => none
    | some k =>
      if 1 ≤ n ∧ n ≤ p.size ∧ n ≤ stream.length then
        match after p (heard heap p (stream.take n)) with
        | none => if cuts = [] then some [⟨k, heard heap p (stream.take n)⟩] else none
        | some p' => (receive heap p' (stream.drop n) cuts).map (⟨k, heard heap p (stream.take n)⟩ :: ·)
      else none

/-- Wherever the stream is cut, the server takes from it what was sent. -/
def Recovers (heap : List Byte) (s : Sent) : Prop :=
  ∀ cuts msgs, receive heap .home s.wire cuts = some msgs → msgs = s.msgs

variable {heap stream : List Byte} {p p' : Phase} {k : Kind} {n : ℕ} {cuts : List ℕ} {msgs : List Msg} {s : Sent}

theorem receive_cons (heap stream : List Byte) (hk : expects p = some k) (hn : 1 ≤ n ∧ n ≤ p.size ∧ n ≤ stream.length)
    (hp : after p (heard heap p (stream.take n)) = some p') (h : receive heap p' (stream.drop n) cuts = some msgs) :
    receive heap p stream (n :: cuts) = some (⟨k, heard heap p (stream.take n)⟩ :: msgs) := by
  unfold receive
  simp only [hk, if_pos hn, hp, h, Option.map_some]

/-! ### Cuts between the fields -/

theorem length_temppipe (s : Sent) : s.temppipe.z.length = 2 := by
  unfold Sent.temppipe
  split <;> rfl

section Boundaries

variable {arg : CStr} {l : List Byte}

theorem length_wire (s : Sent) : s.wire.length =
    s.home.bytes.length + (2 + (MAX_SIZE + ((s.input.map Block.bytes).getD []).length)) := by
  simp only [Sent.wire, List.length_append, length_temppipe, Block.length_bytes]

theorem heard_home (hheap : heap.drop s.home.bytes.length = 0 :: l) :
    heard heap .home (s.wire.take s.home.bytes.length) = s.home := by
  have hz : s.home.bytes ++ 0 :: l = s.home.z ++ l := by simp [CStr.z]
  rw [Sent.wire, List.take_left, heard, hheap, hz]
  exact CStr.ofBytes_z_append s.home l

theorem heard_flag : heard heap .flag ((s.wire.drop s.home.bytes.length).take 2) = s.temppipe := by
  rw [Sent.wire, List.drop_left, ← length_temppipe s, List.take_left]
  have hz := CStr.ofBytes_z_append s.temppipe []
  rw [List.append_nil] at hz
  exact hz

theorem drop_fields : (s.wire.drop s.home.bytes.length).drop 2 = s.msg.bytes ++ (s.input.map Block.bytes).getD [] := by
  rw [Sent.wire, List.drop_left, ← length_temppipe s, List.drop_left]

theorem after_flag (s : Sent) : after .flag s.temppipe = some (.command s.input.isSome) := by
  unfold Sent.temppipe
  cases s.input <;> rfl

/-- The command, and the input behind it. -/
theorem receive_command (heap : List Byte) (harg : arg0 s.msg.text = some arg) (hcd : arg = lit "cd" → s.input = none) :
    receive heap (.command s.input.isSome) (s.msg.bytes ++ (s.input.map Block.bytes).getD [])
      (MAX_SIZE :: s.input.toList.map fun _ => MAX_SIZE) =
      some (⟨.command, s.msg.text⟩ :: s.command.input.toList.map (Msg.mk .input)) := by
  have htake : (s.msg.bytes ++ (s.input.map Block.bytes).getD []).take MAX_SIZE = s.msg.bytes := by
    rw [← s.msg.length_bytes, List.take_left]
  have hdrop : (s.msg.bytes ++ (s.input.map Block.bytes).getD []).drop MAX_SIZE = (s.input.map Block.bytes).getD [] := by
    rw [← s.msg.length_bytes, List.drop_left]
  have hheard : heard heap (.command s.input.isSome) s.msg.bytes = s.msg.text := s.msg.ofBytes_bytes
  have hvalid : 1 ≤ MAX_SIZE ∧ MAX_SIZE ≤ (Phase.command s.input.isSome).size ∧
      MAX_SIZE ≤ (s.msg.bytes ++ (s.input.map Block.bytes).getD []).length := by
    rw [List.length_append, Block.length_bytes]
    exact ⟨by decide, Nat.le_refl _, Nat.le_add_right _ _⟩
  have hafter : after (.command s.input.isSome) s.msg.text = some (if s.input.isSome then .input else .running) := by
    simp only [after, harg, Option.map_some]
    by_cases h : arg = lit "cd"
    · rw [if_pos h, hcd h]
      rfl
    · rw [if_neg h]
  have hrest : receive heap (if s.input.isSome then .input else .running) ((s.input.map Block.bytes).getD [])
      (s.input.toList.map fun _ => MAX_SIZE) = some (s.command.input.toList.map (Msg.mk .input)) := by
    unfold Sent.command
    cases s.input with
    | none => rfl
    | some b =>
      have hinput : heard heap .input (b.bytes.take MAX_SIZE) = b.text := by
        rw [← b.length_bytes, List.take_length]
        exact b.ofBytes_bytes
      have hread : receive heap .input b.bytes [MAX_SIZE] = some [⟨.input, heard heap .input (b.bytes.take MAX_SIZE)⟩] :=
        receive_cons heap b.bytes rfl ⟨by decide, Nat.le_refl _, b.length_bytes.ge⟩ rfl rfl
      rw [hinput] at hread
      exact hread
  have hread := receive_cons heap _ (p := .command s.input.isSome) rfl hvalid
    (by rw [htake, hheard]; exact hafter) (by rw [hdrop]; exact hrest)
  rw [htake, hheard] at hread
  exact hread

/-- **The server recovers what is sent** if its reads return the fields one by one: the home directory is not empty and
fits, the buffer held a NUL behind it, and the command has a word and is not a `cd` with an input. -/
theorem received_at_boundaries (hhome : s.home.bytes ≠ []) (hlen : s.home.bytes.length ≤ 255)
    (hheap : heap.drop s.home.bytes.length = 0 :: l) (harg : arg0 s.msg.text = some arg)
    (hcd : arg = lit "cd" → s.input = none) :
    receive heap .home s.wire (s.home.bytes.length :: 2 :: MAX_SIZE :: s.input.toList.map fun _ => MAX_SIZE) =
      some s.msgs := by
  have hpos := List.length_pos_iff.2 hhome
  have hwire := length_wire s
  have hcommand := receive_command heap harg hcd
  rw [← drop_fields] at hcommand
  have hflag := receive_cons heap (s.wire.drop s.home.bytes.length) (p := .flag) (n := 2) rfl
    ⟨by decide, Nat.le_refl 2, by rw [List.length_drop]; omega⟩ (by rw [heard_flag]; exact after_flag s) hcommand
  have hread := receive_cons heap s.wire (p := .home) (n := s.home.bytes.length) rfl
    ⟨hpos, hlen, by omega⟩ rfl hflag
  rw [heard_home hheap, heard_flag] at hread
  rw [hread, Sent.msgs, Command.msgs, Sent.temppipe, Sent.command]
  simp

end Boundaries

/-! ### Cuts anywhere -/

/-- The reads that are left. -/
def Phase.left : Phase → ℕ
  | .home => 4
  | .flag => 3
  | .command _ => 2
  | .input => 1
  | .running => 0

theorem left_after {text : CStr} (hk : expects p = some k) (hp : after p text = some p') : p'.left < p.left := by
  cases p with
  | home => cases hp; decide
  | flag => cases hp; exact Nat.lt_succ_self 2
  | command ispipe =>
    obtain ⟨arg, -, rfl⟩ := Option.map_eq_some_iff.1 hp
    by_cases hcd : arg = lit "cd"
    · rw [if_pos hcd]
      exact Nat.zero_lt_succ 1
    · rw [if_neg hcd]
      cases ispipe
      · exact Nat.zero_lt_succ 1
      · exact Nat.lt_succ_self 1
  | input => cases hp; decide
  | running => cases hk

theorem receive_of_left (hp : p.left = 0) : receive heap p stream [] = some [] := by
  cases p with
  | running => rfl
  | _ => cases hp

theorem one_le_size (hk : expects p = some k) : 1 ≤ p.size := by
  cases p with
  | running => cases hk
  | home => decide
  | flag => decide
  | command ispipe => exact Nat.succ_pos 1023
  | input => decide

theorem exists_cons (hk : expects p = some k) (hn : 1 ≤ n ∧ n ≤ p.size ∧ n ≤ stream.length)
    (h : ∀ p', after p (heard heap p (stream.take n)) = some p' →
      ∃ cuts msgs, receive heap p' (stream.drop n) cuts = some msgs) :
    ∃ cuts msgs, receive heap p stream (n :: cuts) = some (⟨k, heard heap p (stream.take n)⟩ :: msgs) := by
  cases hafter : after p (heard heap p (stream.take n)) with
  | none => exact ⟨[], [], by simp only [receive, hk, if_pos hn, hafter, if_true]⟩
  | some p' =>
    obtain ⟨cuts, msgs, hrest⟩ := h p' hafter
    exact ⟨cuts, msgs, receive_cons heap stream hk hn hafter hrest⟩

/-- Once a read has returned, the server gets to its last read if there are bytes enough. -/
theorem exists_cut (heap : List Byte) {m : ℕ} (hp : p.left ≤ m + 1) (hk : expects p = some k)
    (hn : 1 ≤ n ∧ n ≤ p.size ∧ n + m ≤ stream.length) :
    ∃ cuts msgs, receive heap p stream (n :: cuts) = some (⟨k, heard heap p (stream.take n)⟩ :: msgs) := by
  induction m generalizing p k stream n with
  | zero =>
    refine exists_cons hk hn fun p' hafter => ?_
    have hleft := left_after hk hafter
    exact ⟨[], [], receive_of_left (by omega)⟩
  | succ m ih =>
    refine exists_cons hk ⟨hn.1, hn.2.1, by omega⟩ fun p' hafter => ?_
    have hleft := left_after hk hafter
    cases hk' : expects p' with
    | none => exact ⟨[], [], by simp only [receive, hk', if_true]⟩
    | some k' =>
      have hdrop : 1 + m ≤ (stream.drop n).length := by
        rw [List.length_drop]
        omega
      obtain ⟨cuts, msgs, hrest⟩ := ih (by omega) hk' ⟨Nat.le_refl 1, one_le_size hk', hdrop⟩
      exact ⟨1 :: cuts, _, hrest⟩

theorem temppipe_z (s : Sent) : ∃ f : Byte, f ≠ 0 ∧ s.temppipe.z = [f, 0] := by
  unfold Sent.temppipe
  split
  · exact ⟨49, by decide, by decide⟩
  · exact ⟨48, by decide, by decide⟩

theorem le_length_wire (s : Sent) : s.home.bytes.length + 2 + MAX_SIZE ≤ s.wire.length := by
  simp only [Sent.wire, List.length_append, length_temppipe, Block.length_bytes]
  omega

/-- The first byte of the flag is taken for the end of the home directory. -/
theorem not_recovers_of_short (h : s.home.bytes.length < 255) : ¬ Recovers heap s := by
  intro hrec
  obtain ⟨f, hf, hflag⟩ := temppipe_z s
  have hwire : ∃ l, s.wire = s.home.bytes ++ f :: l := ⟨_, by rw [Sent.wire, hflag]; rfl⟩
  obtain ⟨l, hl⟩ := hwire
  have htake : s.wire.take (s.home.bytes.length + 1) = s.home.bytes ++ [f] := by
    rw [hl, List.take_length_add_append]
    rfl
  have hlen := le_length_wire s
  have hvalid : 1 ≤ s.home.bytes.length + 1 ∧ s.home.bytes.length + 1 ≤ Phase.home.size ∧
      s.home.bytes.length + 1 + 3 ≤ s.wire.length := by
    simp only [Phase.size, MAX_SIZE] at hlen ⊢
    omega
  obtain ⟨cuts, msgs, hreceive⟩ := exists_cut heap (Nat.le_refl 4) rfl hvalid
  have heq := hrec _ _ hreceive
  have hhome := congrArg Msg.text (List.cons.inj heq).1
  rw [htake] at hhome
  simp only [heard, List.append_assoc, List.singleton_append] at hhome
  exact CStr.ofBytes_append_ne hf _ hhome

/-- The third field is cut out of the home directory. -/
theorem length_text_of_long (hrec : Recovers heap s) (h : 255 ≤ s.home.bytes.length) (hn : 1 ≤ n) (hn' : n ≤ 2) :
    s.msg.text.bytes.length = n := by
  have hdata : ((s.wire.drop 1).drop 1).take n = (s.home.bytes.drop 2).take n := by
    rw [List.drop_drop, Sent.wire, List.drop_append_of_le_length (by omega), List.take_append_of_le_length]
    rw [List.length_drop]
    omega
  have hfree : (0 : Byte) ∉ (s.home.bytes.drop 2).take n := fun hmem =>
    s.home.nul_free (List.mem_of_mem_drop (List.mem_of_mem_take hmem))
  have hlen := le_length_wire s
  simp only [MAX_SIZE] at hlen
  have hcommand : ∀ ispipe, ∃ cuts msgs, receive heap (.command ispipe) ((s.wire.drop 1).drop 1) (n :: cuts) =
      some (⟨.command, heard heap (.command ispipe) (((s.wire.drop 1).drop 1).take n)⟩ :: msgs) := by
    intro ispipe
    refine exists_cut heap (m := 1) (Nat.le_refl 2) rfl ⟨hn, ?_, ?_⟩
    · simp only [Phase.size, MAX_SIZE]
      omega
    · simp only [List.length_drop]
      omega
  obtain ⟨cuts, msgs, hthird⟩ := hcommand (decide (heard heap .flag ((s.wire.drop 1).take 1) ≠ lit "0"))
  have hsecond := receive_cons heap _ (p := .flag) (n := 1) rfl
    ⟨Nat.le_refl 1, Nat.le_succ 1, by rw [List.length_drop]; omega⟩ rfl hthird
  have hfirst := receive_cons heap _ (p := .home) (n := 1) rfl
    ⟨Nat.le_refl 1, by decide, by omega⟩ rfl hsecond
  have heq := hrec _ _ hfirst
  have htext := congrArg Msg.text (List.cons.inj (List.cons.inj (List.cons.inj heq).2).2).1
  have hbytes : ((s.home.bytes.drop 2).take n) = s.msg.text.bytes := by
    rw [← CStr.ofBytes_bytes_of_nul_free hfree, ← hdata]
    exact congrArg CStr.bytes htext
  rw [← hbytes, List.length_take, List.length_drop]
  omega

theorem not_recovers_of_long (h : 255 ≤ s.home.bytes.length) : ¬ Recovers heap s := by
  intro hrec
  have hone := length_text_of_long hrec h (Nat.le_refl 1) (Nat.le_succ 1)
  have htwo := length_text_of_long hrec h (Nat.le_succ 1) (Nat.le_refl 2)
  omega

/-- **No session is recovered** wherever its stream is cut. -/
theorem not_recovers (heap : List Byte) (s : Sent) : ¬ Recovers heap s := by
  by_cases h : s.home.bytes.length < 255
  · exact not_recovers_of_short h
  · exact not_recovers_of_long (by omega)

/-- The home directory `/` and the command `ls`, in a buffer that held zeros. -/
theorem not_recovers_ls : ¬ ∀ (heap : List Byte) (s : Sent), Recovers heap s := by
  intro h
  have hfits : (lit "ls").bytes.length + 1 + (List.replicate 1021 (0 : Byte)).length = MAX_SIZE := by
    rw [List.length_replicate]
    rfl
  have hhome : (lit "/").bytes.length < 255 := by decide
  exact not_recovers_of_short hhome (h (List.replicate 255 0) ⟨lit "/", ⟨lit "ls", _, hfits⟩, none⟩)

end NetProg.Cluster
