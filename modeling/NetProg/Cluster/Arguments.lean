import NetProg.Cluster.Session
import NetProg.Lib.Slots

/-!
# The words of a command

`runcommand` of the client and the loop of the server split a command in the same way: the spaces are counted, and `strsep`
fills a vector of that size, where an empty token is written over by the next one.

`split_exact`: both loops end, stay inside the vector and leave the words of the command and a NULL at its front.
-/

namespace NetProg.Cluster

open NetProg.Lib

/-- An access outside the vector, or a loop that goes on. -/
inductive Fault where
  | bounds
  | fuel
  deriving DecidableEq

/-- The loop that counts the spaces. -/
def countLoop (msg : CStr) : ℕ := msg.bytes.foldl (fun count b => if b = space then count + 1 else count) 2

/-- `arg[ptr] = ..`; the index can be negative. -/
def storeArg {count : ℕ} (arg : Vector (Option CStr) count) (ptr : ℤ) (x : Option CStr) :
    Except Fault (Vector (Option CStr) count) :=
  if 0 ≤ ptr then Slots.store .bounds arg ptr.toNat x else .error .bounds

/-- The loop with `strsep`; the first argument bounds its rounds. -/
def splitLoop {count : ℕ} : ℕ → ℤ → Option CStr → Vector (Option CStr) count → Except Fault (Vector (Option CStr) count)
  | 0, _, _, _ => .error .fuel
  | fuel + 1, ptr, msg, arg =>
    if ptr < count then do
      let (tok, msg) := strsep space msg
      let arg ← storeArg arg ptr tok
      match tok with
      | none => .ok arg
      | some tok => splitLoop fuel ((if tok.bytes = [] then ptr - 1 else ptr) + 1) msg arg
    else .ok arg

/-- `arg` in `runcommand` of the client, from what `malloc` has left there. -/
def runcommandArg (fuel : ℕ) (msg : CStr) (arg : Vector (Option CStr) (countLoop msg)) :
    Except Fault (Vector (Option CStr) (countLoop msg)) := splitLoop fuel 0 (some msg) arg

/-- `arg` in the server. -/
def serverArg (fuel : ℕ) (msg : CStr) (arg : Vector (Option CStr) (countLoop msg)) :
    Except Fault (Vector (Option CStr) (countLoop msg)) := splitLoop fuel 0 (some msg) arg

/-- The words of a command: what is between spaces and not empty. -/
def words (msg : CStr) : List CStr := (fields space msg).filter fun s => s.bytes ≠ []

section Arguments

variable {count fuel : ℕ} {msg : CStr} {ws : List CStr}

theorem countLoop_eq (msg : CStr) : countLoop msg = msg.bytes.count space + 2 := by
  have hgen : ∀ (l : List Byte) (n : ℕ), l.foldl (fun count b => if b = space then count + 1 else count) n =
      l.count space + n := by
    intro l
    induction l with
    | nil => intro n; simp
    | cons b l ih =>
      intro n
      rw [List.foldl_cons, ih, List.count_cons]
      by_cases hb : b = space
      · simp [hb]
        omega
      · simp [hb]
  exact hgen msg.bytes 2

/-- One token more than spaces. -/
theorem length_fieldBytes (l : List Byte) : (fieldBytes space l).length = l.count space + 1 := by
  induction l with
  | nil => rfl
  | cons b l ih =>
    unfold fieldBytes
    by_cases hb : b = space
    · rw [if_pos hb, List.length_cons, ih, hb, List.count_cons_self]
    · rw [if_neg hb, List.count_cons_of_ne hb]
      cases he : fieldBytes space l with
      | nil =>
        rw [fieldBytes_eq_sep] at he
        cases he
      | cons f fs =>
        rw [he] at ih
        exact ih

theorem length_fields (msg : CStr) : (fields space msg).length + 1 = countLoop msg := by
  have hlen := congrArg List.length (fields_bytes space msg)
  rw [List.length_map, length_fieldBytes] at hlen
  rw [hlen, countLoop_eq]

theorem storeArg_natCast {arg : Vector (Option CStr) count} {x : Option CStr} (n : ℕ) :
    storeArg arg n x = Slots.store .bounds arg n x := if_pos (Int.natCast_nonneg n)

/-- The tokens that the loop has still to go through. -/
def tokens (msg : Option CStr) : List CStr := msg.elim [] (fields space)

/-- **The loop over the tokens.**  The words so far are at the front of the vector, and there is room for one more entry
than there are tokens left. -/
theorem splitLoop_eq_ok {arg : Vector (Option CStr) count} {msg : Option CStr} (h : ws.map some <+: arg.toList)
    (hcount : ws.length + (tokens msg).length < count) (hfuel : (tokens msg).length < fuel) :
    ∃ arg', splitLoop fuel ws.length msg arg = .ok arg' ∧
      (ws ++ (tokens msg).filter fun s => s.bytes ≠ []).map some ++ [none] <+: arg'.toList := by
  induction fuel generalizing ws msg arg with
  | zero => omega
  | succ fuel ih =>
    have hlt : (ws.length : ℤ) < count := by omega
    rw [splitLoop, if_pos hlt]
    have hstore (x : Option CStr) : storeArg arg ws.length x = .ok (arg.set ws.length x (by omega)) := by
      rw [storeArg_natCast, Slots.store_of_lt (by omega)]
    have hstored (x : Option CStr) : Slots.store Fault.bounds arg (ws.map some).length x =
        .ok (arg.set ws.length x (by omega)) := by
      rw [List.length_map, Slots.store_of_lt (by omega)]
    cases msg with
    | none =>
      refine ⟨arg.set ws.length none (by omega), ?_, ?_⟩
      · show (storeArg arg ws.length none >>= fun arg => .ok arg) = _
        rw [hstore]
        rfl
      · show (ws ++ []).map some ++ [none] <+: _
        rw [List.append_nil]
        exact Slots.prefix_store h (hstored none)
    | some s =>
      obtain ⟨tok, rest, hsep⟩ : ∃ tok rest, strsep space (some s) = (some tok, rest) := ⟨_, _, rfl⟩
      have htokens : tokens (some s) = tok :: tokens rest := by
        show fields space s = _
        rw [fields_eq_strsep, hsep]
        rfl
      rw [htokens, List.length_cons] at hcount hfuel
      rw [htokens, hsep]
      show ∃ arg', (storeArg arg ws.length (some tok) >>= fun arg =>
        splitLoop fuel ((if tok.bytes = [] then (ws.length : ℤ) - 1 else ws.length) + 1) rest arg) = .ok arg' ∧ _
      rw [hstore]
      show ∃ arg', splitLoop fuel ((if tok.bytes = [] then (ws.length : ℤ) - 1 else ws.length) + 1) rest _ = .ok arg' ∧ _
      by_cases hempty : tok.bytes = []
      · -- the next token goes to the same place
        have hptr : (ws.length : ℤ) - 1 + 1 = ws.length := by omega
        have hprefix : ws.map some <+: (arg.set ws.length (some tok) (by omega)).toList :=
          Slots.prefix_store_of_le h (le_refl _) (hstored (some tok))
        obtain ⟨arg', hloop, hwords⟩ := ih hprefix (show _ + (tokens rest).length < _ by omega) (by omega)
        rw [if_pos hempty, hptr, List.filter_cons_of_neg (by simpa using hempty)]
        exact ⟨arg', hloop, hwords⟩
      · have hprefix : (ws ++ [tok]).map some <+: (arg.set ws.length (some tok) (by omega)).toList := by
          rw [List.map_append]
          exact Slots.prefix_store h (hstored (some tok))
        have hlen : (ws ++ [tok]).length = ws.length + 1 := List.length_append
        obtain ⟨arg', hloop, hwords⟩ := ih hprefix (show _ + (tokens rest).length < _ by omega) (by omega)
        rw [hlen, Int.natCast_succ] at hloop
        rw [List.append_assoc, List.singleton_append] at hwords
        rw [if_neg hempty, List.filter_cons_of_pos (by simpa using hempty)]
        exact ⟨arg', hloop, hwords⟩

/-- What one of the loops does with a command. -/
theorem splitLoop_start (msg : CStr) (arg : Vector (Option CStr) (countLoop msg)) (hfuel : msg.bytes.length + 2 ≤ fuel) :
    ∃ arg', splitLoop fuel 0 (some msg) arg = .ok arg' ∧ (words msg).map some ++ [none] <+: arg'.toList := by
  have hfields := length_fields msg
  have hcount : countLoop msg ≤ msg.bytes.length + 2 := by
    rw [countLoop_eq]
    exact Nat.add_le_add_right List.count_le_length 2
  have hlen : (tokens (some msg)).length = (fields space msg).length := rfl
  have hempty : ([] : List CStr).map some <+: arg.toList := List.nil_prefix
  exact splitLoop_eq_ok hempty (by rw [List.length_nil]; omega) (by omega)

/-- **Splitting is exact on both machines.**  For every command both loops end without an access outside the vector, and
leave the words in order and a NULL behind them; there is room for them whatever the spaces are. -/
theorem split_exact (msg : CStr) (arg arg' : Vector (Option CStr) (countLoop msg)) :
    ∃ bound, ∀ fuel ≥ bound, ∃ client server, runcommandArg fuel msg arg = .ok client ∧
      serverArg fuel msg arg' = .ok server ∧ (words msg).length < countLoop msg ∧
      client.toList.take ((words msg).length + 1) = (words msg).map some ++ [none] ∧
      server.toList.take ((words msg).length + 1) = (words msg).map some ++ [none] := by
  refine ⟨msg.bytes.length + 2, fun fuel hfuel => ?_⟩
  obtain ⟨client, hclient, hwords⟩ := splitLoop_start msg arg hfuel
  obtain ⟨server, hserver, hwords'⟩ := splitLoop_start msg arg' hfuel
  have hlen : ((words msg).map some ++ [none]).length = (words msg).length + 1 := by
    rw [List.length_append, List.length_map, List.length_singleton]
  have hle := Slots.length_le_of_prefix hwords
  rw [hlen] at hle
  refine ⟨client, server, hclient, hserver, hle, ?_, ?_⟩
  · rw [← hlen]
    exact (List.prefix_iff_eq_take.1 hwords).symm
  · rw [← hlen]
    exact (List.prefix_iff_eq_take.1 hwords').symm

/-- So `arg[0]` is what the server goes by. -/
theorem head?_words (msg : CStr) : (words msg).head? = arg0 msg := rfl

end Arguments

end NetProg.Cluster
