import NetProg.BigFs.Reading
import NetProg.BigFs.Upload

/-!
# Printing a file

The line `cat` asks the data servers for all chunks of a file, in turn, and then reads them in the same order.  Each
chunk ends with an empty string, unless it is itself empty: then nothing is sent for it, and the client waits for good.
-/

namespace NetProg.BigFs

open NetProg.Lib NetProg.Client NetProg.Receive NetProg.DataServer

/-! ### Asking for the chunks -/

section Requests

variable {c : Config} {t : ℕ} {name : CStr} {content : List Byte} {k : Client.Op}

/-- The request for one chunk: the number is written behind the location without a NUL in between. -/
theorem sends_request {i : ℕ} {ptr : Server} : Star.Sends (bigfs c) ptr
    (send ptr (lit "cat") <| .write (.inl ptr) (location name).bytes <| send ptr (decimal i) k)
    ([lit "cat", path name i].flatMap CStr.z) k := by
  have hb : [lit "cat", path name i].flatMap CStr.z =
      (lit "cat").z ++ ((location name).bytes ++ ((decimal i).z ++ [])) := by
    simp [CStr.z, path, CStr.cat]
  rw [hb]
  exact sends_write _ (sends_write _ (sends_write _ sends_nil))

/-- The answers to all requests stand ready. -/
theorem goes_requests (hk : 0 < c.no_of_dataservers) {n i : ℕ} {f : Conf} (hi : i + n ≤ 10 ^ 9)
    (hheld : Held c.no_of_dataservers name content f.store (i + n))
    (hf : f.client = requestChunks c t (location name) n i (i % c.no_of_dataservers) k) :
    Goes c f { f with
      client := k
      answers := fun j => f.answers j ++
        dealt c.no_of_dataservers (fun m => answer (block BLOCKSIZE content m)) n i j } := by
  induction n generalizing i f with
  | zero =>
    have hc : f.client = k := hf
    simp only [dealt_zero, List.append_nil, ← hc]
    exact Goes.refl
  | succ n ih =>
    have hclient : f.client = _ := hf.trans (by
      rw [requestChunks, sprintf_eq (by omega), Proc.attempt_ok, advance_eq hk, next_turn])
    have hget := hheld.parts i (by omega)
    refine (goes_data (hclient ▸ sends_request) rfl (printfile_run hget length_block_le)).trans ?_
    rw [Function.update_eq_self]
    have hj : ∀ j, enqueue f.answers (i % c.no_of_dataservers) (answer (block BLOCKSIZE content i)) j ++
        dealt c.no_of_dataservers (fun m => answer (block BLOCKSIZE content m)) n (i + 1) j =
        f.answers j ++ dealt c.no_of_dataservers (fun m => answer (block BLOCKSIZE content m)) (n + 1) i j := by
      intro j
      by_cases hj : j = i % c.no_of_dataservers
      · subst hj
        simp [dealt]
      · simp [dealt, hj, enqueue_of_ne hj]
    simp only [← hj]
    exact ih (by omega) (by rwa [show i + 1 + n = i + (n + 1) by omega]) rfl

end Requests

/-! ### Reading the chunks -/

section Chunks

variable {c : Config} {t N : ℕ} {content : List Byte}

/-- What the loop makes of a state in which the servers have carried out all that they were sent. -/
theorem state_reads {f : Conf} {k : Client.Op} {r : ℕ → List Byte} {b : List Byte} : { f.state c with
      client := k
      replies := withAnswers (f.state c).replies r
      output := enqueue (f.state c).output .terminal b } =
    Conf.state c { f with client := k, answers := r, printed := f.printed ++ b } := by
  have ho : enqueue (f.state c).output .terminal b = (Conf.state c { f with printed := f.printed ++ b }).output := by
    funext j
    cases j <;> simp [Conf.state, enqueue]
  rw [ho]
  ext1 <;> rfl

/-- Chunks that are not empty are printed one after the other. -/
theorem goes_chunks (hk : 0 < c.no_of_dataservers) (hnul : (0 : Byte) ∉ content) {n i : ℕ} {f : Conf} {r : ℕ → List Byte}
    (hi : i + n ≤ N) (hne : ∀ m < i + n, block BLOCKSIZE content m ≠ [])
    (hf : f.client = .ret (.receiving t .stdout N i (i % c.no_of_dataservers)))
    (ha : ∀ j, f.answers j = dealt c.no_of_dataservers (fun m => answer (block BLOCKSIZE content m)) n i j ++ r j)
    (hp : f.printed = content.take (i * BLOCKSIZE)) : Goes c f { f with
      client := .ret (.receiving t .stdout N (i + n) ((i + n) % c.no_of_dataservers))
      answers := r
      printed := content.take ((i + n) * BLOCKSIZE) } := by
  obtain ⟨strings, hb, h⟩ := reads_chunks (x := f.state c) hk hi (fun m _ hm => hne m hm)
    (fun m _ _ h => hnul (mem_of_mem_block h)) hf ha
  rw [puts_stdout, hb] at h
  rw [← take_append_blocks, ← hp]
  exact (congrArg (Reaches Star.step (f.state c)) state_reads).mp h.reaches

end Chunks

/-! ### The line -/

section Line

variable {c : Config} {t : ℕ} {garbage : ℕ → NameServer.Node} {name : CStr} {content typed : List Byte} {f : Conf}

theorem atoi_parts {n : ℕ} (hn : n < 10 ^ 9) : (atoi (decimal n)).toNat = n := by
  rw [atoi_decimal (by omega)]
  rfl

/-- The name server finds the file, and sends its location and the number of its chunks. -/
theorem goes_located {parts : ℕ} {loc choice line : CStr} {k : CStr → ℕ → Client.Op}
    (hline : command c t line = send .name choice (send .name (firstWord name) (receive .name fun temp =>
      if temp = lit "0" then printf (lit "File not found in current directory\n") (done t)
      else receive .name fun loc => receive .name fun chunks => k loc (atoi chunks).toNat)))
    (hchoice : ∀ s, NameServer.dispatch s choice = NameServer.sendFile s) (hparts : parts < 10 ^ 9)
    (hf : f.client = .ret (.prompt t))
    (hname : f.name = .ret (oneFile garbage (firstWord name) (decimal parts) loc)) (hr : f.reply = [])
    (ht : f.typed = line.z ++ typed) : Goes c f { f with
      client := k loc parts
      typed := typed } := by
  have hl : NameServer.sprintfChunks (atoi (decimal parts)) = .ok (decimal parts) := by
    rw [atoi_decimal (by omega)]
    exact if_pos (Nat.lt_succ_of_le ((length_decBytes_le (by decide)).2 hparts))
  have hne : lit "1" ≠ lit "0" := by decide
  refine (goes_line hf ht).trans ?_
  rw [hline]
  have hrun : (f.name.enter fun s => .read () (NameServer.dispatch s)).run [choice] =
      ([], NameServer.sendFile (oneFile garbage (firstWord name) (decimal parts) loc), []) := by
    rw [hname, Proc.enter_ret, Proc.run_read, hchoice]
    rfl
  refine (goes_name (m := choice) sends_one (by exact hrun)).trans ?_
  refine (goes_name (m := firstWord name) sends_one (by exact sendFile_name hl)).trans ?_
  refine (goes_reply (m := lit "1") (r := loc.z ++ (decimal parts).z) rfl (by simp [hr])).trans ?_
  rw [if_neg hne]
  refine (goes_reply (m := loc) (r := (decimal parts).z) rfl rfl).trans ?_
  refine (goes_reply (m := decimal parts) (r := []) rfl (by simp)).trans ?_
  rw [atoi_parts hparts, ← hr, ← hname]
  exact Goes.refl

/-- The client asks for the chunks of the file. -/
theorem goes_found {parts : ℕ} {loc : CStr} (hparts : parts < 10 ^ 9) (hf : f.client = .ret (.prompt t))
    (hname : f.name = .ret (oneFile garbage (firstWord name) (decimal parts) loc)) (hr : f.reply = [])
    (ht : f.typed = (catLine name).z ++ typed) : Goes c f { f with
      client := Client.printfile c t loc parts
      typed := typed } :=
  goes_located command_catLine (fun _ => rfl) hparts hf hname hr ht

end Line

end NetProg.BigFs
