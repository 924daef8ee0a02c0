import NetProg.Client.Commands
import NetProg.DataServer.Transfers
import NetProg.Lib.ShortWrite

/-!
# Sending chunks over a socket that does not take everything

The loops of `transfertoBigFS` and of a data server's `printfile` advance by the size of a piece, whatever `write` has
returned.  They put a chunk on the wire as it is only where every write takes all it is given (`sent_iff`); otherwise
bytes are missing, and nothing says so.
-/

namespace NetProg.BigFs

open NetProg.Lib NetProg.Client NetProg.Receive NetProg.DataServer

section

variable {k : Client.Op} {fuel : ℕ} {rest : List Byte}

/-- The loop of `transfertoBigFS` is given the chunk in pieces that are not empty. -/
theorem requests_sendPieces (fd : Server) (hk : k.requests = []) (h : rest.length ≤ fuel) :
    (sendPieces fd fuel rest k).requests.flatten = rest ∧ ∀ b ∈ (sendPieces fd fuel rest k).requests, b ≠ [] := by
  induction fuel generalizing rest with
  | zero =>
    obtain rfl : rest = [] := List.length_eq_zero_iff.1 (Nat.le_zero.1 h)
    simp [sendPieces, hk]
  | succ fuel ih =>
    unfold sendPieces
    split
    · next hr => simp [hr, hk]
    · next hr =>
      have hP : 0 < PIECE := by decide
      have hpos := List.length_pos_iff.2 hr
      have hlen : (rest.drop PIECE).length ≤ fuel := by
        rw [List.length_drop]
        omega
      obtain ⟨hf, hne⟩ := ih hlen
      refine ⟨by rw [Proc.requests, List.flatten_cons, hf, List.take_append_drop], fun b hb => ?_⟩
      rcases List.mem_cons.1 hb with rfl | hb
      · simp [hr, hP.ne']
      · exact hne b hb

end

/-- The loop of `printfile` is given no empty writes. -/
theorem requests_printLoop {k : DataServer.Op} (hk : k.requests = []) (fuel : ℕ) (rest : List Byte) :
    ∀ b ∈ (printLoop fuel rest k).requests, b ≠ [] := by
  have hP : BLOCKSIZE / 1000 ≠ 0 := by decide
  induction fuel generalizing rest with
  | zero => simp [printLoop, hk]
  | succ fuel ih =>
    unfold printLoop
    split_ifs with hr hl
    · simp [hk]
    · simp only [Proc.requests, List.mem_cons]
      rintro b (rfl | rfl | hb)
      · exact hr
      · simp
      · exact ih _ b hb
    · simp only [Proc.requests, List.mem_cons]
      rintro b (rfl | rfl | hb)
      · simp [hr, hP]
      · simp
      · exact ih _ b hb

/-- **A chunk gets onto the wire as it is where every write takes all it is given**, and only there: the chunk itself in
`transfertoBigFS`, its pieces with the NULs behind them in `printfile`. -/
theorem sent_iff (s : Socket) (fd : Server) (l : Label) (store : Store) (chunk : List Byte) :
    ((sendPieces fd chunk.length chunk (.ret l) : Client.Op).wire s 0 = chunk ↔
      (sendPieces fd chunk.length chunk (.ret l) : Client.Op).Complete s 0) ∧
    ((printLoop chunk.length chunk (.ret store) : DataServer.Op).wire s 0 = answer chunk ↔
      (printLoop chunk.length chunk (.ret store) : DataServer.Op).Complete s 0) := by
  obtain ⟨hf, hne⟩ := requests_sendPieces fd (k := .ret l) rfl (le_refl chunk.length)
  have hprinted : (printLoop chunk.length chunk (.ret store)).requests.flatten = answer chunk := by
    rw [Proc.flatten_requests, printLoop_run, Proc.run_ret, List.append_nil, answer]
  refine ⟨?_, ?_⟩
  · have := Proc.wire_eq_iff (s := s) (t := 0) hne
    rwa [hf] at this
  · have := Proc.wire_eq_iff (s := s) (t := 0) (requests_printLoop (k := .ret store) rfl chunk.length chunk)
    rwa [hprinted] at this

/-- A socket that takes one byte at a time. -/
def slow : Socket where
  write _ m := if 0 < m then some 1 else none
  bound t m x h := by
    simp only [Option.ite_none_right_eq_some, Option.some.injEq] at h
    omega

/-- **Bytes are lost**: of the chunk "ab", a write that takes one byte puts "a" on the wire, and the loop ends. -/
theorem not_sent : ¬ ∀ (s : Socket) (fd : Server) (l : Label) (store : Store) (chunk : List Byte),
    (sendPieces fd chunk.length chunk (.ret l) : Client.Op).wire s 0 = chunk ∧
      (printLoop chunk.length chunk (.ret store) : DataServer.Op).wire s 0 = answer chunk := by
  intro h
  exact absurd (h slow (.data 0) (.prompt 0) [] [97, 98]).1 (by decide)

end NetProg.BigFs
