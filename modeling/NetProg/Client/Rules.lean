import NetProg.Client.Commands

/-!
# Properties that hold all along a line

`Closed c t P` says that the programs of the `t`-th line have the property `P` at the end of the line, and that each of
their moves hands it back.  Then every line has it from its start (`Closed.command`).
-/

namespace NetProg.Client

open NetProg.Lib NetProg.Receive

/-- A property of the programs that carry out the `t`-th line. -/
structure Closed (c : Config) (t : ℕ) (P : Op → Prop) : Prop where
  server {fd b k} : P k → P (.write (.inl fd) b k)
  printf {m k} : P k → P (printf m k)
  receive {fd k} : (∀ m, P (k m)) → P (receive fd k)
  halt {e} : e ≠ .divide → P (.halt e (.prompt t))
  divide : c.no_of_dataservers = 0 → P (.halt .divide (.prompt t))
  done : P (done t)
  opened : ∀ out n, P (.ret (.receiving t out n 0 0))

namespace Closed

variable {c : Config} {t : ℕ} {P : Op → Prop} {fd : Server} {k : Op} {m : CStr}

theorem send (h : Closed c t P) (hk : P k) : P (send fd m k) := h.server hk

theorem attempt (h : Closed c t P) {n : ℤ} {k : CStr → Op} (hk : ∀ s, P (k s)) :
    P (.attempt (.prompt t) (sprintf n) k) := by
  unfold sprintf
  split
  · exact hk _
  · exact h.halt (by decide)

theorem word (h : Closed c t P) {found : Option CStr} {k : CStr → Op} (hk : ∀ m, P (k m)) : P (word t found k) := by
  cases found with
  | none => exact h.halt (by decide)
  | some m => exact hk m

theorem advance (h : Closed c t P) {ptr : ℕ} {k : ℕ → Op} (hk : ∀ ptr', P (k ptr')) : P (advance c t ptr k) := by
  unfold Client.advance
  split
  · next h0 => exact h.divide h0
  · exact hk _

/-! ### The loops -/

theorem sendPieces (h : Closed c t P) (hk : P k) (n : ℕ) (rest : List Byte) : P (sendPieces fd n rest k) := by
  induction n generalizing rest with
  | zero => exact hk
  | succ n ih =>
    unfold Client.sendPieces
    split
    · exact hk
    · exact h.server (ih _)

theorem sendParts (h : Closed c t P) (n i ptr count : ℕ) (dir : CStr) (rest : List Byte) :
    P (sendParts c t n i ptr count dir rest) := by
  induction n generalizing i ptr count dir rest with
  | zero => exact h.done
  | succ n ih =>
    refine h.send (h.sendPieces (h.server (h.send (h.attempt fun _ => h.send ?_))) _ _)
    refine h.attempt fun _ => h.send (h.receive fun data_loc => ?_)
    by_cases hi : i = 0
    · rw [if_pos hi]
      exact h.send (h.advance fun _ => ih _ _ _ _ _)
    · rw [if_neg hi]
      exact h.advance fun _ => ih _ _ _ _ _

theorem requestChunks (h : Closed c t P) (hk : P k) (loc : CStr) (n i ptr : ℕ) :
    P (requestChunks c t loc n i ptr k) := by
  induction n generalizing i ptr with
  | zero => exact hk
  | succ n ih => exact h.send (h.server (h.attempt fun _ => h.send (h.advance fun _ => ih _ _)))

theorem removeChunks (h : Closed c t P) (loc : CStr) (n i ptr : ℕ) : P (removeChunks c t loc n i ptr) := by
  induction n generalizing i ptr with
  | zero => exact h.done
  | succ n ih => exact h.send (h.send (h.attempt fun _ => h.send (h.advance fun _ => ih _ _)))

theorem copyChunks (h : Closed c t P) (loc : CStr) (n i ptr : ℕ) (loca : CStr) :
    P (copyChunks c t loc n i ptr loca) := by
  induction n generalizing i ptr loca with
  | zero => exact h.done
  | succ n ih =>
    refine h.send (h.send (h.attempt fun _ => h.send ?_))
    by_cases hi : i = 0
    · rw [if_pos hi]
      exact h.receive fun _ => h.send (h.advance fun _ => ih _ _ _)
    · rw [if_neg hi]
      exact h.send (h.advance fun _ => ih _ _ _)

/-! ### The commands -/

theorem locate (h : Closed c t P) {choice : CStr} {command : Option CStr} {k : CStr → CStr → ℕ → Op}
    (hk : ∀ found loc n, P (k found loc n)) : P (locate t choice command k) := by
  refine h.send (h.word fun _ => h.send (h.receive fun temp => ?_))
  split
  · exact h.printf h.done
  · exact h.receive fun _ => h.receive fun _ => hk _ _ _

theorem sendPaths (h : Closed c t P) {choice : CStr} {command : Option CStr} (hk : P k) :
    P (sendPaths t choice command k) :=
  h.send (h.word fun _ => h.send (h.word fun _ => h.send hk))

theorem tobigfs (h : Closed c t P) (command : Option CStr) : P (tobigfs c t command) := by
  refine h.send (h.word fun file_name => h.send (h.receive fun temp => ?_))
  split
  · exact h.printf h.done
  · unfold transfertoBigFS
    split
    · exact h.printf h.done
    · exact h.attempt fun _ => h.send (h.sendParts _ _ _ _ _ _)

/-- **Every line has the property**, whatever is typed. -/
theorem command (h : Closed c t P) (line : CStr) : P (command c t line) := by
  refine command_cases (P := P) (h.send (h.receive fun _ => h.printf h.done)) (fun _ => ?_) (fun _ => h.send ?_)
    (fun _ => h.locate fun _ _ n => h.requestChunks (h.opened _ _) _ _ _ _)
    (fun _ => h.sendPaths (h.receive fun _ => ?_)) (fun _ => h.sendPaths (h.receive fun _ => ?_))
    (fun _ => h.locate fun _ _ _ => h.removeChunks _ _ _ _) (fun _ => h.tobigfs _)
    (fun _ => h.locate fun _ _ _ => h.requestChunks (h.opened _ _) _ _ _ _)
    (h.printf (h.halt (by decide))) (h.printf h.done)
  · unfold makeDirectory
    split
    · exact h.printf h.done
    · exact h.send (h.send h.done)
  · split
    · exact h.printf h.done
    · refine h.send (h.receive fun _ => ?_)
      split
      · exact h.printf h.done
      · exact h.done
  · split
    · exact h.printf h.done
    · exact h.done
  · split
    · exact h.printf h.done
    · exact h.receive fun _ => h.receive fun _ => h.copyChunks _ _ _ _ _

end Closed

end NetProg.Client
