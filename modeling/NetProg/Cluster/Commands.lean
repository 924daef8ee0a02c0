import NetProg.Cluster.Arguments
import NetProg.Lib.Inet
import NetProg.Lib.Process

/-!
# Command lines of the cluster shell

`executeshell` with what it calls: a line, or a stage of one with bars, goes to the node whose name stands before its first
dot, to all active nodes, or to this one.  A pointer that is moved behind the NUL of the line is a fault, and so is a NULL
that is compared with `cd`.

`safe_iff`: which lines are executed without a fault, and with texts that are parts of the line.
-/

namespace NetProg.Cluster.Client

open NetProg.Lib

inductive Fault where
  | beyond
  | null
  deriving DecidableEq

def bar : Byte := 124

/-- A node of the list. -/
structure Info where
  name : CStr
  ip : CStr

/-- What `findnode` returns: -1, -2 or an index. -/
inductive NodeIdx where
  | all
  | here
  | node (i : ℕ)
  deriving DecidableEq

/-- What a line leads to: a text is executed by this machine, or sent to the socket of a node; a node is not active; the
shell exits. -/
inductive Event where
  | runs (text : CStr)
  | sends (i : ℕ) (text : CStr)
  | refuses (i : ℕ)
  | exits
  deriving DecidableEq

/-- What is executed. -/
def Event.text : Event → Option CStr
  | .runs text => some text
  | .sends _ text => some text
  | .refuses _ => none
  | .exits => none

/-- What has happened, and which nodes are active behind it. -/
structure Outcome where
  events : List Event
  active : ℕ → Bool

/-- What is fixed: the list, the index of this machine in it, and whether a `connect` after a stage is answered. -/
structure Setting where
  list : List Info
  idx : ℕ
  connect : ℕ → ℕ → Bool

/-! ### The functions -/

def checkpipe (msg : CStr) : Bool := (past bar msg).isSome

def findnode (list : List Info) (message : CStr) : NodeIdx :=
  if upTo dot message = lit "n*" then .all
  else match list.findIdx? fun nd => upTo dot message = nd.name with
    | some i => .node i
    | none => .here

/-- The branch of `runcommand` for this machine: `arg[0]` is compared with `cd`. -/
def runHere (msg : CStr) : Except Fault (List Event) :=
  match (words msg).head? with
  | none => .error .null
  | some _ => .ok [.runs msg]

/-- The branch for another one. -/
def runThere (connect : ℕ → Bool) (i : ℕ) (msg : CStr) (active : ℕ → Bool) : Outcome :=
  if active i then ⟨[.sends i msg], if connect i then active else Function.update active i false⟩
  else ⟨[.refuses i], active⟩

/-- A copy of the text for node `i`. -/
def runAt (idx : ℕ) (connect : ℕ → Bool) (i : ℕ) (temp : CStr) (active : ℕ → Bool) : Except Fault Outcome :=
  if i = idx then (runHere temp).map (⟨·, active⟩) else .ok (runThere connect i temp active)

/-- The loop over the nodes from `i` on. -/
def fanLoop (idx : ℕ) (connect : ℕ → Bool) (msg : CStr) : ℕ → ℕ → (ℕ → Bool) → Except Fault Outcome
  | 0, _, active => .ok ⟨[], active⟩
  | k + 1, i, active =>
    if active i then do
      let first ← runAt idx connect i msg active
      let rest ← fanLoop idx connect msg k (i + 1) first.active
      .ok ⟨first.events ++ rest.events, rest.active⟩
    else fanLoop idx connect msg k (i + 1) active

/-- `runcommand`; `stage` counts the calls for a line. -/
def runcommand (s : Setting) (stage : ℕ) (msg : CStr) (nodeidx : NodeIdx) (active : ℕ → Bool) : Except Fault Outcome :=
  match nodeidx with
  | .here => (runHere msg).map (⟨·, active⟩)
  | .node i => .ok (runThere (s.connect stage) i msg active)
  | .all => fanLoop s.idx (s.connect stage) msg s.list.length 0 active

/-- `msg += strlen(x) + 1`, where `x` is the part before the dot.  Without a dot that is behind the NUL of the text, where
`behind` stands. -/
def advance (msg : CStr) (behind : Option CStr) : Except Fault CStr :=
  match past dot msg with
  | some rest => .ok rest
  | none =>
    match behind with
    | some rest => .ok rest
    | none => .error .beyond

/-- The index, with -2 for the own one, and the text that is left. -/
def route (s : Setting) (msg : CStr) (behind : Option CStr) : Except Fault (NodeIdx × CStr) :=
  if findnode s.list msg = .here then .ok (.here, msg)
  else do
    let rest ← advance msg behind
    .ok (if findnode s.list msg = .node s.idx then .here else findnode s.list msg, rest)

/-- The text for a stage is what stands behind it, and is split in place. -/
def Splits (s : Setting) (y : CStr) : Prop := findnode s.list y = .node s.idx ∧ past dot y = none

instance (s : Setting) (y : CStr) : Decidable (Splits s y) := inferInstanceAs (Decidable (_ ∧ _))

/-- What is left of the text `rest` when its spaces have become NULs: its first token, and the one that stands behind that. -/
def split (rest : CStr) (cut : Option CStr) : CStr × Option CStr :=
  (upTo space rest, ((past space rest).map (upTo space)).or cut)

/-- `x` behind a stage, and what stands inside the line behind the NUL of `x`. -/
def leftOver (s : Setting) (y rest : CStr) (cut : Option CStr) : CStr × Option CStr :=
  if Splits s y then split rest cut else (rest, cut)

theorem length_leftOver_lt {s : Setting} {y x rest : CStr} {cut : Option CStr} (h : past bar x = some rest) :
    (leftOver s y rest cut).1.bytes.length < x.bytes.length := by
  unfold leftOver
  split
  · exact lt_of_le_of_lt (upTo_prefix_self space rest).length_le (length_lt_of_past h)
  · exact length_lt_of_past h

/-- The loop over the stages. -/
def pipeLoop (s : Setting) (stage : ℕ) (x : CStr) (cut : Option CStr) (active : ℕ → Bool) : Except Fault Outcome := do
  let y := upTo bar x
  let r ← route s y ((past bar x).or cut)
  let first ← runcommand s stage r.2 r.1 active
  match _h : past bar x with
  | none => .ok first
  | some rest => do
    let others ← pipeLoop s (stage + 1) (leftOver s y rest cut).1 (leftOver s y rest cut).2 first.active
    .ok ⟨first.events ++ others.events, others.active⟩
  termination_by x.bytes.length
  decreasing_by exact length_leftOver_lt _h

def executeshell (s : Setting) (msg : CStr) (active : ℕ → Bool) : Except Fault Outcome :=
  if msg = lit "nodes" then runcommand s 0 (lit "sleep 0.00001") .all active
  else if msg = lit "exit" then .ok ⟨[.exits], active⟩
  else if checkpipe msg then pipeLoop s 0 msg none active
  else do
    let r ← route s msg none
    runcommand s 0 r.2 r.1 active

/-! ### Which lines are safe -/

/-- A word can be split off the text. -/
def HasWord (msg : CStr) : Prop := ∃ b ∈ msg.bytes, b ≠ space

/-- The text that a stage has for itself: all of it, or what stands behind the dot; none if it is a bare name. -/
def ownText (s : Setting) (y : CStr) : Option CStr := if findnode s.list y = .here then some y else past dot y

/-- The text of a stage is executed by this machine, too. -/
def RunsHere (s : Setting) (y : CStr) : Prop :=
  findnode s.list y = .here ∨ findnode s.list y = .all ∨ findnode s.list y = .node s.idx

/-- A stage has a text, its own or the one behind it; executed here, this has a word in it. -/
def StageOk (s : Setting) (y : CStr) (behind : Option CStr) : Prop :=
  ∃ text, (ownText s y).or behind = some text ∧ (RunsHere s y → HasWord text)

/-- Every stage between the bars is all right; `cut` is behind the last one. -/
def StagesOk (s : Setting) (cut : Option CStr) (x : CStr) : Prop :=
  match _h : past bar x with
  | none => StageOk s x cut
  | some rest => StageOk s (upTo bar x) (some rest) ∧ StagesOk s cut rest
  termination_by x.bytes.length
  decreasing_by exact length_lt_of_past _h

/-- The same where the bare name of this machine, in front of others, splits the text behind it. -/
def LineOk (s : Setting) (x : CStr) : Prop :=
  match _h : past bar x with
  | none => StageOk s x none
  | some rest =>
    StageOk s (upTo bar x) (some rest) ∧
      if Splits s (upTo bar x) then StagesOk s (split rest none).2 (split rest none).1 else LineOk s rest
  termination_by x.bytes.length
  decreasing_by exact length_lt_of_past _h

/-- No fault, and every text that is executed is a part of the line. -/
def Safe (s : Setting) (line : CStr) (active : ℕ → Bool) : Prop :=
  ∃ out, executeshell s line active = .ok out ∧ ∀ e ∈ out.events, ∀ text ∈ e.text, text.bytes <:+: line.bytes

/-- The state of the client: its own entry is in the list, and always active. -/
structure State (s : Setting) where
  active : ℕ → Bool
  idx_lt : s.idx < s.list.length
  own : active s.idx = true

section Calls

variable {s : Setting} {stage : ℕ} {msg y : CStr} {nodeidx : NodeIdx} {active : ℕ → Bool} {out : Outcome} {i k : ℕ}
  {connect : ℕ → Bool}

theorem words_eq_nil_iff : words msg = [] ↔ ¬ HasWord msg := by
  have hfields : (∀ f ∈ fields space msg, f.bytes = []) ↔ ∀ f ∈ fieldBytes space msg.bytes, f = [] := by
    rw [← fields_bytes, List.forall_mem_map]
  rw [words, List.filter_eq_nil_iff, HasWord]
  simp only [ne_eq, decide_not, Bool.not_eq_true, Bool.not_eq_false', decide_eq_true_eq]
  rw [hfields, fieldBytes_forall_nil_iff]
  simp only [not_exists, not_and, not_not]

theorem runHere_of_hasWord (h : HasWord msg) : runHere msg = .ok [.runs msg] := by
  cases hw : words msg with
  | nil => exact absurd h (words_eq_nil_iff.1 hw)
  | cons w ws => rw [runHere, hw, List.head?_cons]

theorem runHere_of_not_hasWord (h : ¬ HasWord msg) : runHere msg = .error .null := by
  rw [runHere, words_eq_nil_iff.2 h, List.head?_nil]

theorem runHere_eq_ok (h : (runHere msg).map (⟨·, active⟩) = .ok out) :
    (∀ e ∈ out.events, ∀ text ∈ e.text, text = msg) ∧ out.active i = active i := by
  by_cases hw : HasWord msg
  · rw [runHere_of_hasWord hw] at h
    obtain rfl := Except.ok.inj h
    refine ⟨fun e he text ht => ?_, rfl⟩
    rw [List.mem_singleton] at he
    subst he
    exact (Option.some.inj ht).symm
  · rw [runHere_of_not_hasWord hw] at h
    cases h

/-- What is sent changes nothing but the entry of its node. -/
theorem runThere_active (h : k ≠ i) : (runThere connect i msg active).active k = active k := by
  unfold runThere
  split
  · show (if connect i then active else Function.update active i false) k = _
    split
    · rfl
    · exact Function.update_of_ne h ..
  · rfl

theorem runThere_text {e : Event} {text : CStr} (he : e ∈ (runThere connect i msg active).events) (ht : text ∈ e.text) :
    text = msg := by
  unfold runThere at he
  split at he
  · rw [List.mem_singleton] at he
    subst he
    exact (Option.some.inj ht).symm
  · rw [List.mem_singleton] at he
    subst he
    cases ht

theorem fanLoop_of_hasWord (h : HasWord msg) : ∃ out, fanLoop s.idx connect msg k i active = .ok out := by
  induction k generalizing i active with
  | zero => exact ⟨_, rfl⟩
  | succ k ih =>
    unfold fanLoop
    by_cases ha : active i
    · rw [if_pos ha]
      by_cases hi : i = s.idx
      · obtain ⟨rest, hrest⟩ : ∃ out, fanLoop s.idx connect msg k (i + 1) active = .ok out := ih
        rw [runAt, if_pos hi, runHere_of_hasWord h]
        exact ⟨⟨[.runs msg] ++ rest.events, rest.active⟩, by simp only [Except.map, bind, Except.bind, hrest]⟩
      · obtain ⟨rest, hrest⟩ : ∃ out, fanLoop s.idx connect msg k (i + 1) (runThere connect i msg active).active = .ok out :=
          ih
        rw [runAt, if_neg hi]
        exact ⟨⟨(runThere connect i msg active).events ++ rest.events, rest.active⟩, by
          simp only [bind, Except.bind, hrest]⟩
    · rw [if_neg ha]
      exact ih

/-- The loop comes to the own entry. -/
theorem fanLoop_own (hi : i ≤ s.idx) (hk : s.idx < i + k) (ha : active s.idx = true)
    (h : fanLoop s.idx connect msg k i active = .ok out) : ∃ es, runHere msg = .ok es ∧ ∀ e ∈ es, e ∈ out.events := by
  induction k generalizing i active out with
  | zero => omega
  | succ k ih =>
    unfold fanLoop at h
    by_cases hidx : i = s.idx
    · rw [hidx, if_pos ha, runAt, if_pos rfl] at h
      obtain ⟨first, hfirst, h⟩ := except_bind_eq_ok.1 h
      obtain ⟨rest, -, h⟩ := except_bind_eq_ok.1 h
      obtain rfl := Except.ok.inj h
      cases hrun : runHere msg with
      | error e =>
        rw [hrun] at hfirst
        cases hfirst
      | ok es =>
        rw [hrun] at hfirst
        obtain rfl := Except.ok.inj hfirst
        exact ⟨es, rfl, fun e he => List.mem_append_left _ he⟩
    · by_cases hact : active i
      · rw [if_pos hact, runAt, if_neg hidx] at h
        obtain ⟨first, hfirst, h⟩ := except_bind_eq_ok.1 h
        obtain rfl := Except.ok.inj hfirst
        obtain ⟨rest, hrest, h⟩ := except_bind_eq_ok.1 h
        obtain rfl := Except.ok.inj h
        obtain ⟨es, hes, hmem⟩ :=
          ih (by omega) (by omega) ((runThere_active (Ne.symm hidx)).trans ha) hrest
        exact ⟨es, hes, fun e he => List.mem_append_right _ (hmem e he)⟩
      · rw [if_neg hact] at h
        exact ih (by omega) (by omega) ha h

/-- The loop executes its text and nothing else, and leaves the own entry as it is. -/
theorem fanLoop_eq_ok (h : fanLoop s.idx connect msg k i active = .ok out) :
    (∀ e ∈ out.events, ∀ text ∈ e.text, text = msg) ∧ out.active s.idx = active s.idx := by
  induction k generalizing i active out with
  | zero =>
    obtain rfl := Except.ok.inj h
    exact ⟨fun e he => absurd he List.not_mem_nil, rfl⟩
  | succ k ih =>
    unfold fanLoop at h
    by_cases hact : active i
    · rw [if_pos hact] at h
      obtain ⟨first, hfirst, h⟩ := except_bind_eq_ok.1 h
      obtain ⟨rest, hrest, h⟩ := except_bind_eq_ok.1 h
      obtain rfl := Except.ok.inj h
      obtain ⟨htexts, hown⟩ := ih hrest
      have hone : (∀ e ∈ first.events, ∀ text ∈ e.text, text = msg) ∧ first.active s.idx = active s.idx := by
        by_cases hidx : i = s.idx
        · rw [runAt, if_pos hidx] at hfirst
          exact runHere_eq_ok hfirst
        · rw [runAt, if_neg hidx] at hfirst
          obtain rfl := Except.ok.inj hfirst
          exact ⟨fun e he text ht => runThere_text he ht, runThere_active (Ne.symm hidx)⟩
      refine ⟨fun e he text ht => ?_, hown.trans hone.2⟩
      rcases List.mem_append.1 he with he | he
      · exact hone.1 e he text ht
      · exact htexts e he text ht
    · rw [if_neg hact] at h
      exact ih h

/-- A call of `runcommand` for this machine, or for all, asks for a word. -/
theorem runcommand_ok_iff (st : State s) (hidx : nodeidx ≠ .node s.idx) :
    (∃ out, runcommand s stage msg nodeidx st.active = .ok out) ↔ (nodeidx = .here ∨ nodeidx = .all → HasWord msg) := by
  cases nodeidx with
  | here =>
    by_cases hw : HasWord msg
    · simp [runcommand, runHere_of_hasWord hw, hw, Except.map]
    · simp [runcommand, runHere_of_not_hasWord hw, hw, Except.map]
  | node i => simp [runcommand]
  | all =>
    by_cases hw : HasWord msg
    · exact ⟨fun _ _ => hw, fun _ => fanLoop_of_hasWord hw⟩
    · refine ⟨fun ⟨out, hout⟩ => ?_, fun h => absurd (h (.inr rfl)) hw⟩
      obtain ⟨es, hes, -⟩ := fanLoop_own (Nat.zero_le _) (by rw [Nat.zero_add]; exact st.idx_lt) st.own hout
      rw [runHere_of_not_hasWord hw] at hes
      cases hes

theorem runcommand_eq_ok (hidx : nodeidx ≠ .node s.idx) (h : runcommand s stage msg nodeidx active = .ok out) :
    (∀ e ∈ out.events, ∀ text ∈ e.text, text = msg) ∧ out.active s.idx = active s.idx := by
  cases nodeidx with
  | here => exact runHere_eq_ok h
  | node i =>
    obtain rfl := Except.ok.inj h
    have hne : s.idx ≠ i := fun he => hidx (by rw [he])
    exact ⟨fun e he text ht => runThere_text he ht, runThere_active hne⟩
  | all => exact fanLoop_eq_ok h

end Calls

/-! ### The stages of a line -/

section Stages

variable {s : Setting} {stage : ℕ} {x y rest text : CStr} {cut behind : Option CStr} {active : ℕ → Bool} {out : Outcome}

/-- The index that is left when the own one is replaced. -/
def callIdx (s : Setting) (y : CStr) : NodeIdx := if findnode s.list y = .node s.idx then .here else findnode s.list y

theorem callIdx_ne (s : Setting) (y : CStr) : callIdx s y ≠ .node s.idx := by
  unfold callIdx
  split
  · exact NodeIdx.noConfusion
  · assumption

theorem callIdx_here_or_all : callIdx s y = .here ∨ callIdx s y = .all ↔ RunsHere s y := by
  unfold callIdx RunsHere
  split
  · next h => simp [h]
  · next h => simp [h]

/-- A stage with a text of its own is called with it; a bare name with what stands behind it. -/
theorem route_eq (s : Setting) (y : CStr) (behind : Option CStr) : route s y behind =
    match (ownText s y).or behind with
    | some text => .ok (callIdx s y, text)
    | none => .error .beyond := by
  unfold route ownText callIdx
  by_cases hhere : findnode s.list y = .here
  · simp [hhere]
  rw [if_neg hhere, if_neg hhere]
  unfold advance
  cases past dot y with
  | some rest => rfl
  | none =>
    cases behind with
    | some rest => rfl
    | none => rfl

theorem route_of_some (h : (ownText s y).or behind = some text) : route s y behind = .ok (callIdx s y, text) := by
  rw [route_eq, h]

/-- The call for a stage meets no fault if and only if the stage is all right. -/
theorem call_ok_iff (st : State s) :
    (∃ out, (route s y behind >>= fun r => runcommand s stage r.2 r.1 st.active) = .ok out) ↔ StageOk s y behind := by
  rw [route_eq, StageOk]
  cases (ownText s y).or behind with
  | none =>
    refine ⟨?_, fun ⟨text, htext, _⟩ => by cases htext⟩
    rintro ⟨out, hout⟩
    cases hout
  | some text =>
    show (∃ out, runcommand s stage text (callIdx s y) st.active = .ok out) ↔ _
    rw [runcommand_ok_iff st (callIdx_ne _ _), callIdx_here_or_all]
    simp

theorem pipeLoop_last (h : past bar x = none) : pipeLoop s stage x cut active =
    route s x cut >>= fun r => runcommand s stage r.2 r.1 active := by
  rw [pipeLoop, h, Option.none_or, past_eq_none h]
  refine congrArg _ (funext fun r => ?_)
  cases runcommand s stage r.2 r.1 active with
  | error e => rfl
  | ok first => rfl

theorem pipeLoop_more (h : past bar x = some rest) : pipeLoop s stage x cut active =
    (route s (upTo bar x) (some rest) >>= fun r => runcommand s stage r.2 r.1 active) >>= fun first =>
      pipeLoop s (stage + 1) (leftOver s (upTo bar x) rest cut).1 (leftOver s (upTo bar x) rest cut).2 first.active >>=
        fun others => .ok ⟨first.events ++ others.events, others.active⟩ := by
  rw [pipeLoop, h, Option.some_or, bind_assoc]

/-- The call for a stage leaves the own entry as it is. -/
theorem call_own {first : Outcome}
    (h : (route s y behind >>= fun r => runcommand s stage r.2 r.1 active) = .ok first) :
    first.active s.idx = active s.idx := by
  obtain ⟨r, hroute, hrun⟩ := except_bind_eq_ok.1 h
  rw [route_eq] at hroute
  cases htext : (ownText s y).or behind with
  | none =>
    rw [htext] at hroute
    cases hroute
  | some text =>
    rw [htext] at hroute
    obtain rfl := Except.ok.inj hroute
    exact (runcommand_eq_ok (callIdx_ne s y) hrun).2

/-- A stage with others behind it. -/
theorem pipeLoop_more_ok_iff (st : State s) (h : past bar x = some rest) {P : Prop}
    (hothers : ∀ st : State s, (∃ out, pipeLoop s (stage + 1) (leftOver s (upTo bar x) rest cut).1
      (leftOver s (upTo bar x) rest cut).2 st.active = .ok out) ↔ P) :
    (∃ out, pipeLoop s stage x cut st.active = .ok out) ↔ StageOk s (upTo bar x) (some rest) ∧ P := by
  have hcall : (∃ out, (route s (upTo bar x) (some rest) >>= fun r => runcommand s stage r.2 r.1 st.active) = .ok out) ↔ _ :=
    call_ok_iff st
  rw [pipeLoop_more h, ← hcall]
  constructor
  · rintro ⟨out, hout⟩
    obtain ⟨first, hfirst, hout⟩ := except_bind_eq_ok.1 hout
    obtain ⟨others, hloop, -⟩ := except_bind_eq_ok.1 hout
    exact ⟨⟨first, hfirst⟩, (hothers ⟨first.active, st.idx_lt, (call_own hfirst).trans st.own⟩).1 ⟨others, hloop⟩⟩
  · rintro ⟨⟨first, hfirst⟩, hP⟩
    obtain ⟨others, hloop⟩ := (hothers ⟨first.active, st.idx_lt, (call_own hfirst).trans st.own⟩).2 hP
    exact ⟨_, except_bind_eq_ok.2 ⟨first, hfirst, except_bind_eq_ok.2 ⟨others, hloop, rfl⟩⟩⟩

theorem stagesOk_last (h : past bar x = none) : StagesOk s cut x ↔ StageOk s x cut := by
  rw [StagesOk, h]

theorem stagesOk_more (h : past bar x = some rest) :
    StagesOk s cut x ↔ StageOk s (upTo bar x) (some rest) ∧ StagesOk s cut rest := by
  rw [StagesOk, h]

theorem lineOk_last (h : past bar x = none) : LineOk s x ↔ StageOk s x none := by
  rw [LineOk, h]

theorem lineOk_more (h : past bar x = some rest) : LineOk s x ↔ StageOk s (upTo bar x) (some rest) ∧
    if Splits s (upTo bar x) then StagesOk s (split rest none).2 (split rest none).1 else LineOk s rest := by
  rw [LineOk, h]

/-- A text without a space is not changed by splitting. -/
theorem leftOver_of_no_space (h : space ∉ rest.bytes) : leftOver s y rest cut = (rest, cut) := by
  have hpast : past space rest = none := past_eq_none_iff.2 h
  unfold leftOver Client.split
  rw [past_eq_none hpast, hpast, Option.map_none, Option.none_or, ite_self]

/-- The loop where the spaces are NULs already. -/
theorem pipeLoop_split_ok_iff (st : State s) (h : space ∉ x.bytes) :
    (∃ out, pipeLoop s stage x cut st.active = .ok out) ↔ StagesOk s cut x := by
  induction hn : x.bytes.length using Nat.strong_induction_on generalizing x stage st with
  | _ n ih =>
    cases hp : past bar x with
    | none => rw [pipeLoop_last hp, stagesOk_last hp, call_ok_iff st]
    | some rest =>
      have hrest : space ∉ rest.bytes := fun hmem => h ((past_suffix hp).subset hmem)
      rw [stagesOk_more hp]
      refine pipeLoop_more_ok_iff st hp fun st => ?_
      rw [leftOver_of_no_space hrest]
      exact ih _ (hn ▸ length_lt_of_past hp) st hrest rfl

/-- **The loop over the stages** meets no fault if and only if the stages are all right. -/
theorem pipeLoop_ok_iff (st : State s) : (∃ out, pipeLoop s stage x none st.active = .ok out) ↔ LineOk s x := by
  induction hn : x.bytes.length using Nat.strong_induction_on generalizing x stage st with
  | _ n ih =>
    cases hp : past bar x with
    | none => rw [pipeLoop_last hp, lineOk_last hp, call_ok_iff st]
    | some rest =>
      rw [lineOk_more hp]
      refine pipeLoop_more_ok_iff st hp fun st => ?_
      unfold leftOver
      by_cases hs : Splits s (upTo bar x)
      · rw [if_pos hs, if_pos hs]
        exact pipeLoop_split_ok_iff st (not_mem_upTo space rest)
      · rw [if_neg hs, if_neg hs]
        exact ih _ (hn ▸ length_lt_of_past hp) st rfl

/-- What is executed for a stage is its own text, or the one behind it. -/
theorem call_text {first : Outcome} {e : Event}
    (h : (route s y behind >>= fun r => runcommand s stage r.2 r.1 active) = .ok first) (he : e ∈ first.events)
    (ht : text ∈ e.text) : text.bytes <:+: y.bytes ∨ text ∈ behind := by
  obtain ⟨r, hroute, hrun⟩ := except_bind_eq_ok.1 h
  rw [route_eq] at hroute
  cases hown : ownText s y with
  | some own =>
    rw [hown, Option.some_or] at hroute
    obtain rfl := Except.ok.inj hroute
    rw [(runcommand_eq_ok (callIdx_ne s y) hrun).1 e he text ht]
    left
    unfold ownText at hown
    split at hown
    · obtain rfl := Option.some.inj hown
      exact List.infix_rfl
    · exact (past_suffix hown).isInfix
  | none =>
    rw [hown, Option.none_or] at hroute
    cases behind with
    | none => cases hroute
    | some text' =>
      obtain rfl := Except.ok.inj hroute
      rw [(runcommand_eq_ok (callIdx_ne s y) hrun).1 e he text ht]
      exact .inr rfl

/-- What is left of the text, and what stands behind it, are parts of what there was. -/
theorem infix_leftOver {line : CStr} (hrest : rest.bytes <:+: line.bytes) (hcut : ∀ t ∈ cut, t.bytes <:+: line.bytes) :
    (leftOver s y rest cut).1.bytes <:+: line.bytes ∧ ∀ t ∈ (leftOver s y rest cut).2, t.bytes <:+: line.bytes := by
  unfold leftOver
  split
  · refine ⟨(upTo_prefix_self space rest).isInfix.trans hrest, fun t ht => ?_⟩
    unfold Client.split at ht
    cases hp : past space rest with
    | none =>
      rw [hp] at ht
      exact hcut t ht
    | some q =>
      rw [hp] at ht
      obtain rfl := Option.some.inj ht
      exact (upTo_prefix_self space q).isInfix.trans ((past_suffix hp).isInfix.trans hrest)
  · exact ⟨hrest, hcut⟩

/-- The loop executes parts of the line and nothing else, and leaves the own entry as it is. -/
theorem pipeLoop_eq_ok {line : CStr} (hx : x.bytes <:+: line.bytes) (hcut : ∀ t ∈ cut, t.bytes <:+: line.bytes)
    (h : pipeLoop s stage x cut active = .ok out) :
    (∀ e ∈ out.events, ∀ text ∈ e.text, text.bytes <:+: line.bytes) ∧ out.active s.idx = active s.idx := by
  induction hn : x.bytes.length using Nat.strong_induction_on generalizing x cut stage active out with
  | _ n ih =>
    cases hp : past bar x with
    | none =>
      rw [pipeLoop_last hp] at h
      refine ⟨fun e he text ht => ?_, call_own h⟩
      rcases call_text h he ht with htext | htext
      · exact htext.trans hx
      · exact hcut text htext
    | some rest =>
      have hrest : rest.bytes <:+: line.bytes := (past_suffix hp).isInfix.trans hx
      rw [pipeLoop_more hp] at h
      obtain ⟨first, hfirst, h⟩ := except_bind_eq_ok.1 h
      obtain ⟨others, hloop, h⟩ := except_bind_eq_ok.1 h
      obtain rfl := Except.ok.inj h
      obtain ⟨hleft, hbehind⟩ := infix_leftOver hrest hcut
      obtain ⟨hothers, hown⟩ := ih _ (hn ▸ length_leftOver_lt hp) hleft hbehind hloop rfl
      refine ⟨fun e he text ht => ?_, hown.trans (call_own hfirst)⟩
      rcases List.mem_append.1 he with he | he
      · rcases call_text hfirst he ht with htext | htext
        · exact htext.trans ((upTo_prefix_self bar x).isInfix.trans hx)
        · obtain rfl := Option.some.inj htext
          exact hrest
      · exact hothers e he text ht

end Stages

/-! ### All lines -/

section Lines

variable {s : Setting} {line : CStr}

/-- Which lines are executed without a fault. -/
def SafeLine (s : Setting) (line : CStr) : Prop :=
  line ≠ lit "nodes" ∧ (line = lit "exit" ∨ LineOk s line)

/-- A line without a bar is one stage. -/
theorem executeshell_eq (hnodes : line ≠ lit "nodes") (hexit : line ≠ lit "exit") (active : ℕ → Bool) :
    executeshell s line active = pipeLoop s 0 line none active := by
  rw [executeshell, if_neg hnodes, if_neg hexit]
  cases hp : past bar line with
  | some r => rw [checkpipe, hp, Option.isSome_some, if_pos rfl]
  | none =>
    rw [checkpipe, hp, Option.isSome_none, if_neg Bool.false_ne_true, pipeLoop_last hp]

theorem executeshell_active {active : ℕ → Bool} {out : Outcome} (h : executeshell s line active = .ok out) :
    out.active s.idx = active s.idx := by
  by_cases hnodes : line = lit "nodes"
  · rw [executeshell, if_pos hnodes] at h
    exact (fanLoop_eq_ok h).2
  by_cases hexit : line = lit "exit"
  · rw [executeshell, if_neg hnodes, if_pos hexit] at h
    obtain rfl := Except.ok.inj h
    rfl
  · rw [executeshell_eq hnodes hexit] at h
    exact (pipeLoop_eq_ok List.infix_rfl (fun t ht => by cases ht) h).2

/-- The list of the active nodes is made with a text of the shell's own. -/
theorem runs_of_nodes (st : State s) {out : Outcome} (h : executeshell s (lit "nodes") st.active = .ok out) :
    .runs (lit "sleep 0.00001") ∈ out.events := by
  have hword : HasWord (lit "sleep 0.00001") := ⟨115, by decide, by decide⟩
  obtain ⟨es, hes, hmem⟩ := fanLoop_own (Nat.zero_le _) (by rw [Nat.zero_add]; exact st.idx_lt) st.own h
  rw [runHere_of_hasWord hword] at hes
  obtain rfl := Except.ok.inj hes
  exact hmem _ List.mem_cons_self

theorem not_safe_nodes (st : State s) : ¬ Safe s (lit "nodes") st.active := by
  rintro ⟨out, hout, htexts⟩
  have hinfix := htexts _ (runs_of_nodes st hout) (lit "sleep 0.00001") rfl
  exact absurd hinfix.length_le (by decide)

/-- **Which lines are safe.** -/
theorem safe_iff (st : State s) : Safe s line st.active ↔ SafeLine s line := by
  unfold SafeLine
  by_cases hnodes : line = lit "nodes"
  · subst hnodes
    exact ⟨fun h => absurd h (not_safe_nodes st), fun h => absurd rfl h.1⟩
  by_cases hexit : line = lit "exit"
  · refine ⟨fun _ => ⟨hnodes, .inl hexit⟩, fun _ => ⟨⟨[.exits], st.active⟩, ?_, ?_⟩⟩
    · rw [executeshell, if_neg hnodes, if_pos hexit]
    · intro e he text ht
      rw [List.mem_singleton] at he
      subst he
      cases ht
  · have hloop : (∃ out, pipeLoop s 0 line none st.active = .ok out) ↔ _ := pipeLoop_ok_iff st
    rw [← hloop, Safe, executeshell_eq hnodes hexit]
    constructor
    · rintro ⟨out, hout, -⟩
      exact ⟨hnodes, .inr ⟨out, hout⟩⟩
    · rintro ⟨-, hexit' | ⟨out, hout⟩⟩
      · exact absurd hexit' hexit
      · exact ⟨out, hout, (pipeLoop_eq_ok List.infix_rfl (fun t ht => by cases ht) hout).1⟩

end Lines

/-- A list of one node. -/
def oneNode : Setting := ⟨[⟨lit "n1", lit "10.0.0.1"⟩], 0, fun _ _ => true⟩

/-- The bare name of a node is no safe line. -/
theorem bare_name_unsafe : ¬ ∀ (s : Setting) (st : State s) (line : CStr), Safe s line st.active := by
  intro h
  let st : State oneNode := ⟨fun _ => true, by decide, rfl⟩
  obtain ⟨out, hout, -⟩ := h oneNode st (lit "n1")
  rw [executeshell_eq (by decide) (by decide)] at hout
  have hok := (pipeLoop_ok_iff st).1 ⟨out, hout⟩
  rw [lineOk_last (by decide)] at hok
  obtain ⟨text, htext, -⟩ := hok
  exact absurd htext (by decide +revert)

end NetProg.Cluster.Client
