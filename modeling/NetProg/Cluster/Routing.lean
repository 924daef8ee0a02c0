import Mathlib.Data.List.Nodup
import NetProg.Cluster.Commands
import NetProg.Lib.Run

/-!
# Where a command runs

The client finds its own entry in the list at the start, with `strcpy` in place of `strcmp`, and takes the lines that are
typed from there on, while nodes connect and are lost.

`routed_iff`: when a line without a bar runs where it should, in every state that the client can come to.
-/

namespace NetProg.Cluster.Client

open NetProg.Lib

/-! ### The start -/

/-- The buffer of `inet_ntoa`, with the address of this machine. -/
structure Buffer where
  addr : ℕ
  text : CStr
  addr_ne : addr ≠ 0

/-- `strcpy` returns its first argument. -/
def strcpy (dest : Buffer) (src : CStr) : Buffer := { dest with text := src }

/-- A machine and the list that it has read. -/
structure Machine where
  list : List Info
  getip : Buffer

/-- The loop that looks for the own entry; `idx` is 0 before it. -/
def identify (getip : Buffer) : List Info → ℕ → ℕ
  | [], _ => 0
  | nd :: list, i => if (strcpy getip nd.ip).addr = 0 then i else identify getip list (i + 1)

def Machine.idx (m : Machine) : ℕ := identify m.getip m.list 0

/-- The own entry is active from the start. -/
def Machine.start (m : Machine) : ℕ → Bool := fun i => i = m.idx

def Machine.setting (m : Machine) (connect : ℕ → ℕ → Bool) : Setting := ⟨m.list, m.idx, connect⟩

/-- A node is connected in the loop of `initializesockets`, or a line is typed; `connect` is how the reconnections behind its
stages go. -/
inductive Act where
  | connected (i : ℕ)
  | line (msg : CStr) (connect : ℕ → ℕ → Bool)

def Machine.step (m : Machine) (active : ℕ → Bool) : Act → Option (ℕ → Bool)
  | .connected i => if i < m.list.length ∧ active i = false then some (Function.update active i true) else none
  | .line msg connect =>
    match executeshell (m.setting connect) msg active with
    | .ok out => some out.active
    | .error _ => none

/-! ### Where a line should run -/

/-- The names and the addresses are different, and a name is not taken for anything else. -/
structure WellFormed (list : List Info) : Prop where
  names : (list.map Info.name).Nodup
  ips : (list.map Info.ip).Nodup
  dotless : ∀ nd ∈ list, dot ∉ nd.name.bytes
  star : ∀ nd ∈ list, nd.name ≠ lit "n*"

/-- The entry with the address of the machine. -/
def Own (m : Machine) (own : ℕ) : Prop := ∃ nd, m.list[own]? = some nd ∧ nd.ip = m.getip.text

/-- A command for entry `i`. -/
def place (own : ℕ) (cmd : CStr) (i : ℕ) : Event := if i = own then .runs cmd else .sends i cmd

/-- What a line should lead to. -/
structure Routed (m : Machine) (own : ℕ) (line : CStr) (active : ℕ → Bool) (result : Except Fault Outcome) : Prop where
  named : ∀ i nd cmd, m.list[i]? = some nd → line = nd.name.cat ((lit ".").cat cmd) →
    ∃ out, result = .ok out ∧ out.events = [place own cmd i]
  other : (∀ nd ∈ m.list, upTo dot line ≠ nd.name) → upTo dot line ≠ lit "n*" →
    ∃ out, result = .ok out ∧ out.events = [.runs line]
  all : ∀ cmd, line = (lit "n*.").cat cmd → ∃ out, result = .ok out ∧
    out.events = ((List.range m.list.length).filter fun i => active i).map (place own cmd)

/-- When it does. -/
structure Meets (m : Machine) (own : ℕ) (line : CStr) (active : ℕ → Bool) : Prop where
  named : ∀ i nd cmd, m.list[i]? = some nd → line = nd.name.cat ((lit ".").cat cmd) →
    (i = own ↔ i = 0) ∧ (i = own → HasWord cmd) ∧ (i ≠ own → active i = true)
  other : (∀ nd ∈ m.list, upTo dot line ≠ nd.name) → upTo dot line ≠ lit "n*" →
    HasWord line ∧ line ≠ lit "nodes" ∧ line ≠ lit "exit"
  all : ∀ cmd, line = (lit "n*.").cat cmd → own = 0 ∧ HasWord cmd

section Routing

variable {m : Machine} {own i k : ℕ} {line cmd msg : CStr} {nd : Info} {active : ℕ → Bool} {connect : ℕ → Bool}
  {connects : ℕ → ℕ → Bool} {acts : List Act} {out : Outcome} {s : Setting}

/-- No entry is found. -/
theorem idx_eq_zero (m : Machine) : m.idx = 0 := by
  have hgen : ∀ (list : List Info) (i : ℕ), identify m.getip list i = 0 := by
    intro list
    induction list with
    | nil => exact fun _ => rfl
    | cons nd list ih =>
      intro i
      rw [identify, if_neg]
      · exact ih (i + 1)
      · exact m.getip.addr_ne
  exact hgen m.list 0

/-- The first entry is active in every state. -/
theorem active_zero (h : Run m.step (fun _ _ => True) m.start acts active) : active 0 = true := by
  refine h.inv (fun active => active 0 = true) ?_ ?_
  · show decide (0 = m.idx) = true
    rw [idx_eq_zero, decide_eq_true_eq]
  · intro active act active' hzero _ hstep
    cases act with
    | connected i =>
      simp only [Machine.step] at hstep
      split at hstep
      · obtain rfl := Option.some.inj hstep
        by_cases hi : 0 = i
        · rw [hi, Function.update_self]
        · rw [Function.update_of_ne hi]
          exact hzero
      · cases hstep
    | line msg connect =>
      simp only [Machine.step] at hstep
      cases hrun : executeshell (m.setting connect) msg active with
      | error e => simp [hrun] at hstep
      | ok out =>
        simp only [hrun, Option.some.injEq] at hstep
        subst hstep
        have hown := executeshell_active hrun
        have hidx : (m.setting connect).idx = 0 := idx_eq_zero m
        rw [hidx] at hown
        exact hown.trans hzero

/-- A line without a bar that is no command of the shell itself. -/
theorem executeshell_line (hbar : bar ∉ line.bytes) (hnodes : line ≠ lit "nodes") (hexit : line ≠ lit "exit") :
    executeshell s line active = route s line none >>= fun r => runcommand s 0 r.2 r.1 active := by
  rw [executeshell, if_neg hnodes, if_neg hexit, checkpipe, past_eq_none_iff.2 hbar]
  rfl

theorem ne_lit_of_dot {t : CStr} (hdot : dot ∈ line.bytes) (ht : dot ∉ t.bytes) : line ≠ t := by
  rintro rfl
  exact ht hdot

/-- What `runHere` leads to. -/
theorem runHere_events_iff {e : Event} :
    (∃ out : Outcome, (runHere msg).map (⟨·, active⟩) = .ok out ∧ out.events = [e]) ↔
    HasWord msg ∧ e = .runs msg := by
  by_cases hw : HasWord msg
  · rw [runHere_of_hasWord hw]
    constructor
    · rintro ⟨out, hout, he⟩
      obtain rfl := Except.ok.inj hout
      exact ⟨hw, (List.cons.inj he).1.symm⟩
    · rintro ⟨-, rfl⟩
      exact ⟨_, rfl, rfl⟩
  · rw [runHere_of_not_hasWord hw]
    refine ⟨?_, fun h => absurd h.1 hw⟩
    rintro ⟨out, hout, -⟩
    cases hout

theorem runThere_events : (runThere connect i msg active).events =
    [if active i = true then .sends i msg else .refuses i] := by
  unfold runThere
  split
  · rfl
  · rfl

/-! ### A command for a node -/

theorem findnode_of_named (hwf : WellFormed m.list) (hnd : m.list[i]? = some nd) (hname : upTo dot line = nd.name) :
    findnode m.list line = .node i := by
  obtain ⟨hi, hget⟩ := List.getElem?_eq_some_iff.1 hnd
  have hstar : upTo dot line ≠ lit "n*" := by
    rw [hname]
    exact hwf.star nd (List.mem_of_getElem? hnd)
  have hfind : m.list.findIdx? (fun nd => upTo dot line = nd.name) = some i := by
    rw [List.findIdx?_eq_some_iff_getElem]
    refine ⟨hi, by rw [hget]; exact decide_eq_true hname, fun j hj => ?_⟩
    rw [decide_eq_true_eq, hname]
    intro he
    have hi' : i < (m.list.map Info.name).length := by rwa [List.length_map]
    have hj' : j < (m.list.map Info.name).length := by omega
    have hsame : (m.list.map Info.name)[i] = (m.list.map Info.name)[j] := by
      rw [List.getElem_map, List.getElem_map, hget, he]
    have hij := (List.Nodup.getElem_inj_iff hwf.names).1 hsame
    omega
  rw [findnode, if_neg hstar, hfind]

theorem named_iff (hwf : WellFormed m.list) (hbar : bar ∉ line.bytes)
    (hnd : m.list[i]? = some nd) (hline : line = nd.name.cat ((lit ".").cat cmd)) :
    (∃ out, executeshell (m.setting connects) line active = .ok out ∧ out.events = [place own cmd i]) ↔
      (i = own ↔ i = 0) ∧ (i = own → HasWord cmd) ∧ (i ≠ own → active i = true) := by
  have hbytes : line.bytes = nd.name.bytes ++ dot :: cmd.bytes := by
    rw [hline]
    rfl
  have hname : dot ∉ nd.name.bytes := hwf.dotless nd (List.mem_of_getElem? hnd)
  have hdot : dot ∈ line.bytes := by
    rw [hbytes]
    exact List.mem_append_right _ List.mem_cons_self
  have hfind : findnode m.list line = .node i := findnode_of_named hwf hnd (upTo_eq hbytes hname)
  have hroute : route (m.setting connects) line none = .ok (if i = 0 then .here else .node i, cmd) := by
    have hidx : (m.setting connects).idx = 0 := idx_eq_zero m
    have hown : ownText (m.setting connects) line = some cmd := by
      rw [ownText, show findnode (m.setting connects).list line = _ from hfind, if_neg NodeIdx.noConfusion]
      exact past_eq hbytes hname
    rw [route_of_some (by rw [hown, Option.some_or]), callIdx, hidx, show findnode (m.setting connects).list line = _ from hfind]
    simp only [NodeIdx.node.injEq]
  rw [executeshell_line hbar (ne_lit_of_dot hdot (by decide)) (ne_lit_of_dot hdot (by decide)), hroute]
  show (∃ out, runcommand (m.setting connects) 0 cmd (if i = 0 then .here else .node i) active = .ok out ∧ _) ↔ _
  by_cases hi : i = 0
  · -- the first entry is taken for the own one
    subst hi
    rw [if_pos rfl]
    show (∃ out : Outcome, (runHere cmd).map (⟨·, active⟩) = .ok out ∧ out.events = [place own cmd 0]) ↔ _
    rw [runHere_events_iff, place]
    by_cases hown : 0 = own
    · simp [hown]
    · simp [hown]
  · rw [if_neg hi]
    show (∃ out, Except.ok (runThere (connects 0) i cmd active) = .ok out ∧ _) ↔ _
    have hcall : (∃ out, Except.ok (ε := Fault) (runThere (connects 0) i cmd active) = .ok out ∧
        out.events = [place own cmd i]) ↔ (runThere (connects 0) i cmd active).events = [place own cmd i] := by
      simp
    rw [hcall, place, runThere_events]
    by_cases hown : i = own
    · subst hown
      by_cases hact : active i = true
      · simp [hact, hi]
      · simp [hact, hi]
    · by_cases hact : active i = true
      · simp [hact, hown, hi]
      · simp [hact, hown, hi]

/-! ### A line for nobody, and one for all -/

/-- The shell's own lines do not run as they are. -/
theorem not_runs_nodes (hn : 0 < m.list.length) (hzero : active 0 = true) :
    ¬ ∃ out, executeshell (m.setting connects) (lit "nodes") active = .ok out ∧ out.events = [.runs (lit "nodes")] := by
  rintro ⟨out, hout, hevents⟩
  have hidx : (m.setting connects).idx = 0 := idx_eq_zero m
  let st : State (m.setting connects) := ⟨active, by rw [hidx]; exact hn, by rw [hidx]; exact hzero⟩
  have hin := runs_of_nodes st hout
  rw [hevents, List.mem_singleton] at hin
  exact absurd hin (by decide)

theorem other_iff (hn : 0 < m.list.length) (hbar : bar ∉ line.bytes) (hzero : active 0 = true)
    (hother : ∀ nd ∈ m.list, upTo dot line ≠ nd.name) (hstar : upTo dot line ≠ lit "n*") :
    (∃ out, executeshell (m.setting connects) line active = .ok out ∧ out.events = [.runs line]) ↔
      HasWord line ∧ line ≠ lit "nodes" ∧ line ≠ lit "exit" := by
  by_cases hnodes : line = lit "nodes"
  · subst hnodes
    exact ⟨fun h => absurd h (not_runs_nodes hn hzero), fun h => absurd rfl h.2.1⟩
  by_cases hexit : line = lit "exit"
  · refine ⟨?_, fun h => absurd hexit h.2.2⟩
    rintro ⟨out, hout, hevents⟩
    rw [executeshell, if_neg hnodes, if_pos hexit] at hout
    obtain rfl := Except.ok.inj hout
    cases hevents
  · have hfind : findnode (m.setting connects).list line = .here := by
      have hnone : m.list.findIdx? (fun nd => upTo dot line = nd.name) = none := by
        rw [List.findIdx?_eq_none_iff]
        exact fun nd hnd => decide_eq_false (hother nd hnd)
      show findnode m.list line = .here
      rw [findnode, if_neg hstar, hnone]
    rw [executeshell_line hbar hnodes hexit, route, if_pos hfind]
    show (∃ out : Outcome, (runHere line).map (⟨·, active⟩) = .ok out ∧ out.events = [.runs line]) ↔ _
    rw [runHere_events_iff]
    simp [hnodes, hexit]

theorem runAt_eq_ok (hw : HasWord msg) (hact : active i = true) (h : runAt s.idx connect i msg active = .ok out) :
    out.events = [place s.idx msg i] ∧ ∀ j, j ≠ i → out.active j = active j := by
  unfold runAt at h
  unfold place
  by_cases hi : i = s.idx
  · rw [if_pos hi, runHere_of_hasWord hw] at h
    obtain rfl := Except.ok.inj h
    exact ⟨by rw [if_pos hi], fun _ _ => rfl⟩
  · rw [if_neg hi] at h
    obtain rfl := Except.ok.inj h
    exact ⟨by rw [runThere_events, if_pos hact, if_neg hi], fun j hj => runThere_active hj⟩

/-- The loop over the nodes calls every active one once. -/
theorem fanLoop_events (hw : HasWord msg) (h : fanLoop s.idx connect msg k i active = .ok out) :
    out.events = ((List.range' i k).filter fun j => active j).map (place s.idx msg) := by
  induction k generalizing i active out with
  | zero =>
    obtain rfl := Except.ok.inj h
    rfl
  | succ k ih =>
    rw [List.range'_succ]
    unfold fanLoop at h
    by_cases hact : active i = true
    · rw [if_pos hact] at h
      obtain ⟨first, hfirst, h⟩ := except_bind_eq_ok.1 h
      obtain ⟨rest, hrest, h⟩ := except_bind_eq_ok.1 h
      obtain rfl := Except.ok.inj h
      obtain ⟨hone, hsame⟩ := runAt_eq_ok hw hact hfirst
      have hfilter : (List.range' (i + 1) k).filter (fun j => first.active j) =
          (List.range' (i + 1) k).filter fun j => active j := by
        apply List.filter_congr
        intro j hj
        have hlt := (List.mem_range'_1.1 hj).1
        exact hsame j (by omega)
      show first.events ++ rest.events = _
      rw [List.filter_cons_of_pos hact, List.map_cons, hone, ih hrest, hfilter]
      rfl
    · rw [if_neg hact] at h
      rw [List.filter_cons_of_neg hact]
      exact ih h

theorem all_iff (hn : 0 < m.list.length) (hbar : bar ∉ line.bytes) (hzero : active 0 = true)
    (hline : line = (lit "n*.").cat cmd) :
    (∃ out, executeshell (m.setting connects) line active = .ok out ∧
      out.events = ((List.range m.list.length).filter fun i => active i).map (place own cmd)) ↔
      own = 0 ∧ HasWord cmd := by
  have hbytes : line.bytes = (lit "n*").bytes ++ dot :: cmd.bytes := by
    rw [hline]
    rfl
  have hdot : dot ∈ line.bytes := by
    rw [hbytes]
    exact List.mem_append_right _ List.mem_cons_self
  have hidx : (m.setting connects).idx = 0 := idx_eq_zero m
  have hfind : findnode (m.setting connects).list line = .all := if_pos (upTo_eq hbytes (by decide))
  have hown : ownText (m.setting connects) line = some cmd := by
    rw [ownText, hfind, if_neg NodeIdx.noConfusion]
    exact past_eq hbytes (by decide)
  have hcall : callIdx (m.setting connects) line = .all := by
    rw [callIdx, hfind, if_neg NodeIdx.noConfusion]
  rw [executeshell_line hbar (ne_lit_of_dot hdot (by decide)) (ne_lit_of_dot hdot (by decide)),
    route_of_some (by rw [hown, Option.some_or]), hcall]
  show (∃ out, fanLoop (m.setting connects).idx (connects 0) cmd m.list.length 0 active = .ok out ∧ _) ↔ _
  by_cases hw : HasWord cmd
  · obtain ⟨out, hout⟩ : ∃ out, fanLoop (m.setting connects).idx (connects 0) cmd m.list.length 0 active = .ok out :=
      fanLoop_of_hasWord hw
    have hevents := fanLoop_events hw hout
    rw [← List.range_eq_range', hidx] at hevents
    constructor
    · rintro ⟨out', hout', hplaced⟩
      obtain rfl := Except.ok.inj (hout.symm.trans hout')
      have hmem : 0 ∈ (List.range m.list.length).filter fun i => active i :=
        List.mem_filter.2 ⟨List.mem_range.2 hn, hzero⟩
      have hfirst := List.map_inj_left.1 (hevents.symm.trans hplaced) 0 hmem
      refine ⟨?_, hw⟩
      by_contra hne
      rw [place, place, if_pos rfl, if_neg (Ne.symm hne)] at hfirst
      cases hfirst
    · rintro ⟨rfl, -⟩
      exact ⟨out, hout, hevents⟩
  · refine ⟨?_, fun h => absurd h.2 hw⟩
    rintro ⟨out, hout, -⟩
    obtain ⟨es, hes, -⟩ := fanLoop_own (Nat.zero_le _) (by rw [hidx]; omega) (by rw [hidx]; exact hzero) hout
    rw [runHere_of_not_hasWord hw] at hes
    cases hes

/-- **Where a line runs.**  In every state that the client can come to, a line without a bar runs where it should if and
only if it is for an active node that is neither the first entry of the list nor this machine; or it is for this machine or
for all, this machine is the first entry, and there is a word to execute; or it is for no node, has a word, and is no command
of the shell. -/
theorem routed_iff (m : Machine) (hwf : WellFormed m.list) (hown : Own m own)
    (h : Run m.step (fun _ _ => True) m.start acts active) (hbar : bar ∉ line.bytes) (connects : ℕ → ℕ → Bool) :
    Routed m own line active (executeshell (m.setting connects) line active) ↔ Meets m own line active := by
  obtain ⟨nd₀, hnd₀, -⟩ := hown
  obtain ⟨hlt, -⟩ := List.getElem?_eq_some_iff.1 hnd₀
  have hn : 0 < m.list.length := Nat.lt_of_le_of_lt (Nat.zero_le own) hlt
  have hzero := active_zero h
  constructor
  · intro hr
    refine ⟨fun i nd cmd hnd hline => ?_, fun hother hstar => ?_, fun cmd hline => ?_⟩
    · exact (named_iff hwf hbar hnd hline).1 (hr.named i nd cmd hnd hline)
    · exact (other_iff hn hbar hzero hother hstar).1 (hr.other hother hstar)
    · exact (all_iff hn hbar hzero hline).1 (hr.all cmd hline)
  · intro hm
    refine ⟨fun i nd cmd hnd hline => ?_, fun hother hstar => ?_, fun cmd hline => ?_⟩
    · exact (named_iff hwf hbar hnd hline).2 (hm.named i nd cmd hnd hline)
    · exact (other_iff hn hbar hzero hother hstar).2 (hm.other hother hstar)
    · exact (all_iff hn hbar hzero hline).2 (hm.all cmd hline)

end Routing

/-! ### A list of two nodes -/

def twoNodes : List Info := [⟨lit "n1", lit "10.0.0.1"⟩, ⟨lit "n2", lit "10.0.0.2"⟩]

theorem wellFormed_twoNodes : WellFormed twoNodes where
  names := by decide
  ips := by decide
  dotless := by
    simp only [twoNodes, List.forall_mem_cons]
    exact ⟨by decide, by decide, fun _ h => absurd h List.not_mem_nil⟩
  star := by
    simp only [twoNodes, List.forall_mem_cons]
    exact ⟨by decide, by decide, fun _ h => absurd h List.not_mem_nil⟩

/-- The machine with the first address, and the one with the second. -/
def firstMachine : Machine := ⟨twoNodes, ⟨1, lit "10.0.0.1", by decide⟩⟩
def secondMachine : Machine := ⟨twoNodes, ⟨1, lit "10.0.0.2", by decide⟩⟩

/-- The first machine sends a command for the second one there, when it is connected. -/
theorem routed_first : ∃ active, Run firstMachine.step (fun _ _ => True) firstMachine.start [.connected 1] active ∧
    (Routed firstMachine 0 (lit "n2.ls") active
      (executeshell (firstMachine.setting fun _ _ => true) (lit "n2.ls") active) ↔
      Meets firstMachine 0 (lit "n2.ls") active) := by
  have hrun : Run firstMachine.step (fun _ _ => True) firstMachine.start [.connected 1]
      (Function.update firstMachine.start 1 true) := .snoc .nil trivial rfl
  exact ⟨_, hrun, routed_iff firstMachine wellFormed_twoNodes ⟨_, rfl, rfl⟩ hrun (by decide) _⟩

/-- The second one takes itself for the first. -/
theorem second_misrouted : ¬ ∀ (m : Machine) (own : ℕ) (line : CStr) (connects : ℕ → ℕ → Bool) (acts : List Act)
    (active : ℕ → Bool), WellFormed m.list → Own m own → Run m.step (fun _ _ => True) m.start acts active →
    bar ∉ line.bytes → Routed m own line active (executeshell (m.setting connects) line active) := by
  intro h
  have hrouted := h secondMachine 1 (lit "n2.ls") (fun _ _ => true) [] _ wellFormed_twoNodes ⟨_, rfl, rfl⟩ .nil (by decide)
  have hplace := hrouted.named 1 ⟨lit "n2", lit "10.0.0.2"⟩ (lit "ls") rfl (by decide)
  have hmeets := (named_iff wellFormed_twoNodes (by decide) rfl (by decide)).1 hplace
  exact absurd (hmeets.1.1 rfl) (by decide)

end NetProg.Cluster.Client
