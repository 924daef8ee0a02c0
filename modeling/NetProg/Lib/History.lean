import NetProg.Lib.Star

/-!
# What the servers are told

`Traced S` is a state of a system together with the commands each server has read so far: a string that is read at the
head of a loop begins a command, and one that is read elsewhere belongs to the command in progress.  `tracedStep` is
`step` with this record; its actions commute as those of `step` do.
-/

namespace NetProg.Lib

/-- The commands read so far, once the string `m` has been read too. -/
def note (head : Bool) (m : CStr) (cs : List (List CStr)) : List (List CStr) :=
  if head then cs ++ [[m]] else cs.dropLast ++ [cs.getLastD [] ++ [m]]

/-- The program is at the head of its loop. -/
def Proc.atHead {ι ε R : Type} : Proc ι ε R → Bool
  | .ret _ => true
  | _ => false

namespace Star

variable {I J : Type}

/-- A state, and the commands that each server has read. -/
@[ext] structure Traced (S : Star I J) where
  now : S.State
  commands : I → List (List CStr)

variable {S : Star I J}

/-- The commands of the server `i` behind its next step. -/
def noted (x : S.State) (i : I) (cs : List (List CStr)) : List (List CStr) :=
  match (x.server i).enter (S.main i), readStr (x.sent i) with
  | .read _ _, some (m, _) => note (x.server i).atHead m cs
  | _, _ => cs

section Noted

variable {x : S.State} {i : I} {cs : List (List CStr)}

theorem noted_read {k : CStr → Proc Unit (S.ServerFault i) (S.ServerLabel i)} {m : CStr} {r : List Byte}
    (h : (x.server i).enter (S.main i) = .read () k) (hm : readStr (x.sent i) = some (m, r)) :
    noted x i cs = note (x.server i).atHead m cs := by
  rw [noted, h, hm]

theorem noted_write {b : List Byte} {k : Proc Unit (S.ServerFault i) (S.ServerLabel i)}
    (h : (x.server i).enter (S.main i) = .write () b k) : noted x i cs = cs := by
  rw [noted, h]

end Noted

variable [DecidableEq I]

/-- The commands of all servers behind a step. -/
def recorded (x : S.State) (l : I → List (List CStr)) : Option I → I → List (List CStr)
  | none => l
  | some i => Function.update l i (noted x i (l i))

/-- A step, put on record. -/
def tracedStep [DecidableEq J] (x : Traced S) (a : Option I) : Option (Traced S) :=
  (step x.now a).map fun y => ⟨y, recorded x.now x.commands a⟩

variable {x y : S.State} {i : I} {cs : List (List CStr)} {l : I → List (List CStr)} [DecidableEq J]

/-! ### The order of steps does not matter -/

section Steps

variable {a b : Option I} {s t : Traced S}

theorem tracedStep_eq_some : tracedStep s a = some t ↔
    step s.now a = some t.now ∧ t.commands = recorded s.now s.commands a := by
  unfold tracedStep
  rw [Option.map_eq_some_iff]
  constructor
  · rintro ⟨y, hy, rfl⟩
    exact ⟨hy, rfl⟩
  · rintro ⟨hy, ht⟩
    exact ⟨t.now, hy, Traced.ext rfl ht.symm⟩

theorem reaches_now (h : Reaches tracedStep s t) : Reaches step s.now t.now := by
  obtain ⟨n, h⟩ := h
  refine ⟨n, ?_⟩
  induction n generalizing s with
  | zero => exact congrArg Traced.now h
  | succ n ih =>
    obtain ⟨a, u, hu, h⟩ := h
    exact ⟨a, u.now, (tracedStep_eq_some.1 hu).1, ih h⟩

/-- The record ends where the system does. -/
theorem ended_tracedStep : Ended tracedStep s ↔ Ended step s.now := by
  simp [Ended, tracedStep]

/-- What a server is about to read is not changed by the step of another party. -/
theorem noted_step (ha : a ≠ some i) (hst : step x a = some y) (hi : (serverStep x i).isSome) :
    noted y i cs = noted x i cs := by
  obtain ⟨z, hz⟩ := Option.isSome_iff_exists.1 hi
  have hserver : y.server i = x.server i := by
    rcases a with _ | i'
    · rcases clientStep_cases hst with ⟨c, b, k, -, rfl⟩ | ⟨j, b, k, -, rfl⟩ | ⟨c, k, m, r, -, -, rfl⟩ |
        ⟨j, k, m, r, -, -, rfl⟩ <;> rfl
    · have hne : i ≠ i' := fun h => ha (congrArg some h.symm)
      rcases serverStep_cases hst with ⟨b, k, -, rfl⟩ | ⟨k, m, r, -, -, rfl⟩ <;> exact Function.update_of_ne hne _ _
  have hsent {m : CStr} {r : List Byte} (hm : readStr (x.sent i) = some (m, r)) :
      ∃ r', readStr (y.sent i) = some (m, r') := by
    rcases a with _ | i'
    · rcases clientStep_cases hst with ⟨c, b, k, -, rfl⟩ | ⟨j, b, k, -, rfl⟩ | ⟨c, k, m, q, -, -, rfl⟩ |
        ⟨j, k, m, q, -, -, rfl⟩
      · obtain ⟨r', h, -⟩ := read_enqueue hm c b
        exact ⟨r', h⟩
      · exact ⟨r, hm⟩
      · exact ⟨r, hm⟩
      · exact ⟨r, hm⟩
    · have hne : i ≠ i' := fun h => ha (congrArg some h.symm)
      rcases serverStep_cases hst with ⟨b, k, -, rfl⟩ | ⟨k, m', q, -, -, rfl⟩
      · exact ⟨r, hm⟩
      · exact ⟨r, by rw [← hm]; exact congrArg readStr (Function.update_of_ne hne _ _)⟩
  rcases serverStep_cases hz with ⟨b, k, e, -⟩ | ⟨k, m, r, e, hm, -⟩
  · rw [noted_write e, noted_write (by rw [hserver]; exact e)]
  · obtain ⟨r', hm'⟩ := hsent hm
    rw [noted_read e hm, noted_read (by rw [hserver]; exact e) hm', hserver]

/-- **The steps of two parties commute**, on the record too. -/
theorem tracedStep_comm : Commuting (tracedStep (S := S)) := by
  intro s a b t u hne ht hu
  obtain ⟨hta, ht⟩ := tracedStep_eq_some.1 ht
  obtain ⟨hub, hu⟩ := tracedStep_eq_some.1 hu
  obtain ⟨v, htv, huv⟩ := step_comm s.now a b _ _ hne hta hub
  refine ⟨⟨v, recorded t.now t.commands b⟩, tracedStep_eq_some.2 ⟨htv, rfl⟩, tracedStep_eq_some.2 ⟨huv, ?_⟩⟩
  rw [ht, hu]
  rcases a with _ | i
  · rcases b with _ | i'
    · exact absurd rfl hne
    · simp only [recorded, noted_step hne hta (Option.isSome_of_eq_some hub)]
  · rcases b with _ | i'
    · simp only [recorded, noted_step hne.symm hub (Option.isSome_of_eq_some hta)]
    · have hi : i ≠ i' := fun h => hne (congrArg some h)
      simp only [recorded, noted_step hne hta (Option.isSome_of_eq_some hub),
        noted_step hne.symm hub (Option.isSome_of_eq_some hta), Function.update_of_ne hi, Function.update_of_ne hi.symm]
      exact Function.update_comm hi _ _ _

end Steps

/-! ### What comes to be on record -/

theorem traced_single {a : Option I} (h : step x a = some y) : Reaches tracedStep ⟨x, l⟩ ⟨y, recorded x l a⟩ :=
  Reaches.single (tracedStep_eq_some.2 ⟨h, rfl⟩)

/-- What the client sends is not on record. -/
theorem traced_sends {b : List Byte} {k : Proc (I ⊕ J) S.Fault S.Label} (h : Sends S i x.client b k) :
    Reaches tracedStep ⟨x, l⟩ ⟨{ x with client := k, sent := enqueue x.sent i b }, l⟩ := by
  generalize hp : x.client = p at h
  induction h generalizing x with
  | rest =>
    subst hp
    simpa using Reaches.refl
  | @write _ b k _ _ e _ ih =>
    subst hp
    refine (traced_single (a := none) (clientStep_send e)).trans ?_
    simpa [recorded, enqueue_enqueue] using ih (x := { x with client := k, sent := enqueue x.sent i b }) rfl

/-- What a server deals with is on its own record only. -/
theorem traced_serves {p' : Proc Unit (S.ServerFault i) (S.ServerLabel i)} {out q' : List Byte}
    (h : Serves (S.main i) (x.server i) (x.sent i) out p' q') : ∃ cs, Reaches tracedStep ⟨x, l⟩ ⟨{ x with
      server := Function.update x.server i p'
      sent := Function.update x.sent i q'
      replies := enqueue x.replies i out }, Function.update l i cs⟩ := by
  generalize hp : x.server i = p at h
  generalize hq : x.sent i = q at h
  induction h generalizing x l with
  | rest =>
    subst hp hq
    exact ⟨l i, by simpa using Reaches.refl⟩
  | @write _ _ b k _ _ _ e _ ih =>
    subst hp hq
    obtain ⟨cs, hr⟩ := ih (x := { x with server := Function.update x.server i k, replies := enqueue x.replies i b })
      (l := recorded x l (some i)) (Function.update_self _ _ _) rfl
    refine ⟨cs, (traced_single (a := some i) (serverStep_write e)).trans ?_⟩
    simpa [recorded, enqueue_enqueue] using hr
  | @read _ _ k m r _ _ _ e hm _ ih =>
    subst hp hq
    obtain ⟨cs, hr⟩ := ih (x := { x with server := Function.update x.server i (k m), sent := Function.update x.sent i r })
      (l := recorded x l (some i)) (Function.update_self _ _ _) (Function.update_self _ _ _)
    refine ⟨cs, (traced_single (a := some i) (serverStep_read e hm)).trans ?_⟩
    simpa [recorded] using hr

theorem traced_rest {p : Proc Unit (S.ServerFault i) (S.ServerLabel i)} (hp : x.server i = p) (hq : x.sent i = []) :
    Reaches tracedStep ⟨x, l⟩ ⟨{ x with
      server := Function.update x.server i p
      sent := Function.update x.sent i []
      replies := enqueue x.replies i [] }, l⟩ := by
  subst hp
  have hsent : Function.update x.sent i [] = x.sent := by rw [← hq, Function.update_eq_self]
  rw [hsent, Function.update_eq_self, enqueue_nil]
  exact Reaches.refl

/-- The strings that a program reads before it is done belong to the command in progress. -/
theorem traced_run {p p' : Proc Unit (S.ServerFault i) (S.ServerLabel i)} {out : List Byte} {ins g : List CStr}
    (cs : List (List CStr)) (hp : x.server i = p) (hq : x.sent i = ins.flatMap CStr.z) (hrun : p.run ins = (out, p', [])) :
    Reaches tracedStep ⟨x, Function.update l i (cs ++ [g])⟩ ⟨{ x with
      server := Function.update x.server i p'
      sent := Function.update x.sent i []
      replies := enqueue x.replies i out }, Function.update l i (cs ++ [g ++ ins])⟩ := by
  induction p generalizing x ins g out with
  | ret r =>
    rw [Proc.run_ret] at hrun
    cases hrun
    rw [List.append_nil]
    exact traced_rest hp hq
  | halt e r =>
    rw [Proc.run_halt] at hrun
    cases hrun
    rw [List.append_nil]
    exact traced_rest hp hq
  | write u b k ih =>
    rw [Proc.run_write, Prod.mk.injEq] at hrun
    have e : (x.server i).enter (S.main i) = .write () b k := by rw [hp]; rfl
    have hr := ih (x := { x with server := Function.update x.server i k, replies := enqueue x.replies i b }) (g := g)
      (Function.update_self _ _ _) hq (Prod.ext rfl hrun.2)
    refine (traced_single (a := some i) (serverStep_write e)).trans ?_
    rw [← hrun.1]
    simpa [recorded, noted_write e, enqueue_enqueue] using hr
  | read u k ih =>
    cases ins with
    | nil =>
      cases hrun
      rw [List.append_nil]
      exact traced_rest hp hq
    | cons m ins =>
      have e : (x.server i).enter (S.main i) = .read () k := by rw [hp]; rfl
      have hm : readStr (x.sent i) = some (m, ins.flatMap CStr.z) := by
        rw [hq, List.flatMap_cons, readStr_z_append]
      have hr := ih m (x := { x with
        server := Function.update x.server i (k m)
        sent := Function.update x.sent i (ins.flatMap CStr.z) }) (g := g ++ [m]) (Function.update_self _ _ _)
        (Function.update_self _ _ _) hrun
      refine (traced_single (a := some i) (serverStep_read e hm)).trans ?_
      have hhead : (x.server i).atHead = false := by rw [hp]; rfl
      simpa [recorded, noted_read e hm, note, hhead] using hr

/-- **A command**: what a server reads from the head of its loop until it is back there. -/
theorem traced_command {r : S.ServerLabel i} {d : CStr → Proc Unit (S.ServerFault i) (S.ServerLabel i)}
    {p' : Proc Unit (S.ServerFault i) (S.ServerLabel i)} {out : List Byte} {m : CStr} {ins : List CStr}
    (hserver : x.server i = .ret r) (hmain : S.main i r = .read () d) (hq : x.sent i = (m :: ins).flatMap CStr.z)
    (hrun : (d m).run ins = (out, p', [])) : Reaches tracedStep ⟨x, l⟩ ⟨{ x with
      server := Function.update x.server i p'
      sent := Function.update x.sent i []
      replies := enqueue x.replies i out }, Function.update l i (l i ++ [m :: ins])⟩ := by
  have e : (x.server i).enter (S.main i) = .read () d := by rw [hserver, Proc.enter_ret, hmain]
  have hm : readStr (x.sent i) = some (m, ins.flatMap CStr.z) := by rw [hq, List.flatMap_cons, readStr_z_append]
  have hhead : (x.server i).atHead = true := by rw [hserver]; rfl
  have hr := traced_run (x := { x with
    server := Function.update x.server i (d m)
    sent := Function.update x.sent i (ins.flatMap CStr.z) }) (l := l) (g := [m]) (l i) (Function.update_self _ _ _)
    (Function.update_self _ _ _) hrun
  refine (traced_single (a := some i) (serverStep_read e hm)).trans ?_
  simpa [recorded, noted_read e hm, note, hhead] using hr

end Star

end NetProg.Lib
