import NetProg.NameServer.Loops

/-!
# Paths

`Resolve h enter p l q`: from the node `p` points to, the components `l` lead to `q`; a component that is a name leads
to the first child of that name, which `enter` must allow.  `Dest h p l d new`: a destination path leads to the
node `d`, or all but its last component do and that one is a new name.

The three path loops compute them: `cdWalk` enters directories only (`cdWalk_eq_some`), `walkSource` and
`walkDestination` step into any node (`walkSource_eq_some`, `walkDestination_eq_ok`).  Each is a `PathLoop`, and
`PathLoop.outcome` says what a run of one can come to.
-/

namespace NetProg.NameServer

open NetProg.Lib

/-- Where a path leads. -/
inductive Resolve (h : Heap) (enter : Node → Prop) : Ptr ℕ → List CStr → Ptr ℕ → Prop where
  | nil {p} : Resolve h enter p [] p
  | up {a n l q} : h[a]? = some n → Resolve h enter n.parent l q → Resolve h enter (.node a) (dotdot :: l) q
  | stay {p l q} : Resolve h enter p l q → Resolve h enter p (dot :: l) q
  | down {a n found b m l q} : found ≠ dotdot → found ≠ dot → h[a]? = some n → First h found n.child b →
      h[b]? = some m → enter m → Resolve h enter (.node b) l q → Resolve h enter (.node a) (found :: l) q

/-- Components that name directories, as `changeDirectory` enters them. -/
def isDirectory (n : Node) : Prop := n.type = .directory

/-- Components that name anything, as `movefile` and `copyfile` step into them. -/
def anyNode (_ : Node) : Prop := True

/-- Where a destination path leads: to `d`, with `new` the name that is missing there, if one is. -/
def Dest (h : Heap) (p : Ptr ℕ) (l : List CStr) (d : ℕ) : Option CStr → Prop
  | none => Resolve h anyNode p l (.node d)
  | some new => ∃ init n, l = init ++ [new] ∧ new ≠ dotdot ∧ new ≠ dot ∧ Resolve h anyNode p init (.node d) ∧
      h[d]? = some n ∧ Missing h new n.child

section

variable {h : Heap} {enter : Node → Prop} {p q r : Ptr ℕ} {l m : List CStr} {found : CStr} {a b : ℕ} {n : Node}

lemma dot_ne_dotdot : dot ≠ dotdot := by decide

theorem First.get (hf : First h found p b) : ∃ m, h[b]? = some m ∧ m.name = found := by
  obtain ⟨-, -, hn, -⟩ := hf
  exact field_eq_some.1 hn

theorem resolve_cons : Resolve h enter p (found :: l) q ↔
    (found = dotdot ∧ ∃ a n, p = .node a ∧ h[a]? = some n ∧ Resolve h enter n.parent l q) ∨
    (found = dot ∧ Resolve h enter p l q) ∨
    (found ≠ dotdot ∧ found ≠ dot ∧ ∃ a n b m, p = .node a ∧ h[a]? = some n ∧
      First h found n.child b ∧ h[b]? = some m ∧ enter m ∧ Resolve h enter (.node b) l q) := by
  constructor
  · intro hr
    cases hr with
    | up ha hr => exact Or.inl ⟨rfl, _, _, rfl, ha, hr⟩
    | stay hr => exact Or.inr (Or.inl ⟨rfl, hr⟩)
    | down h1 h2 ha hl hb he hr => exact Or.inr (Or.inr ⟨h1, h2, _, _, _, _, rfl, ha, hl, hb, he, hr⟩)
  · rintro (⟨rfl, a, n, rfl, ha, hr⟩ | ⟨rfl, hr⟩ | ⟨h1, h2, a, n, b, m, rfl, ha, hl, hb, he, hr⟩)
    · exact .up ha hr
    · exact .stay hr
    · exact .down h1 h2 ha hl hb he hr

/-- A path leads to one place. -/
theorem Resolve.unique : ∀ {l : List CStr} {p : Ptr ℕ}, Resolve h enter p l q → Resolve h enter p l r → q = r
  | [], _, h1, h2 => by cases h1; cases h2; rfl
  | found :: l, p, h1, h2 => by
    rcases resolve_cons.1 h1 with ⟨rfl, a, n, rfl, ha, k1⟩ | ⟨rfl, k1⟩ | ⟨hd, hs, a, n, b, m, rfl, ha, hl, -, -, k1⟩
    · rcases resolve_cons.1 h2 with ⟨-, a', n', e, ha', k2⟩ | ⟨e, -⟩ | ⟨e, -⟩
      · cases e; rw [ha] at ha'; cases ha'
        exact k1.unique k2
      · exact absurd e.symm dot_ne_dotdot
      · exact absurd rfl e
    · rcases resolve_cons.1 h2 with ⟨e, -⟩ | ⟨-, k2⟩ | ⟨-, e, -⟩
      · exact absurd e dot_ne_dotdot
      · exact k1.unique k2
      · exact absurd rfl e
    · rcases resolve_cons.1 h2 with ⟨e, -⟩ | ⟨e, -⟩ | ⟨-, -, a', n', b', m', e, ha', hl', -, -, k2⟩
      · exact absurd e hd
      · exact absurd e hs
      · cases e; rw [ha] at ha'; cases ha'
        rw [hl.unique hl'] at k1
        exact k1.unique k2

theorem resolve_append : ∀ {l : List CStr} {p : Ptr ℕ},
    Resolve h enter p (l ++ m) q ↔ ∃ r, Resolve h enter p l r ∧ Resolve h enter r m q
  | [], p => ⟨fun h => ⟨p, .nil, h⟩, fun ⟨r, h1, h2⟩ => by cases h1; exact h2⟩
  | found :: l, p => by
    rw [List.cons_append, resolve_cons]
    simp only [resolve_cons (l := l), resolve_append (l := l)]
    constructor
    · rintro (⟨e, a, n, hp, ha, r, h1, h2⟩ | ⟨e, r, h1, h2⟩ | ⟨e1, e2, a, n, b, k, hp, ha, hl, hb, he, r, h1, h2⟩)
      · exact ⟨r, Or.inl ⟨e, a, n, hp, ha, h1⟩, h2⟩
      · exact ⟨r, Or.inr (Or.inl ⟨e, h1⟩), h2⟩
      · exact ⟨r, Or.inr (Or.inr ⟨e1, e2, a, n, b, k, hp, ha, hl, hb, he, h1⟩), h2⟩
    · rintro ⟨r, (⟨e, a, n, hp, ha, h1⟩ | ⟨e, h1⟩ | ⟨e1, e2, a, n, b, k, hp, ha, hl, hb, he, h1⟩), h2⟩
      · exact Or.inl ⟨e, a, n, hp, ha, r, h1, h2⟩
      · exact Or.inr (Or.inl ⟨e, r, h1, h2⟩)
      · exact Or.inr (Or.inr ⟨e1, e2, a, n, b, k, hp, ha, hl, hb, he, r, h1, h2⟩)

/-- A path to a missing name leads nowhere. -/
theorem Missing.not_resolve {new : CStr} (hm : Missing h new n.child) (hd : new ≠ dotdot) (hs : new ≠ dot)
    (hr : Resolve h anyNode p l (.node a)) (ha : h[a]? = some n) : ¬ Resolve h anyNode p (l ++ [new]) q := by
  intro hq
  obtain ⟨r, h1, h2⟩ := resolve_append.1 hq
  cases hr.unique h1
  rcases resolve_cons.1 h2 with ⟨e, -⟩ | ⟨e, -⟩ | ⟨-, -, a', n', b, -, e, ha', hf, -⟩
  · exact hd e
  · exact hs e
  · cases e
    rw [ha] at ha'
    cases ha'
    exact hm.not_first hf

/-- A destination path leads to one node. -/
theorem Dest.unique {new new' : Option CStr} {d d' : ℕ} (h1 : Dest h p l d new) (h2 : Dest h p l d' new') : d = d' := by
  cases new with
  | none =>
    cases new' with
    | none => cases Resolve.unique h1 h2; rfl
    | some new' =>
      obtain ⟨init, n, rfl, hd, hs, hr, hn, hm⟩ := h2
      exact absurd h1 (hm.not_resolve hd hs hr hn)
  | some new =>
    obtain ⟨init, n, rfl, hd, hs, hr, hn, hm⟩ := h1
    cases new' with
    | none => exact absurd h2 (hm.not_resolve hd hs hr hn)
    | some new' =>
      obtain ⟨init', n', e, -, -, hr', -⟩ := h2
      obtain ⟨rfl, -⟩ := List.append_inj' e rfl
      cases hr.unique hr'
      rfl

/-- What holds at the start and is kept by parent links and by lookups holds where the path leads. -/
theorem Resolve.pres (I : Ptr ℕ → Prop) (hup : ∀ a n, I (.node a) → h[a]? = some n → I n.parent)
    (hdown : ∀ a n b m, I (.node a) → h[a]? = some n → (∃ found, First h found n.child b) → h[b]? = some m →
      enter m → I (.node b)) (hr : Resolve h enter p l q) (hp : I p) : I q := by
  induction hr with
  | nil => exact hp
  | up ha _ ih => exact ih (hup _ _ hp ha)
  | stay _ ih => exact ih hp
  | down _ _ ha hl hb he _ ih => exact ih (hdown _ _ _ _ hp ha ⟨_, hl⟩ hb he)

theorem Resolve.mono {enter' : Node → Prop} (he : ∀ n, enter n → enter' n) (hr : Resolve h enter p l q) :
    Resolve h enter' p l q := by
  induction hr with
  | nil => exact .nil
  | up ha _ ih => exact .up ha ih
  | stay _ ih => exact .stay ih
  | down hd hs ha hl hb hen _ ih => exact .down hd hs ha hl hb (he _ hen) ih

end

/-! ### The path loops -/

/-- What the three path loops have in common: they go up at `..` and stay at `.`; at a name they step into the first
child of that name, or come to an end with `stop` if there is none or `enter` bars it. -/
structure PathLoop {α : Type} (h : Heap) (enter : Node → Prop) (done : Ptr ℕ → α) (stop : CStr → List CStr → ℕ → α)
    (W : List CStr → Ptr ℕ → Except Fault α) : Prop where
  nil (p) : W [] p = .ok (done p)
  up {l a n} : h[a]? = some n → W (dotdot :: l) (.node a) = W l n.parent
  stay (l p) : W (dot :: l) p = W l p
  lost {found l p e} : found ≠ dot → deref h p = .error e → W (found :: l) p = .error e
  failed {found l a n e} : found ≠ dotdot → found ≠ dot → h[a]? = some n → lookup h found n.child = .error e →
    W (found :: l) (.node a) = .error e
  missing {found l a n} : found ≠ dotdot → found ≠ dot → h[a]? = some n → lookup h found n.child = .ok none →
    W (found :: l) (.node a) = .ok (stop found l a)
  down {found l a n b m} : found ≠ dotdot → found ≠ dot → h[a]? = some n → lookup h found n.child = .ok (some b) →
    h[b]? = some m → enter m → W (found :: l) (.node a) = W l (.node b)
  barred {found l a n b m} : found ≠ dotdot → found ≠ dot → h[a]? = some n → lookup h found n.child = .ok (some b) →
    h[b]? = some m → ¬ enter m → W (found :: l) (.node a) = .ok (stop found l a)

/-- Where a path loop cannot go on: at the component `found`, in the node `a`. -/
structure Blocked (h : Heap) (enter : Node → Prop) (p : Ptr ℕ) (init : List CStr) (found : CStr) (a : ℕ) : Prop where
  resolve : Resolve h enter p init (.node a)
  ne_dotdot : found ≠ dotdot
  ne_dot : found ≠ dot
  get : ∃ n, h[a]? = some n ∧ (Missing h found n.child ∨ ∃ b m, First h found n.child b ∧ h[b]? = some m ∧ ¬ enter m)

/-- Where a path loop stops the name server: at a pointer to no node, or in a lookup that fails. -/
def Broken (h : Heap) (enter : Node → Prop) (p : Ptr ℕ) (init : List CStr) (e : Fault) : Prop :=
  ∃ q, Resolve h enter p init q ∧
    (deref h q = .error e ∨ ∃ found a n, q = .node a ∧ h[a]? = some n ∧ lookup h found n.child = .error e)

/-- A path loop follows the path to its end, or up to a component at which it ends or stops the name server. -/
inductive PathLoop.Outcome {α : Type} (h : Heap) (enter : Node → Prop) (done : Ptr ℕ → α)
    (stop : CStr → List CStr → ℕ → α) (p : Ptr ℕ) : List CStr → Except Fault α → Prop where
  | ends {l q} : Resolve h enter p l q → Outcome h enter done stop p l (.ok (done q))
  | stops {l init found rest a} : l = init ++ found :: rest → Blocked h enter p init found a →
      Outcome h enter done stop p l (.ok (stop found rest a))
  | fails {l init rest e} : l = init ++ rest → Broken h enter p init e → Outcome h enter done stop p l (.error e)

section

variable {h : Heap} {enter : Node → Prop} {p q : Ptr ℕ} {l init : List CStr} {found new : CStr} {a : ℕ} {e : Fault}

theorem cdWalk_loop (h : Heap) : PathLoop h isDirectory some (fun _ _ _ => none) (cdWalk h) where
  nil _ := rfl
  up ha := by simp [cdWalk, deref_node h ha, bind, Except.bind]
  stay l p := by simp [cdWalk, dot_ne_dotdot]
  lost hs he := by simp [cdWalk, hs, he, bind, Except.bind]
  failed hd hs ha hl := by simp [cdWalk, hd, hs, deref_node h ha, hl, bind, Except.bind]
  missing hd hs ha hl := by simp [cdWalk, hd, hs, deref_node h ha, hl, bind, Except.bind]
  down hd hs ha hl hb he := by
    rw [isDirectory] at he
    simp [cdWalk, hd, hs, deref_node h ha, hl, deref_node h hb, he, bind, Except.bind]
  barred hd hs ha hl hb he := by
    rw [isDirectory] at he
    simp [cdWalk, hd, hs, deref_node h ha, hl, deref_node h hb, he, bind, Except.bind]

theorem walkSource_loop (h : Heap) : PathLoop h anyNode some (fun _ _ _ => none) (walkSource h) where
  nil _ := rfl
  up ha := by simp [walkSource, deref_node h ha, bind, Except.bind]
  stay l p := by simp [walkSource, dot_ne_dotdot]
  lost hs he := by simp [walkSource, hs, he, bind, Except.bind]
  failed hd hs ha hl := by simp [walkSource, hd, hs, deref_node h ha, hl, bind, Except.bind]
  missing hd hs ha hl := by simp [walkSource, hd, hs, deref_node h ha, hl, bind, Except.bind]
  down hd hs ha hl _ _ := by simp [walkSource, hd, hs, deref_node h ha, hl, bind, Except.bind]
  barred _ _ _ _ _ he := absurd trivial he

theorem walkDestination_loop (h : Heap) : PathLoop h anyNode (fun p => ⟨p, false, none⟩)
    (fun found rest a => if rest = [] then ⟨.node a, false, some found⟩ else ⟨.node a, true, none⟩)
    (walkDestination h) where
  nil _ := rfl
  up ha := by simp [walkDestination, deref_node h ha, bind, Except.bind]
  stay l p := by simp [walkDestination, dot_ne_dotdot]
  lost hs he := by simp [walkDestination, hs, he, bind, Except.bind]
  failed hd hs ha hl := by simp [walkDestination, hd, hs, deref_node h ha, hl, bind, Except.bind]
  missing hd hs ha hl := by simp [walkDestination, hd, hs, deref_node h ha, hl, bind, Except.bind]
  down hd hs ha hl _ _ := by simp [walkDestination, hd, hs, deref_node h ha, hl, bind, Except.bind]
  barred _ _ _ _ _ he := absurd trivial he

theorem Blocked.cons (hq : Blocked h enter q init new a)
    (hr : ∀ {l r}, Resolve h enter q l r → Resolve h enter p (found :: l) r) :
    Blocked h enter p (found :: init) new a :=
  ⟨hr hq.resolve, hq.ne_dotdot, hq.ne_dot, hq.get⟩

theorem Broken.cons (hq : Broken h enter q init e)
    (hr : ∀ {l r}, Resolve h enter q l r → Resolve h enter p (found :: l) r) : Broken h enter p (found :: init) e :=
  let ⟨r, h1, h2⟩ := hq
  ⟨r, hr h1, h2⟩

variable {α : Type} {done : Ptr ℕ → α} {stop : CStr → List CStr → ℕ → α} {W : List CStr → Ptr ℕ → Except Fault α}

theorem PathLoop.Outcome.cons {r : Except Fault α} (hq : Outcome h enter done stop q l r)
    (hr : ∀ {l r}, Resolve h enter q l r → Resolve h enter p (found :: l) r) :
    Outcome h enter done stop p (found :: l) r := by
  cases hq with
  | ends h1 => exact .ends (hr h1)
  | stops e h1 => exact .stops (congrArg (found :: ·) e) (h1.cons hr)
  | fails e h1 => exact .fails (congrArg (found :: ·) e) (h1.cons hr)

theorem PathLoop.outcome (hW : PathLoop h enter done stop W) : ∀ (l : List CStr) (p : Ptr ℕ),
    Outcome h enter done stop p l (W l p)
  | [], p => hW.nil p ▸ .ends .nil
  | found :: l, p => by
    by_cases hs : found = dot
    · subst hs
      rw [hW.stay]
      exact (hW.outcome l p).cons .stay
    cases hp : deref h p with
    | error e =>
      rw [hW.lost hs hp]
      exact .fails (List.nil_append _).symm ⟨p, .nil, Or.inl hp⟩
    | ok d =>
      obtain ⟨a, n⟩ := d
      obtain ⟨rfl, ha⟩ := deref_eq_ok.1 hp
      by_cases hd : found = dotdot
      · subst hd
        rw [hW.up ha]
        exact (hW.outcome l n.parent).cons (.up ha)
      cases hl : lookup h found n.child with
      | error e =>
        rw [hW.failed hd hs ha hl]
        exact .fails (List.nil_append _).symm ⟨.node a, .nil, Or.inr ⟨found, a, n, rfl, ha, hl⟩⟩
      | ok o =>
        cases o with
        | none =>
          rw [hW.missing hd hs ha hl]
          exact .stops (List.nil_append _).symm ⟨.nil, hd, hs, n, ha, Or.inl (lookup_eq_none hl)⟩
        | some b =>
          have hf := lookup_eq_some hl
          obtain ⟨m, hb, -⟩ := hf.get
          by_cases he : enter m
          · rw [hW.down hd hs ha hl hb he]
            exact (hW.outcome l (.node b)).cons (.down hd hs ha hf hb he)
          · rw [hW.barred hd hs ha hl hb he]
            exact .stops (List.nil_append _).symm ⟨.nil, hd, hs, n, ha, Or.inr ⟨b, m, hf, hb, he⟩⟩

theorem PathLoop.eq_some {W : List CStr → Ptr ℕ → Except Fault (Option (Ptr ℕ))}
    (hW : PathLoop h enter some (fun _ _ _ => none) W) (hw : W l p = .ok (some q)) : Resolve h enter p l q := by
  have ho := hW.outcome l p
  rw [hw] at ho
  cases ho with
  | ends hr => exact hr

theorem cdWalk_eq_some (hw : cdWalk h l p = .ok (some q)) : Resolve h isDirectory p l q :=
  (cdWalk_loop h).eq_some hw

theorem walkSource_eq_some (hw : walkSource h l p = .ok (some q)) : Resolve h anyNode p l q :=
  (walkSource_loop h).eq_some hw

/-- A path at which the source loop sets `flag` leads nowhere. -/
theorem walkSource_eq_none (hw : walkSource h l p = .ok none) : ¬ Resolve h anyNode p l q := by
  intro hr
  have ho := (walkSource_loop h).outcome l p
  rw [hw] at ho
  cases ho with
  | stops el hb =>
    obtain ⟨n, ha, hm | ⟨b, m, -, -, he⟩⟩ := hb.get
    · rw [el, List.append_cons, resolve_append] at hr
      obtain ⟨r, hr, -⟩ := hr
      exact hm.not_resolve hb.ne_dotdot hb.ne_dot hb.resolve ha hr
    · exact he trivial

/-- The loop over the destination ends where the path leads, unless it sets `flag`. -/
theorem walkDestination_eq_ok {dst : Destination} {d : ℕ} (hw : walkDestination h l p = .ok dst)
    (hf : dst.flag = false) (ht : dst.temp_cur2 = .node d) : Dest h p l d dst.found2 := by
  have ho := (walkDestination_loop h).outcome l p
  rw [hw] at ho
  cases ho with
  | ends hr =>
    cases ht
    exact hr
  | @stops init found rest a el hb =>
    by_cases hrest : rest = []
    · subst hrest
      cases ht
      obtain ⟨n, ha, hm | ⟨b, m, -, -, he⟩⟩ := hb.get
      · exact ⟨init, n, el, hb.ne_dotdot, hb.ne_dot, hb.resolve, ha, hm⟩
      · exact absurd trivial he
    · simp [hrest] at hf

end

end NetProg.NameServer
