import NetProg.NameServer.Failure

/-!
# Dereferences

`Safe s c`: the command `c` takes none of the ways to a null pointer or to one that was never assigned.  There are
three: a path that goes up from a node whose field `parent` leads nowhere (`home`, and every copy), a `cat`,
`frombigfs` or `rm` of a name that is missing, and a `mv` of a node without a parent, or whose parent has no child.

`server_safe`: in a run of safe commands no command dereferences such a pointer, and paths to what is missing are
answered (`Rejected`).
-/

namespace NetProg.NameServer

open NetProg.Lib

/-- Wherever the path goes up, the node it goes up from has a parent. -/
def Stays (h : Heap) (enter : Node → Prop) (p : Ptr ℕ) (l : List CStr) : Prop :=
  ∀ init rest a, l = init ++ dotdot :: rest → Resolve h enter p init (.node a) →
    ∃ b, field Node.parent h a = some (.node b)

/-- The command leads to no null pointer and to none that was never assigned. -/
def Safe (s : Mem) : Cmd → Prop
  | .cd dirname => Stays s.heap isDirectory s.cur (fields slash dirname)
  | .cat file | .frombigfs file => ∀ d l, s.cur = .node d → (links s.heap).Kids d l →
      ∃ a ∈ l, field Node.name s.heap a = some file ∧ field Node.type s.heap a = some .file
  | .rm file => ∀ d l, s.cur = .node d → (links s.heap).Kids d l →
      ∃ a ∈ l, field Node.name s.heap a = some file ∧ (field Node.type s.heap a = some .file ∨ l.head? = some a)
  | .mv source destination => Stays s.heap anyNode s.cur (fields slash source) ∧
      ∀ x, Resolve s.heap anyNode s.cur (fields slash source) (.node x) →
        (∃ par b, field Node.parent s.heap x = some (.node par) ∧ field Node.child s.heap par = some (.node b)) ∧
          ∀ h₁, Unlinked s.heap x h₁ → Stays h₁ anyNode s.cur (fields slash destination)
  | .cp source destination _ => Stays s.heap anyNode s.cur (fields slash source) ∧
      ∀ x, Resolve s.heap anyNode s.cur (fields slash source) (.node x) →
        Stays s.heap anyNode s.cur (fields slash destination)
  | _ => True

/-- The path comes to a name that is missing. -/
def Lost (h : Heap) (p : Ptr ℕ) (l : List CStr) : Prop :=
  ∃ init found rest a n, l = init ++ found :: rest ∧ found ≠ dotdot ∧ found ≠ dot ∧
    Resolve h anyNode p init (.node a) ∧ h[a]? = some n ∧ Missing h found n.child

/-- A destination path comes to a missing name before its end, or leads to a file. -/
def BadDest (h : Heap) (p : Ptr ℕ) (l : List CStr) : Prop :=
  (∃ init found rest a n, l = init ++ found :: rest ∧ rest ≠ [] ∧ found ≠ dotdot ∧ found ≠ dot ∧
    Resolve h anyNode p init (.node a) ∧ h[a]? = some n ∧ Missing h found n.child) ∨
    ∃ d new, Dest h p l d new ∧ field Node.type h d = some .file

/-- The command is given a path to what is missing, or to a file where it wants a directory. -/
def Rejected (s : Mem) : Cmd → Prop
  | .cd dirname => ∃ init found rest a n, fields slash dirname = init ++ found :: rest ∧ found ≠ dotdot ∧ found ≠ dot ∧
      Resolve s.heap isDirectory s.cur init (.node a) ∧ s.heap[a]? = some n ∧
      (Missing s.heap found n.child ∨ ∃ b, First s.heap found n.child b ∧ field Node.type s.heap b = some .file)
  | .mv source destination => Lost s.heap s.cur (fields slash source) ∨
      ∃ x h₁, Resolve s.heap anyNode s.cur (fields slash source) (.node x) ∧ Unlinked s.heap x h₁ ∧
        BadDest h₁ s.cur (fields slash destination)
  | .cp source destination _ => Lost s.heap s.cur (fields slash source) ∨
      ∃ x, Resolve s.heap anyNode s.cur (fields slash source) (.node x) ∧
        BadDest s.heap s.cur (fields slash destination)
  | _ => False

section

variable {s s' : Mem} {h h' : Heap} {a b d x : ℕ} {p q : Ptr ℕ} {l m : List ℕ} {n : Node} {c : Cmd} {out : List Byte}
  {e : Fault} {hit : Node → Bool} {enter : Node → Prop}

/-! ### The loops dereference nodes only -/

theorem Filled.get (ha : Filled h a) : ∃ n, h[a]? = some n ∧ n.child ≠ .unassigned := by
  obtain ⟨p, hp, hne⟩ := ha
  obtain ⟨n, hn, rfl⟩ := field_eq_some.1 hp
  exact ⟨n, hn, hne⟩

theorem Shaped.child_link (hs : Shaped h) (ha : h[a]? = some n) (hne : n.child ≠ .unassigned) : Link h n.child := by
  have hl := hs.links_child a
  rwa [links_child_of_get ha, Ptr.orNull_of_ne hne] at hl

theorem Shaped.next_link (hs : Shaped h) (ha : h[a]? = some n) : Link h n.next := hs.next (field_of_get ha)

theorem find_error (hs : Shaped h) : ∀ {fuel : ℕ} {p : Ptr ℕ}, Link h p → find h hit fuel p = .error e → e = .diverge
  | 0, _, _, hf => by cases hf; rfl
  | fuel + 1, p, hp, hf => by
    rcases hp with rfl | ⟨a, rfl, ha⟩
    · cases hf
    · obtain ⟨n, hn, -⟩ := ha.get
      rw [find_node hn] at hf
      split at hf
      · cases hf
      · exact find_error hs (hs.next_link hn) hf

theorem findLast_error (hs : Shaped h) : ∀ {fuel : ℕ} {a : ℕ}, Filled h a → findLast h fuel (.node a) = .error e →
    e = .diverge
  | 0, _, _, hf => by cases hf; rfl
  | fuel + 1, a, ha, hf => by
    obtain ⟨n, hn, -⟩ := ha.get
    simp only [findLast, deref_node h hn, except_bind_eq_error, reduceCtorEq, false_or, Except.ok.injEq,
      exists_eq_left'] at hf
    split at hf
    · cases hf
    · next hne =>
      rcases hs.next_link hn with h0 | ⟨b, hb, hfill⟩
      · exact absurd h0 hne
      · rw [hb] at hf
        exact findLast_error hs hfill hf

theorem attach_error (hs : Shaped h) (hd : Filled h d) (ha : attach h (.node d) x = .error e) : e = .diverge := by
  obtain ⟨n, hn, hne⟩ := hd.get
  simp only [attach, deref_node h hn, except_bind_eq_error, reduceCtorEq, false_or, Except.ok.injEq,
    exists_eq_left'] at ha
  split at ha
  · cases ha
  · next hnull =>
    simp only [except_bind_eq_error, reduceCtorEq, and_false, exists_false, or_false] at ha
    rcases hs.child_link hn hne with h0 | ⟨b, hb, hfill⟩
    · exact absurd h0 hnull
    · rw [hb] at ha
      exact findLast_error hs hfill ha

theorem CutLoop.error {β : Type} {hit : Node → Prop} {done : β} {found : ℕ → ℕ → Node → β}
    {F : ℕ → ℕ → Ptr ℕ → Except Fault β} (hF : CutLoop h hit done found F) (hs : Shaped h) :
    ∀ {fuel prev : ℕ} {temp : Ptr ℕ}, Link h temp → F fuel prev temp = .error e → e = .diverge
  | 0, _, _, _, hu => by
    rw [hF.out] at hu
    cases hu
    rfl
  | fuel + 1, prev, temp, hp, hu => by
    rcases hp with rfl | ⟨a, rfl, ha⟩
    · rw [hF.null] at hu
      cases hu
    · obtain ⟨n, hn, -⟩ := ha.get
      by_cases hhit : hit n
      · rw [hF.stops hn hhit] at hu
        cases hu
      · rw [hF.passes hn hhit] at hu
        exact hF.error hs (hs.next_link hn) hu

theorem unlink_error (hs : Shaped h) (hx : x < h.length) {par : ℕ} (hpar : field Node.parent h x = some (.node par))
    (hb : field Node.child h par = some (.node b)) (hu : unlink h x = .error e) : e = .diverge := by
  obtain ⟨xn, hxn⟩ := exists_get hx
  obtain ⟨pn, hpn, hc⟩ := field_eq_some.1 hb
  rw [field_of_get hxn, Option.some.injEq] at hpar
  have hfill := inside_node.1 (hc ▸ hs.child_inside hpn)
  obtain ⟨cn, hcn, -⟩ := hfill.get
  simp only [unlink, deref_node h hxn, hpar, deref_node h hpn, hc, deref_node h hcn, except_bind_eq_error, reduceCtorEq,
    false_or, Except.ok.injEq, exists_eq_left'] at hu
  split at hu
  · cases hu
  · exact (unlinkLoop_loop h x xn).error hs (link_node.2 hfill) hu

theorem removeChild_error (hs : Shaped h) (hd : Filled h d) {file : CStr}
    (hu : removeChild h (.node d) file = .error e) : e = .diverge := by
  obtain ⟨n, hn, hne⟩ := hd.get
  simp only [removeChild, deref_node h hn, except_bind_eq_error, reduceCtorEq, false_or, Except.ok.injEq,
    exists_eq_left'] at hu
  split at hu
  · cases hu
  · next hnull =>
    rcases hs.child_link hn hne with h0 | ⟨b, hb, hfill⟩
    · exact absurd h0 hnull
    · obtain ⟨m, hm, -⟩ := hfill.get
      simp only [hb, deref_node h hm, except_bind_eq_error, reduceCtorEq, false_or, Except.ok.injEq,
        exists_eq_left'] at hu
      split at hu
      · cases hu
      · exact (removeLoop_loop h file).error hs (link_node.2 hfill) hu

theorem listLoop_error (hs : Shaped s.heap) : ∀ {fuel : ℕ} {p : Ptr ℕ}, Link s.heap p →
    (listLoop s fuel p).Stops [] e → e = .diverge
  | 0, _, _, h => by simpa [listLoop, eq_comm] using h
  | fuel + 1, p, hp, h => by
    rcases hp with rfl | ⟨a, rfl, ha⟩
    · simp [listLoop] at h
    · obtain ⟨n, hn, -⟩ := ha.get
      simp only [listLoop, deref_node s.heap hn, Proc.attempt_ok, Proc.stops_write] at h
      exact listLoop_error hs (hs.next_link hn) h

/-! ### Paths that stay below the root -/

theorem Stays.tail {found : CStr} {l : List CStr} (hst : Stays h enter p (found :: l))
    (hr : ∀ {l r}, Resolve h enter q l r → Resolve h enter p (found :: l) r) : Stays h enter q l := by
  intro init rest a e hres
  exact hst (found :: init) rest a (by rw [e]; rfl) (hr hres)

theorem Stays.up {l : List CStr} (hs : Shaped h) (hst : Stays h enter (.node a) (dotdot :: l)) (ha : h[a]? = some n) :
    ∃ b, n.parent = .node b ∧ Filled h b := by
  obtain ⟨b, hb⟩ := hst [] l a rfl .nil
  rw [field_of_get ha, Option.some.injEq] at hb
  exact ⟨b, hb, (hs.parent (field_of_get ha) b hb).2⟩

/-- A path that stays below the root leads to a node. -/
theorem Stays.node (hs : Shaped h) : ∀ {l : List CStr} {a : ℕ}, Filled h a → Stays h enter (.node a) l →
    Resolve h enter (.node a) l q → ∃ b, q = .node b ∧ Filled h b
  | [], a, ha, _, hr => by
    cases hr
    exact ⟨a, rfl, ha⟩
  | found :: l, a, ha, hst, hr => by
    rcases resolve_cons.1 hr with ⟨rfl, _, n, e, hn, k⟩ | ⟨rfl, k⟩ | ⟨hd, hs', _, n, b, m, e, hn, hf, hb, he, k⟩
    · cases e
      obtain ⟨b, hb, hfill⟩ := hst.up hs hn
      rw [hb] at k
      exact Stays.node hs hfill (hst.tail fun hr => .up hn (hb ▸ hr)) k
    · exact Stays.node hs ha (hst.tail fun hr => .stay hr) k
    · cases e
      exact Stays.node hs (hs.first_filled hf (hs.child_inside hn)) (hst.tail fun hr => .down hd hs' hn hf hb he hr) k

theorem Stays.left {l rest : List CStr} (hst : Stays h enter p (l ++ rest)) : Stays h enter p l := by
  intro init rest' a e hr
  exact hst init (rest' ++ rest) a (by rw [e, List.append_assoc, List.cons_append]) hr

/-- Along a path that stays below the root, only a chain without end stops a path loop. -/
theorem PathLoop.error {α : Type} {done : Ptr ℕ → α} {stop : CStr → List CStr → ℕ → α}
    {W : List CStr → Ptr ℕ → Except Fault α} (hW : PathLoop h enter done stop W) (hs : Shaped h) {l : List CStr}
    (ha : Filled h a) (hst : Stays h enter (.node a) l) (hw : W l (.node a) = .error e) : e = .diverge := by
  have ho := hW.outcome l (.node a)
  rw [hw] at ho
  cases ho with
  | fails el hb =>
    subst el
    obtain ⟨q, hr, hq⟩ := hb
    obtain ⟨b, rfl, hfill⟩ := Stays.node hs ha hst.left hr
    obtain ⟨m, hm, hne⟩ := hfill.get
    rcases hq with hq | ⟨found, c, n, eq, hn, hl⟩
    · rw [deref_node h hm] at hq
      cases hq
    · cases eq
      rw [hm] at hn
      cases hn
      exact find_error hs (hs.child_link hm hne) hl

/-- Where the loop over the destination comes to an end, it holds a node. -/
theorem walkDestination_filled (hs : Shaped h) {dst : Destination} {l : List CStr} (ha : Filled h a)
    (hst : Stays h anyNode (.node a) l) (hw : walkDestination h l (.node a) = .ok dst) :
    ∃ d, dst.temp_cur2 = .node d ∧ Filled h d := by
  have ho := (walkDestination_loop h).outcome l (.node a)
  rw [hw] at ho
  cases ho with
  | ends hr => exact Stays.node hs ha hst hr
  | @stops init found rest b el hb =>
    subst el
    obtain ⟨c, e, hfill⟩ := Stays.node hs ha hst.left hb.resolve
    cases e
    exact ⟨b, by split <;> rfl, hfill⟩

/-! ### Paths to what is missing -/

theorem Lost.walkSource (hs : Shaped h) {l : List CStr} (hp : Inside h p) (hl : Lost h p l) :
    walkSource h l p = .ok none := by
  obtain ⟨init, found, rest, a, n, rfl, hd, hdot, hr, ha, hm⟩ := hl
  rw [(walkSource_loop h).append hs hp hr]
  exact (walkSource_loop h).missing hd hdot ha (hs.lookup_of_missing (hs.child_inside ha) hm)

theorem walkSource_of_resolve (hs : Shaped h) {l : List CStr} (hp : Inside h p) (hr : Resolve h anyNode p l q) :
    walkSource h l p = .ok (some q) := by
  have : walkSource h (l ++ []) p = walkSource h [] q := (walkSource_loop h).append hs hp hr
  rwa [List.append_nil] at this

theorem BadDest.walkDestination (hs : Shaped h) {l : List CStr} (hp : Inside h p) (hl : BadDest h p l) :
    ∃ dst d n, walkDestination h l p = .ok dst ∧ dst.temp_cur2 = .node d ∧ h[d]? = some n ∧
      (n.type = .file ∨ dst.flag = true) := by
  rcases hl with ⟨init, found, rest, a, n, rfl, hrest, hd, hdot, hr, ha, hm⟩ | ⟨d, new, hd, ht⟩
  · refine ⟨⟨.node a, true, none⟩, a, n, ?_, rfl, ha, Or.inr rfl⟩
    rw [(walkDestination_loop h).append hs hp hr,
      (walkDestination_loop h).missing hd hdot ha (hs.lookup_of_missing (hs.child_inside ha) hm), if_neg hrest]
  · obtain ⟨n, hn, ht⟩ := field_eq_some.1 ht
    cases new with
    | none =>
      refine ⟨⟨.node d, false, none⟩, d, n, ?_, rfl, hn, Or.inl ht⟩
      have : NameServer.walkDestination h (l ++ []) p = _ := (walkDestination_loop h).append hs hp hd
      rwa [List.append_nil] at this
    | some new =>
      obtain ⟨init, m, rfl, h1, h2, hr, hm, hmiss⟩ := hd
      refine ⟨⟨.node d, false, some new⟩, d, n, ?_, rfl, hn, Or.inl ht⟩
      rw [(walkDestination_loop h).append hs hp hr,
        (walkDestination_loop h).missing h1 h2 hm (hs.lookup_of_missing (hs.child_inside hm) hmiss), if_pos rfl]

/-- Where the parent has a child, `unlink` computes what `Unlinked` says. -/
theorem unlink_of_unlinked (hs : Shaped h) (hu : Unlinked h x h') {par : ℕ}
    (hpar : field Node.parent h x = some (.node par)) (hb : field Node.child h par = some (.node b)) :
    unlink h x = .ok h' := by
  cases hr : unlink h x with
  | ok h₂ => rw [(unlinked_of_unlink hr).unique hu]
  | error e =>
    cases unlink_error hs (lt_of_field hpar) hpar hb hr
    obtain ⟨pn, hpn, hc⟩ := field_eq_some.1 hb
    have hch : (links h).child par = .node b := by rw [links_child_of_get hpn, hc, Ptr.orNull_node]
    have hlen : ∀ {l q}, Seg (links h).next (.node b) l q → l.Nodup → l.length < rounds h := fun hl hnd =>
      Nat.lt_succ_of_le (length_le_of_nodup hnd fun a ha =>
        ((hs.seg_filled hl (hch ▸ hs.links_child par).inside).1 a ha).lt)
    -- the loop that does not end runs along the chain of the parent
    have hloop : ∀ xn, h[x]? = some xn → unlinkLoop h x xn (rounds h) b (.node b) = .error .diverge := by
      intro xn hxn
      rw [field_of_get hxn, Option.some.injEq] at hpar
      obtain ⟨cn, hcn, -⟩ := (inside_node.1 (hc ▸ hs.child_inside hpn)).get
      simp only [unlink, deref_node h hxn, hpar, deref_node h hpn, hc, deref_node h hcn, except_bind_eq_error,
        reduceCtorEq, false_or, Except.ok.injEq, exists_eq_left'] at hr
      split at hr
      · cases hr
      · exact hr
    exfalso
    cases hu with
    | @kept xn par' l hx hpar' hk hn =>
      rw [field_of_get hx, hpar'] at hpar
      cases hpar
      rw [Links.Kids, hch] at hk
      exact (unlinkLoop_loop h x xn).ne_diverge (.inl rfl) hk (hlen hk (Chain.nodup hk)) (hloop xn hx)
    | @cut xn par' l v hx hpar' hv hn hname =>
      rw [field_of_get hx, hpar'] at hpar
      cases hpar
      rw [hch] at hv
      have hlt := hlen hv (hv.nodup (hn.notMem hname))
      obtain ⟨vn, hvn, hvname⟩ := field_eq_some.1 hname
      exact (unlinkLoop_loop h x xn).ne_diverge (.inr ⟨v, vn, rfl, hvn, hvname⟩) hv hlt (hloop xn hx)

/-! ### The commands -/

variable {dirname source destination loc file filename no_of_chunks : CStr}

theorem makeDirectory_safe (hs : Typed s) (hd : s.cur = .node d) (h : (makeDirectory s).Stops [dirname] e) :
    e = .diverge ∨ e = .overflow := by
  simp only [makeDirectory, Proc.stops_read, Proc.stops_attempt, Proc.stops_ret, and_false, exists_false,
    or_false] at h
  rcases h with h | ⟨name, -, h⟩
  · exact Or.inr (strcpyName_error h)
  · rw [hd] at h
    exact Or.inl (attach_error (hs.heap.append rfl rfl hs.cur) ((extends_append _ _).filled (hs.cur d hd).2) h)

theorem changeDirectory_safe (hs : Typed s) (hd : s.cur = .node d) (hsafe : Safe s (.cd dirname))
    (h : (changeDirectory s).Stops [dirname] e) : e = .diverge := by
  simp only [changeDirectory, Proc.stops_read, Proc.stops_attempt] at h
  rcases h with h | ⟨o, -, h⟩
  · rw [Safe, hd] at hsafe
    rw [hd] at h
    exact (cdWalk_loop _).error hs.heap (hs.cur d hd).2 hsafe h
  · cases o <;> simp [reply] at h

theorem tobigfs_safe (hs : Typed s) (hd : s.cur = .node d)
    (h : (tobigfs s).Stops [filename, no_of_chunks, loc] e) : e = .diverge ∨ e = .overflow := by
  obtain ⟨n, hn, hne⟩ := (hs.cur d hd).2.get
  simp only [tobigfs, hd, deref_node s.heap hn, Proc.stops_read, Proc.attempt_ok, Proc.stops_attempt] at h
  rcases h with h | ⟨o, -, h⟩
  · exact Or.inl (find_error hs.heap (hs.heap.child_link hn hne) h)
  · cases o with
    | some a => simp [reply] at h
    | none =>
      simp only [reply, Proc.stops_write, Proc.stops_attempt, Proc.stops_read, Proc.stops_ret, and_false, exists_false,
        or_false] at h
      rcases h with h | ⟨name, -, h⟩
      · exact Or.inr (strcpyName_error h)
      · exact Or.inl (attach_error (hs.heap.append rfl rfl hs.cur) ((extends_append _ _).filled (hs.cur d hd).2) h)

theorem sendLocation_safe {k : Op} {ins : List CStr} (h : (sendLocation s n k).Stops ins e) :
    e = .overflow ∨ k.Stops ins e := by
  simp only [sendLocation, reply, Proc.stops_write, Proc.stops_attempt] at h
  rcases h with h | ⟨chunks, -, h⟩
  · exact Or.inl (sprintfChunks_error h)
  · exact Or.inr h

theorem sendFile_safe (hs : Typed s) (hd : s.cur = .node d) (hsafe : Safe s (.cat file))
    (h : (sendFile s).Stops [file] e) : e = .diverge ∨ e = .overflow := by
  obtain ⟨n, hn, hne⟩ := (hs.cur d hd).2.get
  simp only [sendFile, hd, deref_node s.heap hn, Proc.stops_read, Proc.attempt_ok, Proc.stops_attempt] at h
  rcases h with h | ⟨o, hl, h⟩
  · exact Or.inl (find_error hs.heap (hs.heap.child_link hn hne) h)
  · cases o with
    | none =>
      -- the chain holds a file of the name
      obtain ⟨l, hl, hno⟩ := find_eq_none hl
      obtain ⟨a, ha, hname, htype⟩ := hsafe d l hd (by rw [Links.Kids, links_child_of_get hn, hl.orNull]; exact hl)
      obtain ⟨m, hm, hhit⟩ := hno a ha
      rw [field_of_get hm, Option.some.injEq] at hname htype
      simp [hname, htype] at hhit
    | some a =>
      obtain ⟨l, m, -, hm, -⟩ := find_eq_some hl
      simp only [reply, Proc.stops_write, deref_node s.heap hm, Proc.attempt_ok] at h
      exact Or.inr ((sendLocation_safe h).resolve_right Proc.stops_ret)

theorem removefile_safe (hs : Typed s) (hd : s.cur = .node d) (hsafe : Safe s (.rm file))
    (h : (removefile s).Stops [file] e) : e = .diverge ∨ e = .overflow := by
  simp only [removefile, Proc.stops_read, Proc.stops_attempt] at h
  rcases h with h | ⟨o, hr, h⟩
  · rw [hd] at h
    exact Or.inl (removeChild_error hs.heap (hs.cur d hd).2 h)
  · obtain ⟨c, l, ec, -, hno, hhead, hcase⟩ := removeChild_eq_ok hr
    rcases hcase with ⟨hk, rfl⟩ | ⟨v, vn, -, hg, -, -, rfl⟩
    · obtain ⟨a, ha, hname, hor⟩ := hsafe c l ec hk
      rcases hor with htype | hfirst
      · obtain ⟨m, hm, hnot⟩ := hno a ha
        rw [field_of_get hm, Option.some.injEq] at hname htype
        exact absurd ⟨hname, htype⟩ hnot
      · obtain ⟨m, hm, hne⟩ := hhead a hfirst
        rw [field_of_get hm, Option.some.injEq] at hname
        exact absurd hname hne
    · obtain ⟨m, hm⟩ := exists_get (h := cut s.heap c l v vn.next) (a := v) (by simpa using lt_of_get hg)
      simp only [reply, Proc.stops_write, deref_node _ hm, Proc.attempt_ok] at h
      exact Or.inr ((sendLocation_safe h).resolve_right Proc.stops_ret)

/-- Where the source of a `mv` or `cp` can be walked to, only a node is dereferenced. -/
theorem source_stops (hs : Typed s) (hd : s.cur = .node d) (hst : Stays s.heap anyNode s.cur (fields slash source))
    {k : ℕ × Node → Op} {ins : List CStr}
    (h : (Proc.attempt s (walkSource s.heap (fields slash source) s.cur) fun
      | none => reply (lit "1") (.ret s)
      | some temp_cur => .attempt s (deref s.heap temp_cur) k : Op).Stops ins e) :
    e = .diverge ∨ ∃ x xn, Resolve s.heap anyNode s.cur (fields slash source) (.node x) ∧ s.heap[x]? = some xn ∧
      (k (x, xn)).Stops ins e := by
  have hfill := (hs.cur d hd).2
  rw [Proc.stops_attempt] at h
  rcases h with h | ⟨o, hw, h⟩
  · rw [hd] at h hst
    exact .inl ((walkSource_loop _).error hs.heap hfill hst h)
  · cases o with
    | none => simp [reply] at h
    | some temp_cur =>
      have hr := walkSource_eq_some hw
      obtain ⟨x, rfl, hx⟩ : ∃ x, temp_cur = .node x ∧ Filled s.heap x := by
        rw [hd] at hr hst
        exact hst.node hs.heap hfill hr
      obtain ⟨xn, hxn, -⟩ := hx.get
      simp only [deref_node s.heap hxn, Proc.attempt_ok] at h
      exact .inr ⟨x, xn, hr, hxn, h⟩

/-- Where their destination can be walked to, they go on at a directory. -/
theorem destination_stops {h₁ : Heap} {s₁ : Mem} (hs₁ : Shaped h₁) (hfill₁ : Filled h₁ d)
    (hst₁ : Stays h₁ anyNode (.node d) (fields slash destination)) {k : Destination → Op} {ins : List CStr}
    (h : (Proc.attempt s₁ (walkDestination h₁ (fields slash destination) (.node d)) fun dst =>
      .attempt s₁ (deref h₁ dst.temp_cur2) fun (_, n) =>
      if n.type = .file ∨ dst.flag then reply (lit "1") (.ret s₁) else k dst : Op).Stops ins e) :
    e = .diverge ∨ ∃ dst c, dst.temp_cur2 = .node c ∧ field Node.type h₁ c = some .directory ∧ Filled h₁ c ∧
      (k dst).Stops ins e := by
  rw [Proc.stops_attempt] at h
  rcases h with h | ⟨dst, hdst, h⟩
  · exact .inl ((walkDestination_loop _).error hs₁ hfill₁ hst₁ h)
  · obtain ⟨c, ec, hc⟩ := walkDestination_filled hs₁ hfill₁ hst₁ hdst
    obtain ⟨cn, hcn, -⟩ := hc.get
    simp only [ec, deref_node h₁ hcn, Proc.attempt_ok] at h
    split at h
    · simp [reply] at h
    · next hok =>
      exact .inr ⟨dst, c, ec, type_of_ne_file hcn (not_or.1 hok).1, hc, h⟩

theorem movefile_safe (hs : Typed s) (hd : s.cur = .node d) (hsafe : Safe s (.mv source destination))
    (h : (movefile s).Stops [source, destination] e) : e = .diverge ∨ e = .overflow := by
  obtain ⟨hst, hsrc⟩ := hsafe
  rw [movefile, Proc.stops_read, Proc.stops_read] at h
  rcases source_stops hs hd hst h with h | ⟨x, xn, hr, hxn, h⟩
  · exact .inl h
  obtain ⟨⟨par, b, hpar, hb⟩, hdst⟩ := hsrc x hr
  rw [Proc.stops_attempt] at h
  rcases h with h | ⟨h₁, hu, h⟩
  · exact .inl (unlink_error hs.heap (lt_of_get hxn) hpar hb h)
  have hu := unlinked_of_unlink hu
  have hs₁ := hu.shaped hs.heap
  have hst₁ := hdst h₁ hu
  rw [hd] at h hst₁
  rcases destination_stops hs₁ ((hu.extends hs.heap).filled (hs.cur d hd).2) hst₁ h with h | ⟨dst, c, ec, ht, hc, h⟩
  · exact .inl h
  rw [ec, Proc.stops_attempt] at h
  rcases h with h | ⟨h₃, -, h⟩
  · exact .inl (attach_error (hs₁.setParent (dirPtr_node.2 ⟨ht, hc⟩)) (extends_setParent.filled hc) h)
  · cases hf : dst.found2 with
    | none => simp [hf, reply] at h
    | some found2 =>
      simp only [hf, reply, Proc.stops_attempt, Proc.stops_write, Proc.stops_ret, and_false, exists_false,
        or_false] at h
      exact .inr (strcpyName_error h)

theorem copyfile_safe (hs : Typed s) (hd : s.cur = .node d) (hsafe : Safe s (.cp source destination loc))
    (h : (copyfile s).Stops [source, destination, loc] e) : e = .diverge ∨ e = .overflow := by
  obtain ⟨hst, hsrc⟩ := hsafe
  have hfill := (hs.cur d hd).2
  rw [copyfile, Proc.stops_read, Proc.stops_read] at h
  rcases source_stops hs hd hst h with h | ⟨x, xn, hr, hxn, h⟩
  · exact .inl h
  have hs₁ : Shaped (s.heap ++ [newCopy s xn]) := hs.heap.append rfl rfl (fun a e => by cases e)
  have hst₁ : Stays (s.heap ++ [newCopy s xn]) anyNode (.node d) (fields slash destination) := by
    intro init rest a ha hres
    have hin : Inside s.heap (.node d) := inside_node.2 hfill
    have hres := (hs.heap.resolve_append rfl hin).1 hres
    obtain ⟨b, hb⟩ := hsrc x hr init rest a ha (hd ▸ hres)
    exact ⟨b, by rwa [field_append_of_lt _ (lt_of_field hb)]⟩
  rw [hd] at h
  rcases destination_stops hs₁ ((extends_append s.heap (newCopy s xn)).filled hfill) hst₁ h with
    h | ⟨dst, c, ec, ht, hc, h⟩
  · exact .inl h
  rw [ec, Proc.stops_attempt] at h
  rcases h with h | ⟨h₃, -, h⟩
  · exact .inl (attach_error (hs₁.setParent (dirPtr_node.2 ⟨ht, hc⟩)) (extends_setParent.filled hc) h)
  rw [Proc.stops_attempt] at h
  rcases h with h | ⟨name, -, h⟩
  · cases hf : dst.found2 with
    | none => simp [hf] at h
    | some found2 => exact .inr (strcpyName_error (by simpa [hf] using h))
  · simp only [reply, Proc.stops_write] at h
    exact .inr ((sendLocation_safe h).resolve_right (by simp))

/-- A safe command dereferences no null pointer and none that was never assigned. -/
theorem exec_safe (hs : Typed s) (hd : s.cur = .node d) (hsafe : Safe s c)
    (h : (Proc.read () (dispatch s) : Op).Stops c.strings e) : e = .diverge ∨ e = .overflow := by
  cases c with
  | ls =>
    obtain ⟨n, hn, hne⟩ := (hs.cur d hd).2.get
    replace h : (listDirectory s).Stops [] e := h
    simp only [listDirectory, hd, deref_node s.heap hn, Proc.attempt_ok] at h
    exact Or.inl (listLoop_error hs.heap (hs.heap.child_link hn hne) h)
  | mkdir dirname => exact makeDirectory_safe hs hd h
  | cd dirname => exact Or.inl (changeDirectory_safe hs hd hsafe h)
  | tobigfs filename no_of_chunks loc => exact tobigfs_safe hs hd h
  | cat file => exact sendFile_safe hs hd hsafe h
  | frombigfs file => exact sendFile_safe hs hd hsafe h
  | rm file => exact removefile_safe hs hd hsafe h
  | mv source destination => exact movefile_safe hs hd hsafe h
  | cp source destination loc => exact copyfile_safe hs hd hsafe h

/-- A path to what is missing is answered with the failure reply, and the server goes on. -/
theorem exec_rejected (hs : Typed s) (hsafe : Safe s c) (hr : Rejected s c) :
    ∃ s', exec s c = ((lit "1").z, .done s') := by
  have hin := hs.cur.inside
  cases c with
  | ls => cases hr
  | mkdir => cases hr
  | tobigfs => cases hr
  | cat => cases hr
  | frombigfs => cases hr
  | rm => cases hr
  | cd dirname =>
    obtain ⟨init, found, rest, a, n, e, hd, hdot, hres, ha, hcase⟩ := hr
    refine ⟨s, step_cd_iff.2 (Or.inl ⟨?_, rfl, rfl⟩)⟩
    rw [e, (cdWalk_loop _).append hs.heap hin hres]
    rcases hcase with hm | ⟨b, hf, ht⟩
    · exact (cdWalk_loop _).missing hd hdot ha (hs.heap.lookup_of_missing (hs.heap.child_inside ha) hm)
    · obtain ⟨m, hm, htype⟩ := field_eq_some.1 ht
      exact (cdWalk_loop _).barred hd hdot ha (hs.heap.lookup_of_first (hs.heap.child_inside ha) hf) hm
        (by simp [isDirectory, htype])
  | mv source destination =>
    rcases hr with hl | ⟨x, h₁, hres, hu, hbad⟩
    · refine ⟨s, ?_⟩
      show (movefile s).Ends [source, destination] (lit "1").z s
      simp [movefile, reply, hl.walkSource hs.heap hin]
    · obtain ⟨⟨par, b, hpar, hb⟩, -⟩ := hsafe.2 x hres
      have hs₁ := hu.shaped hs.heap
      obtain ⟨xn, hxn⟩ := exists_get (lt_of_field hpar)
      obtain ⟨dst, d, n, hdst, ed, hd, hcase⟩ := hbad.walkDestination hs₁ (hs.cur.mono (hu.extends hs.heap)).inside
      refine ⟨{ s with heap := h₁ }, ?_⟩
      show (movefile s).Ends [source, destination] (lit "1").z _
      simp [movefile, reply, walkSource_of_resolve hs.heap hin hres, deref_node s.heap hxn,
        unlink_of_unlinked hs.heap hu hpar hb, hdst, ed, deref_node h₁ hd, hcase]
  | cp source destination loc =>
    rcases hr with hl | ⟨x, hres, hbad⟩
    · refine ⟨s, ?_⟩
      show (copyfile s).Ends [source, destination, loc] (lit "1").z s
      simp [copyfile, reply, hl.walkSource hs.heap hin]
    · obtain ⟨xn, hxn, -⟩ := (inside_node.1 (hs.heap.resolve_filled hres hin)).get
      have hs₁ : Shaped (s.heap ++ [newCopy s xn]) := hs.heap.append rfl rfl (fun a e => by cases e)
      have hbad₁ : BadDest (s.heap ++ [newCopy s xn]) s.cur (fields slash destination) := by
        refine hbad.imp ?_ ?_
        · rintro ⟨init, found, rest, a, n, e, hrest, hd, hdot, hr, ha, hm⟩
          exact ⟨init, found, rest, a, n, e, hrest, hd, hdot, (hs.heap.resolve_append rfl hin).2 hr,
            by rw [get_append_of_lt _ (lt_of_get ha), ha],
            (hs.heap.missing_append rfl (hs.heap.child_inside ha)).2 hm⟩
        · rintro ⟨d, new, hd, ht⟩
          exact ⟨d, new, (hs.heap.dest_append rfl hin).2 hd, by rw [field_append_of_lt _ (lt_of_field ht), ht]⟩
      obtain ⟨dst, d, n, hdst, ed, hd, hcase⟩ :=
        hbad₁.walkDestination hs₁ (hs.cur.mono (extends_append s.heap (newCopy s xn))).inside
      refine ⟨{ s with heap := s.heap ++ [newCopy s xn] }, ?_⟩
      show (copyfile s).Ends [source, destination, loc] (lit "1").z _
      simp [copyfile, reply, walkSource_of_resolve hs.heap hin hres, deref_node s.heap hxn, hdst, ed,
        deref_node _ hd, hcase]

/-- The current directory stays a node. -/
theorem cur_step (hs : Typed s) (hd : s.cur = .node d) (hsafe : Safe s c) (h : Step s c out s') :
    ∃ d', s'.cur = .node d' := by
  cases step_cases hs h with
  | @enter dirname q hr =>
    rw [Safe, hd] at hsafe
    rw [hd] at hr
    obtain ⟨b, hb, -⟩ := hsafe.node hs.heap (hs.cur d hd).2 hr
    exact ⟨b, hb⟩
  | _ => exact ⟨d, hd⟩

end

/-- **Dereferences.**  In a run of safe commands no safe command dereferences a null pointer or one that was never
assigned, and a path to what is missing is answered with the failure reply, after which the server goes on. -/
theorem server_safe {garbage : ℕ → Node} {cs : List Cmd} {s : Mem} {c : Cmd} (h : Run Safe (fresh garbage) cs s)
    (hc : Safe s c) : (exec s c).2.error ≠ some .null ∧ (exec s c).2.error ≠ some .unassigned ∧
      (Rejected s c → ∃ s', exec s c = ((lit "1").z, .done s')) := by
  obtain ⟨hs, d, hd⟩ := h.inv (fun s => Typed s ∧ ∃ d, s.cur = .node d) ⟨typed_fresh garbage, home, rfl⟩
    fun _ _ _ _ ⟨hs, d, hd⟩ hsafe hst => ⟨hs.step hst, cur_step hs hd hsafe hst⟩
  have key : ∀ e, (exec s c).2.error = some e → e = .diverge ∨ e = .overflow := fun e he =>
    exec_safe hs hd hc (Proc.error_feed.1 he)
  refine ⟨fun he => ?_, fun he => ?_, exec_rejected hs hc⟩
  · rcases key _ he with h | h <;> cases h
  · rcases key _ he with h | h <;> cases h

theorem server_safe_cd : ∃ s ∈ serve (fresh zeroed) [.mkdir (lit "a")],
    (exec s (.cd (lit "b"))).2.error ≠ some .null ∧ ∃ s', exec s (.cd (lit "b")) = ((lit "1").z, .done s') := by
  obtain ⟨s, hs, hcur, hc, hn, hname, hfields⟩ : ∃ s ∈ serve (fresh zeroed) [.mkdir (lit "a")], s.cur = .node home ∧
      field Node.child s.heap home = some (.node 1) ∧ (links s.heap).next 1 = .null ∧
      field Node.name s.heap 1 = some (lit "a") ∧ fields slash (lit "b") = [lit "b"] := by decide
  obtain ⟨n, hg, hch⟩ := field_eq_some.1 hc
  have hr : Run Safe (fresh zeroed) [.mkdir (lit "a")] s := Run.nil.serve (by simp [Safe]) hs
  have hsafe : Safe s (.cd (lit "b")) := by
    intro init rest a e
    rw [hfields] at e
    cases init with
    | nil => exact absurd (List.cons.inj e).1 (by decide)
    | cons f init =>
      have := (List.cons.inj e).2
      cases init <;> cases this
  have hrej : Rejected s (.cd (lit "b")) := by
    refine ⟨[], lit "b", [], home, n, hfields, by decide, by decide, hcur ▸ .nil, hg, Or.inl ⟨[1], ?_, ?_⟩⟩
    · rw [hch]; exact ⟨rfl, hn⟩
    · intro c hc
      rw [List.mem_singleton.1 hc]
      exact ⟨lit "a", hname, by decide⟩
  have h := server_safe hr hsafe
  exact ⟨s, hs, h.1, h.2.2 hrej⟩

/-- `cat z` with no `z` in the tree; and `cd ..` at the root is answered `0`, whereupon `ls` has no current directory. -/
theorem server_unsafe : (exec (fresh zeroed) (.cat (lit "z"))).1 = (lit "0").z ∧
    (exec (fresh zeroed) (.cat (lit "z"))).2.error = some .null ∧
    (exec (fresh zeroed) (.cd dotdot)).1 = (lit "0").z ∧
    ∃ s ∈ serve (fresh zeroed) [.cd dotdot], (exec s .ls).2.error = some .null := by decide

end NetProg.NameServer
