import NetProg.NameServer.Types

/-!
# What a rejected command leaves behind

`Kept s s'`: the current directory, the nodes reached from `home`, their fields and every child chain are as they were.
A command that answers with its failure reply keeps them (`failure_atomic`), but for `mv`: it unlinks the source before
it looks for the destination, so a `mv` with a bad destination keeps the tree only where unlinking changes nothing
(`UnlinkShows`).
-/

namespace NetProg.NameServer

open NetProg.Lib

/-- The current directory, the nodes reached from `home`, their fields and every child chain are the same. -/
structure Kept (s s' : Mem) : Prop where
  cur : s'.cur = s.cur
  reach : ∀ a, (links s.heap).Reach home a ↔ (links s'.heap).Reach home a
  chain : ∀ d < s.heap.length, ∀ l p,
    Seg (links s.heap).next ((links s.heap).child d) l p ↔ Seg (links s'.heap).next ((links s'.heap).child d) l p
  fields : ∀ a : ℕ, (links s.heap).Reach home a → s'.heap[a]? = s.heap[a]?

/-- The failure reply of a command that has one. -/
def failureReply : Cmd → Option (List Byte)
  | .cd _ => some (lit "1").z
  | .tobigfs .. => some (lit "1").z
  | .mv .. => some (lit "1").z
  | .cp .. => some (lit "1").z
  | .rm _ => some (lit "0").z
  | _ => none

/-- Unlinking `x` shows: along the chain of the directory its field `parent` points to, some node bears its name.  The
exception is that the first of them is the next of `x`, while `x` stands on no chain and is not reached from `home`:
then all that happens is that the field `next` of `x` is cleared. -/
def UnlinkShows (h : Heap) (x : ℕ) : Prop :=
  ∃ xn par v, h[x]? = some xn ∧ xn.parent = .node par ∧ First h xn.name ((links h).child par) v ∧
    ¬ (xn.next = .node v ∧ (∀ d m, ¬ Seg (links h).next ((links h).child d) m (.node x)) ∧ ¬ (links h).Reach home x)

section

variable {s s' : Mem} {h h' : Heap} {a b d v x : ℕ} {p : Ptr ℕ} {l m : List ℕ} {n xn : Node} {c : Cmd} {out : List Byte}
  {o : Outcome Fault Mem}

theorem Kept.refl (s : Mem) : Kept s s := ⟨rfl, fun _ => Iff.rfl, fun _ _ _ _ => Iff.rfl, fun _ _ => rfl⟩

/-! ### Assignments that change nothing -/

theorem get_of_child (hc : (links h).child d = .node v) : ∃ n, h[d]? = some n ∧ n.child = .node v := by
  cases hd : h[d]? with
  | none => simp [links_child, field, hd] at hc
  | some n =>
    rw [links_child_of_get hd] at hc
    refine ⟨n, rfl, ?_⟩
    cases e : n.child with
    | node b => rwa [e] at hc
    | null => rw [e] at hc; cases hc
    | unassigned => rw [e] at hc; cases hc

theorem get_of_next (hc : (links h).next a = .node v) : ∃ n, h[a]? = some n ∧ n.next = .node v := by
  cases ha : h[a]? with
  | none => simp [links_next, field, ha] at hc
  | some n => exact ⟨n, rfl, by rwa [links_next_of_get ha] at hc⟩

theorem modify_eq_self (g : Node → Node) (ha : h[a]? = some n) (hg : g n = n) : h.modify a g = h := by
  apply List.ext_getElem?
  intro i
  rw [List.getElem?_modify]
  by_cases hi : a = i
  · subst hi; simp [ha, hg]
  · simp [hi]

/-- The pointer behind the first nodes of a chain is assigned what it holds. -/
theorem setAfter_self (hl : Seg (links h).next ((links h).child d) l (.node v)) : setAfter h d l (.node v) = h := by
  rcases List.eq_nil_or_concat' l with rfl | ⟨l, a, rfl⟩
  · obtain ⟨n, hn, e⟩ := get_of_child hl
    exact modify_eq_self _ hn (by rw [← e])
  · rw [setAfter_concat]
    obtain ⟨r, -, hr⟩ := seg_append.1 hl
    obtain ⟨n, hn, e⟩ := get_of_next hr.2
    exact modify_eq_self _ hn (by rw [← e])

/-! ### Unlinking, seen from `home` -/

/-- The walk along the chain that `unlink` cuts arrives at what stood behind the source. -/
theorem seg_cut (hs : Shaped h) (hl : Seg (links h).next ((links h).child d) l (.node v)) (hv : v ∉ l) (hx : x ∉ l)
    (hd : d < h.length) (hxlt : x < h.length) (hp : Link h p) :
    Seg (links (cut h d l x p)).next ((links (cut h d l x p)).child d) l p := by
  have hnd := hl.nodup hv
  have hlt : ∀ a ∈ l, a < h.length := fun a ha => ((hs.seg_filled hl (hs.links_child d).inside).1 a ha).lt
  rw [links_cut hd hlt hxlt hp.ne_unassigned, Links.clear]
  refine (seg_update hx).2 ?_
  rcases List.eq_nil_or_concat' l with rfl | ⟨l, a, rfl⟩
  · simp
  · obtain ⟨r, h1, h2⟩ := seg_append.1 hl
    have ha : a ∉ l := fun ha => by
      have := List.disjoint_of_nodup_append hnd ha
      simp at this
    rw [Links.setAfter_concat]
    exact seg_append.2 ⟨r, (seg_update ha).2 h1, h2.1, by simp⟩

theorem next_cut (hx : x < h.length) : (links (cut h d l x p)).next x = .null := by
  rw [cut, links_setNext (by simpa using hx)]
  simp

/-- Clearing the link of a node on no chain, not reached from `home`. -/
theorem kept_clear (hoff : ∀ d m, ¬ Seg (links h).next ((links h).child d) m (.node x))
    (hx : ¬ (links h).Reach home x) (hxlt : x < h.length) (hh : s.heap = h) :
    Kept s { s with heap := setNext h x .null } := by
  subst hh
  have hlinks := links_setNext (p := .null) hxlt
  have hedge : ∀ {a b}, a ≠ x → ((links s.heap).Edge a b ↔ (links (setNext s.heap x .null)).Edge a b) := by
    intro a b ha
    rw [hlinks, Links.Edge, Links.Edge]
    simp [Function.update_of_ne ha]
  refine ⟨rfl, fun a => ⟨fun ha => ?_, fun ha => ?_⟩, fun d hd l p => ?_, fun a ha => ?_⟩
  · induction ha with
    | refl => exact .refl
    | tail h1 h2 ih => exact ih.tail ((hedge fun e => hx (e ▸ h1)).1 h2)
  · induction ha with
    | refl => exact .refl
    | tail _ h2 ih => exact ih.tail ((hedge fun e => hx (e ▸ ih)).2 h2)
  · rw [hlinks]
    by_cases hl : x ∈ l
    · obtain ⟨l₁, l₂, e, h1⟩ := List.eq_append_cons_of_mem hl
      subst e
      constructor
      · intro hseg
        obtain ⟨r, hr, hr'⟩ := seg_append.1 hseg
        rw [hr'.1] at hr
        exact absurd hr (hoff d l₁)
      · intro hseg
        obtain ⟨r, hr, hr'⟩ := seg_append.1 hseg
        rw [hr'.1] at hr
        exact absurd ((seg_update h1).1 hr) (hoff d l₁)
    · exact (seg_update hl).symm
  · have hne : x ≠ a := fun e => hx (e ▸ ha)
    simp [setNext, hne]

/-- Unlinking keeps the tree exactly where it does not show. -/
theorem kept_unlinked_iff (hs : Shaped s.heap) (hu : Unlinked s.heap x h') :
    Kept s { s with heap := h' } ↔ ¬ UnlinkShows s.heap x := by
  cases hu with
  | @kept xn par l hx hpar hk hn =>
    refine iff_of_true (.refl s) ?_
    rintro ⟨xn', par', v, hx', hpar', hv, -⟩
    rw [hx] at hx'
    cases hx'
    rw [hpar] at hpar'
    cases hpar'
    exact Missing.not_first ⟨l, hk, hn⟩ hv
  | @cut xn par l v hx hpar hv hn hname =>
    have hxlt := lt_of_get hx
    have hlink := hs.next (field_of_get (f := Node.next) hx)
    have hvl := hn.notMem hname
    have hxl := hn.notMem (field_of_get hx)
    have hplt : par < s.heap.length := (hs.parent (field_of_get hx) par hpar).2.lt
    have hcut := seg_cut hs hv hvl hxl hplt hxlt hlink
    constructor
    · rintro hK ⟨xn', par', v', hx', hpar', hv', hshow⟩
      rw [hx] at hx'
      cases hx'
      rw [hpar] at hpar'
      cases hpar'
      rw [First.unique hv' ⟨l, hv, hname, hn⟩] at hshow
      -- the chain of `par` is the same, so what stood behind `x` is the namesake itself
      have hnext : xn.next = .node v := hcut.end_unique ((hK.chain par hplt l (.node v)).1 hv)
      have hnx : (links s.heap).next x = .node v := by rw [links_next_of_get hx, hnext]
      refine hshow ⟨hnext, fun d m hm => ?_, fun hr => ?_⟩
      · have hd : d < s.heap.length := by
          by_contra hge
          have h0 : (links s.heap).child d = .null := by
            simp [links_child, field, List.getElem?_eq_none (Nat.le_of_not_lt hge)]
          rw [h0] at hm
          cases m with
          | nil => cases hm
          | cons y m => cases hm.1
        have hm' : Seg (links s.heap).next ((links s.heap).child d) (m ++ [x]) (.node v) :=
          seg_append.2 ⟨_, hm, rfl, hnx⟩
        obtain ⟨r, -, -, hr⟩ := seg_append.1 ((hK.chain d hd _ _).1 hm')
        rw [next_cut hxlt] at hr
        cases hr
      · have hf := hK.fields x hr
        have h0 := next_cut (h := s.heap) (d := par) (l := l) (p := xn.next) hxlt
        rw [links_next_of_get (hf.trans hx), hnext] at h0
        cases h0
    · intro hshow
      have hex : xn.next = .node v ∧ (∀ d m, ¬ Seg (links s.heap).next ((links s.heap).child d) m (.node x)) ∧
          ¬ (links s.heap).Reach home x := by
        by_contra hne
        exact hshow ⟨xn, par, v, hx, hpar, ⟨l, hv, hname, hn⟩, hne⟩
      obtain ⟨hnext, hoff, hreach⟩ := hex
      rw [cut, hnext, setAfter_self hv]
      exact kept_clear hoff hreach hxlt rfl

/-! ### The commands -/

variable {source destination loc dirname filename no_of_chunks file : CStr}

theorem Shaped.reach_filled (hs : Shaped h) (ha : (links h).Reach a b) (hf : Filled h a) : Filled h b := by
  induction ha with
  | refl => exact hf
  | @tail b c _ he ih =>
    rcases he with he | he
    · exact link_node.1 (he ▸ hs.links_child b)
    · exact link_node.1 (he ▸ hs.links_next b)

theorem kept_orphan (hs : Shaped s.heap) (h0 : Filled s.heap home) (xn : Node) :
    Kept s { s with heap := s.heap ++ [newCopy s xn] } := by
  have hlinks : links (s.heap ++ [newCopy s xn]) = links s.heap := links_append rfl rfl
  exact ⟨rfl, fun a => by rw [hlinks], fun d _ l p => by rw [hlinks], fun a ha =>
    get_append_of_lt _ (hs.reach_filled ha h0).lt⟩

theorem cd_failed (h : (changeDirectory s).Gives [dirname] (lit "1").z o) : o = .done s := by
  simp only [changeDirectory, Proc.gives_read, Proc.gives_attempt] at h
  rcases h with ⟨e, -, h0, -⟩ | ⟨r, -, h⟩
  · exact absurd h0 (by decide)
  · cases r with
    | none =>
      simp only [reply, Proc.gives_write, Proc.gives_ret] at h
      obtain ⟨-, -, -, rfl⟩ := h
      rfl
    | some q =>
      simp only [reply, Proc.gives_write, Proc.gives_ret] at h
      obtain ⟨o', h0, rfl, -⟩ := h
      exact absurd h0 (by decide)

theorem tobigfs_failed (h : (tobigfs s).Gives [filename, no_of_chunks, loc] (lit "1").z o) : o = .done s := by
  simp only [tobigfs, Proc.gives_read, Proc.gives_attempt] at h
  rcases h with ⟨e, -, h0, -⟩ | ⟨c, -, ⟨e, -, h0, -⟩ | ⟨r, -, h⟩⟩
  · exact absurd h0 (by decide)
  · exact absurd h0 (by decide)
  · cases r with
    | some a =>
      simp only [reply, Proc.gives_write, Proc.gives_ret] at h
      obtain ⟨-, -, -, rfl⟩ := h
      rfl
    | none =>
      simp only [reply, Proc.gives_write] at h
      obtain ⟨o', h0, -⟩ := h
      exact absurd (congrArg List.head? h0) (by simp [CStr.z]; decide)

theorem rm_failed (h : (removefile s).Gives [file] (lit "0").z o) : o = .stopped .null s := by
  simp only [removefile, Proc.gives_read, Proc.gives_attempt] at h
  rcases h with ⟨e, -, h0, -⟩ | ⟨r, -, h⟩
  · exact absurd h0 (by decide)
  · cases r with
    | none =>
      simp only [reply, Proc.gives_write, Proc.gives_halt] at h
      obtain ⟨-, -, -, rfl⟩ := h
      rfl
    | some r =>
      simp only [reply, Proc.gives_write] at h
      obtain ⟨o', h0, -⟩ := h
      exact absurd (congrArg List.head? h0) (by simp [CStr.z]; decide)

theorem mv_failed (h : (movefile s).Gives [source, destination] (lit "1").z o) :
    (walkSource s.heap (fields slash source) s.cur = .ok none ∧ o = .done s) ∨
      ∃ x h₁, Resolve s.heap anyNode s.cur (fields slash source) (.node x) ∧ Unlinked s.heap x h₁ ∧
        o = .done { s with heap := h₁ } := by
  have hne : (lit "1").z ≠ [] := by decide
  simp only [movefile, Proc.gives_read, Proc.gives_attempt, hne, false_and, and_false, exists_false, false_or] at h
  obtain ⟨r, hw, h⟩ := h
  cases r with
  | none =>
    simp only [reply, Proc.gives_write, Proc.gives_ret] at h
    obtain ⟨-, -, -, rfl⟩ := h
    exact Or.inl ⟨hw, rfl⟩
  | some temp_cur =>
    simp only [Proc.gives_attempt, hne, false_and, and_false, exists_false, false_or, deref_eq_ok, Prod.exists] at h
    obtain ⟨x, xn, ⟨rfl, -⟩, h₁, hu, dst, -, d, dn, -, h⟩ := h
    refine Or.inr ⟨x, h₁, walkSource_eq_some hw, unlinked_of_unlink hu, ?_⟩
    split at h
    · simp only [reply, Proc.gives_write, Proc.gives_ret] at h
      obtain ⟨-, -, -, rfl⟩ := h
      rfl
    · simp only [Proc.gives_attempt, hne, false_and, and_false, exists_false, false_or] at h
      obtain ⟨h₃, -, h⟩ := h
      cases hf : dst.found2 with
      | none =>
        simp only [hf, reply, Proc.gives_write, Proc.gives_ret] at h
        obtain ⟨o', h0, rfl, -⟩ := h
        exact absurd h0 (by decide)
      | some found2 =>
        simp only [hf, reply, Proc.gives_attempt, hne, false_and, and_false, exists_false, false_or, Proc.gives_write,
          Proc.gives_ret] at h
        obtain ⟨name, -, o', h0, rfl, -⟩ := h
        exact absurd h0 (by decide)

theorem cp_failed (h : (copyfile s).Gives [source, destination, loc] (lit "1").z o) :
    o = .done s ∨ ∃ xn, o = .done { s with heap := s.heap ++ [newCopy s xn] } := by
  have hne : (lit "1").z ≠ [] := by decide
  simp only [copyfile, Proc.gives_read, Proc.gives_attempt, hne, false_and, and_false, exists_false, false_or] at h
  obtain ⟨r, hw, h⟩ := h
  cases r with
  | none =>
    simp only [reply, Proc.gives_write, Proc.gives_ret] at h
    obtain ⟨-, -, -, rfl⟩ := h
    exact Or.inl rfl
  | some temp_cur =>
    simp only [Proc.gives_attempt, hne, false_and, and_false, exists_false, false_or, deref_eq_ok, Prod.exists] at h
    obtain ⟨x, xn, -, dst, -, d, dn, -, h⟩ := h
    split at h
    · simp only [reply, Proc.gives_write, Proc.gives_ret] at h
      obtain ⟨-, -, -, rfl⟩ := h
      exact Or.inr ⟨xn, rfl⟩
    · simp only [Proc.gives_attempt, hne, false_and, and_false, exists_false, false_or] at h
      obtain ⟨h₃, -, name, -, h⟩ := h
      simp only [reply, Proc.gives_write] at h
      obtain ⟨o', h0, -⟩ := h
      exact absurd (congrArg List.head? h0) (by simp [CStr.z]; decide)

end

/-- **Failure atomicity.**  A command that answers with its failure reply leaves the tree as it was, unless it is a `mv`
that has found its source and whose unlinking of it shows. -/
theorem failure_atomic {s s' : Mem} {c : Cmd} {out : List Byte} {o : Outcome Fault Mem} (hs : Reachable s)
    (hf : failureReply c = some out) (h : exec s c = (out, o)) (ho : o.left = some s') :
    Kept s s' ↔ ¬ ∃ source destination x, c = .mv source destination ∧
      Resolve s.heap anyNode s.cur (fields slash source) (.node x) ∧ UnlinkShows s.heap x := by
  have hshape := hs.typed.heap
  have hhome : Filled s.heap home := by
    obtain ⟨garbage, cs, hr⟩ := hs
    exact filled_home hr
  cases c with
  | ls => cases hf
  | mkdir => cases hf
  | cat => cases hf
  | frombigfs => cases hf
  | cd dirname =>
    cases hf
    cases cd_failed h
    cases ho
    exact iff_of_true (.refl s) (by simp)
  | tobigfs filename no_of_chunks loc =>
    cases hf
    cases tobigfs_failed h
    cases ho
    exact iff_of_true (.refl s) (by simp)
  | rm file =>
    cases hf
    cases rm_failed h
    cases ho
    exact iff_of_true (.refl s) (by simp)
  | cp source destination loc =>
    cases hf
    rcases cp_failed h with rfl | ⟨xn, rfl⟩
    · cases ho
      exact iff_of_true (.refl s) (by simp)
    · cases ho
      exact iff_of_true (kept_orphan hshape hhome xn) (by simp)
  | mv source destination =>
    cases hf
    rcases mv_failed h with ⟨hw, rfl⟩ | ⟨x, h₁, hr, hu, rfl⟩
    · cases ho
      refine iff_of_true (.refl s) ?_
      rintro ⟨source', destination', x, e, hr, -⟩
      cases e
      exact walkSource_eq_none hw hr
    · cases ho
      rw [kept_unlinked_iff hshape hu, not_iff_not]
      constructor
      · exact fun hsh => ⟨source, destination, x, rfl, hr, hsh⟩
      · rintro ⟨source', destination', y, e, hy, hsh⟩
        cases e
        cases hr.unique hy
        exact hsh

theorem failure_atomic_cp : ∃ s ∈ serve (fresh zeroed) [.mkdir (lit "a")],
    ∃ s' ∈ (exec s (.cp (lit "a") (lit "x/y") (lit "l"))).2.left, s'.heap.length = 3 ∧ Kept s s' := by
  obtain ⟨s, hs, hout, s', hs', hlen⟩ : ∃ s ∈ serve (fresh zeroed) [.mkdir (lit "a")],
      (exec s (.cp (lit "a") (lit "x/y") (lit "l"))).1 = (lit "1").z ∧
        ∃ s' ∈ (exec s (.cp (lit "a") (lit "x/y") (lit "l"))).2.left, s'.heap.length = 3 := by decide
  exact ⟨s, hs, s', hs', hlen,
    (failure_atomic (reachable_serve hs) (show failureReply _ = some (lit "1").z from rfl) (Prod.ext hout rfl) hs').2
      (by simp)⟩

/-- `mv a x/y` is rejected, and `a` is gone. -/
theorem failure_not_atomic : ∃ s s', Reachable s ∧ (exec s (.mv (lit "a") (lit "x/y"))).1 = (lit "1").z ∧
    (exec s (.mv (lit "a") (lit "x/y"))).2.left = some s' ∧ (links s.heap).Kids home [1] ∧ (links s'.heap).Kids home [] ∧
    ¬ Kept s s' := by
  obtain ⟨s, hs, hout, hk, s', hs', hk'⟩ : ∃ s ∈ serve (fresh zeroed) [.mkdir (lit "a")],
      (exec s (.mv (lit "a") (lit "x/y"))).1 = (lit "1").z ∧ (links s.heap).Kids home [1] ∧
        ∃ s' ∈ (exec s (.mv (lit "a") (lit "x/y"))).2.left, (links s'.heap).Kids home [] := by decide
  refine ⟨s, s', reachable_serve hs, hout, hs', hk, hk', fun hkept => ?_⟩
  have h0 : home < s.heap.length := lt_of_get (get_of_child hk.1).choose_spec.1
  have := ((hkept.chain home h0 [1] .null).1 hk).1
  rw [hk'] at this
  cases this

end NetProg.NameServer
